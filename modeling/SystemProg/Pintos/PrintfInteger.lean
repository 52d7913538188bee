import Mathlib.Data.Nat.Digits.Lemmas
import SystemProg.Pintos.Printf

/-!
# Integer conversions of `printf`

A `Spec` is a conversion `%d`, `%i`, `%u`, `%o`, `%x` or `%X` with any flags but the grouping flag,
a width and a precision in digits or as `*`, and a length modifier. `Spec.text` is the format and
`Spec.args` are the arguments that it takes: the width and the precision where they are `*`, and the
value.

`Spec.output` is what C99 prescribes for it: a sign, a prefix and digits, padded to the width on the
right where the `-` flag is given or the width is negative, otherwise with zeros after the prefix
where the `0` flag is given and no precision, otherwise with spaces on the left.

* `integer_conversion_iff`: the output is that one, unless `*` takes a negative width for a
  conversion with the `0` flag. The width then sets the `-` flag after it has had its chance to
  cancel the `0` flag, and the output is padded on both sides.
-/

namespace SystemProg.Pintos.Printf

open Text List Option

/-! ## Conversions of integers -/

/-- A flag other than the grouping flag. -/
inductive Flag
  | minus
  | plus
  | space
  | pound
  | zero
  deriving DecidableEq

/-- Its character. -/
def Flag.char : Flag → Byte
  | minus => ch '-'
  | plus => ch '+'
  | space => ch ' '
  | pound => ch '#'
  | zero => ch '0'

/-- The number that digits stand for after those of `n`. -/
def numberFrom : Nat → List (Fin 10) → Nat
  | n, [] => n
  | n, d :: ds => numberFrom (n * 10 + d.val) ds

/-- The number of digits. -/
def number (ds : List (Fin 10)) : Nat := numberFrom 0 ds

/-- Digits as text. -/
def digitText (ds : List (Fin 10)) : List Byte := ds.map fun d => UInt8.ofNat (48 + d.val)

/-- A field width: digits, the first of which is not a zero since that would be a flag, or `*` with
its argument. -/
inductive Width
  | digits (ds : List (Fin 10)) (head : ds.head? ≠ some 0) (fits : number ds < 2 ^ 31)
  | star (w : Int) (lo : -2 ^ 31 < w) (hi : w < 2 ^ 31)

/-- Its value. -/
def Width.value : Width → Int
  | digits ds _ _ => number ds
  | star w _ _ => w

/-- Its text. -/
def Width.text : Width → List Byte
  | digits ds _ _ => digitText ds
  | star _ _ _ => [ch '*']

/-- Its argument. -/
def Width.words : Width → List (BitVec 32)
  | digits _ _ _ => []
  | star w _ _ => [BitVec.ofInt 32 w]

/-- A precision, of at most 63. -/
inductive Precision
  | absent
  | digits (ds : List (Fin 10)) (fits : number ds ≤ 63)
  | star (p : Int) (lo : -2 ^ 31 ≤ p) (hi : p ≤ 63)

/-- A negative precision is taken as if it were omitted. -/
def Precision.value : Precision → Option Nat
  | absent => none
  | digits ds _ => some (number ds)
  | star p _ _ => if p < 0 then none else some p.toNat

/-- The precision in a `struct printf_conversion`. -/
def Precision.asInt (p : Precision) : Int := p.value.elim (-1) fun p => (p : Int)

/-- Its text. -/
def Precision.text : Precision → List Byte
  | absent => []
  | digits ds _ => ch '.' :: digitText ds
  | star _ _ _ => [ch '.', ch '*']

/-- Its argument. -/
def Precision.words : Precision → List (BitVec 32)
  | absent => []
  | digits _ _ => []
  | star p _ _ => [BitVec.ofInt 32 p]

/-- The length modifier. -/
def ArgType.text : ArgType → List Byte
  | char => str "hh"
  | short => str "h"
  | int => []
  | intmax => str "j"
  | long => str "l"
  | longlong => str "ll"
  | ptrdifft => str "t"
  | sizet => str "z"

/-- The bits that count of an argument. -/
def ArgType.bits : ArgType → Nat
  | char => 8
  | short => 16
  | int | long | ptrdifft | sizet => 32
  | intmax | longlong => 64

/-- The words of an argument. -/
def ArgType.words (type : ArgType) (arg : BitVec 64) : List (BitVec 32) :=
  if type.bits = 64 then [arg.setWidth 32, (arg >>> 32).setWidth 32] else [arg.setWidth 32]

/-- A conversion specifier. -/
inductive Conv
  | d
  | i
  | u
  | o
  | x
  | X
  deriving DecidableEq

/-- Its character. -/
def Conv.char : Conv → Byte
  | d => ch 'd'
  | i => ch 'i'
  | u => ch 'u'
  | o => ch 'o'
  | x => ch 'x'
  | X => ch 'X'

/-- Whether the value is signed. -/
def Conv.signed : Conv → Bool
  | d | i => true
  | _ => false

/-- Its base. -/
def Conv.base : Conv → IntegerBase
  | d | i | u => baseD
  | o => baseO
  | x => baseX
  | X => baseX'

/-- A conversion specification. -/
structure Spec where
  flags : List Flag
  width : Width
  precision : Precision
  type : ArgType
  conv : Conv

namespace Spec

variable (s : Spec) (arg : BitVec 64)

/-- The format. -/
def text : List Byte :=
  ch '%' :: (s.flags.map Flag.char ++ (s.width.text ++ (s.precision.text ++ (s.type.text ++
    [s.conv.char]))))

/-- The arguments, and what follows them. -/
def args (rest : Args) : Args :=
  (s.width.words ++ (s.precision.words ++ s.type.words arg)) ++ₛ rest

/-! ## What C99 prescribes -/

/-- The value of the argument. -/
def value : Int :=
  if s.conv.signed then (arg.setWidth s.type.bits).toInt else (arg.setWidth s.type.bits).toNat

/-- The sign. -/
def sign : List Byte :=
  if s.conv.signed then
    if s.value arg < 0 then [ch '-']
    else if .plus ∈ s.flags then [ch '+']
    else if .space ∈ s.flags then [ch ' ']
    else []
  else []

/-- `0x` or `0X` before a nonzero value. -/
def basePrefix : List Byte :=
  if .pound ∈ s.flags ∧ s.value arg ≠ 0 then
    match s.conv with
    | .x => str "0x"
    | .X => str "0X"
    | _ => []
  else []

/-- The digits of the value, none of them for zero. -/
def ownDigits : List Byte :=
  ((Nat.digits s.conv.base.base (s.value arg).natAbs).map fun d =>
    s.conv.base.digits.getD d 0).reverse

/-- The least number of digits, which `#` raises for an octal conversion so that the first one is a
zero. -/
def leastDigits : Nat :=
  let p := s.precision.value.getD 1
  if .pound ∈ s.flags ∧ s.conv = .o then max p ((s.ownDigits arg).length + 1) else p

/-- The digits, filled up with zeros. -/
def allDigits : List Byte :=
  List.replicate (s.leastDigits arg - (s.ownDigits arg).length) (ch '0') ++ s.ownDigits arg

/-- The text without padding. -/
def body : List Byte := s.sign arg ++ s.basePrefix arg ++ s.allDigits arg

/-- The characters that the width asks for and the body does not fill. -/
def padding : Nat := s.width.value.natAbs - (s.body arg).length

/-- The output. -/
def output : List Byte :=
  if .minus ∈ s.flags ∨ s.width.value < 0 then
    s.body arg ++ List.replicate (s.padding arg) (ch ' ')
  else if .zero ∈ s.flags ∧ s.precision.value = none then
    s.sign arg ++ s.basePrefix arg ++ List.replicate (s.padding arg) (ch '0') ++ s.allDigits arg
  else List.replicate (s.padding arg) (ch ' ') ++ s.body arg

/-- The value of a digit in a base of up to 16. -/
def digitValue (c : Byte) : Nat :=
  if isdigit c then c.toNat - 48 else if ch 'a' ≤ c then c.toNat - 87 else c.toNat - 55

/-- Digits read back in a base. -/
def readBack (base : Nat) (ds : List Byte) : Nat := ds.foldl (fun n c => n * base + digitValue c) 0

/-- `out` is what C99 prescribes: the width filled on one side, and digits that read back as the
value. -/
structure Prescribed (out : List Byte) : Prop where
  output : out = s.output arg
  length : out.length = max s.width.value.natAbs (s.body arg).length
  digits : (s.allDigits arg).length = max (s.leastDigits arg) (s.ownDigits arg).length
  value : readBack s.conv.base.base (s.allDigits arg) = (s.value arg).natAbs

/-- The `0` flag stays set beside a `-` flag, and there is something to pad. -/
def PaddedTwice : Prop :=
  .zero ∈ s.flags ∧ .minus ∉ s.flags ∧ s.precision.value = none ∧ s.width.value < 0 ∧
    (s.body arg).length < s.width.value.natAbs

end Spec

/-! ## Parsing -/

/-- The flags `fs` on top of those that are set. -/
def withFlags (flags : Flags) (fs : List Flag) : Flags where
  minus := flags.minus || decide (.minus ∈ fs)
  plus := flags.plus || decide (.plus ∈ fs)
  space := flags.space || decide (.space ∈ fs)
  pound := flags.pound || decide (.pound ∈ fs)
  zero := flags.zero || decide (.zero ∈ fs)
  group := flags.group

theorem setFlag_char (flags : Flags) (f : Flag) :
    setFlag flags f.char = some (withFlags flags [f]) := by
  obtain ⟨m, p, s, d, z, g⟩ := flags
  cases f <;> simp [setFlag, Flag.char, withFlags]

theorem withFlags_cons (flags : Flags) (f : Flag) (fs : List Flag) :
    withFlags (withFlags flags [f]) fs = withFlags flags (f :: fs) := by
  simp only [withFlags, mem_cons, not_mem_nil, or_false, Bool.or_assoc, Bool.decide_or]

theorem parseFlags_append {l : List Byte} (hl : ∀ c, l.head? = some c → isFlag c = false)
    (fs : List Flag) (flags : Flags) :
    parseFlags flags (fs.map Flag.char ++ l) = (withFlags flags fs, l) := by
  induction fs generalizing flags with
  | nil =>
    have hnone : withFlags flags [] = flags := by simp [withFlags]
    rw [hnone, map_nil, nil_append]
    cases l with
    | nil => rfl
    | cons c l =>
      have hc : setFlag flags c = none := by
        rw [← isSome_eq_false_iff.trans isNone_iff_eq_none, setFlag_isSome]
        exact hl c rfl
      rw [parseFlags, hc]
  | cons f fs ih =>
    rw [map_cons, cons_append, parseFlags, setFlag_char]
    dsimp only
    rw [ih, withFlags_cons]

theorem le_numberFrom (n : Nat) (ds : List (Fin 10)) : n ≤ numberFrom n ds := by
  induction ds generalizing n with
  | nil => exact Nat.le_refl n
  | cons d ds ih => exact Nat.le_trans (by omega) (ih (n * 10 + d.val))

theorem wrap_eq {n : Int} (hlo : -2 ^ 31 ≤ n) (hhi : n < 2 ^ 31) : wrap n = n := by
  unfold wrap
  omega

theorem digitByte_isdigit : ∀ d : Fin 10, isdigit (UInt8.ofNat (48 + d.val)) = true ∧
    (UInt8.ofNat (48 + d.val)).toNat = 48 + d.val := by decide

theorem parseDigits_append {l : List Byte} (hl : ∀ c, l.head? = some c → isdigit c = false)
    (ds : List (Fin 10)) (n : Nat) (hfits : numberFrom n ds < 2 ^ 31) :
    parseDigits n (digitText ds ++ l) = ((numberFrom n ds : Int), l) := by
  induction ds generalizing n with
  | nil =>
    cases l with
    | nil => rfl
    | cons c l =>
      show parseDigits n (c :: l) = _
      rw [parseDigits, hl c rfl]
      rfl
  | cons d ds ih =>
    obtain ⟨hdigit, hvalue⟩ := digitByte_isdigit d
    have hle := le_numberFrom (n * 10 + d.val) ds
    rw [numberFrom] at hfits
    have hstep : wrap ((n : Int) * 10 + (UInt8.ofNat (48 + d.val)).toNat - 48) =
        (n * 10 + d.val : Nat) := by
      rw [hvalue, wrap_eq (by omega) (by omega)]
      omega
    show parseDigits n (UInt8.ofNat (48 + d.val) :: (digitText ds ++ l)) = _
    rw [parseDigits, if_pos hdigit, hstep, ih _ hfits]
    rfl

/-- What may follow a number: neither a digit nor a `*`. -/
def Stops (l : List Byte) : Prop := ∀ c, l.head? = some c → isdigit c = false ∧ c ≠ ch '*'

theorem parseNumber_digits {l : List Byte} (hl : Stops l) (ds : List (Fin 10))
    (hfits : number ds < 2 ^ 31) (args : Args) :
    parseNumber (digitText ds ++ l) args = ((number ds : Int), l, args) := by
  have hhead : (digitText ds ++ l).head? ≠ some (ch '*') := by
    cases ds with
    | nil => exact fun h => (hl _ h).2 rfl
    | cons d ds =>
      have hstar : ∀ d : Fin 10, some (UInt8.ofNat (48 + d.val)) ≠ some (ch '*') := by decide
      exact hstar d
  have hdigits := parseDigits_append (fun c hc => (hl c hc).1) ds 0 hfits
  rw [parseNumber, if_neg hhead]
  simp only [Nat.cast_zero] at hdigits
  rw [hdigits]
  rfl

theorem parseNumber_star (l : List Byte) {w : Int} (hlo : -2 ^ 31 ≤ w) (hhi : w < 2 ^ 31)
    (args : Args) :
    parseNumber (ch '*' :: l) (Stream'.cons (BitVec.ofInt 32 w) args) = (w, l, args) := by
  have hint : (BitVec.ofInt 32 w).toInt = w := BitVec.toInt_ofInt_eq_self (by decide) hlo hhi
  rw [parseNumber, head?_cons, if_pos rfl, Stream'.head_cons, hint]
  rfl

theorem Width.parse_eq (w : Width) {l : List Byte} (hl : Stops l) (args : Args) :
    parseNumber (w.text ++ l) (w.words ++ₛ args) = (w.value, l, args) := by
  cases w with
  | digits ds _ hfits => exact parseNumber_digits hl ds hfits args
  | star w hlo hhi => exact parseNumber_star l (by omega) hhi args

theorem Width.bounds (w : Width) : -2 ^ 31 < w.value ∧ w.value < 2 ^ 31 := by
  cases w with
  | digits ds _ hfits =>
    simp only [Width.value]
    omega
  | star w hlo hhi => exact ⟨hlo, hhi⟩

theorem Precision.asInt_nonneg_iff (p : Precision) : p.asInt ≥ 0 ↔ p.value.isSome := by
  unfold Precision.asInt
  cases p.value with
  | none => simp
  | some n => simp

theorem Precision.getD_le (p : Precision) : p.value.getD 1 ≤ 63 := by
  cases p with
  | absent => decide
  | digits ds hfits => exact hfits
  | star p hlo hhi =>
    simp only [Precision.value]
    split
    · decide
    · simp only [getD_some]
      omega

theorem Precision.parse_eq (p : Precision) {l : List Byte} (hl : Stops l)
    (hdot : l.head? ≠ some (ch '.')) (args : Args) :
    parsePrecision (p.text ++ l) (p.words ++ₛ args) =
      (p.asInt, l, args) := by
  cases p with
  | absent =>
    rw [parsePrecision, if_neg (show (Precision.absent.text ++ l).head? ≠ _ from hdot)]
    rfl
  | digits ds hfits =>
    have hnumber := parseNumber_digits hl ds (by omega) args
    show parsePrecision (ch '.' :: (digitText ds ++ l)) args = _
    rw [parsePrecision, head?_cons, if_pos rfl, tail_cons, hnumber]
    exact congrArg (·, l, args) (if_neg (by omega))
  | star p hlo hhi =>
    have hnumber := parseNumber_star l hlo (by omega) args
    show parsePrecision (ch '.' :: ch '*' :: l) (Stream'.cons (BitVec.ofInt 32 p) args) = _
    rw [parsePrecision, head?_cons, if_pos rfl, tail_cons, hnumber]
    by_cases hp : p < 0
    · simp [Precision.asInt, Precision.value, hp]
    · simp [Precision.asInt, Precision.value, hp]
      omega

theorem parseType_text (type : ArgType) (conv : Conv) :
    parseType (type.text ++ [conv.char]) = (type, [conv.char]) := by
  cases type <;> cases conv <;> rfl

theorem head_type_conv (type : ArgType) (conv : Conv) :
    ∀ c, (type.text ++ [conv.char]).head? = some c →
      isFlag c = false ∧ c ≠ ch '%' ∧ isdigit c = false ∧ c ≠ ch '*' ∧ c ≠ ch '.' := by
  intro c hc
  cases type <;> cases conv <;> cases hc <;> decide

namespace Spec

variable (s : Spec) (arg : BitVec 64)

theorem stops_type : Stops (s.type.text ++ [s.conv.char]) := fun c hc =>
  ⟨(head_type_conv _ _ c hc).2.2.1, (head_type_conv _ _ c hc).2.2.2.1⟩

theorem head_precision : ∀ c,
    (s.precision.text ++ (s.type.text ++ [s.conv.char])).head? = some c →
      isFlag c = false ∧ c ≠ ch '%' ∧ isdigit c = false ∧ c ≠ ch '*' := by
  intro c hc
  cases hp : s.precision with
  | absent =>
    rw [hp] at hc
    obtain ⟨hflag, hpercent, hdigit, hstar, -⟩ := head_type_conv _ _ c hc
    exact ⟨hflag, hpercent, hdigit, hstar⟩
  | digits ds hfits =>
    rw [hp] at hc
    cases hc
    decide
  | star p hlo hhi =>
    rw [hp] at hc
    cases hc
    decide

theorem head_width : ∀ c,
    (s.width.text ++ (s.precision.text ++ (s.type.text ++ [s.conv.char]))).head? = some c →
      isFlag c = false ∧ c ≠ ch '%' := by
  intro c hc
  cases hw : s.width with
  | digits ds hhead hfits =>
    rw [hw] at hc
    cases ds with
    | nil => exact ⟨(s.head_precision c hc).1, (s.head_precision c hc).2.1⟩
    | cons d ds =>
      cases hc
      have hdigit : ∀ d : Fin 10, d ≠ 0 → isFlag (UInt8.ofNat (48 + d.val)) = false ∧
        UInt8.ofNat (48 + d.val) ≠ ch '%' := by decide
      exact hdigit d fun h0 => hhead (congrArg some h0)
  | star w hlo hhi =>
    rw [hw] at hc
    cases hc
    decide

theorem head_flags :
    (s.flags.map Flag.char ++ (s.width.text ++ (s.precision.text ++ (s.type.text ++
      [s.conv.char])))).head? ≠ some (ch '%') := by
  cases s.flags with
  | nil => exact fun h => (s.head_width _ h).2 rfl
  | cons f fs => cases f <;> exact fun h => absurd (some.inj h) (by decide)

/-- The flags once the width and the precision are known. -/
def finalFlags : Flags where
  minus := decide (.minus ∈ s.flags) || decide (s.width.value < 0)
  plus := decide (.plus ∈ s.flags)
  space := decide (.space ∈ s.flags) && !decide (.plus ∈ s.flags)
  pound := decide (.pound ∈ s.flags)
  zero := decide (.zero ∈ s.flags) && !decide (.minus ∈ s.flags) && s.precision.value.isNone
  group := false

/-- **What `parse_conversion` reads.** -/
theorem parseConversion_eq (rest : Args) :
    parseConversion (s.flags.map Flag.char ++ (s.width.text ++ (s.precision.text ++ (s.type.text ++
        [s.conv.char])))) (s.args arg rest) =
      (⟨s.finalFlags, s.width.value.natAbs, s.precision.asInt, s.type⟩, [s.conv.char],
        s.type.words arg ++ₛ rest) := by
  have hflags := parseFlags_append (fun c hc => (s.head_width c hc).1) s.flags .none
  have hwidth := s.width.parse_eq (fun c hc => (s.head_precision c hc).2.2)
    (s.precision.words ++ₛ (s.type.words arg ++ₛ rest))
  have hprecision := s.precision.parse_eq s.stops_type
    (fun h => (head_type_conv _ _ _ h).2.2.2.2 rfl) (s.type.words arg ++ₛ rest)
  rw [args, Stream'.append_append_stream, Stream'.append_append_stream]
  simp only [parseConversion, hflags, hwidth, hprecision, parseType_text]
  have hcancel : cancelFlags (withFlags .none s.flags) =
      ⟨decide (.minus ∈ s.flags), decide (.plus ∈ s.flags),
        decide (.space ∈ s.flags) && !decide (.plus ∈ s.flags), decide (.pound ∈ s.flags),
        decide (.zero ∈ s.flags) && !decide (.minus ∈ s.flags), false⟩ := by
    unfold cancelFlags withFlags Flags.none
    by_cases hm : Flag.minus ∈ s.flags <;> by_cases hp : Flag.plus ∈ s.flags <;> simp [hm, hp]
  simp only [hcancel, s.precision.asInt_nonneg_iff]
  have hb := s.width.bounds
  by_cases hw : s.width.value < 0
  · have habs : wrap (-s.width.value) = s.width.value.natAbs := by
      rw [wrap_eq (by omega) (by omega)]
      omega
    simp only [if_pos hw, habs]
    cases hp : s.precision.value <;> simp [finalFlags, hp, hw]
  · have habs : (s.width.value.natAbs : Int) = s.width.value := by omega
    simp only [if_neg hw, habs]
    cases hp : s.precision.value <;> simp [finalFlags, hp, hw]

/-! ## The argument -/

theorem wide_eq {type : ArgType} (h : type.bits = 64) (rest : Args) :
    wide (type.words arg ++ₛ rest) = arg := by
  rw [ArgType.words, if_pos h]
  show (arg >>> 32).setWidth 32 ++ arg.setWidth 32 = arg
  apply BitVec.eq_of_toNat_eq
  have := arg.isLt
  rw [BitVec.toNat_append]
  simp only [BitVec.toNat_setWidth, BitVec.toNat_ushiftRight, Nat.shiftRight_eq_div_pow]
  rw [← Nat.shiftLeft_add_eq_or_of_lt (Nat.mod_lt _ (by decide)), Nat.shiftLeft_eq]
  omega

theorem setWidth_low {k : Nat} (hk : k ≤ 32) : (arg.setWidth 32).setWidth k = arg.setWidth k :=
  BitVec.setWidth_setWidth_of_le _ hk

theorem signedArg_eq (type : ArgType) (rest : Args) :
    signedArg type (type.words arg ++ₛ rest) = ((arg.setWidth type.bits).toInt, rest) := by
  cases type with
  | char => exact congrArg (fun v : BitVec 8 => (v.toInt, rest)) (setWidth_low arg (by decide))
  | short => exact congrArg (fun v : BitVec 16 => (v.toInt, rest)) (setWidth_low arg (by decide))
  | int => rfl
  | intmax =>
    exact congrArg (fun v : BitVec 64 => (v.toInt, rest)) ((wide_eq arg rfl rest).trans
      (BitVec.setWidth_eq arg).symm)
  | long => rfl
  | longlong =>
    exact congrArg (fun v : BitVec 64 => (v.toInt, rest)) ((wide_eq arg rfl rest).trans
      (BitVec.setWidth_eq arg).symm)
  | ptrdifft => rfl
  | sizet =>
    -- a size that is too large for its sign bit is a negative number
    have hsize : (if ((arg.setWidth 32).toNat : Int) > (2 ^ 32 - 1) / 2 then
        ((arg.setWidth 32).toNat : Int) - (2 ^ 32 - 1) - 1 else ((arg.setWidth 32).toNat : Int)) =
        (arg.setWidth 32).toInt := by
      rw [BitVec.toInt_eq_toNat_cond]
      split_ifs <;> omega
    exact congrArg (·, rest) hsize

theorem signExtend_and_mask (w : BitVec 32) :
    w.signExtend 64 &&& ((0x7fffffff : BitVec 64) <<< 1 ||| 1) = w.setWidth 64 := by
  have hmask : ((0x7fffffff : BitVec 64) <<< 1 ||| 1).toNat = 2 ^ 32 - 1 := by decide
  apply BitVec.eq_of_toNat_eq
  have := w.isLt
  rw [BitVec.toNat_and, hmask, Nat.and_two_pow_sub_one_eq_mod, BitVec.toNat_signExtend,
    BitVec.toNat_setWidth]
  split <;> omega

theorem unsignedArg_eq (type : ArgType) (rest : Args) :
    unsignedArg type (type.words arg ++ₛ rest) = ((arg.setWidth type.bits).setWidth 64, rest) := by
  cases type with
  | char =>
    exact congrArg (fun v : BitVec 8 => (v.setWidth 64, rest)) (setWidth_low arg (by decide))
  | short =>
    exact congrArg (fun v : BitVec 16 => (v.setWidth 64, rest)) (setWidth_low arg (by decide))
  | int => rfl
  | intmax =>
    exact congrArg (·, rest) ((wide_eq arg rfl rest).trans
      ((BitVec.setWidth_eq _).trans (BitVec.setWidth_eq arg)).symm)
  | long => rfl
  | longlong =>
    exact congrArg (·, rest) ((wide_eq arg rfl rest).trans
      ((BitVec.setWidth_eq _).trans (BitVec.setWidth_eq arg)).symm)
  | ptrdifft => exact congrArg (·, rest) (signExtend_and_mask (arg.setWidth 32))
  | sizet => rfl

/-! ## The digits -/

theorem base_gt_one (conv : Conv) : 1 < conv.base.base := by cases conv <;> decide

/-- The loop of `format_integer` without grouping. -/
theorem accumulate_eq (b : IntegerBase) (hb : 1 < b.base) (turns value cnt : Nat) (buf : List Byte)
    (h : value < b.base ^ turns) :
    accumulate b false turns value cnt buf =
      ((Nat.digits b.base value).map fun d => b.digits.getD d 0).reverse ++ buf := by
  induction turns generalizing value cnt buf with
  | zero =>
    obtain rfl : value = 0 := by simpa using h
    rw [accumulate, Nat.digits_zero]
    rfl
  | succ turns ih =>
    rw [accumulate]
    by_cases hv : value > 0
    · have hdiv : value / b.base < b.base ^ turns :=
        Nat.div_lt_of_lt_mul (by rwa [Nat.pow_succ, Nat.mul_comm] at h)
      rw [if_pos hv, Nat.digits_def' hb hv]
      simp only [Bool.false_and, Bool.false_eq_true, if_false]
      rw [ih _ _ _ hdiv, map_cons, reverse_cons, append_assoc]
      rfl
    · obtain rfl : value = 0 := by omega
      rw [if_neg hv, Nat.digits_zero]
      rfl

theorem value_natAbs_lt : (s.value arg).natAbs < 2 ^ 64 := by
  have hbits : s.type.bits ≤ 64 := by cases s.type <;> decide
  have hpow : 2 ^ s.type.bits ≤ 2 ^ 64 := Nat.pow_le_pow_right (by decide) hbits
  have hlt := (arg.setWidth s.type.bits).isLt
  unfold value
  split
  · rw [BitVec.toInt_eq_toNat_cond]
    split <;> omega
  · omega

theorem length_ownDigits_le : (s.ownDigits arg).length ≤ 64 := by
  rw [ownDigits, length_reverse, length_map, Nat.digits_length_le_iff (base_gt_one _)]
  refine Nat.lt_of_lt_of_le (s.value_natAbs_lt arg) ?_
  exact Nat.pow_le_pow_left (base_gt_one _) 64

theorem head_ownDigits (h : s.conv = .o) : (s.ownDigits arg).head? ≠ some (ch '0') := by
  rw [ownDigits, h, head?_reverse, getLast?_map]
  intro hlast
  obtain ⟨d, hd, hchar⟩ := map_eq_some_iff.mp hlast
  have hne : Nat.digits 8 (s.value arg).natAbs ≠ [] := by
    intro hnil
    rw [show Conv.o.base.base = 8 from rfl, hnil] at hd
    cases hd
  have hlt : d < 8 := Nat.digits_lt_base (by decide) (mem_of_getLast? hd)
  have hd0 : d ≠ 0 := by
    rw [show Conv.o.base.base = 8 from rfl, getLast?_eq_some_getLast hne] at hd
    rw [← some.inj hd]
    refine Nat.getLast_digit_ne_zero 8 fun h0 => hne ?_
    rw [h0, Nat.digits_zero]
  have hchars : ∀ d < 8, d ≠ 0 → Conv.o.base.digits.getD d 0 ≠ ch '0' := by decide
  exact hchars d hlt hd0 hchar

/-- **What is in the buffer**: all digits. -/
theorem buffer_eq :
    (let buf := fill (if s.precision.asInt < 0 then 1 else s.precision.asInt.toNat)
        (accumulate s.conv.base false 64 (s.value arg).natAbs 0 [])
      if decide (.pound ∈ s.flags) && s.conv.base.base == 8 && buf.head? != some (ch '0') then
        ch '0' :: buf else buf) = s.allDigits arg := by
  have hpow : (s.value arg).natAbs < s.conv.base.base ^ 64 :=
    Nat.lt_of_lt_of_le (s.value_natAbs_lt arg) (Nat.pow_le_pow_left (base_gt_one _) 64)
  have hacc := accumulate_eq s.conv.base (base_gt_one _) 64 (s.value arg).natAbs 0 [] hpow
  rw [append_nil] at hacc
  have hp : (if s.precision.asInt < 0 then 1 else s.precision.asInt.toNat) =
      s.precision.value.getD 1 := by
    unfold Precision.asInt
    cases s.precision.value with
    | none => rfl
    | some p => exact if_neg (by simp)
  have hfill : fill (s.precision.value.getD 1) (s.ownDigits arg) =
      List.replicate (s.precision.value.getD 1 - (s.ownDigits arg).length) (ch '0') ++
        s.ownDigits arg := by
    rw [fill, outputDup, Nat.min_eq_left s.precision.getD_le]
  dsimp only
  rw [hacc, hp, show ((Nat.digits s.conv.base.base (s.value arg).natAbs).map
    fun d => s.conv.base.digits.getD d 0).reverse = s.ownDigits arg from rfl, hfill, allDigits]
  by_cases hoct : .pound ∈ s.flags ∧ s.conv = .o
  · have hleast : s.leastDigits arg =
        max (s.precision.value.getD 1) ((s.ownDigits arg).length + 1) := if_pos hoct
    have hhead := s.head_ownDigits arg hoct.2
    have hbase : s.conv.base.base = 8 := by rw [hoct.2]; rfl
    rw [hleast]
    generalize s.precision.value.getD 1 = p
    by_cases hlen : (s.ownDigits arg).length < p
    · obtain ⟨k, hk⟩ : ∃ k, p - (s.ownDigits arg).length = k + 1 :=
        ⟨p - (s.ownDigits arg).length - 1, by omega⟩
      rw [Nat.max_eq_left (by omega), hk, replicate_succ, cons_append]
      simp
    · rw [show p - (s.ownDigits arg).length = 0 by omega, Nat.max_eq_right (by omega),
        Nat.add_sub_cancel_left]
      simpa [hoct.1, hbase] using hhead
  · have hleast : s.leastDigits arg = s.precision.value.getD 1 := if_neg hoct
    have hcond : (decide (.pound ∈ s.flags) && s.conv.base.base == 8) = false := by
      by_cases hpound : .pound ∈ s.flags
      · have hconv : s.conv ≠ .o := fun h => hoct ⟨hpound, h⟩
        cases hc : s.conv <;> simp_all [Conv.base, baseD, baseX, baseX']
      · simp [hpound]
    rw [hleast, hcond, Bool.false_and, if_neg (by simp)]

theorem length_allDigits :
    (s.allDigits arg).length = max (s.leastDigits arg) (s.ownDigits arg).length := by
  rw [allDigits, length_append, length_replicate]
  omega

theorem length_allDigits_le : (s.allDigits arg).length ≤ 65 := by
  have hown := s.length_ownDigits_le arg
  have hp := s.precision.getD_le
  rw [length_allDigits, leastDigits]
  split <;> omega

/-! ## The output -/

theorem signOf_eq :
    (signOf s.conv.signed (decide (s.value arg < 0)) s.finalFlags).toList = s.sign arg := by
  unfold signOf sign finalFlags
  by_cases hs : s.conv.signed = true
  · by_cases hv : s.value arg < 0 <;> by_cases hp : .plus ∈ s.flags <;>
      by_cases hsp : .space ∈ s.flags <;> simp [hs, hv, hp, hsp]
  · simp [hs]

/-- The `x` of the prefix. -/
def prefixChar : Option Byte :=
  if decide (.pound ∈ s.flags) && (s.value arg).natAbs != 0 then s.conv.base.x else none

theorem prefixChar_eq :
    xPrefix (s.prefixChar arg) = s.basePrefix arg := by
  unfold prefixChar basePrefix
  by_cases hp : .pound ∈ s.flags
  · by_cases hv : s.value arg = 0
    · simp [hp, hv, xPrefix]
    · simp only [hp, hv, decide_true, bne_iff_ne, ne_eq, Int.natAbs_eq_zero, not_false_eq_true,
        Bool.true_and, and_self, if_true]
      cases s.conv <;> rfl
  · simp [hp, xPrefix]

/-- The output of `format_integer`. -/
def actual : List Byte :=
  (if !s.finalFlags.minus && !s.finalFlags.zero then List.replicate (s.padding arg)
    (ch ' ') else []) ++
    s.sign arg ++ s.basePrefix arg ++
    (if s.finalFlags.zero then List.replicate (s.padding arg) (ch '0') else []) ++
      s.allDigits arg ++
    (if s.finalFlags.minus then List.replicate (s.padding arg) (ch ' ') else [])

theorem formatInteger_eq :
    formatInteger (s.value arg).natAbs s.conv.signed (decide (s.value arg < 0)) s.conv.base
      ⟨s.finalFlags, s.width.value.natAbs, s.precision.asInt, s.type⟩ = s.actual arg := by
  have hbuf := s.buffer_eq arg
  have hsign := s.signOf_eq arg
  have hprefix := s.prefixChar_eq arg
  have hpad : (wrap ((s.width.value.natAbs : Int) - (s.allDigits arg).length -
      (if (s.prefixChar arg).isSome then 2 else 0) -
      (if (signOf s.conv.signed (decide (s.value arg < 0)) s.finalFlags).isSome then 1
      else 0))).toNat =
      s.padding arg := by
    have hlen := s.length_allDigits_le arg
    have hb := s.width.bounds
    have hs : (s.sign arg).length =
        if (signOf s.conv.signed (decide (s.value arg < 0)) s.finalFlags).isSome then 1 else 0 := by
      rw [← hsign]
      cases signOf s.conv.signed (decide (s.value arg < 0)) s.finalFlags <;> rfl
    have hx : (s.basePrefix arg).length = if (s.prefixChar arg).isSome then 2 else 0 := by
      rw [← hprefix]
      cases s.prefixChar arg <;> rfl
    have hbody : (s.body arg).length =
        (s.sign arg).length + (s.basePrefix arg).length + (s.allDigits arg).length := by
      rw [body, length_append, length_append]
    rw [padding, hbody, hs, hx]
    split <;> split <;> rw [wrap_eq (by omega) (by omega)] <;> omega
  unfold prefixChar at hprefix hpad
  dsimp only at hbuf
  simp only [formatInteger, actual]
  rw [show s.finalFlags.group = false from rfl, show s.finalFlags.pound = decide (.pound ∈ s.flags)
    from rfl, hbuf, hpad, hsign, hprefix]
  rfl

theorem magnitude_eq : magnitude (s.value arg) = (s.value arg).natAbs := by
  have hlt := s.value_natAbs_lt arg
  unfold magnitude
  split <;> omega

theorem convert_eq (printf : List Byte → Args → Except Stop (List Byte))
    (string : BitVec 32 → List Byte) (rest : Args) :
    convert printf string ⟨s.finalFlags, s.width.value.natAbs, s.precision.asInt, s.type⟩
        s.conv.char (s.type.words arg ++ₛ rest) = .ok (s.actual arg, rest) := by
  have hmagnitude := s.magnitude_eq arg
  have hformat := s.formatInteger_eq arg
  unfold convert
  cases hs : s.conv.signed with
  | true =>
    have hvalue : s.value arg = (arg.setWidth s.type.bits).toInt := by rw [value, hs, if_pos rfl]
    have hchar : s.conv.char = ch 'd' ∨ s.conv.char = ch 'i' := by
      revert hs
      cases s.conv <;> decide
    have hbase : s.conv.base = baseD := by
      revert hs
      cases s.conv <;> first | exact fun _ => rfl | exact fun h => absurd h (by decide)
    rw [hvalue] at hmagnitude hformat
    rw [hs, hbase, ← hmagnitude] at hformat
    rw [if_pos hchar, signedArg_eq]
    exact congrArg (fun out => Except.ok (out, rest)) hformat
  | false =>
    have hvalue : s.value arg = (arg.setWidth s.type.bits).toNat := by
      rw [value, hs, if_neg (by decide)]
    have hchar : ¬(s.conv.char = ch 'd' ∨ s.conv.char = ch 'i') := by
      revert hs
      cases s.conv <;> decide
    have hchars : s.conv.char = ch 'o' ∨ s.conv.char = ch 'u' ∨ s.conv.char = ch 'x' ∨
        s.conv.char = ch 'X' := by
      revert hs
      cases s.conv <;> decide
    have hbase : (if s.conv.char = ch 'o' then baseO else if s.conv.char = ch 'u' then baseD
        else if s.conv.char = ch 'x' then baseX else baseX') = s.conv.base := by
      revert hs
      cases s.conv <;> first | exact fun _ => rfl | exact fun h => absurd h (by decide)
    have hnat : ((arg.setWidth s.type.bits).setWidth 64).toNat = (s.value arg).natAbs := by
      have hbits : s.type.bits ≤ 64 := by cases s.type <;> decide
      rw [BitVec.toNat_setWidth_of_le hbits, hvalue, Int.natAbs_natCast]
    have hneg : decide (s.value arg < 0) = false := by
      rw [hvalue]
      exact decide_eq_false (by omega)
    rw [hs, hneg] at hformat
    rw [if_neg hchar, if_pos hchars, unsignedArg_eq]
    simp only [hbase, hnat, hformat]

/-- **The output of `printf`.** -/
theorem vprintf_eq (string : BitVec 32 → List Byte) (turns : Nat) (rest : Args) :
    vprintf string (turns + 2) s.text (s.args arg rest) = .ok (s.actual arg) := by
  rw [text, vprintf, if_neg (fun h => h rfl), if_neg s.head_flags, s.parseConversion_eq arg rest]
  simp only [headD_cons, s.convert_eq arg]
  show (do let rest ← vprintf string (turns + 1) [] rest; .ok (s.actual arg ++ rest)) = _
  rw [vprintf]
  exact congrArg Except.ok (append_nil _)

/-! ## The output and the prescribed one -/

theorem length_body_zero (n : Nat) :
    (s.sign arg ++ s.basePrefix arg ++ List.replicate n (ch '0') ++ s.allDigits arg).length =
      (s.body arg).length + n := by
  simp only [body, length_append, length_replicate]
  omega

theorem length_output :
    (s.output arg).length = max s.width.value.natAbs (s.body arg).length := by
  have hpad : (s.body arg).length + s.padding arg =
      max s.width.value.natAbs (s.body arg).length := by
    unfold padding
    omega
  rw [← hpad, output]
  split
  · rw [length_append, length_replicate]
  split
  · exact s.length_body_zero arg _
  · rw [length_append, length_replicate, Nat.add_comm]

theorem actual_eq_output (h : ¬s.PaddedTwice arg) : s.actual arg = s.output arg := by
  unfold actual output body
  by_cases hminus : .minus ∈ s.flags
  · simp [finalFlags, hminus]
  by_cases hzero : .zero ∈ s.flags ∧ s.precision.value = none
  · by_cases hw : s.width.value < 0
    · have hpad : s.padding arg = 0 := by
        have hle : ¬(s.body arg).length < s.width.value.natAbs := fun hlt =>
          h ⟨hzero.1, hminus, hzero.2, hw, hlt⟩
        unfold padding
        omega
      simp [finalFlags, hminus, hw, hpad]
    · simp [finalFlags, hminus, hzero.1, hzero.2, hw]
  · have hfinal : s.finalFlags.zero = false := by
      cases hp : s.precision.value with
      | none =>
        have hz : .zero ∉ s.flags := fun hz => hzero ⟨hz, hp⟩
        simp [finalFlags, hz]
      | some p => simp [finalFlags, hp]
    by_cases hw : s.width.value < 0
    · simp [hfinal, hminus, hw, show s.finalFlags.minus = true by simp [finalFlags, hw]]
    · simp [hfinal, hminus, hw, hzero,
        show s.finalFlags.minus = false by simp [finalFlags, hw, hminus]]

theorem length_actual (h : s.PaddedTwice arg) :
    (s.actual arg).length = (s.body arg).length + 2 * s.padding arg := by
  obtain ⟨hzero, hminus, hprecision, hw, -⟩ := h
  have hfinal : s.finalFlags.zero = true ∧ s.finalFlags.minus = true := by
    simp [finalFlags, hzero, hminus, hprecision, hw]
  have hbody := s.length_body_zero arg (s.padding arg)
  rw [actual, hfinal.1, hfinal.2, if_pos rfl, if_pos rfl, if_neg (by decide), nil_append,
    length_append, hbody, length_replicate]
  omega

theorem digitValue_digit (conv : Conv) : ∀ d < conv.base.base,
    digitValue (conv.base.digits.getD d 0) = d := by
  cases conv <;> decide

theorem readBack_ownDigits :
    readBack s.conv.base.base (s.ownDigits arg) = (s.value arg).natAbs := by
  have hread : ∀ ds : List Nat, (∀ d ∈ ds, d < s.conv.base.base) →
      readBack s.conv.base.base (ds.map fun d => s.conv.base.digits.getD d 0).reverse =
        Nat.ofDigits s.conv.base.base ds := by
    intro ds hds
    induction ds with
    | nil => rfl
    | cons d ds ih =>
      have hd := digitValue_digit s.conv d (hds d mem_cons_self)
      have := ih fun d hd => hds d (mem_cons_of_mem _ hd)
      unfold readBack at this ⊢
      rw [map_cons, reverse_cons, foldl_append, this, Nat.ofDigits_cons]
      simp only [foldl_cons, foldl_nil, hd]
      rw [Nat.mul_comm, Nat.add_comm]
  rw [ownDigits, hread _ fun d hd => Nat.digits_lt_base (base_gt_one s.conv) hd,
    Nat.ofDigits_digits]

theorem readBack_allDigits :
    readBack s.conv.base.base (s.allDigits arg) = (s.value arg).natAbs := by
  have hzeros : ∀ k, (List.replicate k (ch '0')).foldl
      (fun n c => n * s.conv.base.base + digitValue c) 0 = 0 := by
    intro k
    induction k with
    | zero => rfl
    | succ k ih =>
      rw [replicate_succ, foldl_cons, Nat.zero_mul]
      exact ih
  rw [← s.readBack_ownDigits arg, readBack, allDigits, foldl_append, hzeros]
  rfl

end Spec

/-- **An integer conversion puts out what C99 prescribes unless it pads on both sides**: with the
`0` flag, no `-` flag, no precision, and a negative width taken by `*` that is longer than the
body. -/
theorem integer_conversion_iff (s : Spec) (arg : BitVec 64) (string : BitVec 32 → List Byte)
    (turns : Nat) (rest : Args) :
    ∃ out, vprintf string (turns + 2) s.text (s.args arg rest) = .ok out ∧
      (s.Prescribed arg out ↔ ¬s.PaddedTwice arg) := by
  refine ⟨s.actual arg, s.vprintf_eq arg string turns rest, fun h htwice => ?_, fun h => ?_⟩
  · have hlen := h.length
    have hlt := htwice.2.2.2.2
    rw [s.length_actual arg htwice, Spec.padding] at hlen
    omega
  · have houtput := s.actual_eq_output arg h
    exact ⟨houtput, houtput ▸ s.length_output arg, s.length_allDigits arg, s.readBack_allDigits arg⟩

/-- `printf ("%0*d", -5, 1)` puts out nine characters, with zeros before the digit and spaces after
it. -/
theorem negative_width_pads_twice :
    let s : Spec := ⟨[.zero], .star (-5) (by decide) (by decide), .absent, .int, .d⟩
    s.text = str "%0*d" ∧
      vprintf (fun _ => []) 2 s.text (s.args 1 (Stream'.const 0)) = .ok (str "00001    ") ∧
      s.output 1 = str "1    " ∧ ¬s.Prescribed 1 (str "00001    ") := by
  intro s
  have hout :
      vprintf (fun _ => []) 2 s.text (s.args 1 (Stream'.const 0)) = .ok (str "00001    ") := by
    decide +kernel
  have hspec : s.output 1 = str "1    " := by
    decide +kernel
  refine ⟨by decide +kernel, hout, hspec, fun h => ?_⟩
  have := h.output
  rw [hspec] at this
  exact absurd this (by decide +kernel)

end SystemProg.Pintos.Printf
