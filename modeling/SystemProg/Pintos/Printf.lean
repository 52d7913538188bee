import Mathlib.Algebra.Group.Int.Defs
import Mathlib.Algebra.Group.Nat.Defs
import Mathlib.Data.Stream.Init
import SystemProg.Text.CString

/-!
# `printf`

Model of `__vprintf`, `parse_conversion`, `format_integer`, `output_dup` and `format_string`
(`lib/stdio.c:93-544`). A format is its characters before the null: a pointer into it is what is
left of it, and a step over the null is an overrun, since the loop then looks at what follows. An
`int` is an `Int` wrapped to 32 bits. The arguments are an unending stream of words on the stack, of
which an argument of 64 bits takes two, the low one first; `string` is what a `char *` points to.
The output is the list of characters.

* `Complete` formats: no conversion runs into the null.
* `scan_inside_iff`: `__vprintf` stays inside of the format exactly if it is complete.
-/

namespace SystemProg.Pintos.Printf

open Text List

/-! ## Conversions -/

/-- The flags of a conversion. -/
structure Flags where
  minus : Bool
  plus : Bool
  space : Bool
  pound : Bool
  zero : Bool
  group : Bool
  deriving DecidableEq

/-- No flags. -/
def Flags.none : Flags := ⟨false, false, false, false, false, false⟩

/-- The type of an argument. -/
inductive ArgType
  | char
  | short
  | int
  | intmax
  | long
  | longlong
  | ptrdifft
  | sizet
  deriving DecidableEq

/-- `struct printf_conversion`. -/
structure Conversion where
  flags : Flags
  width : Int
  precision : Int
  type : ArgType

/-- `struct integer_base`. -/
structure IntegerBase where
  base : Nat
  digits : List Byte
  x : Option Byte
  group : Nat

/-- `base_d`. -/
def baseD : IntegerBase := ⟨10, str "0123456789", none, 3⟩
/-- `base_o`. -/
def baseO : IntegerBase := ⟨8, str "01234567", none, 3⟩
/-- `base_x`. -/
def baseX : IntegerBase := ⟨16, str "0123456789abcdef", some (ch 'x'), 4⟩
/-- `base_X`. -/
def baseX' : IntegerBase := ⟨16, str "0123456789ABCDEF", some (ch 'X'), 4⟩

/-- The words of the arguments that are left. -/
abbrev Args : Type := Stream' (BitVec 32)

/-- An `int` that has overflowed. -/
def wrap (n : Int) : Int := (n + 2 ^ 31) % 2 ^ 32 - 2 ^ 31

/-- The flag that a character sets. -/
def setFlag (flags : Flags) (c : Byte) : Option Flags :=
  if c = ch '-' then some { flags with minus := true }
  else if c = ch '+' then some { flags with plus := true }
  else if c = ch ' ' then some { flags with space := true }
  else if c = ch '#' then some { flags with pound := true }
  else if c = ch '0' then some { flags with zero := true }
  else if c = 39 then some { flags with group := true } -- a single quote
  else none

/-- The loop over the flags. -/
def parseFlags (flags : Flags) : List Byte → Flags × List Byte
  | [] => (flags, [])
  | c :: format =>
    match setFlag flags c with
    | some flags => parseFlags flags format
    | none => (flags, c :: format)

/-- What follows the flags: a flag cancels another. -/
def cancelFlags (flags : Flags) : Flags :=
  let flags := if flags.minus then { flags with zero := false } else flags
  if flags.plus then { flags with space := false } else flags

/-- The loop over digits. -/
def parseDigits (n : Int) : List Byte → Int × List Byte
  | [] => (n, [])
  | c :: format =>
    if isdigit c then parseDigits (wrap (n * 10 + c.toNat - 48)) format else (n, c :: format)

/-- A number in the text, or `*` for one among the arguments. -/
def parseNumber (format : List Byte) (args : Args) : Int × List Byte × Args :=
  if format.head? = some (ch '*') then (args.head.toInt, format.tail, args.tail)
  else
    let (n, format) := parseDigits 0 format
    (n, format, args)

/-- The precision, which is `-1` where there is none. -/
def parsePrecision (format : List Byte) (args : Args) : Int × List Byte × Args :=
  if format.head? = some (ch '.') then
    let (precision, format, args) := parseNumber format.tail args
    (if precision < 0 then -1 else precision, format, args)
  else (-1, format, args)

/-- The length modifier. -/
def parseType (format : List Byte) : ArgType × List Byte :=
  match format with
  | [] => (.int, [])
  | c :: format =>
    if c = ch 'h' then
      if format.head? = some (ch 'h') then (.char, format.tail) else (.short, format)
    else if c = ch 'j' then (.intmax, format)
    else if c = ch 'l' then
      if format.head? = some (ch 'l') then (.longlong, format.tail) else (.long, format)
    else if c = ch 't' then (.ptrdifft, format)
    else if c = ch 'z' then (.sizet, format)
    else (.int, c :: format)

/-- `parse_conversion`. -/
def parseConversion (format : List Byte) (args : Args) : Conversion × List Byte × Args :=
  let (flags, format) := parseFlags .none format
  let flags := cancelFlags flags
  let (width, format, args) := parseNumber format args
  let (width, flags) := if width < 0 then (wrap (-width), { flags with minus := true })
    else (width, flags)
  let (precision, format, args) := parsePrecision format args
  let flags := if precision ≥ 0 then { flags with zero := false } else flags
  let (type, format) := parseType format
  (⟨flags, width, precision, type⟩, format, args)

/-! ## Output -/

/-- `output_dup`. -/
def outputDup (c : Byte) (cnt : Nat) : List Byte := List.replicate cnt c

/-- The sign character, if any. -/
def signOf (isSigned negative : Bool) (flags : Flags) : Option Byte :=
  if isSigned then
    if flags.plus then some (if negative then ch '-' else ch '+')
    else if flags.space then some (if negative then ch '-' else ch ' ')
    else if negative then some (ch '-')
    else none
  else none

/-- The loop that puts the digits into the buffer, the last one first. A number of 64 bits has no
more than 64 of them. -/
def accumulate (b : IntegerBase) (group : Bool) :
    (turns value digitCnt : Nat) → (buf : List Byte) → List Byte
  | 0, _, _, buf => buf
  | turns + 1, value, digitCnt, buf =>
    if value > 0 then
      let buf := if group && decide (digitCnt > 0) && digitCnt % b.group == 0 then ch ',' :: buf
        else buf
      accumulate b group turns (value / b.base) (digitCnt + 1)
        (b.digits.getD (value % b.base) 0 :: buf)
    else buf

/-- The zeros that make up the precision, as far as the buffer goes. -/
def fill (precision : Nat) (buf : List Byte) : List Byte :=
  outputDup (ch '0') (min precision 63 - buf.length) ++ buf

/-- `0x` or `0X`. -/
def xPrefix : Option Byte → List Byte
  | some x => [ch '0', x]
  | none => []

/-- `format_integer`. The buffer is kept with its last character first, in the order in which it is
put out. -/
def formatInteger (value : Nat) (isSigned negative : Bool) (b : IntegerBase) (c : Conversion) :
    List Byte :=
  let sign := signOf isSigned negative c.flags
  let x := if c.flags.pound && value != 0 then b.x else none
  let buf := accumulate b c.flags.group 64 value 0 []
  let buf := fill (if c.precision < 0 then 1 else c.precision.toNat) buf
  let buf :=
    if c.flags.pound && b.base == 8 && buf.head? != some (ch '0') then ch '0' :: buf else buf
  let padCnt := (wrap (c.width - buf.length - (if x.isSome then 2 else 0) -
    (if sign.isSome then 1 else 0))).toNat
  (if !c.flags.minus && !c.flags.zero then outputDup (ch ' ') padCnt else []) ++
    sign.toList ++ xPrefix x ++
    (if c.flags.zero then outputDup (ch '0') padCnt else []) ++ buf ++
    (if c.flags.minus then outputDup (ch ' ') padCnt else [])

/-- `format_string`. -/
def formatString (s : List Byte) (c : Conversion) : List Byte :=
  (if c.width > s.length ∧ c.flags.minus = false then outputDup (ch ' ') (c.width - s.length).toNat
    else []) ++ s ++
  (if c.width > s.length ∧ c.flags.minus = true then outputDup (ch ' ') (c.width - s.length).toNat
    else [])

/-! ## Arguments -/

/-- An argument of 64 bits. -/
def wide (args : Args) : BitVec 64 := args.tail.head ++ args.head

/-- The argument of a signed conversion. -/
def signedArg (type : ArgType) (args : Args) : Int × Args :=
  match type with
  | .char => ((args.head.setWidth 8).toInt, args.tail)
  | .short => ((args.head.setWidth 16).toInt, args.tail)
  | .int => (args.head.toInt, args.tail)
  | .intmax => ((wide args).toInt, args.tail.tail)
  | .long => (args.head.toInt, args.tail)
  | .longlong => ((wide args).toInt, args.tail.tail)
  | .ptrdifft => (args.head.toInt, args.tail)
  | .sizet =>
    let value : Int := args.head.toNat
    (if value > (2 ^ 32 - 1) / 2 then value - (2 ^ 32 - 1) - 1 else value, args.tail)

/-- The argument of an unsigned conversion. -/
def unsignedArg (type : ArgType) (args : Args) : BitVec 64 × Args :=
  match type with
  | .char => ((args.head.setWidth 8).setWidth 64, args.tail)
  | .short => ((args.head.setWidth 16).setWidth 64, args.tail)
  | .int => (args.head.setWidth 64, args.tail)
  | .intmax => (wide args, args.tail.tail)
  | .long => (args.head.setWidth 64, args.tail)
  | .longlong => (wide args, args.tail.tail)
  | .ptrdifft => (args.head.signExtend 64 &&& ((0x7fffffff : BitVec 64) <<< 1 ||| 1), args.tail)
  | .sizet => (args.head.setWidth 64, args.tail)

/-! ## `__vprintf` -/

/-- Why `__vprintf` does not return: it looks at what follows the null, or there are no turns
left. -/
inductive Stop
  | overrun
  | turns
  deriving DecidableEq

/-- `value < 0 ? -value : value` as an `uintmax_t`. -/
def magnitude (value : Int) : Nat := ((if value < 0 then -value else value) % 2 ^ 64).toNat

/-- The `switch` on the conversion character, which is the null at the end of the format. `printf`
is `__printf`. -/
def convert (printf : List Byte → Args → Except Stop (List Byte)) (string : BitVec 32 → List Byte)
    (c : Conversion) (k : Byte) (args : Args) : Except Stop (List Byte × Args) :=
  if k = ch 'd' ∨ k = ch 'i' then
    let (value, args) := signedArg c.type args
    .ok (formatInteger (magnitude value) true (decide (value < 0)) baseD c, args)
  else if k = ch 'o' ∨ k = ch 'u' ∨ k = ch 'x' ∨ k = ch 'X' then
    let (value, args) := unsignedArg c.type args
    let b := if k = ch 'o' then baseO else if k = ch 'u' then baseD
      else if k = ch 'x' then baseX else baseX'
    .ok (formatInteger value.toNat false false b c, args)
  else if k = ch 'c' then .ok (formatString [UInt8.ofBitVec (args.head.setWidth 8)] c, args.tail)
  else if k = ch 's' then
    let s := if args.head = 0 then str "(null)" else string args.head
    let s := if c.precision < 0 then s else s.take c.precision.toNat
    .ok (formatString s c, args.tail)
  else if k = ch 'p' then
    .ok (formatInteger args.head.toNat false false baseX
      { c with flags := { Flags.none with pound := true } }, args.tail)
  else if k = ch 'f' ∨ k = ch 'e' ∨ k = ch 'E' ∨ k = ch 'g' ∨ k = ch 'G' ∨ k = ch 'n' then do
    let out ← printf (str "<<no %%%c in kernel>>") (Stream'.cons (k.toBitVec.signExtend 32) args)
    .ok (out, args)
  else do
    let out ← printf (str "<<no %%%c conversion>>") (Stream'.cons (k.toBitVec.signExtend 32) args)
    .ok (out, args)

/-- `__vprintf`. -/
def vprintf (string : BitVec 32 → List Byte) :
    (turns : Nat) → (format : List Byte) → Args → Except Stop (List Byte)
  | 0, _, _ => .error .turns
  | _ + 1, [], _ => .ok []
  | turns + 1, c :: format, args =>
    if c ≠ ch '%' then do
      let out ← vprintf string turns format args
      .ok (c :: out)
    else if format.head? = some (ch '%') then do
      let out ← vprintf string turns format.tail args
      .ok (ch '%' :: out)
    else
      let (c, format, args) := parseConversion format args
      do
        let (out, args) ← convert (vprintf string turns) string c (format.headD 0) args
        match format with
        -- `format++` steps over the null, and the loop goes on after it
        | [] => .error .overrun
        | _ :: format => do
          let rest ← vprintf string turns format args
          .ok (out ++ rest)

/-! ## Where a conversion ends -/

/-- A flag character. -/
def isFlag (c : Byte) : Bool := c ∈ [ch '-', ch '+', ch ' ', ch '#', ch '0', 39]

/-- What follows a number or a `*`. -/
def afterNumber (l : List Byte) : List Byte :=
  if l.head? = some (ch '*') then l.tail else l.dropWhile isdigit

/-- What follows a precision. -/
def afterPrecision (l : List Byte) : List Byte :=
  if l.head? = some (ch '.') then afterNumber l.tail else l

/-- What follows the length modifier, if there is one. -/
def afterModifier : List Byte → List Byte
  | [] => []
  | c :: l =>
    if (c = ch 'h' ∨ c = ch 'l') ∧ l.head? = some c then l.tail
    else if c ∈ [ch 'h', ch 'j', ch 'l', ch 't', ch 'z'] then l
    else c :: l

/-- From the conversion character on, after the flags, the width, the precision and the length
modifier. -/
def conversionAt (l : List Byte) : List Byte :=
  afterModifier (afterPrecision (afterNumber (l.dropWhile isFlag)))

/-- A format in which every conversion has its conversion character. -/
inductive Complete : List Byte → Prop
  | nil : Complete []
  | literal {c : Byte} {l : List Byte} (hc : c ≠ ch '%') (h : Complete l) : Complete (c :: l)
  | percent {l : List Byte} (h : Complete l) : Complete (ch '%' :: ch '%' :: l)
  | conversion {l l' : List Byte} {c : Byte} (hl : l.head? ≠ some (ch '%'))
    (hc : conversionAt l = c :: l') (h : Complete l') : Complete (ch '%' :: l)

variable {format l : List Byte} {args : Args} {c : Byte} {string : BitVec 32 → List Byte}
  {turns : Nat}

theorem complete_literal (hc : c ≠ ch '%') : Complete (c :: l) ↔ Complete l := by
  refine ⟨fun h => ?_, .literal hc⟩
  cases h with
  | literal _ h => exact h
  | percent => exact absurd rfl hc
  | conversion => exact absurd rfl hc

theorem complete_percent : Complete (ch '%' :: ch '%' :: l) ↔ Complete l := by
  refine ⟨fun h => ?_, .percent⟩
  cases h with
  | literal hc => exact absurd rfl hc
  | percent h => exact h
  | conversion hl => exact absurd rfl hl

theorem complete_conversion (hl : l.head? ≠ some (ch '%')) :
    Complete (ch '%' :: l) ↔ ∃ c l', conversionAt l = c :: l' ∧ Complete l' := by
  refine ⟨fun h => ?_, fun ⟨c, l', hc, h⟩ => .conversion hl hc h⟩
  cases h with
  | literal hc => exact absurd rfl hc
  | percent => exact absurd rfl hl
  | conversion _ hc h => exact ⟨_, _, hc, h⟩

theorem setFlag_isSome (flags : Flags) (c : Byte) : (setFlag flags c).isSome = isFlag c := by
  unfold setFlag isFlag
  split_ifs <;> simp_all

theorem parseFlags_format (flags : Flags) (format : List Byte) :
    (parseFlags flags format).2 = format.dropWhile isFlag := by
  induction format generalizing flags with
  | nil => rfl
  | cons c format ih =>
    have hc := setFlag_isSome flags c
    rw [parseFlags, dropWhile_cons, ← hc]
    cases setFlag flags c with
    | none => rfl
    | some flags => exact ih flags

theorem parseDigits_format (n : Int) (format : List Byte) :
    (parseDigits n format).2 = format.dropWhile isdigit := by
  induction format generalizing n with
  | nil => rfl
  | cons c format ih =>
    rw [parseDigits, dropWhile_cons]
    split
    · exact ih _
    · rfl

theorem parseNumber_format (format : List Byte) (args : Args) :
    (parseNumber format args).2.1 = afterNumber format := by
  unfold parseNumber afterNumber
  split
  · rfl
  · exact parseDigits_format 0 format

theorem parsePrecision_format (format : List Byte) (args : Args) :
    (parsePrecision format args).2.1 = afterPrecision format := by
  unfold parsePrecision afterPrecision
  split
  · exact parseNumber_format format.tail args
  · rfl

theorem parseType_format (format : List Byte) : (parseType format).2 = afterModifier format := by
  cases format with
  | nil => rfl
  | cons c l =>
    rw [parseType, afterModifier]
    by_cases hh : c = ch 'h'
    · rw [if_pos hh, hh]
      split_ifs <;> simp_all
    rw [if_neg hh]
    by_cases hj : c = ch 'j'
    · rw [if_pos hj, hj]
      rfl
    rw [if_neg hj]
    by_cases hl : c = ch 'l'
    · rw [if_pos hl, hl]
      split_ifs <;> simp_all
    have hdouble : ¬((c = ch 'h' ∨ c = ch 'l') ∧ l.head? = some c) := fun h => h.1.elim hh hl
    rw [if_neg hl, if_neg hdouble]
    by_cases ht : c = ch 't'
    · rw [if_pos ht, ht]
      rfl
    rw [if_neg ht]
    by_cases hz : c = ch 'z'
    · rw [if_pos hz, hz]
      rfl
    rw [if_neg hz, if_neg (by simp only [mem_cons, not_mem_nil, hh, hj, hl, ht, hz]; simp)]

/-- **Where `parse_conversion` ends.** -/
theorem parseConversion_format (format : List Byte) (args : Args) :
    (parseConversion format args).2.1 = conversionAt format := by
  unfold conversionAt
  rw [← parseFlags_format .none, ← parseNumber_format _ args, ← parsePrecision_format _
    (parseNumber (parseFlags .none format).2 args).2.2, ← parseType_format]
  rfl

theorem length_afterNumber_le (l : List Byte) : (afterNumber l).length ≤ l.length := by
  unfold afterNumber
  split
  · simp
  · exact (dropWhile_suffix _).length_le

theorem length_conversionAt_le (l : List Byte) : (conversionAt l).length ≤ l.length := by
  have hflags := (dropWhile_suffix (l := l) isFlag).length_le
  have hnumber := length_afterNumber_le (l.dropWhile isFlag)
  have hprecision : ∀ l, (afterPrecision l).length ≤ l.length := by
    intro l
    unfold afterPrecision
    split
    · have := length_afterNumber_le l.tail
      simp only [length_tail] at this
      omega
    · omega
  have hmodifier : ∀ l, (afterModifier l).length ≤ l.length := by
    intro l
    unfold afterModifier
    split
    · omega
    · split_ifs <;> simp only [length_tail, length_cons] <;> omega
  have h1 := hprecision (afterNumber (l.dropWhile isFlag))
  have h2 := hmodifier (afterPrecision (afterNumber (l.dropWhile isFlag)))
  unfold conversionAt
  omega

/-! ## What `__vprintf` does -/

/-- The messages are formats of their own, which have to be put out first. -/
theorem vprintf_message (string : BitVec 32 → List Byte) (turns : Nat) (args : Args) :
    (∃ out, vprintf string (turns + 24) (str "<<no %%%c in kernel>>") args = .ok out) ∧
      ∃ out, vprintf string (turns + 24) (str "<<no %%%c conversion>>") args = .ok out :=
  ⟨⟨_, rfl⟩, ⟨_, rfl⟩⟩

theorem convert_ok (string : BitVec 32 → List Byte) (conversion : Conversion) (k : Byte)
    (args : Args) (turns : Nat) :
    ∃ r, convert (vprintf string (turns + 24)) string conversion k args = .ok r := by
  unfold convert
  split
  · exact ⟨_, rfl⟩
  split
  · exact ⟨_, rfl⟩
  split
  · exact ⟨_, rfl⟩
  split
  · exact ⟨_, rfl⟩
  split
  · exact ⟨_, rfl⟩
  split
  · obtain ⟨out, h⟩ :=
      (vprintf_message string turns (Stream'.cons (k.toBitVec.signExtend 32) args)).1
    rw [h]
    exact ⟨_, rfl⟩
  · obtain ⟨out, h⟩ :=
      (vprintf_message string turns (Stream'.cons (k.toBitVec.signExtend 32) args)).2
    rw [h]
    exact ⟨_, rfl⟩

/-- A result that is there exactly if the format is good, and an overrun otherwise. -/
def Scans (good : Prop) (r : Except Stop (List Byte)) : Prop :=
  (good → ∃ out, r = .ok out) ∧ (¬good → r = .error .overrun)

theorem Scans.map {good : Prop} {r : Except Stop (List Byte)} (h : Scans good r)
    (f : List Byte → List Byte) : Scans good (do let out ← r; .ok (f out)) := by
  constructor
  · intro hgood
    obtain ⟨out, rfl⟩ := h.1 hgood
    exact ⟨f out, rfl⟩
  · intro hbad
    rw [h.2 hbad]
    rfl

/-- **`__vprintf` scans its format**: each turn of the loop leaves a shorter one, or steps over the
null. -/
theorem vprintf_scans (turns : Nat) (hturns : format.length + 25 ≤ turns) :
    Scans (Complete format) (vprintf string turns format args) := by
  induction turns generalizing format args with
  | zero => omega
  | succ turns ih =>
    cases format with
    | nil => exact ⟨fun _ => ⟨[], rfl⟩, fun h => absurd .nil h⟩
    | cons c l =>
      rw [length_cons] at hturns
      rw [vprintf]
      by_cases hc : c = ch '%'
      · rw [if_neg (by simp [hc]), hc]
        by_cases hl : l.head? = some (ch '%')
        · rw [if_pos hl]
          obtain ⟨l, rfl⟩ := head?_eq_some_iff.mp hl
          rw [complete_percent]
          exact (ih (by simp only [length_cons] at hturns; omega)).map _
        · rw [if_neg hl, complete_conversion hl]
          have hlen := length_conversionAt_le l
          have hformat := parseConversion_format l args
          generalize parseConversion l args = parsed at hformat ⊢
          obtain ⟨conversion, rest, args'⟩ := parsed
          obtain rfl : rest = conversionAt l := hformat
          obtain ⟨k, rfl⟩ : ∃ k, turns = k + 24 := ⟨turns - 24, by omega⟩
          obtain ⟨⟨out, args''⟩, hconvert⟩ :=
            convert_ok string conversion ((conversionAt l).headD 0) args' k
          dsimp only
          rw [hconvert]
          cases hrest : conversionAt l with
          | nil => exact ⟨fun ⟨_, _, h, _⟩ => absurd h (by simp), fun _ => rfl⟩
          | cons d l' =>
            have hgood : (∃ c l'', d :: l' = c :: l'' ∧ Complete l'') ↔ Complete l' :=
              ⟨fun ⟨_, _, h, hl'⟩ => (List.cons.inj h).2 ▸ hl', fun h => ⟨d, l', rfl, h⟩⟩
            rw [hgood]
            rw [hrest, length_cons] at hlen
            exact (ih (by omega)).map _
      · rw [if_pos hc, complete_literal hc]
        exact (ih (by omega)).map _

/-- **`__vprintf` stays inside of its format exactly if the format is complete**, whatever the
arguments; otherwise it looks at what follows the null. -/
theorem scan_inside_iff (string : BitVec 32 → List Byte) (format : List Byte) (args : Args)
    (turns : Nat) :
    ((∃ out, vprintf string (format.length + 25 + turns) format args = .ok out) ↔ Complete format) ∧
      (¬Complete format →
        vprintf string (format.length + 25 + turns) format args = .error .overrun) := by
  have h : Scans (Complete format) (vprintf string (format.length + 25 + turns) format args) :=
    vprintf_scans _ (by omega)
  refine ⟨⟨fun ⟨out, hout⟩ => ?_, h.1⟩, h.2⟩
  by_contra hbad
  rw [h.2 hbad] at hout
  cases hout

/-- A format that ends inside of a conversion. -/
theorem scan_overrun :
    vprintf (fun _ => []) 100 (str "100%") (fun _ => 0) = .error .overrun ∧
      vprintf (fun _ => []) 100 (str "%-5l") (fun _ => 0) = .error .overrun := ⟨rfl, rfl⟩

end SystemProg.Pintos.Printf
