import Mathlib.Algebra.Order.BigOperators.Group.List
import Mathlib.Data.List.TakeWhile
import Mathlib.Data.Nat.Digits.Lemmas
import SystemProg.Pintos.Directory

/-!
# Headers of ustar archives

Model of `lib/ustar.c`. A header is 512 bytes: `ustarMakeHeader` builds one from its fields, as
`struct ustar_header` lays them out, and `ustarParseHeader` reads the fields at their offsets.
`unsigned long` has 32 bits.

* `ustar_codec`: what is made is parsed back, and a header with any byte changed outside `chksum` is
  refused.
-/

namespace SystemProg.Pintos

open Data Text List

/-! ## Names -/

/-- `strchr(file_name, '/') + 1`. -/
def afterSlash (fileName : List Byte) : List Byte := (fileName.dropWhile (· ≠ 47)).drop 1

/-- `file_name` starts with `/`, `./` or `../`. -/
def antisocial (fileName : List Byte) : Bool :=
  (str "/").isPrefixOf fileName || (str "./").isPrefixOf fileName || (str "../").isPrefixOf fileName

/-- The loop of `strip_antisocial_prefixes`. -/
def dropAntisocial : (turns : Nat) → List Byte → List Byte
  | 0, fileName => fileName
  | turns + 1, fileName =>
    if antisocial fileName then dropAntisocial turns (afterSlash fileName) else fileName

/-- `strip_antisocial_prefixes`. -/
def stripAntisocial (fileName : List Byte) : List Byte :=
  let fileName := dropAntisocial fileName.length fileName
  if fileName = [] ∨ fileName = str ".." then str "." else fileName

/-! ## The header -/

/-- `USTAR_REGULAR` and `USTAR_DIRECTORY`. -/
inductive UstarType where
  | regular
  | directory
  deriving Repr, DecidableEq

/-- Its `typeflag`. -/
def UstarType.flag : UstarType → Byte
  | regular => 48
  | directory => 53

/-- `struct ustar_header`. -/
structure UstarHeader where
  name : List Byte
  mode : List Byte
  uid : List Byte
  gid : List Byte
  size : List Byte
  mtime : List Byte
  chksum : List Byte
  typeflag : Byte
  linkname : List Byte
  magic : List Byte
  version : List Byte
  uname : List Byte
  gname : List Byte
  devmajor : List Byte
  devminor : List Byte
  pathPrefix : List Byte
  padding : List Byte

/-- The bytes before `chksum`. -/
def UstarHeader.front (h : UstarHeader) : List Byte :=
  h.name ++ h.mode ++ h.uid ++ h.gid ++ h.size ++ h.mtime

/-- The bytes after `chksum`. -/
def UstarHeader.back (h : UstarHeader) : List Byte :=
  [h.typeflag] ++ h.linkname ++ h.magic ++ h.version ++ h.uname ++ h.gname ++ h.devmajor ++
    h.devminor ++
    h.pathPrefix ++ h.padding

/-- The bytes of a header. -/
def UstarHeader.bytes (h : UstarHeader) : List Byte := h.front ++ h.chksum ++ h.back

/-- Zero bytes. -/
def zeros (size : Nat) : List Byte := List.replicate size 0

/-- `USTAR_HEADER_SIZE`. -/
def ustarHeaderSize : Nat := 512

/-- `calculate_chksum`. -/
def calculateChksum (header : List Byte) : Nat :=
  ((List.range ustarHeaderSize).map fun i =>
    if 148 ≤ i ∧ i < 156 then 32 else (header.getD i 0).toNat).sum

/-- The digits of a number, after as many zeros as the width asks for. -/
def octalDigits (width value : Nat) : List Nat :=
  List.replicate (width - (Nat.digits 8 value).length) 0 ++ (Nat.digits 8 value).reverse

/-- `%0` `width` `o`, in `format_integer`. -/
def formatOctal (width value : Nat) : List Byte :=
  (octalDigits width value).map fun d => UInt8.ofNat (48 + d)

/-- A field of zeros after `snprintf(s, size, "%0..o", value)`. -/
def octalField (size width value : Nat) : List Byte :=
    strlcpy (zeros size) (formatOctal width value) size

/-- The header but for the checksum. -/
def ustarHeader (fileName : List Byte) (type : UstarType) (size : Nat) : UstarHeader where
  name := strlcpy (zeros 100) fileName 100
  mode := octalField 8 7 (if type = .regular then 0o644 else 0o755)
  uid := strlcpy (zeros 8) (str "0000000") 8
  gid := strlcpy (zeros 8) (str "0000000") 8
  size := octalField 12 11 size
  mtime := octalField 12 11 1136102400
  chksum := zeros 8
  typeflag := type.flag
  linkname := zeros 100
  magic := strlcpy (zeros 6) (str "ustar") 6
  version := str "00"
  uname := strlcpy (zeros 32) (str "root") 32
  gname := strlcpy (zeros 32) (str "root") 32
  devmajor := zeros 8
  devminor := zeros 8
  pathPrefix := zeros 155
  padding := zeros 12

/-- `ustar_make_header`; `none` if it returns false. -/
def ustarMakeHeader (fileName : List Byte) (type : UstarType) (size : Nat) : Option (List Byte) :=
  let fileName := stripAntisocial fileName
  if 99 < fileName.length then none
  else
    let h := ustarHeader fileName type size
    some { h with chksum := octalField 8 7 (calculateChksum h.bytes) }.bytes

/-! ## Parsing -/

/-- `ULONG_MAX`. -/
def ulongMax : Nat := 4294967295

/-- The loop of `parse_octal_field`, at the offset `ofs`. -/
def parseOctal (value ofs : Nat) : List Byte → Option Nat
  | [] => none
  | c :: s =>
    if 48 ≤ c ∧ c ≤ 55 then
      if ulongMax / 8 < value then none else parseOctal (c.toNat - 48 + value * 8) (ofs + 1) s
    else if c = 32 ∨ c = 0 then if 0 < ofs then some value else none
    else none

/-- `parse_octal_field`; `none` if it returns false. -/
def parseOctalField (s : List Byte) : Option Nat := parseOctal 0 0 s

/-- What `ustar_parse_header` returns on failure. -/
inductive UstarError where
  | notUstar
  | invalidVersion
  | corruptChksum
  | chksumMismatch
  | nameTooLong
  | unimplementedType
  | corruptSize
  | tooLarge
  deriving Repr, DecidableEq

/-- The text that is returned. -/
def UstarError.message : UstarError → String
  | notUstar => "not a ustar archive"
  | invalidVersion => "invalid ustar version"
  | corruptChksum => "corrupt chksum field"
  | chksumMismatch => "checksum mismatch"
  | nameTooLong => "file name too long"
  | unimplementedType => "unimplemented file type"
  | corruptSize => "corrupt file size field"
  | tooLarge => "file too large"

/-- A file or directory in an archive. -/
structure UstarEntry where
  fileName : List Byte
  type : UstarType
  size : Nat
  deriving Repr, DecidableEq

/-- The field of `size` bytes at an offset. -/
def fieldAt (header : List Byte) (ofs size : Nat) : List Byte := (header.drop ofs).take size

/-- The end of `ustar_parse_header`, by the type. -/
def parseEntry (header : List Byte) : Except UstarError UstarEntry :=
  let fileName := stripAntisocial (cstr (fieldAt header 0 100))
  if header.getD 156 0 = UstarType.regular.flag then
    match parseOctalField (fieldAt header 124 12) with
    | some size => if 2 ^ 31 ≤ size then .error .tooLarge else .ok ⟨fileName, .regular, size⟩
    | none => .error .corruptSize
  else .ok ⟨fileName, .directory, 0⟩

/-- The checks of `ustar_parse_header`. -/
def checkHeader (header : List Byte) : Option UstarError :=
  if fieldAt header 257 6 ≠ str "ustar" ++ [0] then some .notUstar
  else if fieldAt header 263 2 ≠ str "00" then some .invalidVersion
  else
    match parseOctalField (fieldAt header 148 8) with
    | some chksum =>
      if chksum ≠ calculateChksum header then some .chksumMismatch
      else if header.getD 99 0 ≠ 0 ∨ header.getD 345 0 ≠ 0 then some .nameTooLong
      else if header.getD 156 0 ≠ UstarType.regular.flag ∧
        header.getD 156 0 ≠ UstarType.directory.flag then
        some .unimplementedType
      else none
    | none => some .corruptChksum

/-- `ustar_parse_header`; `none` is the end of the archive. -/
def ustarParseHeader (header : List Byte) : Except UstarError (Option UstarEntry) :=
  if header.all (· = 0) then .ok none
  else
    match checkHeader header with
    | some e => .error e
    | none => (parseEntry header).map some

/-! ## Names that have been stripped -/

variable {n m header : List Byte} {type : UstarType} {size value width i ofs turns : Nat}
  {h : UstarHeader}

theorem slash_mem_of_antisocial (hn : antisocial n = true) : (47 : Byte) ∈ n := by
  simp only [antisocial, Bool.or_eq_true, isPrefixOf_iff_prefix] at hn
  rcases hn with (hn | hn) | hn
  · exact hn.subset (by decide)
  · exact hn.subset (by decide)
  · exact hn.subset (by decide)

theorem dropWhile_ne_nil_of_antisocial (hn : antisocial n = true) :
    n.dropWhile (· ≠ 47) ≠ [] := fun he => by
  have := dropWhile_eq_nil_iff.mp he 47 (slash_mem_of_antisocial hn)
  simp at this

theorem length_afterSlash (hn : antisocial n = true) : (afterSlash n).length < n.length := by
  have hne := dropWhile_ne_nil_of_antisocial hn
  have hle : (n.dropWhile (· ≠ 47)).length ≤ n.length := (dropWhile_sublist _).length_le
  have hpos := length_pos_iff.mpr hne
  rw [afterSlash, length_drop]
  omega

/-- The loop ends at a name that does not start so, and that is the end of the name. -/
theorem dropAntisocial_spec (hturns : n.length ≤ turns) :
    antisocial (dropAntisocial turns n) = false ∧ dropAntisocial turns n <:+ n := by
  induction turns generalizing n with
  | zero =>
    obtain rfl := length_eq_zero_iff.mp (Nat.le_zero.mp hturns)
    exact ⟨by decide, suffix_refl _⟩
  | succ turns ih =>
    rw [dropAntisocial]
    split
    · rename_i hn
      have hlt := length_afterSlash hn
      obtain ⟨h1, h2⟩ := ih (n := afterSlash n) (by omega)
      exact ⟨h1, h2.trans ((drop_suffix _ _).trans (dropWhile_suffix _))⟩
    · rename_i hn
      exact ⟨by simpa using hn, suffix_refl _⟩

theorem dropAntisocial_of_not (hn : antisocial n = false) : dropAntisocial turns n = n := by
  cases turns with
  | zero => rfl
  | succ turns => rw [dropAntisocial, hn, if_neg (by decide)]

/-- **Stripping twice is stripping once.** -/
theorem stripAntisocial_idem (n : List Byte) :
    stripAntisocial (stripAntisocial n) = stripAntisocial n := by
  obtain ⟨hnot, -⟩ := dropAntisocial_spec (Nat.le_refl n.length)
  obtain ⟨m, hm⟩ : ∃ m, m = dropAntisocial n.length n := ⟨_, rfl⟩
  have hstrip : stripAntisocial n = if m = [] ∨ m = str ".." then str "." else m := by rw [hm]; rfl
  rw [hstrip]
  by_cases hc : m = [] ∨ m = str ".."
  · rw [if_pos hc]
    decide
  · rw [if_neg hc]
    show (if dropAntisocial m.length m = [] ∨ _ then _ else _) = m
    rw [dropAntisocial_of_not (hm ▸ hnot), if_neg hc]

theorem nul_not_mem_strip (hn : 0 ∉ n) : 0 ∉ stripAntisocial n := by
  show 0 ∉ if dropAntisocial n.length n = [] ∨ _ then _ else _
  split
  · decide
  · exact fun hc => hn ((dropAntisocial_spec (Nat.le_refl n.length)).2.subset hc)

/-! ## Fields -/

theorem fieldAt_mid {a b c : List Byte} (ha : a.length = ofs) (hb : b.length = size) :
    fieldAt (a ++ b ++ c) ofs size = b := by
  rw [fieldAt, append_assoc, drop_left' ha, take_left' hb]

theorem length_zeros (k : Nat) : (zeros k).length = k := length_replicate

theorem strlcpy_zeros (hn : n.length < size) :
    strlcpy (zeros size) n size = n ++ zeros (size - n.length) := by
  have htake : n.take (size - 1) = n := take_of_length_le (by omega)
  have hrest : zeros (size - n.length) = 0 :: zeros (size - (n.length + 1)) := by
    rw [show size - n.length = size - (n.length + 1) + 1 by omega]
    rfl
  rw [strlcpy, htake, splice, take_zero, nil_append, Nat.zero_add, length_append,
    length_singleton, append_assoc, hrest, zeros, drop_replicate]
  rfl

theorem length_octalDigits (hv : value < 8 ^ width) : (octalDigits width value).length = width := by
  have hle := (Nat.digits_length_le_iff (by decide : 1 < 8) value).mpr hv
  rw [octalDigits, length_append, length_replicate, length_reverse]
  omega

theorem length_formatOctal (hv : value < 8 ^ width) : (formatOctal width value).length = width := by
  rw [formatOctal, length_map, length_octalDigits hv]

/-- A step of `parse_octal_field`. -/
def accumulate (v d : Nat) : Nat := d + v * 8

theorem foldl_octalDigits (width value : Nat) :
    (octalDigits width value).foldl accumulate 0 = value := by
  have hzero (k : Nat) : (List.replicate k 0).foldl accumulate 0 = 0 := by
    induction k with
    | zero => rfl
    | succ k ih => exact ih
  rw [octalDigits, foldl_append, hzero, foldl_reverse]
  refine Eq.trans ?_ (Nat.ofDigits_digits 8 value)
  rw [Nat.ofDigits_eq_foldr]
  congr 1
  funext d v
  rw [accumulate, Nat.mul_comm]
  rfl

theorem octalDigits_lt {d : Nat} (hd : d ∈ octalDigits width value) : d < 8 := by
  rcases mem_append.mp hd with hd | hd
  · rw [(mem_replicate.mp hd).2]
    decide
  · exact Nat.digits_lt_base (by decide) (mem_reverse.mp hd)

theorem le_foldl_accumulate (l : List Nat) (v : Nat) : v ≤ l.foldl accumulate v := by
  induction l generalizing v with
  | nil => exact Nat.le_refl v
  | cons d l ih =>
    refine Nat.le_trans ?_ (ih (accumulate v d))
    unfold accumulate
    omega

theorem parseOctal_digits {l : List Nat} {rest : List Byte} (hl : ∀ d ∈ l, d < 8)
    (hmax : l.foldl accumulate value ≤ ulongMax) :
    parseOctal value ofs (l.map (fun d => UInt8.ofNat (48 + d)) ++ rest) =
      parseOctal (l.foldl accumulate value) (ofs + l.length) rest := by
  induction l generalizing value ofs with
  | nil => rfl
  | cons d l ih =>
    obtain ⟨hd, hl⟩ := forall_mem_cons.mp hl
    have hstep : accumulate value d ≤ ulongMax := Nat.le_trans (le_foldl_accumulate l _) hmax
    have hsmall : ¬ulongMax / 8 < value := by
      unfold accumulate ulongMax at hstep
      unfold ulongMax
      omega
    have hnat : (UInt8.ofNat (48 + d)).toNat = 48 + d := by
      rw [UInt8.toNat_ofNat']
      omega
    have hdigit : 48 ≤ UInt8.ofNat (48 + d) ∧ UInt8.ofNat (48 + d) ≤ 55 := by
      rw [UInt8.le_iff_toNat_le, UInt8.le_iff_toNat_le, hnat]
      exact ⟨Nat.le_add_right 48 d, by show 48 + d ≤ 55; omega⟩
    rw [map_cons, cons_append, parseOctal, if_pos hdigit, if_neg hsmall, hnat,
      Nat.add_sub_cancel_left, foldl_cons, length_cons]
    show parseOctal (accumulate value d) (ofs + 1) _ = _
    rw [ih hl hmax]
    congr 1
    omega

/-- **An octal field is read back.** -/
theorem parseOctalField_octalField (hv : value < 8 ^ width) (hw : 0 < width)
    (hmax : value ≤ ulongMax) :
    parseOctalField (octalField (width + 1) width value) = some value := by
  have hlen := length_formatOctal hv
  have hfield : octalField (width + 1) width value =
      (octalDigits width value).map (fun d => UInt8.ofNat (48 + d)) ++ [0] := by
    rw [octalField, strlcpy_zeros (by omega), hlen, Nat.add_sub_cancel_left]
    rfl
  rw [hfield, parseOctalField, parseOctal_digits (fun _ => octalDigits_lt)
    (by rwa [foldl_octalDigits]), foldl_octalDigits, length_octalDigits hv, parseOctal,
    if_neg (by decide), if_pos (.inr rfl), if_pos (by omega)]

/-! ## The checksum -/

theorem sum_map_range_congr {f g : Nat → Nat} {k : Nat} (hfg : ∀ j, j < k → g j = f j) :
    ((List.range k).map g).sum = ((List.range k).map f).sum :=
  congrArg List.sum (map_congr_left fun j hj => hfg j (mem_range.mp hj))

theorem sum_map_range_update {f g : Nat → Nat} {k : Nat} (hi : i < k)
    (hfg : ∀ j, j ≠ i → g j = f j) :
    ((List.range k).map g).sum + f i = ((List.range k).map f).sum + g i := by
  induction k with
  | zero => exact absurd hi (Nat.not_lt_zero i)
  | succ k ih =>
    rw [range_succ, map_append, map_append, sum_append, sum_append,
      map_singleton, map_singleton, sum_singleton, sum_singleton]
    by_cases hk : i = k
    · subst hk
      rw [sum_map_range_congr fun j hj => hfg j (Nat.ne_of_lt hj)]
      omega
    · have := ih (by omega)
      rw [hfg k (Ne.symm hk)]
      omega

/-- The checksum does not depend on the checksum field. -/
theorem calculateChksum_congr {a b c d : List Byte} (ha : a.length = 148) (hb : b.length = 8)
    (hc : c.length = 8) : calculateChksum (a ++ b ++ d) = calculateChksum (a ++ c ++ d) := by
  refine sum_map_range_congr fun j _ => ?_
  by_cases hj : 148 ≤ j ∧ j < 156
  · rw [if_pos hj, if_pos hj]
  rw [if_neg hj, if_neg hj, append_assoc, append_assoc]
  congr 1
  by_cases hj' : j < 148
  · rw [getD_append _ _ _ _ (by omega), getD_append _ _ _ _ (by omega)]
  · rw [getD_append_right _ _ _ _ (by omega), getD_append_right _ _ _ _ (by omega),
      getD_append_right _ _ _ _ (by omega), getD_append_right _ _ _ _ (by omega), hb, hc]

theorem calculateChksum_lt (header : List Byte) : calculateChksum header < 8 ^ 7 := by
  have hterm : ∀ x ∈ (List.range ustarHeaderSize).map fun i =>
      if 148 ≤ i ∧ i < 156 then 32 else (header.getD i 0).toNat, x ≤ 255 := by
    intro x hx
    obtain ⟨i, -, rfl⟩ := mem_map.mp hx
    split
    · decide
    · exact Nat.le_of_lt_succ (UInt8.toNat_lt _)
  have hsum := sum_le_card_nsmul _ _ hterm
  rw [length_map, length_range] at hsum
  exact Nat.lt_of_le_of_lt hsum (by decide)

theorem calculateChksum_set {b : Byte} (hlen : header.length = ustarHeaderSize)
    (hi : i < ustarHeaderSize)
    (hout : ¬(148 ≤ i ∧ i < 156)) : calculateChksum (header.set i b) + (header.getD i 0).toNat =
      calculateChksum header + b.toNat := by
  have hupdate := sum_map_range_update (k := ustarHeaderSize)
    (f := fun i => if 148 ≤ i ∧ i < 156 then 32 else (header.getD i 0).toNat)
    (g := fun j => if 148 ≤ j ∧ j < 156 then 32 else ((header.set i b).getD j 0).toNat)
      hi fun j hj => by
      simp only [getD_eq_getElem?_getD, getElem?_set_ne (Ne.symm hj)]
  rw [if_neg hout, if_neg hout] at hupdate
  have hset : (header.set i b).getD i 0 = b := by
    rw [getD_eq_getElem?_getD, getElem?_set_self (by omega)]
    rfl
  rwa [hset] at hupdate

/-! ## What is made is parsed back -/

/-- Every field has its size. -/
structure UstarHeader.Sized (h : UstarHeader) : Prop where
  name : h.name.length = 100
  mode : h.mode.length = 8
  uid : h.uid.length = 8
  gid : h.gid.length = 8
  size : h.size.length = 12
  mtime : h.mtime.length = 12
  chksum : h.chksum.length = 8
  linkname : h.linkname.length = 100
  magic : h.magic.length = 6
  version : h.version.length = 2
  uname : h.uname.length = 32
  gname : h.gname.length = 32
  devmajor : h.devmajor.length = 8
  devminor : h.devminor.length = 8
  pathPrefix : h.pathPrefix.length = 155
  padding : h.padding.length = 12

theorem length_octalField (hv : value < 8 ^ width) :
    (octalField (width + 1) width value).length = width + 1 :=
  length_strlcpy (length_zeros _) (by rw [length_formatOctal hv]; omega)

theorem ustarHeader_sized (hn : n.length ≤ 99) (hs : size < 2 ^ 31) (hc : m.length = 8) :
    ({ ustarHeader n type size with chksum := m } : UstarHeader).Sized where
  name := length_strlcpy (length_zeros _) (Nat.lt_succ_of_le hn)
  mode := length_octalField (by cases type <;> decide)
  uid := length_strlcpy (length_zeros _) (by decide)
  gid := length_strlcpy (length_zeros _) (by decide)
  size := length_octalField (Nat.lt_trans hs (by decide))
  mtime := length_octalField (by decide)
  chksum := hc
  linkname := length_zeros _
  magic := length_strlcpy (length_zeros _) (by decide)
  version := rfl
  uname := length_strlcpy (length_zeros _) (by decide)
  gname := length_strlcpy (length_zeros _) (by decide)
  devmajor := length_zeros _
  devminor := length_zeros _
  pathPrefix := length_zeros _
  padding := length_zeros _

namespace UstarHeader.Sized

theorem length_front (hh : h.Sized) : h.front.length = 148 := by
  simp only [front, length_append, hh.name, hh.mode, hh.uid, hh.gid, hh.size, hh.mtime]

theorem length_bytes (hh : h.Sized) : h.bytes.length = ustarHeaderSize := by
  simp only [bytes, back, length_append, hh.length_front, hh.chksum, hh.linkname, hh.magic,
    hh.version,
    hh.uname, hh.gname, hh.devmajor, hh.devminor, hh.pathPrefix, hh.padding, length_singleton]
  rfl

theorem fieldAt_name (hh : h.Sized) : fieldAt h.bytes 0 100 = h.name := by
  have : h.bytes = [] ++ h.name ++
      (h.mode ++ (h.uid ++ (h.gid ++ (h.size ++ (h.mtime ++ (h.chksum ++ h.back)))))) := by
    simp only [bytes, front, append_assoc, nil_append]
  rw [this, fieldAt_mid (length_nil) hh.name]

theorem fieldAt_size (hh : h.Sized) : fieldAt h.bytes 124 12 = h.size := by
  have :
      h.bytes = (h.name ++ h.mode ++ h.uid ++ h.gid) ++ h.size ++
      (h.mtime ++ (h.chksum ++ h.back)) := by
    simp only [bytes, front, append_assoc]
  rw [this, fieldAt_mid (by simp only [length_append, hh.name, hh.mode, hh.uid, hh.gid])
    hh.size]

theorem fieldAt_chksum (hh : h.Sized) : fieldAt h.bytes 148 8 = h.chksum :=
  fieldAt_mid hh.length_front hh.chksum

theorem fieldAt_back {a b c : List Byte} (hh : h.Sized) (hback : h.back = a ++ b ++ c)
    (ha : 156 + a.length = ofs) (hb : b.length = size) : fieldAt h.bytes ofs size = b := by
  have : h.bytes = (h.front ++ h.chksum ++ a) ++ b ++ c := by
    rw [bytes, hback]
    simp only [append_assoc]
  rw [this, fieldAt_mid (by simp only [length_append, hh.length_front, hh.chksum]; omega) hb]

theorem fieldAt_typeflag (hh : h.Sized) : fieldAt h.bytes 156 1 = [h.typeflag] :=
  hh.fieldAt_back (a := []) (by simp only [back, append_assoc, nil_append]; rfl) rfl rfl

theorem fieldAt_magic (hh : h.Sized) : fieldAt h.bytes 257 6 = h.magic := by
  refine hh.fieldAt_back (a := [h.typeflag] ++ h.linkname)
    (by simp only [back, append_assoc]; rfl) ?_ hh.magic
  rw [length_append, hh.linkname]
  rfl

theorem fieldAt_version (hh : h.Sized) : fieldAt h.bytes 263 2 = h.version := by
  refine hh.fieldAt_back (a := [h.typeflag] ++ h.linkname ++ h.magic)
    (by simp only [back, append_assoc]; rfl) ?_ hh.version
  rw [length_append, length_append, hh.linkname, hh.magic]
  rfl

theorem fieldAt_pathPrefix (hh : h.Sized) : fieldAt h.bytes 345 155 = h.pathPrefix := by
  refine hh.fieldAt_back
    (a := [h.typeflag] ++ h.linkname ++ h.magic ++ h.version ++ h.uname ++ h.gname ++
    h.devmajor ++ h.devminor) (by simp only [back, append_assoc]; rfl) ?_ hh.pathPrefix
  simp only [length_append, hh.linkname, hh.magic, hh.version, hh.uname, hh.gname, hh.devmajor,
    hh.devminor, length_singleton]

end UstarHeader.Sized

theorem getD_eq_fieldAt {j : Nat} (hj : j < size) :
    header.getD (ofs + j) 0 = (fieldAt header ofs size).getD j 0 := by
  simp only [fieldAt, getD_eq_getElem?_getD, getElem?_take, getElem?_drop, if_pos hj]

theorem getD_append_zeros {k : Nat} (hi : n.length ≤ i) : (n ++ zeros k).getD i 0 = 0 := by
  rw [getD_append_right _ _ _ _ hi, getD_eq_getElem?_getD, zeros, getElem?_replicate]
  split <;> rfl

/-- **A header that was made is parsed** to what it was made of. -/
theorem parse_make (type : UstarType) (hn : 0 ∉ n) (hlen : (stripAntisocial n).length ≤ 99)
    (hs : size < 2 ^ 31) :
    ∃ header, ustarMakeHeader n type size = some header ∧ header.length = ustarHeaderSize ∧
      ustarParseHeader header = .ok
      (some ⟨stripAntisocial n, type, if type = .regular then size else 0⟩) := by
  obtain ⟨nm, hnm⟩ : ∃ nm, nm = stripAntisocial n := ⟨_, rfl⟩
  have hlen' : nm.length ≤ 99 := hnm ▸ hlen
  obtain ⟨c, hc⟩ : ∃ c, c = calculateChksum (ustarHeader nm type size).bytes := ⟨_, rfl⟩
  have hclt : c < 8 ^ 7 := hc ▸ calculateChksum_lt _
  obtain ⟨hd, hhd⟩ : ∃ hd : UstarHeader,
    hd = { ustarHeader nm type size with chksum := octalField 8 7 c } := ⟨_, rfl⟩
  have hmake : ustarMakeHeader n type size = some hd.bytes := by
    rw [ustarMakeHeader, ← hnm, hhd, hc]
    exact if_neg (by omega)
  have hsized : hd.Sized := hhd ▸ ustarHeader_sized hlen' hs (length_octalField hclt)
  refine ⟨hd.bytes, hmake, hsized.length_bytes, ?_⟩
  -- the fields
  have hmagic : fieldAt hd.bytes 257 6 = str "ustar" ++ [0] := by
    rw [hsized.fieldAt_magic, hhd]
    exact strlcpy_zeros (by decide)
  have hversion : fieldAt hd.bytes 263 2 = str "00" := by rw [hsized.fieldAt_version, hhd]; rfl
  have hchksum : parseOctalField (fieldAt hd.bytes 148 8) = some (calculateChksum hd.bytes) := by
    have hsame : calculateChksum hd.bytes = c := by
      rw [hc, hhd]
      exact calculateChksum_congr (by rw [← hsized.length_front, hhd]) (length_octalField hclt)
        (length_zeros 8)
    rw [hsized.fieldAt_chksum, hsame, hhd]
    exact parseOctalField_octalField hclt (by decide) (Nat.le_of_lt (Nat.lt_trans hclt (by decide)))
  have hname : fieldAt hd.bytes 0 100 = nm ++ zeros (100 - nm.length) := by
    rw [hsized.fieldAt_name, hhd]
    exact strlcpy_zeros (by omega)
  have hname99 : hd.bytes.getD 99 0 = 0 := by
    rw [← Nat.zero_add 99, getD_eq_fieldAt (by decide : 99 < 100), hname, getD_append_zeros hlen']
  have hprefix0 : hd.bytes.getD 345 0 = 0 := by
    rw [← Nat.add_zero 345, getD_eq_fieldAt (by decide : 0 < 155), hsized.fieldAt_pathPrefix, hhd]
    rfl
  have htype : hd.bytes.getD 156 0 = type.flag := by
    rw [← Nat.add_zero 156, getD_eq_fieldAt (by decide : 0 < 1), hsized.fieldAt_typeflag, hhd]
    rfl
  have hall : hd.bytes.all (· = 0) = false := by
    rw [all_eq_false]
    refine ⟨117, ?_, by decide⟩
    have : (117 : Byte) ∈ fieldAt hd.bytes 257 6 := by rw [hmagic]; decide
    exact mem_of_mem_drop (mem_of_mem_take this)
  have hcheck : checkHeader hd.bytes = none := by
    rw [checkHeader, if_neg (not_not.mpr hmagic), if_neg (not_not.mpr hversion), hchksum]
    dsimp only
    rw [if_neg (not_not.mpr rfl), if_neg (by rw [hname99, hprefix0]; decide), htype,
      if_neg (by cases type <;> decide)]
  have hstrip : stripAntisocial (cstr (fieldAt hd.bytes 0 100)) = nm := by
    have hnul : 0 ∉ nm := hnm ▸ nul_not_mem_strip hn
    obtain ⟨k, hk⟩ : ∃ k, 100 - nm.length = k + 1 := ⟨99 - nm.length, by omega⟩
    rw [hname, hk, zeros, replicate_succ, cstr_append_nul hnul, hnm, stripAntisocial_idem]
  have hentry : parseEntry hd.bytes = .ok ⟨nm, type, if type = .regular then size else 0⟩ := by
    rw [parseEntry, hstrip, htype]
    cases type with
    | directory => rfl
    | regular =>
      have hsize : parseOctalField (fieldAt hd.bytes 124 12) = some size := by
        rw [hsized.fieldAt_size, hhd]
        exact parseOctalField_octalField (Nat.lt_trans hs (by decide)) (by decide)
          (Nat.le_of_lt (Nat.lt_trans hs (by decide)))
      rw [if_pos rfl, hsize]
      exact if_neg (by omega)
  rw [ustarParseHeader, hall, if_neg (by decide), hcheck, hentry, ← hnm]
  rfl

/-! ## A header that was changed -/

/-- A header that is accepted has the magic, and the sum that it says it has. -/
theorem of_parse {e : UstarEntry} (hp : ustarParseHeader header = .ok (some e)) :
    fieldAt header 257 6 = str "ustar" ++ [0] ∧
      parseOctalField (fieldAt header 148 8) = some (calculateChksum header) := by
  rw [ustarParseHeader] at hp
  split at hp
  · cases hp
  cases hcheck : checkHeader header with
  | some e =>
    rw [hcheck] at hp
    cases hp
  | none =>
    rw [checkHeader] at hcheck
    split at hcheck
    · cases hcheck
    rename_i hmagic
    split at hcheck
    · cases hcheck
    cases hsum : parseOctalField (fieldAt header 148 8) with
    | none =>
      rw [hsum] at hcheck
      cases hcheck
    | some c =>
      rw [hsum] at hcheck
      dsimp only at hcheck
      split at hcheck
      · cases hcheck
      · rename_i hne
        exact ⟨not_not.mp hmagic, congrArg some (not_not.mp hne)⟩

theorem fieldAt_set {b : Byte} (hout : ¬(ofs ≤ i ∧ i < ofs + size)) :
    fieldAt (header.set i b) ofs size = fieldAt header ofs size := by
  refine ext_getElem? fun j => ?_
  simp only [fieldAt, getElem?_take, getElem?_drop]
  split
  · rw [getElem?_set_ne (by omega)]
  · rfl

/-- **Any other byte outside the checksum** is noticed. -/
theorem parse_set {b : Byte} {e : UstarEntry} (hlen : header.length = ustarHeaderSize)
    (hp : ustarParseHeader header = .ok (some e)) (hi : i < ustarHeaderSize)
    (hout : ¬(148 ≤ i ∧ i < 156)) (hb : b ≠ header.getD i 0) :
    ∃ err, ustarParseHeader (header.set i b) = .error err := by
  obtain ⟨hmagic, hsum⟩ := of_parse hp
  cases hp' : ustarParseHeader (header.set i b) with
  | error err => exact ⟨err, rfl⟩
  | ok r =>
    exfalso
    cases r with
    | none =>
      -- of the magic, at least a byte is left
      have hall : (header.set i b).all (· = 0) = true := by
        rw [ustarParseHeader] at hp'
        by_contra hc
        rw [if_neg hc] at hp'
        cases hcheck : checkHeader (header.set i b) with
        | some err =>
          rw [hcheck] at hp'
          cases hp'
        | none =>
          rw [hcheck] at hp'
          cases hentry : parseEntry (header.set i b) <;> rw [hentry] at hp' <;> cases hp'
      have hzero (j : Nat) (hj : j < ustarHeaderSize) (hij : i ≠ j) : header.getD j 0 = 0 := by
        have hj' : j < (header.set i b).length := by rw [length_set, hlen]; exact hj
        have := List.all_eq_true.mp hall _ (getElem_mem hj')
        rw [getElem_set_ne hij, decide_eq_true_eq] at this
        rw [getD_eq_getElem _ _ (by omega)]
        exact this
      have hu (j : Nat) (hj : j < 6) : header.getD (257 + j) 0 = (str "ustar" ++ [0]).getD j 0 := by
        rw [getD_eq_fieldAt hj, hmagic]
      by_cases hi' : i = 257
      · have := hzero 258 (by decide) (by omega)
        rw [hu 1 (by decide)] at this
        exact absurd this (by decide)
      · have := hzero 257 (by decide) hi'
        rw [hu 0 (by decide)] at this
        exact absurd this (by decide)
    | some e' =>
      obtain ⟨-, hsum'⟩ := of_parse hp'
      rw [fieldAt_set hout, hsum, Option.some.injEq] at hsum'
      have hset := calculateChksum_set (b := b) hlen hi hout
      rw [← hsum'] at hset
      exact hb (UInt8.toNat_inj.mp (by omega))

/-- **The codec of headers.** A header is made exactly if the stripped name has at most 99
characters, it is parsed to the stripped name, the type and the size, and any header of a file or
directory is refused after a byte outside `chksum` is changed. -/
theorem ustar_codec (fileName : List Byte) (hn : 0 ∉ fileName) (type : UstarType) (size : Nat)
    (hs : size < 2 ^ 31) :
    ((ustarMakeHeader fileName type size).isSome = true ↔ (stripAntisocial fileName).length ≤ 99) ∧
    (∀ header, ustarMakeHeader fileName type size = some header → header.length = ustarHeaderSize ∧
      ustarParseHeader header =
        .ok (some ⟨stripAntisocial fileName, type, if type = .regular then size else 0⟩)) ∧
    ∀ (header : List Byte) (e : UstarEntry) (i : Nat) (b : Byte), header.length = ustarHeaderSize →
      ustarParseHeader header = .ok (some e) → i < ustarHeaderSize → ¬(148 ≤ i ∧ i < 156) →
      b ≠ header.getD i 0 → ∃ err, ustarParseHeader (header.set i b) = .error err := by
  refine ⟨⟨fun h => ?_, fun h => ?_⟩, fun header hmake => ?_, fun header e i b hlen hp hi hout hb =>
    parse_set hlen hp hi hout hb⟩
  · by_contra hc
    rw [ustarMakeHeader] at h
    exact absurd h (by simp [Nat.not_le.mp hc])
  · obtain ⟨header, hmake, -⟩ := parse_make type hn h hs
    rw [hmake]
    rfl
  · have hlen : (stripAntisocial fileName).length ≤ 99 := by
      by_contra hc
      rw [ustarMakeHeader] at hmake
      exact absurd hmake (by simp [Nat.not_le.mp hc])
    obtain ⟨header', hmake', hlen', hp⟩ := parse_make type hn hlen hs
    obtain rfl := Option.some.inj (hmake'.symm.trans hmake)
    exact ⟨hlen', hp⟩

/-- `../a`, a file of five bytes. -/
theorem ustar_codec_dotdot : ∃ header, ustarMakeHeader (str "../a") .regular 5 = some header ∧
    ustarParseHeader header = .ok (some ⟨str "a", .regular, 5⟩) ∧
    ∃ err, ustarParseHeader (header.set 0 98) = .error err := by
  have hc := ustar_codec (str "../a") (by decide) .regular 5 (by decide)
  obtain ⟨header, hmake⟩ := Option.isSome_iff_exists.mp (hc.1.mpr (by decide))
  obtain ⟨hlen, hp⟩ := hc.2.1 header hmake
  have hfirst : (ustarMakeHeader (str "../a") .regular 5).map (·.getD 0 0) = some 97 := by
    decide +kernel
  rw [hmake, Option.map_some, Option.some.injEq] at hfirst
  refine ⟨header, hmake, hp, hc.2.2 header _ 0 98 hlen hp (by decide) (by decide) ?_⟩
  rw [hfirst]
  decide

end SystemProg.Pintos
