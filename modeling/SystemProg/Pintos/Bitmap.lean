import Mathlib.Data.List.GetD
import Mathlib.Data.Set.BooleanAlgebra
import Mathlib.Order.CompletePartialOrder
import Mathlib.Order.Interval.Set.Basic
import SystemProg.Data.Words

/-!
# Bitmaps

Model of the part of `lib/kernel/bitmap.c` that the free map uses. The bits of a bitmap are those of
its words, lowest first, so the array of words in memory, and in a file, is `packBits` of them. The
words may hold more bits than the bitmap has; those are whatever `malloc` returned.

`bitmap_contains`, `bitmap_set_multiple` assert that their range is inside the bitmap; the functions
here say what they compute if it is, and the callers assert it.
-/

namespace SystemProg.Pintos

open Data Text List

/-- `ELEM_BITS`: an `elem_type` is a 32-bit `unsigned long`. -/
def elemBits : Nat := 32

/-- `elem_cnt`. -/
def elemCnt (bitCnt : Nat) : Nat := (bitCnt + elemBits - 1) / elemBits

/-- `byte_cnt`. -/
def byteCnt (bitCnt : Nat) : Nat := 4 * elemCnt bitCnt

/-- `struct bitmap`. -/
structure Bitmap where
  bitCnt : Nat
  /-- The bits of all words. -/
  bits : List Bool
  full : bits.length = elemBits * elemCnt bitCnt

namespace Bitmap

/-- `bitmap_test`. -/
def test (b : Bitmap) (idx : Nat) : Bool := b.bits.getD idx false

/-- `bitmap_set`, `bitmap_mark`, `bitmap_reset`. -/
def set (b : Bitmap) (idx : Nat) (value : Bool) : Bitmap where
  bitCnt := b.bitCnt
  bits := b.bits.set idx value
  full := by rw [length_set, b.full]

/-- `bitmap_set_multiple`. -/
def setMultiple (b : Bitmap) (start : Nat) : (cnt : Nat) → (value : Bool) → Bitmap
  | 0, _ => b
  | cnt + 1, value => (b.setMultiple start cnt value).set (start + cnt) value

/-- `bitmap_contains`. -/
def contains (b : Bitmap) (start cnt : Nat) (value : Bool) : Bool :=
  (List.range cnt).any fun i => b.test (start + i) == value

/-- The range assertions of `bitmap_contains` and `bitmap_set_multiple`. -/
def InRange (b : Bitmap) (start cnt : Nat) : Prop := start ≤ b.bitCnt ∧ start + cnt ≤ b.bitCnt

instance (b : Bitmap) (start cnt : Nat) : Decidable (b.InRange start cnt) :=
    inferInstanceAs (Decidable (_ ∧ _))

/-- `bitmap_all`. -/
def all (b : Bitmap) (start cnt : Nat) : Bool := !b.contains start cnt false

/-- `bitmap_scan` from 0; `none` for `BITMAP_ERROR`. The ranges it looks at are inside the bitmap.
-/
def scan (b : Bitmap) (cnt : Nat) (value : Bool) : Option Nat :=
  if cnt ≤ b.bitCnt then
    (List.range (b.bitCnt - cnt + 1)).find? fun i => !b.contains i cnt !value
  else none

/-- The bits that `malloc` left in the words of a new bitmap, `bitmap_create`. -/
def create (bitCnt : Nat) (junk : Nat → Bool) : Bitmap where
  bitCnt := bitCnt
  bits := (List.range (elemBits * elemCnt bitCnt)).map fun i => if i < bitCnt then false else junk i
  full := by rw [length_map, length_range]

/-- What `bitmap_write` writes: the words. -/
def bytes (b : Bitmap) : List Byte := packBits b.bits

/-- `bitmap_read`: the words from a file, with the bits past the end cleared. -/
def ofBytes (b : Bitmap) (bs : List Byte) : Bitmap where
  bitCnt := b.bitCnt
  bits := (List.range (elemBits * elemCnt b.bitCnt)).map fun i =>
    if i < b.bitCnt then (unpackBits bs).getD i false else false
  full := by rw [length_map, length_range]

/-! ## As an array of bits -/

variable {b : Bitmap} {idx start cnt i : Nat} {value : Bool}

theorem bitCnt_le (b : Bitmap) : b.bitCnt ≤ b.bits.length := by
  rw [b.full, elemBits, elemCnt, elemBits]
  omega

@[simp] theorem bitCnt_set : (b.set idx value).bitCnt = b.bitCnt := rfl

@[simp] theorem bitCnt_setMultiple : (b.setMultiple start cnt value).bitCnt = b.bitCnt := by
  induction cnt with
  | zero => rfl
  | succ cnt ih => exact ih

theorem test_set (h : idx < b.bitCnt) (i : Nat) :
    (b.set idx value).test i = if i = idx then value else b.test i := by
  have := b.bitCnt_le
  unfold test set
  simp only [getD_eq_getElem?_getD, getElem?_set]
  by_cases hi : idx = i
  · subst hi
    rw [if_pos rfl, if_pos (by omega), if_pos rfl]
    rfl
  · rw [if_neg hi, if_neg (Ne.symm hi)]

theorem test_set_of_ne (h : i ≠ idx) : (b.set idx value).test i = b.test i := by
  rw [test, set, getD_eq_getElem?_getD, getElem?_set_ne (Ne.symm h), ← getD_eq_getElem?_getD]
  rfl

theorem test_setMultiple (h : b.InRange start cnt) (i : Nat) :
    (b.setMultiple start cnt value).test i =
    if start ≤ i ∧ i < start + cnt then value else b.test i := by
  induction cnt with
  | zero => rw [setMultiple, if_neg (by omega)]
  | succ cnt ih =>
    obtain ⟨h1, h2⟩ := h
    rw [setMultiple, test_set (by rw [bitCnt_setMultiple]; omega), ih ⟨h1, by omega⟩]
    by_cases hi : i = start + cnt
    · rw [if_pos hi, if_pos (by omega)]
    · rw [if_neg hi]
      exact if_congr (by omega) rfl rfl

theorem ext_test {b c : Bitmap} (hcnt : b.bitCnt = c.bitCnt) (h : ∀ i, b.test i = c.test i) :
    b = c := by
  obtain ⟨n, bits, full⟩ := b
  obtain ⟨n', bits', full'⟩ := c
  subst hcnt
  have hlen : bits.length = bits'.length := full.trans full'.symm
  have hbits : bits = bits' := by
    refine ext_getElem hlen fun i h1 h2 => ?_
    have := h i
    rwa [test, test, getD_eq_getElem _ _ h1, getD_eq_getElem _ _ h2] at this
  subst hbits
  rfl

theorem contains_eq_false : b.contains start cnt value = false ↔
    ∀ i, start ≤ i → i < start + cnt → b.test i = !value := by
  simp only [contains, any_eq_false, mem_range, beq_iff_eq]
  constructor
  · intro h i h1 h2
    have := h (i - start) (by omega)
    rw [Nat.add_sub_of_le h1] at this
    exact Bool.eq_not.mpr this
  · intro h i hi
    rw [h (start + i) (by omega) (by omega)]
    simp

theorem all_eq_true : b.all start cnt = true ↔ ∀ i, start ≤ i → i < start + cnt → b.test i =
    true := by
  rw [all, Bool.not_eq_true', contains_eq_false]
  rfl

/-- **What a scan finds** is a run of bits in range, with the value. -/
theorem scan_eq_some (h : b.scan cnt value = some start) :
    b.InRange start cnt ∧ ∀ i, start ≤ i → i < start + cnt → b.test i = value := by
  rw [scan, Option.ite_none_right_eq_some] at h
  obtain ⟨hcnt, h⟩ := h
  have hmem := mem_range.mp (mem_of_find?_eq_some h)
  have hc := find?_some h
  rw [Bool.not_eq_true', contains_eq_false] at hc
  refine ⟨⟨by omega, by omega⟩, fun i h1 h2 => ?_⟩
  rw [hc i h1 h2, Bool.not_not]

theorem contains_eq_true : b.contains start cnt value = true ↔
    ∃ i, start ≤ i ∧ i < start + cnt ∧ b.test i = value := by
  simp only [contains, any_eq_true, mem_range, beq_iff_eq]
  constructor
  · rintro ⟨i, hi, h⟩
    exact ⟨start + i, by omega, by omega, h⟩
  · rintro ⟨i, h1, h2, h⟩
    exact ⟨i - start, by omega, by rwa [Nat.add_sub_of_le h1]⟩

theorem scan_least (h : b.scan cnt value = some start) (hi : i < start) :
    ∃ j, i ≤ j ∧ j < i + cnt ∧ b.test j = !value := by
  rw [scan, Option.ite_none_right_eq_some] at h
  have hc := (find?_range_eq_some.mp h.2).2.2 i hi
  rw [Bool.not_not] at hc
  exact contains_eq_true.mp hc

/-- **A scan fails** if there is no such run. -/
theorem scan_eq_none : b.scan cnt value = none ↔
    ∀ start, start + cnt ≤ b.bitCnt → ∃ j, start ≤ j ∧ j < start + cnt ∧ b.test j = !value := by
  constructor
  · intro h start hle
    rw [scan, if_pos (by omega), find?_eq_none] at h
    have hc := h start (mem_range.mpr (by omega))
    rw [Bool.not_eq_true', Bool.not_eq_false] at hc
    exact contains_eq_true.mp hc
  · intro h
    cases hs : b.scan cnt value with
    | none => rfl
    | some start =>
      obtain ⟨hin, hall⟩ := scan_eq_some hs
      obtain ⟨j, h1, h2, h3⟩ := h start hin.2
      rw [hall j h1 h2] at h3
      cases value <;> cases h3

/-- What a scan found and marked, reset again, leaves no trace. -/
theorem reset_mark (h : b.scan cnt false = some start) :
    (b.setMultiple start cnt true).setMultiple start cnt false = b := by
  obtain ⟨hin, hfree⟩ := scan_eq_some h
  have hin' : (b.setMultiple start cnt true).InRange start cnt := by
    rwa [InRange, bitCnt_setMultiple]
  refine ext_test (by rw [bitCnt_setMultiple, bitCnt_setMultiple]) fun i => ?_
  rw [test_setMultiple hin', test_setMultiple hin]
  split
  · rename_i hi
    exact (hfree i hi.1 hi.2).symm
  · rfl

/-- The same, with another range marked in between. -/
theorem reset_mark_mark {start' cnt' : Nat} (h : b.scan cnt false = some start)
    (h' : (b.setMultiple start cnt true).scan cnt' false = some start') :
    ((b.setMultiple start cnt true).setMultiple start' cnt' true).setMultiple start cnt false =
      b.setMultiple start' cnt' true := by
  obtain ⟨hin, hfree⟩ := scan_eq_some h
  obtain ⟨hin', hfree'⟩ := scan_eq_some h'
  have hin1 : b.InRange start' cnt' := by rwa [InRange, bitCnt_setMultiple] at hin'
  have hin2 : ((b.setMultiple start cnt true).setMultiple start' cnt' true).InRange start cnt := by
    rwa [InRange, bitCnt_setMultiple, bitCnt_setMultiple]
  refine ext_test (by simp only [bitCnt_setMultiple]) fun i => ?_
  rw [test_setMultiple hin2, test_setMultiple hin', test_setMultiple hin1, test_setMultiple hin]
  by_cases hi : start ≤ i ∧ i < start + cnt
  · -- the second range was found among what was free then
    have hout : ¬(start' ≤ i ∧ i < start' + cnt') := fun hc => by
      have := hfree' i hc.1 hc.2
      rw [test_setMultiple hin, if_pos hi] at this
      cases this
    rw [if_pos hi, if_neg hout, hfree i hi.1 hi.2]
  · rw [if_neg hi, if_neg hi]

theorem scan_zero (b : Bitmap) : b.scan 0 value = some 0 := by
  rw [scan, if_pos (Nat.zero_le _), Nat.sub_zero, range_succ_eq_map, find?_cons_of_pos]
  rfl

theorem length_bytes (b : Bitmap) : b.bytes.length = byteCnt b.bitCnt :=
  (packBits_spec (4 * elemCnt b.bitCnt) (by rw [b.full, elemBits]; omega)).1

/-- The bytes hold the bits; they may hold anything past the end. -/
def HeldIn (b : Bitmap) (bs : List Byte) : Prop :=
  bs.length = byteCnt b.bitCnt ∧ ∀ i, i < b.bitCnt → (unpackBits bs).getD i false = b.test i

theorem heldIn_bytes (b : Bitmap) : b.HeldIn b.bytes := by
  obtain ⟨-, hunpack⟩ := packBits_spec (4 * elemCnt b.bitCnt) (by rw [b.full, elemBits]; omega)
  refine ⟨b.length_bytes, fun i _ => ?_⟩
  rw [bytes, hunpack, test]

/-- **A bitmap read back from what was written.** -/
theorem test_ofBytes {bs : List Byte} (h : b.HeldIn bs) {c : Bitmap} (hc : c.bitCnt = b.bitCnt)
    (hi : i < b.bitCnt) : (c.ofBytes bs).test i = b.test i := by
  have hlen : i < elemBits * elemCnt c.bitCnt := by
    have := b.bitCnt_le
    rw [b.full] at this
    rw [hc]
    omega
  rw [test, ofBytes, getD_eq_getElem?_getD, getElem?_map, getElem?_range hlen]
  simp only [Option.map_some, Option.getD_some]
  rw [if_pos (hc ▸ hi), h.2 i hi]

theorem heldIn_ofBytes {bs : List Byte} (h : b.HeldIn bs) {c : Bitmap} (hc : c.bitCnt = b.bitCnt) :
    (c.ofBytes bs).HeldIn bs := by
  refine ⟨h.1.trans (congrArg byteCnt hc.symm), fun i hi => ?_⟩
  have hi' : i < b.bitCnt := hc ▸ hi
  rw [test_ofBytes h hc hi', h.2 i hi']

theorem test_create {junk : Nat → Bool} {n : Nat} (h : i < n) : (create n junk).test i = false := by
  have hlen : i < elemBits * elemCnt n := by
    rw [elemBits, elemCnt, elemBits]
    omega
  rw [test, create, getD_eq_getElem?_getD, getElem?_map, getElem?_range hlen]
  simp only [Option.map_some, Option.getD_some]
  rw [if_pos h]

/-! ## As a set -/

variable {m : Bitmap} {n s : Nat}

/-- The bits that are set. -/
def used (m : Bitmap) : Set Nat := {x | x < m.bitCnt ∧ m.test x = true}

theorem used_mark (h : m.InRange s cnt) :
    (m.setMultiple s cnt true).used = m.used ∪ Set.Ico s (s + cnt) := by
  ext x
  have := h.2
  simp only [used, Set.mem_ofPred_eq, bitCnt_setMultiple, test_setMultiple h, Set.mem_union,
    Set.mem_Ico]
  by_cases hx : s ≤ x ∧ x < s + cnt
  · rw [if_pos hx]
    exact ⟨fun _ => .inr hx, fun _ => ⟨by omega, rfl⟩⟩
  · rw [if_neg hx]
    exact ⟨.inl, fun h => h.resolve_right hx⟩

theorem used_reset (h : m.InRange s cnt) :
    (m.setMultiple s cnt false).used = m.used \ Set.Ico s (s + cnt) := by
  ext x
  simp only [used, Set.mem_ofPred_eq, bitCnt_setMultiple, test_setMultiple h, Set.mem_sdiff,
    Set.mem_Ico]
  by_cases hx : s ≤ x ∧ x < s + cnt
  · rw [if_pos hx]
    exact ⟨fun h => absurd h.2 (by decide), fun h => absurd hx h.2⟩
  · rw [if_neg hx]
    exact ⟨fun h => ⟨h, hx⟩, fun h => h.1⟩

theorem used_ofBytes {bs : List Byte} (h : m.HeldIn bs) {c : Bitmap} (hc : c.bitCnt = m.bitCnt) :
    (c.ofBytes bs).used = m.used := by
  ext x
  constructor
  · rintro ⟨hx, ht⟩
    have hx' : x < m.bitCnt := hc ▸ hx
    exact ⟨hx', test_ofBytes h hc hx' ▸ ht⟩
  · rintro ⟨hx, ht⟩
    exact ⟨hc.symm ▸ hx, (test_ofBytes h hc hx).trans ht⟩

/-- What a scan for clear bits finds is not in use. -/
theorem disjoint_used_of_scan (h : m.scan cnt false = some s) :
    Disjoint (Set.Ico s (s + cnt)) m.used :=
  Set.disjoint_left.mpr fun x hx hu => by
    have := (scan_eq_some h).2 x hx.1 hx.2
    rw [hu.2] at this
    cases this

/-- Where the bits in use are the first ones, a scan takes the next ones. -/
theorem eq_of_scan_initial (hu : m.used = Set.Iio n) (hpos : 0 < cnt)
    (h : m.scan cnt false = some s) :
    s = n := by
  have hmem (x) : x < m.bitCnt ∧ m.test x = true ↔ x < n := by
    show x ∈ m.used ↔ _
    rw [hu, Set.mem_Iio]
  obtain ⟨hin, hfree⟩ := scan_eq_some h
  have hn : n ≤ s := Nat.not_lt.mp fun hlt => by
    have := ((hmem s).mpr hlt).2
    rw [hfree s (Nat.le_refl s) (by omega)] at this
    cases this
  have hs : s ≤ n := Nat.not_lt.mp fun hlt => by
    obtain ⟨j, h1, h2, h3⟩ := scan_least h hlt
    have := (hmem j).mp ⟨by have := hin.2; omega, h3⟩
    omega
  exact Nat.le_antisymm hs hn

theorem scan_initial (hu : m.used = Set.Iio n) (hpos : 0 < cnt) (hle : n + cnt ≤ m.bitCnt) :
    m.scan cnt false = some n := by
  cases h : m.scan cnt false with
  | none =>
    obtain ⟨j, h1, h2, h3⟩ := scan_eq_none.mp h n hle
    have hj : j ∈ m.used := ⟨by omega, h3⟩
    rw [hu, Set.mem_Iio] at hj
    omega
  | some s => rw [eq_of_scan_initial hu hpos h]

theorem used_initial (cnt : Nat) (hu : m.used = Set.Iio n) (hle : n + cnt ≤ m.bitCnt) :
    (m.setMultiple n cnt true).used = Set.Iio (n + cnt) := by
  rw [used_mark ⟨by omega, hle⟩, hu]
  ext x
  simp only [Set.mem_union, Set.mem_Iio, Set.mem_Ico]
  omega

end Bitmap

end SystemProg.Pintos
