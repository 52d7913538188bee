import Mathlib.Algebra.Group.Nat.Defs
import SystemProg.Data.Memory
import SystemProg.Pintos.Bitmap
import SystemProg.Seq.Panic

/-!
# Bitmaps in words

`lib/kernel/bitmap.c` on the words that the bits are packed in, bit by bit and with its assertions.
A `size_t` and an `elem_type` have 32 bits. A read or a write of a word that is not there is `none`,
as a failed assertion is.

`elem_cnt` wraps around for the 31 greatest values of `bit_cnt`. There `bitmap_create` asks `malloc`
for 0 bytes, gets a null pointer and returns one (`create`), so that every bitmap has its words.

* `toList b` — the bitmap as a list of booleans.
* `PackedOp.exec_spec`, `runAll_spec` — an operation, and any sequence of them, does to the words
  what it does to the list.
* `packed_refines` — the tests, counts and scans after any sequence of operations.
-/

namespace SystemProg.Pintos.Packed

open Data SystemProg.Seq List

/-- `elem_type`. -/
abbrev Elem := BitVec 32

/-- `elem_idx`. -/
def elemIdx (bitIdx : Nat) : Nat := bitIdx / elemBits

/-- `bit_mask`. -/
def bitMask (bitIdx : Nat) : Elem := 1#32 <<< (bitIdx % elemBits)

/-- `struct bitmap`. The number of words did not wrap around. -/
structure WordBitmap where
  bitCnt : Nat
  words : List Elem
  fits : bitCnt + elemBits ≤ 2 ^ 32
  full : words.length = elemCnt bitCnt

/-! ## Words -/

/-- `b->bits[idx]`. -/
def readElem (idx : Nat) : Panic WordBitmap Elem := do
  let b ← get
  match b.words[idx]? with
  | some w => return w
  | none => abort

theorem length_modify_words (b : WordBitmap) (idx : Nat) (f : Elem → Elem) :
    (b.words.modify idx f).length = elemCnt b.bitCnt := by
  rw [length_modify, b.full]

/-- `b->bits[idx]` changed by one instruction. -/
def modifyElem (idx : Nat) (f : Elem → Elem) : Panic WordBitmap Unit := do
  let b ← get
  assert (idx < b.words.length)
  set { b with words := b.words.modify idx f, full := length_modify_words b idx f }

/-! ## Single bits -/

/-- `bitmap_mark`. -/
def mark (bitIdx : Nat) : Panic WordBitmap Unit :=
  modifyElem (elemIdx bitIdx) fun w => w ||| bitMask bitIdx

/-- `bitmap_reset`. -/
def reset (bitIdx : Nat) : Panic WordBitmap Unit :=
  modifyElem (elemIdx bitIdx) fun w => w &&& ~~~ bitMask bitIdx

/-- `bitmap_flip`. -/
def flip (bitIdx : Nat) : Panic WordBitmap Unit :=
  modifyElem (elemIdx bitIdx) fun w => w ^^^ bitMask bitIdx

/-- `bitmap_set`. -/
def set (idx : Nat) (value : Bool) : Panic WordBitmap Unit := do
  let b ← get
  assert (idx < b.bitCnt)
  if value then mark idx else reset idx

/-- `bitmap_test`. -/
def test (idx : Nat) : Panic WordBitmap Bool := do
  let b ← get
  assert (idx < b.bitCnt)
  let w ← readElem (elemIdx idx)
  return decide (w &&& bitMask idx ≠ 0)

/-! ## Several bits -/

/-- The assertions on a range; the sum is one of `size_t`. -/
def assertRange (start cnt : Nat) : Panic WordBitmap Unit := do
  let b ← get
  assert (start ≤ b.bitCnt)
  assert ((start + cnt) % 2 ^ 32 ≤ b.bitCnt)

/-- The loop of `bitmap_set_multiple` from `i` on, with `turns` to go. -/
def setLoop (start : Nat) (value : Bool) : (turns i : Nat) → Panic WordBitmap Unit
  | 0, _ => return ()
  | turns + 1, i => do
    set (start + i) value
    setLoop start value turns (i + 1)

/-- `bitmap_set_multiple`. -/
def setMultiple (start cnt : Nat) (value : Bool) : Panic WordBitmap Unit := do
  assertRange start cnt
  setLoop start value cnt 0

/-- The loop of `bitmap_count`. -/
def countLoop (start : Nat) (value : Bool) : (turns i valueCnt : Nat) → Panic WordBitmap Nat
  | 0, _, valueCnt => return valueCnt
  | turns + 1, i, valueCnt => do
    let bit ← test (start + i)
    countLoop start value turns (i + 1) (if bit = value then valueCnt + 1 else valueCnt)

/-- `bitmap_count`. -/
def count (start cnt : Nat) (value : Bool) : Panic WordBitmap Nat := do
  assertRange start cnt
  countLoop start value cnt 0 0

/-- The loop of `bitmap_contains`. -/
def containsLoop (start : Nat) (value : Bool) : (turns i : Nat) → Panic WordBitmap Bool
  | 0, _ => return false
  | turns + 1, i => do
    let bit ← test (start + i)
    if bit = value then return true
    containsLoop start value turns (i + 1)

/-- `bitmap_contains`. -/
def contains (start cnt : Nat) (value : Bool) : Panic WordBitmap Bool := do
  assertRange start cnt
  containsLoop start value cnt 0

/-- `BITMAP_ERROR`, the greatest `size_t`. -/
def bitmapError : Nat := 2 ^ 32 - 1

/-- The loop of `bitmap_scan`; it has at most `turns` turns. -/
def scanLoop (cnt : Nat) (value : Bool) (last : Nat) : (turns i : Nat) → Panic WordBitmap Nat
  | 0, _ => abort
  | turns + 1, i => do
    if last < i then return bitmapError
    if !(← contains i cnt !value) then return i
    scanLoop cnt value last turns (i + 1)

/-- `bitmap_scan`. -/
def scan (start cnt : Nat) (value : Bool) : Panic WordBitmap Nat := do
  let b ← get
  assert (start ≤ b.bitCnt)
  if cnt ≤ b.bitCnt then scanLoop cnt value (b.bitCnt - cnt) (b.bitCnt + 2) start
  else return bitmapError

/-- `bitmap_scan_and_flip`. -/
def scanAndFlip (start cnt : Nat) (value : Bool) : Panic WordBitmap Nat := do
  let idx ← scan start cnt value
  if idx ≠ bitmapError then setMultiple idx cnt !value
  return idx

/-! ## The list of bits -/

/-- Bit `i` of the words. -/
def WordBitmap.bit (b : WordBitmap) (i : Nat) : Bool :=
  (b.words.getD (i / elemBits) 0).getLsbD (i % elemBits)

/-- The bits. -/
def WordBitmap.toList (b : WordBitmap) : List Bool := slice b.bit 0 b.bitCnt

section Bits

variable {b b' : WordBitmap} {idx i start cnt turns : Nat} {value : Bool} {f : Elem → Elem}
  {g : Bool → Bool}

theorem length_toList (b : WordBitmap) : b.toList.length = b.bitCnt := length_slice _ _ _

theorem getElem?_toList (b : WordBitmap) (i : Nat) :
    b.toList[i]? = if i < b.bitCnt then some (b.bit i) else none := by
  rw [WordBitmap.toList, getElem?_slice, Nat.zero_add]

theorem range_toList (h : start + cnt ≤ b.bitCnt) :
    (b.toList.drop start).take cnt = slice b.bit start cnt := by
  rw [WordBitmap.toList, drop_slice, take_slice, Nat.zero_add, Nat.min_eq_left (by omega)]

theorem getLsbD_bitMask (idx j : Nat) : (bitMask idx).getLsbD j = decide (j = idx % elemBits) := by
  have hlt : idx % elemBits < 32 := Nat.mod_lt _ (by decide)
  rw [bitMask, ← BitVec.twoPow_eq, BitVec.getLsbD_twoPow]
  by_cases hj : j = idx % elemBits
  · simp [hj, hlt]
  · simp [hj, Ne.symm hj]

theorem and_bitMask_ne_zero (w : Elem) (idx : Nat) :
    decide (w &&& bitMask idx ≠ 0) = w.getLsbD (idx % elemBits) := by
  have hlt : idx % elemBits < 32 := Nat.mod_lt _ (by decide)
  cases hbit : w.getLsbD (idx % elemBits) with
  | true =>
    refine decide_eq_true fun h => ?_
    have := congrArg (fun x => x.getLsbD (idx % elemBits)) h
    simp [getLsbD_bitMask, hbit] at this
  | false =>
    refine decide_eq_false (not_not.mpr (BitVec.eq_of_getLsbD_eq fun j hj => ?_))
    rw [BitVec.getLsbD_and, getLsbD_bitMask]
    by_cases hj' : j = idx % elemBits
    · simp [hj', hbit]
    · simp [hj']

theorem elemIdx_lt (hidx : idx < b.bitCnt) : elemIdx idx < b.words.length := by
  rw [b.full, elemIdx, elemCnt, elemBits]
  omega

theorem bit_of_word {w : Elem} (h : b.words[elemIdx i]? = some w) :
    b.bit i = w.getLsbD (i % elemBits) := by
  rw [WordBitmap.bit, getD_eq_getElem?_getD, show b.words[i / elemBits]? = some w from h,
    Option.getD_some]

/-- The bits after a change. -/
structure Becomes (b b' : WordBitmap) (bits : Nat → Bool) : Prop where
  bitCnt : b'.bitCnt = b.bitCnt
  bit : ∀ i, i < b.bitCnt → b'.bit i = bits i

/-- **One bit of one word.** -/
theorem modifyElem_spec (hidx : idx < b.bitCnt) (hf : ∀ w j, j < 32 → (f w).getLsbD j =
      if j = idx % elemBits then g (w.getLsbD j) else w.getLsbD j) :
    wp (modifyElem (elemIdx idx) f)
      (fun _ b' => Becomes b b' (Function.update b.bit idx (g (b.bit idx)))) b := by
  rw [modifyElem]
  refine wp_get (wp_assert (elemIdx_lt hidx) (wp_of_eq set_eq ⟨rfl, fun i hi => ?_⟩))
  have hlt : i % elemBits < 32 := Nat.mod_lt _ (by decide)
  obtain ⟨w, hw⟩ : ∃ w, b.words[elemIdx i]? = some w :=
    ⟨_, getElem?_eq_getElem (elemIdx_lt hi)⟩
  have hnew : (b.words.modify (elemIdx idx) f)[elemIdx i]? =
      some (if elemIdx idx = elemIdx i then f w else w) := by
    rw [getElem?_modify, hw]
    rfl
  rw [bit_of_word hnew]
  by_cases hii : i = idx
  · subst hii
    rw [if_pos rfl, hf _ _ hlt, if_pos rfl, Function.update_self, bit_of_word hw]
  · rw [Function.update_of_ne hii, bit_of_word hw]
    split
    · rename_i hword
      have hmod : i % elemBits ≠ idx % elemBits := by
        unfold elemIdx elemBits at *
        omega
      rw [hf _ _ hlt, if_neg hmod]
    · rfl

theorem mark_spec (hidx : idx < b.bitCnt) :
    wp (mark idx) (fun _ b' => Becomes b b' (Function.update b.bit idx true)) b := by
  refine modifyElem_spec (g := fun _ => true) hidx fun w j _ => ?_
  rw [BitVec.getLsbD_or, getLsbD_bitMask]
  split <;> simp [*]

theorem reset_spec (hidx : idx < b.bitCnt) :
    wp (reset idx) (fun _ b' => Becomes b b' (Function.update b.bit idx false)) b := by
  refine modifyElem_spec (g := fun _ => false) hidx fun w j hj => ?_
  rw [BitVec.getLsbD_and, BitVec.getLsbD_not, getLsbD_bitMask]
  split <;> simp [*]

theorem flip_spec (hidx : idx < b.bitCnt) :
    wp (flip idx) (fun _ b' => Becomes b b' (Function.update b.bit idx !b.bit idx)) b := by
  refine modifyElem_spec (g := not) hidx fun w j _ => ?_
  rw [BitVec.getLsbD_xor, getLsbD_bitMask]
  split <;> simp [*]

theorem set_spec (hidx : idx < b.bitCnt) :
    wp (set idx value) (fun _ b' => Becomes b b' (Function.update b.bit idx value)) b := by
  rw [set]
  refine wp_get (wp_assert hidx ?_)
  cases value with
  | true => exact mark_spec hidx
  | false => exact reset_spec hidx

theorem test_eq (hidx : idx < b.bitCnt) : test idx b = some (b.bit idx, b) := by
  obtain ⟨w, hw⟩ : ∃ w, b.words[elemIdx idx]? = some w :=
    ⟨_, getElem?_eq_getElem (elemIdx_lt hidx)⟩
  have hread : readElem (elemIdx idx) b = some (w, b) := by
    rw [readElem, get_bind, hw]
    rfl
  rw [test, get_bind, bind_eq (assert_eq hidx), bind_eq hread, pure_eq, and_bitMask_ne_zero,
    bit_of_word hw]

/-! ## Ranges -/

theorem assertRange_eq (h : start + cnt ≤ b.bitCnt) : assertRange start cnt b = some ((), b) := by
  have hfits := b.fits
  unfold elemBits at hfits
  rw [assertRange, get_bind, bind_eq (assert_eq (by omega))]
  exact assert_eq (by omega)

/-- The bits with a range set. -/
def withRange (bits : Nat → Bool) (start cnt : Nat) (value : Bool) : Nat → Bool := fun i =>
  if start ≤ i ∧ i < start + cnt then value else bits i

/-- **The loop of `bitmap_set_multiple`.** -/
theorem setLoop_spec (h : start + i + turns ≤ b.bitCnt) :
    wp (setLoop start value turns i)
      (fun _ b' => Becomes b b' (withRange b.bit (start + i) turns value)) b := by
  induction turns generalizing b i with
  | zero => exact wp_pure ⟨rfl, fun j _ => (if_neg (by omega)).symm⟩
  | succ turns ih =>
    rw [setLoop]
    refine wp_bind (set_spec (by omega)) fun _ b1 h1 => ?_
    refine wp_mono (ih (by rw [h1.bitCnt]; omega)) fun _ b2 h2 => ?_
    refine ⟨h2.bitCnt.trans h1.bitCnt, fun j hj => ?_⟩
    rw [h2.bit j (h1.bitCnt ▸ hj), withRange, withRange, h1.bit j hj]
    by_cases hj' : j = start + i
    · rw [if_neg (by omega), if_pos (by omega), hj', Function.update_self]
    · rw [Function.update_of_ne hj']
      exact if_congr (by omega) rfl rfl

theorem setMultiple_spec (h : start + cnt ≤ b.bitCnt) :
    wp (setMultiple start cnt value)
      (fun _ b' => Becomes b b' (withRange b.bit start cnt value)) b := by
  rw [setMultiple]
  exact wp_call (assertRange_eq h) (setLoop_spec (i := 0) h)

theorem countLoop_eq {valueCnt : Nat} (h : start + i + turns ≤ b.bitCnt) :
    countLoop start value turns i valueCnt b =
      some (valueCnt + (slice b.bit (start + i) turns).count value, b) := by
  induction turns generalizing i valueCnt with
  | zero => rfl
  | succ turns ih =>
    rw [countLoop, bind_eq (test_eq (by omega)), ih (by omega), slice_cons, count_cons]
    congr 2
    simp only [beq_iff_eq]
    split
    · rw [Nat.add_assoc start i 1]
      omega
    · rfl

theorem count_eq (h : start + cnt ≤ b.bitCnt) :
    count start cnt value b = some (((b.toList.drop start).take cnt).count value, b) := by
  rw [count, bind_eq (assertRange_eq h), countLoop_eq h, range_toList h, Nat.zero_add]
  rfl

theorem containsLoop_eq (h : start + i + turns ≤ b.bitCnt) : containsLoop start value turns i b =
    some (decide (value ∈ slice b.bit (start + i) turns), b) := by
  induction turns generalizing i with
  | zero => rfl
  | succ turns ih =>
    rw [containsLoop, bind_eq (test_eq (by omega)), slice_cons]
    by_cases hbit : b.bit (start + i) = value
    · rw [if_pos hbit, pure_eq]
      simp [hbit]
    · rw [if_neg hbit, ih (by omega), ← Nat.add_assoc]
      simp [Ne.symm hbit]

theorem contains_eq (h : start + cnt ≤ b.bitCnt) : contains start cnt value b =
    some (decide (value ∈ (b.toList.drop start).take cnt), b) := by
  rw [contains, bind_eq (assertRange_eq h), containsLoop_eq h, range_toList h]
  rfl

end Bits

/-! ## Scans -/

/-- `cnt` bits from `i` on have the value. -/
def Group (l : List Bool) (cnt : Nat) (value : Bool) (i : Nat) : Prop :=
  i + cnt ≤ l.length ∧ ∀ x ∈ (l.drop i).take cnt, x = value

/-- What `bitmap_scan` returns: the first group at or after `start`, or `BITMAP_ERROR`. -/
structure Scanned (l : List Bool) (start cnt : Nat) (value : Bool) (r : Nat) : Prop where
  found : r ≠ bitmapError → start ≤ r ∧ Group l cnt value r ∧
    ∀ i, start ≤ i → i < r → ¬ Group l cnt value i
  error : r = bitmapError ↔ ∀ i, start ≤ i → ¬ Group l cnt value i

section Scan

variable {b : WordBitmap} {i start cnt turns : Nat} {value : Bool}

theorem group_iff (h : i + cnt ≤ b.bitCnt) :
    Group b.toList cnt value i ↔ (!value) ∉ (b.toList.drop i).take cnt := by
  rw [Group, length_toList, and_iff_right h]
  constructor
  · intro hall hmem
    have := hall _ hmem
    cases value <;> cases this
  · intro hnot x hx
    by_contra hne
    exact hnot (Bool.eq_not.mpr hne ▸ hx)

/-- **The loop of `bitmap_scan`.** -/
theorem scanLoop_spec (hcnt : cnt ≤ b.bitCnt) (hi : start ≤ i) (hle : i ≤ b.bitCnt + 1)
    (hturns : b.bitCnt + 1 < turns + i)
    (hbefore : ∀ j, start ≤ j → j < i → ¬ Group b.toList cnt value j) :
    ∃ r, scanLoop cnt value (b.bitCnt - cnt) turns i b = some (r, b) ∧
      Scanned b.toList start cnt value r := by
  have hfits := b.fits
  unfold elemBits at hfits
  induction turns generalizing i with
  | zero => omega
  | succ turns ih =>
    rw [scanLoop]
    by_cases hlast : b.bitCnt - cnt < i
    · rw [if_pos hlast]
      have hnone : ∀ j, start ≤ j → ¬ Group b.toList cnt value j := by
        intro j hj hgroup
        by_cases hji : j < i
        · exact hbefore j hj hji hgroup
        · have := hgroup.1
          rw [length_toList] at this
          omega
      exact ⟨bitmapError, rfl, fun h => absurd rfl h, iff_of_true rfl hnone⟩
    rw [if_neg hlast, bind_eq (contains_eq (by omega))]
    by_cases hgroup : Group b.toList cnt value i
    · rw [decide_eq_false ((group_iff (by omega)).mp hgroup)]
      have hne : i ≠ bitmapError := by
        rw [bitmapError]
        omega
      exact ⟨i, rfl, fun _ => ⟨hi, hgroup, hbefore⟩,
        iff_of_false hne fun h => h i hi hgroup⟩
    · have hmem := not_not.mp (mt (group_iff (by omega)).mpr hgroup)
      rw [decide_eq_true hmem]
      refine ih (by omega) (by omega) (by omega) fun j hj hji => ?_
      rcases Nat.lt_or_eq_of_le (Nat.le_of_lt_succ hji) with hji | rfl
      · exact hbefore j hj hji
      · exact hgroup

theorem scan_spec (hstart : start ≤ b.bitCnt) (cnt : Nat) (value : Bool) :
    ∃ r, scan start cnt value b = some (r, b) ∧ Scanned b.toList start cnt value r := by
  rw [scan, get_bind, bind_eq (assert_eq hstart)]
  by_cases hcnt : cnt ≤ b.bitCnt
  · rw [if_pos hcnt]
    exact scanLoop_spec hcnt le_rfl (by omega) (by omega) fun j h1 h2 => by omega
  · rw [if_neg hcnt]
    have hnone : ∀ j, start ≤ j → ¬ Group b.toList cnt value j := by
      intro j _ hgroup
      have := hgroup.1
      rw [length_toList] at this
      omega
    exact ⟨bitmapError, rfl, fun h => absurd rfl h, iff_of_true rfl hnone⟩

end Scan

/-! ## Operations on the list -/

instance (l : List Bool) (cnt : Nat) (value : Bool) (i : Nat) : Decidable (Group l cnt value i) :=
  inferInstanceAs (Decidable (_ ∧ _))

/-- The first group at or after `start`. -/
def firstGroup (l : List Bool) (start cnt : Nat) (value : Bool) : Option Nat :=
  (List.range (l.length + 1)).find? fun i => start ≤ i ∧ Group l cnt value i

/-- The bits of a range negated. -/
def negated (l : List Bool) (i cnt : Nat) : List Bool :=
  splice l i (((l.drop i).take cnt).map not)

/-- A call that changes a bitmap. -/
inductive PackedOp where
  | set (idx : Nat) (value : Bool)
  | mark (bitIdx : Nat)
  | reset (bitIdx : Nat)
  | flip (bitIdx : Nat)
  | setMultiple (start cnt : Nat) (value : Bool)
  | scanAndFlip (start cnt : Nat) (value : Bool)
  deriving DecidableEq

namespace PackedOp

/-- The call. -/
def exec : PackedOp → Panic WordBitmap Unit
  | set idx value => Packed.set idx value
  | mark bitIdx => Packed.mark bitIdx
  | reset bitIdx => Packed.reset bitIdx
  | flip bitIdx => Packed.flip bitIdx
  | setMultiple start cnt value => Packed.setMultiple start cnt value
  | scanAndFlip start cnt value => do
    let _ ← Packed.scanAndFlip start cnt value

/-- What the call does to a list of booleans. -/
def apply (l : List Bool) : PackedOp → List Bool
  | set idx value => l.set idx value
  | mark bitIdx => l.set bitIdx true
  | reset bitIdx => l.set bitIdx false
  | flip bitIdx => l.modify bitIdx not
  | setMultiple start cnt value => splice l start (List.replicate cnt value)
  | scanAndFlip start cnt value =>
    match firstGroup l start cnt value with
    | some i => negated l i cnt
    | none => l

/-- Its arguments are in range. -/
def InRange (bitCnt : Nat) : PackedOp → Prop
  | set idx _ => idx < bitCnt
  | mark bitIdx => bitIdx < bitCnt
  | reset bitIdx => bitIdx < bitCnt
  | flip bitIdx => bitIdx < bitCnt
  | setMultiple start cnt _ => start + cnt ≤ bitCnt
  | scanAndFlip start _ _ => start ≤ bitCnt

end PackedOp

section Operations

variable {b b' : WordBitmap} {bits : Nat → Bool} {idx start cnt r n bitCnt : Nat} {value : Bool}
  {l : List Bool} {op : PackedOp}

theorem toList_of_becomes (h : Becomes b b' bits) : b'.toList = slice bits 0 b.bitCnt := by
  rw [WordBitmap.toList, h.bitCnt]
  exact slice_congr fun i _ hi => h.bit i (by omega)

theorem slice_update (bits : Nat → Bool) (idx n : Nat) (value : Bool) :
    slice (Function.update bits idx value) 0 n = (slice bits 0 n).set idx value := by
  refine ext_getElem? fun i => ?_
  rw [getElem?_slice, getElem?_set, getElem?_slice, length_slice, Nat.zero_add]
  by_cases hi : idx = i
  · subst hi
    simp
  · rw [if_neg hi, Function.update_of_ne (Ne.symm hi)]

theorem slice_withRange (bits : Nat → Bool) (value : Bool) (h : start + cnt ≤ n) :
    slice (withRange bits start cnt value) 0 n =
      splice (slice bits 0 n) start (List.replicate cnt value) := by
  have hpatch : withRange bits start cnt value = patch bits start (List.replicate cnt value) := by
    funext i
    unfold withRange patch
    by_cases h1 : start ≤ i
    · by_cases h2 : i < start + cnt
      · rw [if_pos ⟨h1, h2⟩, if_pos h1, getD_replicate _ (by omega)]
      · rw [if_neg (by omega), if_pos h1, getD_eq_default _ _ (by simp; omega)]
    · rw [if_neg (by omega), if_neg h1]
  rw [hpatch, slice_patch (Nat.zero_le _) (by simpa using h), Nat.sub_zero]

theorem negated_of_group (h : Group l cnt value r) :
    negated l r cnt = splice l r (List.replicate cnt !value) := by
  have hlen : ((l.drop r).take cnt).length = cnt := by
    have := h.1
    rw [length_take, length_drop]
    omega
  have hrep : (l.drop r).take cnt = List.replicate cnt value :=
    eq_replicate_iff.mpr ⟨hlen, h.2⟩
  rw [negated, hrep, map_replicate]

theorem firstGroup_of_scanned (h : Scanned l start cnt value r) :
    firstGroup l start cnt value = if r = bitmapError then none else some r := by
  by_cases hr : r = bitmapError
  · rw [if_pos hr]
    refine find?_eq_none.mpr fun i _ hi => ?_
    obtain ⟨h1, h2⟩ := of_decide_eq_true hi
    exact h.error.mp hr i h1 h2
  · rw [if_neg hr]
    obtain ⟨hle, hgroup, hleast⟩ := h.found hr
    refine find?_range_eq_some.mpr ⟨decide_eq_true ⟨hle, hgroup⟩, ?_, fun i hi => ?_⟩
    · have := hgroup.1
      exact mem_range.mpr (by omega)
    · rw [Bool.not_eq_true', decide_eq_false_iff_not]
      exact fun hc => hleast i hc.1 hi hc.2

/-- **`bitmap_scan_and_flip`.** -/
theorem scanAndFlip_spec (hstart : start ≤ b.bitCnt) (cnt : Nat) (value : Bool) :
    ∃ r b', scanAndFlip start cnt value b = some (r, b') ∧ Scanned b.toList start cnt value r ∧
      b'.bitCnt = b.bitCnt ∧
      b'.toList = if r = bitmapError then b.toList else negated b.toList r cnt := by
  obtain ⟨r, hscan, hr⟩ := scan_spec hstart cnt value
  rw [scanAndFlip, bind_eq hscan]
  by_cases herr : r = bitmapError
  · rw [if_neg (not_not.mpr herr)]
    exact ⟨r, b, rfl, hr, rfl, by rw [if_pos herr]⟩
  · rw [if_pos herr]
    obtain ⟨-, hgroup, -⟩ := hr.found herr
    have hin : r + cnt ≤ b.bitCnt := length_toList b ▸ hgroup.1
    obtain ⟨_, b', hset, hb'⟩ : wp (setMultiple r cnt !value) _ b := setMultiple_spec hin
    refine ⟨r, b', bind_eq hset, hr, hb'.bitCnt, ?_⟩
    rw [if_neg herr, negated_of_group hgroup, toList_of_becomes hb', slice_withRange _ _ hin]
    rfl

/-- **One call** does to the words what it does to the list. -/
theorem PackedOp.exec_spec (h : op.InRange b.bitCnt) :
    wp op.exec (fun _ b' => b'.bitCnt = b.bitCnt ∧ b'.toList = op.apply b.toList) b := by
  cases op with
  | set idx value =>
    refine wp_mono (set_spec h) fun _ b' hb' => ⟨hb'.bitCnt, ?_⟩
    rw [toList_of_becomes hb', slice_update]
    rfl
  | mark idx =>
    refine wp_mono (mark_spec h) fun _ b' hb' => ⟨hb'.bitCnt, ?_⟩
    rw [toList_of_becomes hb', slice_update]
    rfl
  | reset idx =>
    refine wp_mono (reset_spec h) fun _ b' hb' => ⟨hb'.bitCnt, ?_⟩
    rw [toList_of_becomes hb', slice_update]
    rfl
  | flip idx =>
    refine wp_mono (flip_spec h) fun _ b' hb' => ⟨hb'.bitCnt, ?_⟩
    have hget : b.toList[idx]? = some (b.bit idx) := (getElem?_toList b idx).trans (if_pos h)
    rw [toList_of_becomes hb', slice_update, PackedOp.apply, modify_eq_set_getElem?, hget]
    rfl
  | setMultiple start cnt value =>
    refine wp_mono (setMultiple_spec h) fun _ b' hb' => ⟨hb'.bitCnt, ?_⟩
    rw [toList_of_becomes hb', slice_withRange _ _ h]
    rfl
  | scanAndFlip start cnt value =>
    obtain ⟨r, b', hrun, hr, hcnt, hlist⟩ := scanAndFlip_spec h cnt value
    refine wp_call hrun (wp_pure ⟨hcnt, ?_⟩)
    rw [hlist, PackedOp.apply, firstGroup_of_scanned hr]
    by_cases herr : r = bitmapError
    · rw [if_pos herr, if_pos herr]
    · rw [if_neg herr, if_neg herr]

/-- A sequence of calls. -/
def runOps : List PackedOp → Panic WordBitmap Unit
  | [] => return ()
  | op :: ops => do
    op.exec
    runOps ops

/-- **Any sequence of calls.** -/
theorem runOps_spec {ops : List PackedOp} (h : ∀ op ∈ ops, op.InRange b.bitCnt) :
    wp (runOps ops) (fun _ b' => b'.bitCnt = b.bitCnt ∧
      b'.toList = ops.foldl PackedOp.apply b.toList) b := by
  induction ops generalizing b with
  | nil => exact wp_pure ⟨rfl, rfl⟩
  | cons op ops ih =>
    rw [runOps]
    refine wp_bind (PackedOp.exec_spec (h op mem_cons_self)) ?_
    rintro _ b1 ⟨hcnt, hlist⟩
    refine wp_mono (ih fun op hop => hcnt ▸ h op (mem_cons_of_mem _ hop)) ?_
    rintro _ b2 ⟨hcnt2, hlist2⟩
    exact ⟨hcnt2.trans hcnt, by rw [hlist2, hlist, foldl_cons]⟩

/-- What the functions say about a bitmap, where the list of its bits is `l`. -/
structure Observed (b : WordBitmap) (l : List Bool) : Prop where
  test : ∀ i, i < b.bitCnt → ∃ x, l[i]? = some x ∧ test i b = some (x, b)
  count : ∀ start cnt value, start + cnt ≤ b.bitCnt →
    count start cnt value b = some (((l.drop start).take cnt).count value, b)
  contains : ∀ start cnt value, start + cnt ≤ b.bitCnt →
    contains start cnt value b = some (decide (value ∈ (l.drop start).take cnt), b)
  scan : ∀ start cnt value, start ≤ b.bitCnt →
    ∃ r, scan start cnt value b = some (r, b) ∧ Scanned l start cnt value r
  scanAndFlip : ∀ start cnt value, start ≤ b.bitCnt →
    ∃ r b', scanAndFlip start cnt value b = some (r, b') ∧ Scanned l start cnt value r ∧
      b'.toList = if r = bitmapError then l else negated l r cnt

theorem observed_toList (b : WordBitmap) : Observed b b.toList where
  test i hi := ⟨b.bit i, (getElem?_toList b i).trans (if_pos hi), test_eq hi⟩
  count _ _ _ h := count_eq h
  contains _ _ _ h := contains_eq h
  scan _ cnt value h := scan_spec h cnt value
  scanAndFlip _ cnt value h := by
    obtain ⟨r, b', hrun, hr, -, hlist⟩ := scanAndFlip_spec h cnt value
    exact ⟨r, b', hrun, hr, hlist⟩

/-- **Bitmaps implement arrays of booleans.** -/
theorem packed_refines (b : WordBitmap) (ops : List PackedOp)
    (h : ∀ op ∈ ops, op.InRange b.bitCnt) :
    ∃ b', runOps ops b = some ((), b') ∧ b'.bitCnt = b.bitCnt ∧
      b'.toList = ops.foldl PackedOp.apply b.toList ∧
      Observed b' (ops.foldl PackedOp.apply b.toList) := by
  obtain ⟨_, b', hrun, hcnt, hlist⟩ := runOps_spec h
  exact ⟨b', hrun, hcnt, hlist, hlist ▸ observed_toList b'⟩

/-! ## Creation -/

/-- `elem_cnt`, as a `size_t`. -/
def elemCntWord (bitCnt : Nat) : Nat := (bitCnt + elemBits - 1) % 2 ^ 32 / elemBits

theorem fits_of_elemCntWord (hlt : bitCnt < 2 ^ 32) (h : ¬ (elemCntWord bitCnt = 0 ∧ bitCnt ≠ 0)) :
    bitCnt + elemBits ≤ 2 ^ 32 := by
  unfold elemCntWord elemBits at *
  omega

theorem elemCntWord_eq (hfits : bitCnt + elemBits ≤ 2 ^ 32) :
    elemCntWord bitCnt = elemCnt bitCnt := by
  unfold elemCntWord elemCnt elemBits at *
  omega

theorem length_junk (junk : Nat → Elem) (hfits : bitCnt + elemBits ≤ 2 ^ 32) :
    (slice junk 0 (elemCntWord bitCnt)).length = elemCnt bitCnt := by
  rw [length_slice, elemCntWord_eq hfits]

/-- A bitmap in words that `malloc` returned, with `junk` in them. -/
def allocated (bitCnt : Nat) (junk : Nat → Elem) (hfits : bitCnt + elemBits ≤ 2 ^ 32) :
    WordBitmap where
  bitCnt := bitCnt
  words := slice junk 0 (elemCntWord bitCnt)
  fits := hfits
  full := length_junk junk hfits

/-- `bitmap_create`, where `malloc` finds memory for the structure, and for the words, or does not;
for 0 bytes it returns a null pointer. -/
def create (struct words : Bool) (bitCnt : BitVec 32) (junk : Nat → Elem) :
    Option (Option WordBitmap) :=
  if struct = false then some none
  else if h : (words = false ∨ elemCntWord bitCnt.toNat = 0) ∧ bitCnt.toNat ≠ 0 then some none
  else (setMultiple 0 bitCnt.toNat false (allocated bitCnt.toNat junk
    (fits_of_elemCntWord bitCnt.isLt fun hw => h (hw.imp_left .inr)))).map fun r => some r.2

/-- **A new bitmap** is clear, in memory that `malloc` found. Where it found both parts, there is
none exactly where the number of words wraps around. -/
theorem create_spec (struct words : Bool) (bitCnt : BitVec 32) (junk : Nat → Elem) :
    ∃ r, create struct words bitCnt junk = some r ∧
    match r with
    | some b => struct = true ∧ (words = true ∨ bitCnt = 0) ∧
      b.bitCnt = bitCnt.toNat ∧ b.toList = List.replicate bitCnt.toNat false
    | none => struct = true → words = true → 2 ^ 32 < bitCnt.toNat + elemBits := by
  rw [create]
  split
  · rename_i hs
    exact ⟨none, rfl, fun ht => nomatch hs.symm.trans ht⟩
  split
  · rename_i h
    refine ⟨none, rfl, fun _ hw => ?_⟩
    have := h.1.resolve_left (by simp [hw])
    unfold elemCntWord elemBits at *
    omega
  · rename_i hs h
    obtain ⟨_, b, hset, hb⟩ : wp (setMultiple 0 bitCnt.toNat false) _ (allocated bitCnt.toNat junk
        (fits_of_elemCntWord bitCnt.isLt fun hw => h (hw.imp_left .inr))) :=
      setMultiple_spec (Nat.le_of_eq (Nat.zero_add _))
    have hwords : words = true ∨ bitCnt = 0 := by
      by_contra hno
      obtain ⟨hw, h0⟩ := not_or.mp hno
      exact h ⟨.inl (Bool.eq_false_of_not_eq_true hw), fun he => h0 (BitVec.toNat_inj.mp he)⟩
    refine ⟨some b, by rw [hset]; rfl, Bool.eq_true_of_not_eq_false hs, hwords, hb.bitCnt, ?_⟩
    rw [toList_of_becomes hb]
    refine eq_replicate_iff.mpr ⟨length_slice _ _ _, fun x hx => ?_⟩
    obtain ⟨i, hi, rfl⟩ := mem_map.mp hx
    have hlt : i < bitCnt.toNat := mem_range.mp hi
    exact if_pos (by omega)

end Operations

/-- 33 bits, two words. -/
def tiny : WordBitmap := ⟨33, [0xfffffffe#32, 0#32], by decide, by decide⟩

/-- Two clear bits are found across the words, after bit 31 has been cleared. -/
theorem packed_refines_tiny : ∃ b',
    runOps [.flip 31, .scanAndFlip 1 2 false] tiny = some ((), b') ∧
      b'.toList = false :: List.replicate 32 true ∧
        Observed b' (false :: List.replicate 32 true) := by
  obtain ⟨b', hrun, -, hlist, hobs⟩ := packed_refines tiny [.flip 31, .scanAndFlip 1 2 false]
    (by simp [PackedOp.InRange, tiny])
  have happly : [PackedOp.flip 31, .scanAndFlip 1 2 false].foldl PackedOp.apply tiny.toList =
    false :: List.replicate 32 true := by decide +kernel
  rw [happly] at hlist hobs
  exact ⟨b', hrun, hlist, hobs⟩

end SystemProg.Pintos.Packed
