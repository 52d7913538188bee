import Mathlib.Algebra.Group.Nat.Defs
import SystemProg.Data.BinaryHeap
import SystemProg.Text.CString

/-!
# Sorting and searching arrays

Model of `do_swap`, `do_compare`, `heapify`, `sort` and `binary_search` (`lib/stdlib.c:66-210`). An
array is its bytes, an element the `size` bytes that a pointer is to, and a pointer into the array
an offset; an access outside of the array is a fault, `none`. `size_t` arithmetic is modulo
`2 ^ 32`. Loops whose number of turns is not fixed at their start take a bound on it.

`Elements` is an array of `cnt` elements, no larger than an object can be.

* `sort_spec`: `sort` returns, with the elements rearranged in nondecreasing order.
* `binarySearch_spec`: on a sorted array `binary_search` returns, with an element equal to the key
  if there is one.
-/

namespace SystemProg.Pintos.Sort

open Text Data List Option

/-! ## The source -/

/-- An element: the bytes from a pointer on. -/
abbrev Elem (size : Nat) : Type := { bytes : List Byte // bytes.length = size }

/-- The element at an offset. -/
def slot (array : List Byte) (size p : Nat) : Option (Elem size) :=
  if h : p + size ≤ array.length then
    some ⟨(array.drop p).take size, by rw [length_take, length_drop]; omega⟩
  else none

/-- `array + (idx - 1) * size`. -/
def pointer (idx size : Nat) : Nat := (idx + (2 ^ 32 - 1)) % 2 ^ 32 * size % 2 ^ 32

/-- The body of the loop of `do_swap`. -/
def swapBytes (a b : Nat) (array : List Byte) (i : Nat) : Option (List Byte) := do
  let t ← array[a + i]?
  let u ← array[b + i]?
  some ((array.set (a + i) u).set (b + i) t)

/-- `do_swap`. -/
def doSwap (array : List Byte) (aIdx bIdx size : Nat) : Option (List Byte) :=
  (List.range size).foldlM (swapBytes (pointer aIdx size) (pointer bIdx size)) array

variable {size : Nat}

/-- `do_compare`. -/
def doCompare (compare : Elem size → Elem size → Int) (array : List Byte) (aIdx bIdx : Nat) :
    Option Int := do
  let a ← slot array size (pointer aIdx size)
  let b ← slot array size (pointer bIdx size)
  some (compare a b)

/-- `if (child <= cnt && do_compare(array, child, max, ...) > 0) max = child;` -/
def larger (compare : Elem size → Elem size → Int) (array : List Byte) (cnt child max : Nat) :
    Option Nat :=
  if child ≤ cnt then do
    let cmp ← doCompare compare array child max
    some (if cmp > 0 then child else max)
  else some max

/-- `heapify`. -/
def heapify (compare : Elem size → Elem size → Int) (cnt : Nat) :
    (turns : Nat) → List Byte → (i : Nat) → Option (List Byte)
  | 0, _, _ => none
  | turns + 1, array, i => do
    let left := 2 * i % 2 ^ 32
    let right := (2 * i + 1) % 2 ^ 32
    let max ← larger compare array cnt left i
    let max ← larger compare array cnt right max
    if max = i then some array
    else
      let array ← doSwap array i max size
      heapify compare cnt turns array max

/-- The loop that builds the heap, from `i` down. -/
def buildLoop (compare : Elem size → Elem size → Int) (turns cnt : Nat) :
    (i : Nat) → List Byte → Option (List Byte)
  | 0, array => some array
  | i + 1, array => do
    let array ← heapify compare cnt turns array (i + 1)
    buildLoop compare turns cnt i array

/-- The loop that sorts the heap, from `i` down. -/
def sortLoop (compare : Elem size → Elem size → Int) (turns : Nat) :
    (i : Nat) → List Byte → Option (List Byte)
  | 0, array => some array
  | 1, array => some array
  | i + 2, array => do
    let array ← doSwap array 1 (i + 2) size
    let array ← heapify compare (i + 1) turns array 1
    sortLoop compare turns (i + 1) array

/-- `sort`, with the assertion on the size. -/
def sort (compare : Elem size → Elem size → Int) (turns : Nat) (array : List Byte) (cnt : Nat) :
    Option (List Byte) := do
  if size = 0 then none
  else
    let array ← buildLoop compare turns cnt (cnt / 2) array
    sortLoop compare turns cnt array

/-- The loop of `binary_search`. -/
def searchLoop (compare : Elem size → Elem size → Int) (key : Elem size) (array : List Byte) :
    (turns first last : Nat) → Option (Option Nat)
  | 0, _, _ => none
  | turns + 1, first, last =>
    if first < last then do
      let range := (last - first) / size
      let middle := first + range / 2 * size
      let cmp := compare key (← slot array size middle)
      if cmp < 0 then searchLoop compare key array turns first middle
      else if cmp > 0 then searchLoop compare key array turns (middle + size) last
      else some (some middle)
    else some none

/-- `binary_search`: a pointer into the array, or null. -/
def binarySearch (compare : Elem size → Elem size → Int) (turns : Nat) (key : Elem size)
    (array : List Byte) (cnt : Nat) : Option (Option Nat) :=
  searchLoop compare key array turns 0 (size * cnt)

/-! ## Arrays of elements -/

/-- A comparison function that orders the elements. -/
structure Preorder (compare : Elem size → Elem size → Int) : Prop where
  swap : ∀ a b, compare a b < 0 ↔ 0 < compare b a
  trans : ∀ a b c, compare a b ≤ 0 → compare b c ≤ 0 → compare a c ≤ 0

/-- The bytes of `cnt` elements. No object has `2 ^ 31` bytes or more: the difference of two
pointers into it would not be one. -/
structure Elements (size cnt : Nat) (array : List Byte) : Prop where
  size_pos : 0 < size
  length_eq : array.length = cnt * size
  fits : cnt * size < 2 ^ 31

/-- An element of zeros. -/
def zero (size : Nat) : Elem size := ⟨List.replicate size 0, length_replicate⟩

/-- The element with a 1-based index. -/
def elem (size : Nat) (array : List Byte) : (idx : Nat) → Elem size
  | 0 => zero size
  | k + 1 => (slot array size (k * size)).getD (zero size)

/-- The elements in order. -/
def elements (size cnt : Nat) (array : List Byte) : List (Elem size) := items (elem size array) cnt

variable {cnt : Nat} {array : List Byte}

theorem Elements.mul_le (_h : Elements size cnt array) {k : Nat} (hk : k < cnt) :
    k * size + size ≤ cnt * size := by
  rw [← Nat.succ_mul]
  exact Nat.mul_le_mul_right size hk

theorem Elements.cnt_lt (h : Elements size cnt array) : cnt < 2 ^ 31 :=
  Nat.lt_of_le_of_lt (Nat.le_mul_of_pos_right cnt h.size_pos) h.fits

theorem Elements.pointer_eq (h : Elements size cnt array) {k : Nat} (hk : k < cnt) :
    pointer (k + 1) size = k * size := by
  have hcnt := h.cnt_lt
  have hfits := h.fits
  have hle := h.mul_le hk
  have hmod : (k + 1 + (2 ^ 32 - 1)) % 2 ^ 32 = k := by omega
  rw [pointer, hmod, Nat.mod_eq_of_lt (by omega)]

theorem Elements.slot_eq (h : Elements size cnt array) {k : Nat} (hk : k < cnt) :
    slot array size (k * size) = some (elem size array (k + 1)) := by
  have hle : k * size + size ≤ array.length := by
    rw [h.length_eq]
    exact h.mul_le hk
  rw [elem, slot, dif_pos hle]
  rfl

theorem Elements.elem_val (h : Elements size cnt array) {k : Nat} (hk : k < cnt) :
    (elem size array (k + 1)).1 = (array.drop (k * size)).take size := by
  have hle : k * size + size ≤ array.length := by
    rw [h.length_eq]
    exact h.mul_le hk
  rw [elem, slot, dif_pos hle]
  rfl

theorem Elements.elem_outside (h : Elements size cnt array) {k : Nat} (hk : cnt ≤ k) :
    elem size array (k + 1) = zero size := by
  have hle : cnt * size ≤ k * size := Nat.mul_le_mul_right size hk
  have hpos := h.size_pos
  rw [elem, slot, dif_neg (by rw [h.length_eq]; omega)]
  rfl

theorem Elements.doCompare_eq (h : Elements size cnt array) (compare : Elem size → Elem size → Int)
    {i j : Nat} (hi : 1 ≤ i) (hi' : i ≤ cnt) (hj : 1 ≤ j) (hj' : j ≤ cnt) :
    doCompare compare array i j = some (compare (elem size array i) (elem size array j)) := by
  obtain ⟨i, rfl⟩ : ∃ k, i = k + 1 := ⟨i - 1, by omega⟩
  obtain ⟨j, rfl⟩ : ∃ k, j = k + 1 := ⟨j - 1, by omega⟩
  rw [doCompare, h.pointer_eq hi', h.pointer_eq hj', h.slot_eq hi', h.slot_eq hj']
  rfl

/-! ## `do_swap` -/

/-- Where the byte at `p` comes from once `n` bytes at `a` and at `b` are exchanged. -/
def origin (a b n p : Nat) : Nat :=
  if a ≤ p ∧ p < a + n then b + (p - a) else if b ≤ p ∧ p < b + n then a + (p - b) else p

theorem swapBytes_foldlM (array : List Byte) {a b : Nat} (n : Nat) (ha : a + n ≤ array.length)
    (hb : b + n ≤ array.length) (hd : a + n ≤ b ∨ b + n ≤ a) :
    ∃ array', (List.range n).foldlM (swapBytes a b) array = some array' ∧
      array'.length = array.length ∧ ∀ p, array'[p]? = array[origin a b n p]? := by
  induction n with
  | zero => exact ⟨array, rfl, rfl, fun p => by rw [origin, if_neg (by omega), if_neg (by omega)]⟩
  | succ n ih =>
    obtain ⟨array1, hrun, hlen, hget⟩ := ih (by omega) (by omega) (by omega)
    have hread : ∀ p, p = a + n ∨ p = b + n → array1[p]? = array[p]? := by
      intro p hp
      rw [hget p, origin, if_neg (by omega), if_neg (by omega)]
    have hta : array1[a + n]? = some array[a + n] := by
      rw [hread _ (.inl rfl)]
      exact getElem?_eq_getElem _
    have htb : array1[b + n]? = some array[b + n] := by
      rw [hread _ (.inr rfl)]
      exact getElem?_eq_getElem _
    refine ⟨(array1.set (a + n) array[b + n]).set (b + n) array[a + n], ?_, by simp [hlen], ?_⟩
    · rw [range_succ, foldlM_append, hrun]
      simp only [bind_eq_bind, bind_some, foldlM_cons, foldlM_nil, swapBytes, hta, htb]
      rfl
    · intro p
      rw [getElem?_set, getElem?_set, length_set]
      by_cases hpb : b + n = p
      · rw [if_pos hpb, if_pos (by omega), origin, if_neg (by omega), if_pos (by omega),
          ← getElem?_eq_getElem]
        congr 1
        omega
      · rw [if_neg hpb]
        by_cases hpa : a + n = p
        · rw [if_pos hpa, if_pos (by omega), origin, if_pos (by omega), ← getElem?_eq_getElem]
          congr 1
          omega
        · rw [if_neg hpa, hget p]
          congr 1
          unfold origin
          split_ifs <;> omega

theorem blocks_disjoint {k j q : Nat} (hkj : k ≠ j) (hq : q < size) :
    ¬(j * size ≤ k * size + q ∧ k * size + q < j * size + size) := by
  rintro ⟨h1, h2⟩
  rcases Nat.lt_or_gt_of_ne hkj with hlt | hgt
  · have := Nat.mul_le_mul_right size (Nat.succ_le_of_lt hlt)
    rw [Nat.succ_mul] at this
    omega
  · have := Nat.mul_le_mul_right size (Nat.succ_le_of_lt hgt)
    rw [Nat.succ_mul] at this
    omega

theorem origin_block {i m k q : Nat} (hq : q < size) :
    origin (i * size) (m * size) size (k * size + q) = Equiv.swap i m k * size + q := by
  unfold origin
  by_cases hki : k = i
  · rw [hki, Equiv.swap_apply_left, if_pos (by omega)]
    omega
  · rw [if_neg (blocks_disjoint hki hq)]
    by_cases hkm : k = m
    · rw [hkm, Equiv.swap_apply_right, if_pos (by omega)]
      omega
    · rw [if_neg (blocks_disjoint hkm hq), Equiv.swap_apply_of_ne_of_ne hki hkm]

/-- **`do_swap` exchanges two elements.** -/
theorem Elements.doSwap_eq (h : Elements size cnt array) {i m : Nat} (hi : 1 ≤ i) (hi' : i ≤ cnt)
    (hm : 1 ≤ m) (hm' : m ≤ cnt) (him : i ≠ m) :
    ∃ array', doSwap array i m size = some array' ∧ Elements size cnt array' ∧
      elem size array' = exchange (elem size array) i m := by
  obtain ⟨i, rfl⟩ : ∃ k, i = k + 1 := ⟨i - 1, by omega⟩
  obtain ⟨m, rfl⟩ : ∃ k, m = k + 1 := ⟨m - 1, by omega⟩
  have hd : i * size + size ≤ m * size ∨ m * size + size ≤ i * size := by
    rw [← Nat.succ_mul, ← Nat.succ_mul]
    rcases Nat.lt_or_gt_of_ne him with hlt | hgt
    · exact .inl (Nat.mul_le_mul_right size (by omega))
    · exact .inr (Nat.mul_le_mul_right size (by omega))
  obtain ⟨array', hrun, hlen, hget⟩ := swapBytes_foldlM array size
    (by rw [h.length_eq]; exact h.mul_le hi') (by rw [h.length_eq]; exact h.mul_le hm') hd
  have h' : Elements size cnt array' := ⟨h.size_pos, hlen.trans h.length_eq, h.fits⟩
  refine ⟨array', by rw [doSwap, h.pointer_eq hi', h.pointer_eq hm']; exact hrun, h', ?_⟩
  have hval : ∀ k l, k < cnt → l < cnt → Equiv.swap i m k = l →
      elem size array' (k + 1) = elem size array (l + 1) := by
    intro k l hk hl hkl
    apply Subtype.ext
    rw [h'.elem_val hk, h.elem_val hl]
    apply ext_getElem?
    intro q
    rw [getElem?_take, getElem?_take]
    split
    · rename_i hq
      rw [getElem?_drop, getElem?_drop, hget, origin_block hq, hkl]
    · rfl
  funext k
  match k with
  | 0 =>
    rw [exchange_of_ne (by omega) (by omega)]
    rfl
  | k + 1 =>
    by_cases hk : k < cnt
    · by_cases hki : k = i
      · rw [hki, exchange_left]
        exact hval i m hi' hm' (Equiv.swap_apply_left i m)
      · by_cases hkm : k = m
        · rw [hkm, exchange_right]
          exact hval m i hm' hi' (Equiv.swap_apply_right i m)
        · rw [exchange_of_ne (by omega) (by omega)]
          exact hval k k hk hk (Equiv.swap_apply_of_ne_of_ne hki hkm)
    · rw [exchange_of_ne (by omega) (by omega), h'.elem_outside (by omega),
        h.elem_outside (by omega)]

/-! ## The order -/

/-- `x` is no larger than `y`. -/
def Le (compare : Elem size → Elem size → Int) (x y : Elem size) : Prop := compare x y ≤ 0

variable {compare : Elem size → Elem size → Int}

theorem Preorder.refl (hc : Preorder compare) (x : Elem size) : Le compare x x := by
  have := hc.swap x x
  unfold Le
  omega

theorem Preorder.le_of_pos (hc : Preorder compare) {x y : Elem size} (h : 0 < compare x y) :
    Le compare y x := by
  have := (hc.swap y x).mpr h
  unfold Le
  omega

theorem Preorder.lt_of_lt_of_le (hc : Preorder compare) {x y z : Elem size} (hxy : compare x y < 0)
    (hyz : Le compare y z) : compare x z < 0 := by
  by_contra hxz
  have hzx : compare z x ≤ 0 := by
    have := hc.swap x z
    have := hc.swap z x
    omega
  have := hc.trans y z x hyz hzx
  have := hc.swap x y
  omega

theorem Preorder.lt_of_le_of_lt (hc : Preorder compare) {x y z : Elem size} (hxy : Le compare x y)
    (hyz : 0 < compare z y) : 0 < compare z x := by
  by_contra hzx
  have := hc.trans z x y (by omega) hxy
  omega

/-! ## `heapify` -/

/-- The elements at `lo … hi` are rearranged, and the others left alone. -/
structure Rearranged (size cnt lo hi : Nat) (array array' : List Byte) : Prop where
  elements : Elements size cnt array'
  within : Within lo hi (elem size array) (elem size array')
  perm : (Sort.elements size cnt array').Perm (Sort.elements size cnt array)

variable {lo hi : Nat} {array' array'' : List Byte}

theorem Elements.rearranged (h : Elements size cnt array) (lo hi : Nat) :
    Rearranged size cnt lo hi array array := ⟨h, Within.refl _ _ _, List.Perm.refl _⟩

theorem Rearranged.trans (h : Rearranged size cnt lo hi array array')
    (h' : Rearranged size cnt lo hi array' array'') : Rearranged size cnt lo hi array array'' :=
  ⟨h'.elements, h.within.trans h'.within, h'.perm.trans h.perm⟩

theorem Elements.rearranged_swap (h : Elements size cnt array) {i m : Nat} (hlo : 1 ≤ lo)
    (hhi : hi ≤ cnt) (hi1 : lo ≤ i) (hi2 : i ≤ hi) (hm1 : lo ≤ m) (hm2 : m ≤ hi) (him : i ≠ m) :
    ∃ array', doSwap array i m size = some array' ∧ Rearranged size cnt lo hi array array' ∧
      elem size array' = exchange (elem size array) i m := by
  obtain ⟨array', hswap, h', helem⟩ :=
    h.doSwap_eq (i := i) (m := m) (by omega) (by omega) (by omega) (by omega) him
  refine ⟨array', hswap, ⟨h', ?_, ?_⟩, helem⟩
  · rw [helem]
    exact within_exchange hi1 hi2 hm1 hm2
  · rw [Sort.elements, helem]
    exact items_exchange (by omega) (by omega) (by omega) (by omega)

theorem Elements.larger_spec (h : Elements size cnt array) (hc : Preorder compare) (hhi : hi ≤ cnt)
    (child max : Nat) (hchild : 1 ≤ child) (hmax : 1 ≤ max) (hmax' : max ≤ hi) :
    ∃ m, larger compare array hi child max = some m ∧ (m = max ∨ m = child ∧ child ≤ hi) ∧
      Le compare (elem size array max) (elem size array m) ∧
      (child ≤ hi → Le compare (elem size array child) (elem size array m)) := by
  unfold larger
  by_cases hle : child ≤ hi
  · rw [if_pos hle, h.doCompare_eq compare hchild (by omega) hmax (by omega)]
    by_cases hcmp : compare (elem size array child) (elem size array max) > 0
    · refine ⟨child, by simp [hcmp], .inr ⟨rfl, hle⟩, hc.le_of_pos hcmp, fun _ => hc.refl _⟩
    · refine ⟨max, by simp [hcmp], .inl rfl, hc.refl _, fun _ => ?_⟩
      unfold Le
      omega
  · exact ⟨max, if_neg hle, .inl rfl, hc.refl _, fun h => absurd h hle⟩

theorem Elements.largest_spec (h : Elements size cnt array) (hc : Preorder compare) (hhi : hi ≤ cnt)
    {i : Nat} (hi1 : 1 ≤ i) (hi2 : i ≤ hi) :
    ∃ m₁ m, larger compare array hi (2 * i % 2 ^ 32) i = some m₁ ∧
      larger compare array hi ((2 * i + 1) % 2 ^ 32) m₁ = some m ∧ (m = i ∨ m / 2 = i) ∧ m ≤ hi ∧
      Le compare (elem size array i) (elem size array m) ∧
      ∀ c, c / 2 = i → c ≤ hi → Le compare (elem size array c) (elem size array m) := by
  have hcnt := h.cnt_lt
  rw [Nat.mod_eq_of_lt (by omega), Nat.mod_eq_of_lt (by omega)]
  obtain ⟨m₁, hm₁, hcase₁, hle₁, hchild₁⟩ := h.larger_spec hc hhi (2 * i) i (by omega) hi1 hi2
  obtain ⟨m, hm, hcase, hle, hchild⟩ :=
    h.larger_spec hc hhi (2 * i + 1) m₁ (by omega) (by omega) (by omega)
  refine ⟨m₁, m, hm₁, hm, by omega, by omega, hc.trans _ _ _ hle₁ hle, ?_⟩
  intro c hci hchi
  rcases (by omega : c = 2 * i ∨ c = 2 * i + 1) with rfl | rfl
  · exact hc.trans _ _ _ (hchild₁ hchi) hle
  · exact hchild hchi

/-- **`heapify` lets an element sink** to where its children are no larger. -/
theorem heapify_spec (hc : Preorder compare) (hlo : 1 ≤ lo) (hhi : hi ≤ cnt) :
    ∀ (turns : Nat) {array : List Byte} {i : Nat}, Elements size cnt array → lo ≤ i → i ≤ hi →
      hi < turns + i → Sinking (Le compare) (elem size array) lo hi i →
      ∃ array', heapify compare hi turns array i = some array' ∧
        Rearranged size cnt lo hi array array' ∧
          HeapFrom (Le compare) (elem size array') lo hi := by
  intro turns
  induction turns with
  | zero => intro array i _ _ _ hturns _; omega
  | succ turns ih =>
    intro array i h hloi hihi hturns hsink
    obtain ⟨m₁, m, hm₁, hm, hcase, hmhi, hle, hchildren⟩ :=
      h.largest_spec hc hhi (i := i) (by omega) hihi
    by_cases hmi : m = i
    · refine ⟨array, ?_, h.rearranged lo hi, hsink.finish (hmi ▸ hchildren)⟩
      simp only [heapify, hm₁, hm, bind_eq_bind, bind_some, if_pos hmi]
    · have hmi' : m / 2 = i := hcase.resolve_left hmi
      obtain ⟨array1, hswap, hre, helem⟩ :=
        h.rearranged_swap hlo hhi hloi hihi (m := m) (by omega) hmhi (Ne.symm hmi)
      have hsink' := hsink.move (by omega) hmi' hmhi hloi hchildren hle
      rw [← helem] at hsink'
      obtain ⟨array2, hrun, hre', hheap⟩ :=
        ih hre.elements (i := m) (by omega) hmhi (by omega) hsink'
      refine ⟨array2, ?_, hre.trans hre', hheap⟩
      simp only [heapify, hm₁, hm, bind_eq_bind, bind_some, if_neg hmi, hswap, hrun]

/-! ## `sort` -/

/-- The loop makes a heap of ever more of the array. -/
theorem buildLoop_spec (hc : Preorder compare) {turns : Nat} (hturns : cnt ≤ turns) (i : Nat)
    (hi : i ≤ cnt) (h : Elements size cnt array)
    (hheap : HeapFrom (Le compare) (elem size array) (i + 1) cnt) :
    ∃ array', buildLoop compare turns cnt i array = some array' ∧ Elements size cnt array' ∧
      (elements size cnt array').Perm (elements size cnt array) ∧
      HeapFrom (Le compare) (elem size array') 1 cnt := by
  induction i generalizing array with
  | zero => exact ⟨array, rfl, h, List.Perm.refl _, hheap⟩
  | succ i ih =>
    obtain ⟨array1, hrun, hre, hheap1⟩ := heapify_spec hc (by omega) (Nat.le_refl cnt) turns h
      (Nat.le_refl (i + 1)) hi (by omega) (hheap.sinking (by omega))
    obtain ⟨array2, hloop, h2, hperm, hheap2⟩ := ih (by omega) hre.elements hheap1
    exact ⟨array2, by rw [buildLoop, hrun]; exact hloop, h2, hperm.trans hre.perm, hheap2⟩

/-- The loop takes the largest element out of the heap and puts it before those taken out. -/
theorem sortLoop_spec (hc : Preorder compare) {turns : Nat} (hturns : cnt ≤ turns) (i : Nat)
    (hi : i ≤ cnt) (h : Elements size cnt array)
    (hext : Extracting (Le compare) (elem size array) cnt i) :
    ∃ array', sortLoop compare turns i array = some array' ∧ Elements size cnt array' ∧
      (elements size cnt array').Perm (elements size cnt array) ∧
      (elements size cnt array').Pairwise (Le compare) := by
  induction i generalizing array with
  | zero => exact ⟨array, rfl, h, List.Perm.refl _, hext.pairwise (by omega)⟩
  | succ i ih =>
    cases i with
    | zero => exact ⟨array, rfl, h, List.Perm.refl _, hext.pairwise (by omega)⟩
    | succ i =>
      obtain ⟨array1, hswap, hre, helem⟩ := h.rearranged_swap (Nat.le_refl 1) (Nat.le_refl cnt)
        (Nat.le_refl 1) (by omega) (m := i + 2) (by omega) hi (by omega)
      obtain ⟨hsink, hnext⟩ := hext.step hc.refl hc.trans (by omega)
      rw [← helem] at hsink hnext
      obtain ⟨array2, hrun, hre2, hheap⟩ := heapify_spec hc (Nat.le_refl 1)
        (show i + 1 ≤ cnt by omega)
        turns hre.elements (Nat.le_refl 1) (by omega) (by omega) hsink
      obtain ⟨array3, hloop, h3, hperm, hsorted⟩ :=
        ih (by omega) hre2.elements (hnext _ hre2.within hheap)
      refine ⟨array3, ?_, h3, hperm.trans (hre2.perm.trans hre.perm), hsorted⟩
      simp only [sortLoop, hswap, hrun, bind_eq_bind, bind_some]
      exact hloop

/-- **`sort` sorts.** -/
theorem sort_spec (hc : Preorder compare) {turns : Nat} (hturns : cnt ≤ turns)
    (h : Elements size cnt array) :
    ∃ array', sort compare turns array cnt = some array' ∧ Elements size cnt array' ∧
      (elements size cnt array').Perm (elements size cnt array) ∧
      (elements size cnt array').Pairwise (Le compare) := by
  have hleaves : HeapFrom (Le compare) (elem size array) (cnt / 2 + 1) cnt := by
    intro c hc hcnt
    omega
  obtain ⟨array1, hbuild, h1, hperm1, hheap⟩ :=
    buildLoop_spec hc hturns (cnt / 2) (by omega) h hleaves
  have hext : Extracting (Le compare) (elem size array1) cnt cnt :=
    ⟨hheap, fun j k hj hjk hk => by omega, fun j k _ _ hk hk' => by omega⟩
  obtain ⟨array2, hloop, h2, hperm2, hsorted⟩ :=
    sortLoop_spec hc hturns cnt (Nat.le_refl cnt) h1 hext
  refine ⟨array2, ?_, h2, hperm2.trans hperm1, hsorted⟩
  rw [sort, if_neg (Nat.ne_of_gt h.size_pos), hbuild]
  exact hloop

/-! ## `binary_search` -/

/-- The search between the elements with the 0-based indices `lo` and `hi`. -/
theorem searchLoop_spec (hc : Preorder compare) (h : Elements size cnt array)
    (hsorted : (elements size cnt array).Pairwise (Le compare)) (key : Elem size) :
    ∀ (turns lo hi : Nat), hi - lo < turns → lo ≤ hi → hi ≤ cnt →
      (∀ k < lo, 0 < compare key (elem size array (k + 1))) →
      (∀ k < cnt, hi ≤ k → compare key (elem size array (k + 1)) < 0) →
      ∃ r, searchLoop compare key array turns (lo * size) (hi * size) = some r ∧
        (∀ p, r = some p → ∃ k < cnt, p = k * size ∧ compare key (elem size array (k + 1)) = 0) ∧
        (r = none → ∀ k < cnt, compare key (elem size array (k + 1)) ≠ 0) := by
  have hle :
      ∀ j k, j < k → k < cnt → Le compare (elem size array (j + 1)) (elem size array (k + 1)) :=
    fun j k hjk hk => items_pairwise_iff.mp hsorted (j + 1) (k + 1) (by omega) (by omega) (by omega)
  intro turns
  induction turns with
  | zero => intro lo hi hturns; omega
  | succ turns ih =>
    intro lo hi hturns hlohi hhi hbelow habove
    rw [searchLoop]
    by_cases hlt : lo < hi
    · have hbytes : lo * size < hi * size := Nat.mul_lt_mul_of_pos_right hlt h.size_pos
      have hrange : (hi * size - lo * size) / size = hi - lo := by
        rw [← Nat.sub_mul, Nat.mul_div_cancel _ h.size_pos]
      have hmid : lo * size + (hi - lo) / 2 * size = (lo + (hi - lo) / 2) * size := by
        rw [Nat.add_mul]
      have hmidcnt : lo + (hi - lo) / 2 < cnt := by omega
      simp only [if_pos hbytes, hrange, hmid, h.slot_eq hmidcnt]
      generalize hm : lo + (hi - lo) / 2 = mid at hmidcnt
      have hnext : mid * size + size = (mid + 1) * size := by rw [Nat.add_mul, Nat.one_mul]
      simp only [bind_eq_bind, bind_some, hnext]
      by_cases hneg : compare key (elem size array (mid + 1)) < 0
      · -- everything from the middle on is larger than the key
        rw [if_pos hneg]
        refine ih lo mid (by omega) (by omega) (by omega) hbelow fun k hk hmk => ?_
        rcases Nat.eq_or_lt_of_le hmk with rfl | hmk
        · exact hneg
        · exact hc.lt_of_lt_of_le hneg (hle mid k hmk hk)
      · rw [if_neg hneg]
        by_cases hpos : compare key (elem size array (mid + 1)) > 0
        · rw [if_pos hpos]
          refine ih (mid + 1) hi (by omega) (by omega) hhi (fun k hk => ?_) habove
          rcases Nat.eq_or_lt_of_le (Nat.le_of_lt_succ hk) with rfl | hkm
          · exact hpos
          · exact hc.lt_of_le_of_lt (hle k mid hkm hmidcnt) hpos
        · rw [if_neg hpos]
          refine ⟨_, rfl, fun p hp => ?_, fun hnone => by cases hnone⟩
          cases hp
          exact ⟨mid, hmidcnt, rfl, by omega⟩
    · have heq : lo = hi := by omega
      rw [heq, if_neg (Nat.lt_irrefl _)]
      refine ⟨none, rfl, (by intro p hp; cases hp), fun _ k hk => ?_⟩
      by_cases hklo : k < lo
      · exact Int.ne_of_gt (hbelow k hklo)
      · exact Int.ne_of_lt (habove k hk (by omega))

/-- **`binary_search` finds an element equal to the key**, on a sorted array, if there is one. -/
theorem binarySearch_spec (hc : Preorder compare) {turns : Nat} (hturns : cnt < turns)
    (h : Elements size cnt array) (hsorted : (elements size cnt array).Pairwise (Le compare))
    (key : Elem size) :
    ∃ r, binarySearch compare turns key array cnt = some r ∧
      (∀ p, r = some p → ∃ k < cnt, p = k * size ∧ compare key (elem size array (k + 1)) = 0) ∧
      (r = none → ∀ k < cnt, compare key (elem size array (k + 1)) ≠ 0) := by
  have hrun :=
    searchLoop_spec hc h hsorted key turns 0 cnt (by omega) (Nat.zero_le _) le_rfl
    (fun k hk => by omega) (fun k hk hcnt => by omega)
  rwa [Nat.zero_mul, Nat.mul_comm] at hrun

/-- **Sorting and searching.** With a comparison function that orders the elements, `sort` returns
with them rearranged in nondecreasing order; and on an array in that order `binary_search` returns,
with a pointer exactly if some element equals the key, and then to such an element. -/
theorem sort_and_search (hc : Preorder compare) {turns : Nat} (hturns : cnt < turns)
    (h : Elements size cnt array) :
    (∃ array', sort compare turns array cnt = some array' ∧ Elements size cnt array' ∧
      (elements size cnt array').Perm (elements size cnt array) ∧
      (elements size cnt array').Pairwise (Le compare)) ∧
    ((elements size cnt array).Pairwise (Le compare) → ∀ key,
      ∃ r, binarySearch compare turns key array cnt = some r ∧
        (r.isSome ↔ ∃ x ∈ elements size cnt array, compare key x = 0) ∧
        ∀ p, r = some p → ∃ k < cnt, p = k * size ∧ ∃ x, slot array size p = some x ∧
          compare key x = 0) := by
  refine ⟨sort_spec hc (Nat.le_of_lt hturns) h, fun hsorted key => ?_⟩
  obtain ⟨r, hrun, hsome, hnone⟩ := binarySearch_spec hc hturns h hsorted key
  refine ⟨r, hrun, ⟨fun hr => ?_, ?_⟩, fun p hp => ?_⟩
  · obtain ⟨p, hp⟩ := isSome_iff_exists.mp hr
    obtain ⟨k, hk, -, heq⟩ := hsome p hp
    exact ⟨_, mem_map.mpr ⟨k + 1, List.mem_range'_1.mpr ⟨by omega, by omega⟩, rfl⟩, heq⟩
  · rintro ⟨x, hx, heq⟩
    obtain ⟨idx, hidx, rfl⟩ := mem_map.mp hx
    rw [List.mem_range'_1] at hidx
    rw [isSome_iff_ne_none]
    intro hr
    refine hnone hr (idx - 1) (by omega) ?_
    rwa [Nat.sub_add_cancel hidx.1]
  · obtain ⟨k, hk, rfl, heq⟩ := hsome p hp
    exact ⟨k, hk, rfl, _, h.slot_eq hk, heq⟩

/-- Bytes in the order of numbers. -/
def compareBytes (a b : Elem 1) : Int := (a.1.headD 0).toNat - (b.1.headD 0).toNat

theorem sort_and_search_bytes :
    Preorder compareBytes ∧ Elements 1 3 [7, 2, 5] ∧
      sort compareBytes 4 [7, 2, 5] 3 = some [2, 5, 7] ∧
      ∃ array', sort compareBytes 4 [7, 2, 5] 3 = some array' ∧
        (elements 1 3 array').Pairwise (Le compareBytes) := by
  have hc : Preorder compareBytes := by
    constructor
    · intro a b
      unfold compareBytes
      omega
    · intro a b c
      unfold compareBytes
      omega
  have h : Elements 1 3 [7, 2, 5] := ⟨by decide, by decide, by decide⟩
  obtain ⟨array', hsort, -, -, hsorted⟩ := (sort_and_search hc (show 3 < 4 by decide) h).1
  exact ⟨hc, h, by decide, array', hsort, hsorted⟩

end SystemProg.Pintos.Sort
