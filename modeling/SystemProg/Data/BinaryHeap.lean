import Mathlib.Logic.Equiv.Basic
import Mathlib.Data.List.Nodup
import Mathlib.Data.List.Range

/-!
# Binary heaps

The items of an array at the positions `1, 2, …`, as a function of the position: the children of `i`
are `2 * i` and `2 * i + 1`, the parent of `c` is `c / 2`. A heap may begin at any position `lo`:
`HeapFrom` relates only items whose parent is at `lo` or after.

An item that is too small sinks: `Sinking` says that the heap is in order but for the item at `i`,
`Sinking.move` that exchanging it with its largest child moves the fault there, and `Sinking.finish`
that nothing is wrong once no child is larger. `Extracting` is the invariant of the second half of a
heap sort: a heap, and behind it a sorted end of items that are no smaller.
-/

namespace SystemProg.Data

open List

variable {α : Type} {le : α → α → Prop} {a b c : Nat → α} {lo hi i m n : Nat}

/-- The items from parents at `lo` on are in heap order up to `hi`. -/
def HeapFrom (le : α → α → Prop) (a : Nat → α) (lo hi : Nat) : Prop :=
  ∀ c, lo ≤ c / 2 → c ≤ hi → le (a c) (a (c / 2))

/-- In heap order, but for the item at `i`, which may be smaller than its children. -/
structure Sinking (le : α → α → Prop) (a : Nat → α) (lo hi i : Nat) : Prop where
  rest : ∀ c, lo ≤ c / 2 → c ≤ hi → c / 2 ≠ i → le (a c) (a (c / 2))
  above : ∀ c, c / 2 = i → c ≤ hi → lo ≤ i / 2 → le (a c) (a (i / 2))

/-- Exchange two positions. -/
abbrev exchange (a : Nat → α) (i m : Nat) : Nat → α := a ∘ Equiv.swap i m

theorem exchange_of_ne {k : Nat} (hi : k ≠ i) (hm : k ≠ m) : exchange a i m k = a k :=
  congrArg a (Equiv.swap_apply_of_ne_of_ne hi hm)

@[simp] theorem exchange_left : exchange a i m i = a m := congrArg a (Equiv.swap_apply_left i m)

@[simp] theorem exchange_right : exchange a i m m = a i := congrArg a (Equiv.swap_apply_right i m)

/-! ## Sinking -/

theorem HeapFrom.sinking (h : HeapFrom le a (lo + 1) hi) (hlo : 0 < lo) :
    Sinking le a lo hi lo where
  rest c hc hhi hne := h c (by omega) hhi
  above c _ _ habove := by omega

theorem Sinking.finish (h : Sinking le a lo hi i)
    (hstop : ∀ c, c / 2 = i → c ≤ hi → le (a c) (a i)) : HeapFrom le a lo hi := by
  intro c hc hhi
  by_cases hi : c / 2 = i
  · rw [hi]
    exact hstop c hi hhi
  · exact h.rest c hc hhi hi

theorem Sinking.move (h : Sinking le a lo hi i) (hi0 : 0 < i) (hm : m / 2 = i) (hmhi : m ≤ hi)
    (hlo : lo ≤ i) (hmax : ∀ c, c / 2 = i → c ≤ hi → le (a c) (a m)) (hle : le (a i) (a m)) :
    Sinking le (exchange a i m) lo hi m := by
  constructor
  · intro c hc hchi hcm
    by_cases hci : c / 2 = i
    · rw [hci, exchange_left]
      by_cases hcm : c = m
      · rw [hcm, exchange_right]
        exact hle
      · rw [exchange_of_ne (by omega) hcm]
        exact hmax c hci hchi
    · rw [exchange_of_ne hci hcm]
      by_cases hceq : c = i
      · rw [hceq, exchange_left]
        exact h.above m hm hmhi (hceq ▸ hc)
      · rw [exchange_of_ne hceq (by rintro rfl; exact hci hm)]
        exact h.rest c hc hchi hci
  · intro c hc hchi _
    rw [hm, exchange_left, exchange_of_ne (by omega) (by omega)]
    have := h.rest c (by omega) hchi (by omega)
    rwa [hc] at this

theorem HeapFrom.le_root (h : HeapFrom le a 1 hi) (hrefl : ∀ x, le x x)
    (htrans : ∀ x y z, le x y → le y z → le x z) {k : Nat} (hk : 1 ≤ k) (hkhi : k ≤ hi) :
    le (a k) (a 1) := by
  induction k using Nat.strong_induction_on with
  | _ k ih =>
    by_cases h1 : k = 1
    · rw [h1]
      exact hrefl _
    · exact htrans _ _ _ (h k (by omega) hkhi) (ih (k / 2) (by omega) (by omega) (by omega))

/-! ## What is kept -/

/-- From `a` to `b` the items at `lo … hi` are rearranged, and the others left alone. -/
structure Within (lo hi : Nat) (a b : Nat → α) : Prop where
  outside : ∀ k, k < lo ∨ hi < k → b k = a k
  inside : ∀ k, lo ≤ k → k ≤ hi → ∃ j, lo ≤ j ∧ j ≤ hi ∧ b k = a j

theorem Within.refl (lo hi : Nat) (a : Nat → α) : Within lo hi a a :=
  ⟨fun _ _ => rfl, fun k h1 h2 => ⟨k, h1, h2, rfl⟩⟩

theorem Within.trans (h1 : Within lo hi a b) (h2 : Within lo hi b c) : Within lo hi a c where
  outside k hk := (h2.outside k hk).trans (h1.outside k hk)
  inside k hlo hhi := by
    obtain ⟨j, hjlo, hjhi, hj⟩ := h2.inside k hlo hhi
    obtain ⟨l, hllo, hlhi, hl⟩ := h1.inside j hjlo hjhi
    exact ⟨l, hllo, hlhi, hj.trans hl⟩

theorem within_exchange (hi1 : lo ≤ i) (hi2 : i ≤ hi) (hm1 : lo ≤ m) (hm2 : m ≤ hi) :
    Within lo hi a (exchange a i m) where
  outside k hk := exchange_of_ne (by omega) (by omega)
  inside k hlo hhi := by
    by_cases hki : k = i
    · exact ⟨m, hm1, hm2, by rw [hki, exchange_left]⟩
    · by_cases hkm : k = m
      · exact ⟨i, hi1, hi2, by rw [hkm, exchange_right]⟩
      · exact ⟨k, hlo, hhi, exchange_of_ne hki hkm⟩

/-- The items at `1 … n`. -/
def items (a : Nat → α) (n : Nat) : List α := (List.range' 1 n).map a

theorem items_exchange (hi1 : 1 ≤ i) (hi2 : i ≤ n) (hm1 : 1 ≤ m) (hm2 : m ≤ n) :
    (items (exchange a i m) n).Perm (items a n) := by
  have hmaps : ∀ k ∈ List.range' 1 n, Equiv.swap i m k ∈ List.range' 1 n := by
    intro k hk
    rw [List.mem_range'_1] at hk ⊢
    rw [Equiv.swap_apply_def]
    split_ifs <;> omega
  have hrange : ((List.range' 1 n).map (Equiv.swap i m)).Perm (List.range' 1 n) := by
    have hnodup := nodup_range' (s := 1) (n := n)
    rw [perm_ext_iff_of_nodup (hnodup.map (Equiv.injective _)) hnodup]
    intro k
    rw [mem_map]
    constructor
    · rintro ⟨j, hj, rfl⟩
      exact hmaps j hj
    · exact fun hk => ⟨Equiv.swap i m k, hmaps k hk, Equiv.swap_apply_self _ _ _⟩
  have h := hrange.map a
  rwa [map_map] at h

theorem items_pairwise_iff :
    (items a n).Pairwise le ↔ ∀ j k, 1 ≤ j → j < k → k ≤ n → le (a j) (a k) := by
  rw [items, pairwise_map, pairwise_iff_getElem]
  simp only [length_range', getElem_range', Nat.one_mul]
  constructor
  · intro h j k hj hjk hk
    have := h (j - 1) (k - 1) (by omega) (by omega) (by omega)
    rwa [Nat.add_sub_cancel' hj, Nat.add_sub_cancel' (by omega)] at this
  · intro h j k hj hk hjk
    exact h (1 + j) (1 + k) (by omega) (by omega) (by omega)

/-! ## Taking the largest items out -/

/-- A heap up to `hi`, and from there to `n` a sorted end of items that are no smaller. -/
structure Extracting (le : α → α → Prop) (a : Nat → α) (n hi : Nat) : Prop where
  heap : HeapFrom le a 1 hi
  sorted : ∀ j k, hi < j → j ≤ k → k ≤ n → le (a j) (a k)
  bound : ∀ j k, 1 ≤ j → j ≤ hi → hi < k → k ≤ n → le (a j) (a k)

/-- Exchanging the root and the last item of the heap leaves a root that has to sink, and one more
item in its place. -/
theorem Extracting.step (h : Extracting le a n hi) (hrefl : ∀ x, le x x)
    (htrans : ∀ x y z, le x y → le y z → le x z) (hi1 : 1 < hi) :
    Sinking le (exchange a 1 hi) 1 (hi - 1) 1 ∧
      ∀ b, Within 1 (hi - 1) (exchange a 1 hi) b → HeapFrom le b 1 (hi - 1) →
        Extracting le b n (hi - 1) := by
  have hother : ∀ k, k ≠ 1 → k ≠ hi → exchange a 1 hi k = a k := fun k h1 h2 =>
    exchange_of_ne h1 h2
  refine ⟨⟨fun c hc hchi hne => ?_, fun c _ _ h => by omega⟩, fun b hb hheap => ⟨hheap, ?_, ?_⟩⟩
  · rw [hother c (by omega) (by omega), hother (c / 2) (by omega) (by omega)]
    exact h.heap c hc (by omega)
  · intro j k hj hjk hk
    rw [hb.outside j (.inr hj), hb.outside k (.inr (by omega))]
    by_cases hjhi : j = hi
    · rw [hjhi, exchange_right]
      by_cases hkhi : k = hi
      · rw [hkhi, exchange_right]
        exact hrefl _
      · rw [hother k (by omega) hkhi]
        exact h.bound 1 k (Nat.le_refl 1) (by omega) (by omega) hk
    · rw [hother j (by omega) hjhi, hother k (by omega) (by omega)]
      exact h.sorted j k (by omega) hjk hk
  · intro j k hj1 hj2 hk1 hk2
    obtain ⟨l, hl1, hl2, hl⟩ := hb.inside j hj1 hj2
    rw [hl, hb.outside k (.inr hk1)]
    -- the item at `l` was one of the heap before
    obtain ⟨l', hl1', hl2', hl'⟩ : ∃ l', 1 ≤ l' ∧ l' ≤ hi ∧ exchange a 1 hi l = a l' := by
      by_cases hl1 : l = 1
      · exact ⟨hi, by omega, le_rfl, by rw [hl1, exchange_left]⟩
      · exact ⟨l, by omega, by omega, hother l hl1 (by omega)⟩
    rw [hl']
    by_cases hkhi : k = hi
    · rw [hkhi, exchange_right]
      exact h.heap.le_root hrefl htrans hl1' hl2'
    · rw [hother k (by omega) hkhi]
      exact h.bound l' k hl1' hl2' (by omega) hk2

theorem Extracting.pairwise (h : Extracting le a n hi) (hhi : hi ≤ 1) :
    (items a n).Pairwise le := by
  rw [items_pairwise_iff]
  intro j k hj hjk hk
  by_cases h1 : hi < j
  · exact h.sorted j k h1 (by omega) hk
  · exact h.bound j k hj (by omega) (by omega) hk

end SystemProg.Data
