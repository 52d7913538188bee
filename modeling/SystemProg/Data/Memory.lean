import Mathlib.Data.List.GetD

/-!
# Cells

A store is a function from addresses to cells. `slice` reads a run of cells, `patch` overwrites one.
The laws: what has been written is read back, runs that are apart do not see each other, and runs
that are next to each other are one.

`splice` is what `patch` does to a run that contains it, seen as a list.
-/

namespace SystemProg.Data

open List

variable {α : Type}

/-- The `k` cells from `a` on. -/
def slice (m : Nat → α) (a k : Nat) : List α := (List.range k).map fun i => m (a + i)

/-- The cells from `a` on overwritten by `l`. -/
def patch (m : Nat → α) (a : Nat) (l : List α) : Nat → α :=
  fun x => if a ≤ x then l.getD (x - a) (m x) else m x

/-- The items from `i` on overwritten by `ys`. -/
def splice (xs : List α) (i : Nat) (ys : List α) : List α :=
    xs.take i ++ ys ++ xs.drop (i + ys.length)

variable {m m' : Nat → α} {a b k j : Nat} {l xs ys : List α}

@[simp] theorem length_slice (m : Nat → α) (a k : Nat) : (slice m a k).length = k := by
  simp [slice]

theorem getElem?_slice (m : Nat → α) (a k i : Nat) :
    (slice m a k)[i]? = if i < k then some (m (a + i)) else none := by
  rw [slice, getElem?_map]
  split
  · rename_i h
    rw [getElem?_range h]
    rfl
  · rename_i h
    rw [getElem?_eq_none (by simpa using h)]
    rfl

theorem slice_congr (h : ∀ x, a ≤ x → x < a + k → m' x = m x) : slice m' a k = slice m a k := by
  refine map_congr_left fun i hi => h _ (Nat.le_add_right a i) ?_
  have := mem_range.mp hi
  omega

theorem slice_add (m : Nat → α) (a k j : Nat) :
    slice m a (k + j) = slice m a k ++ slice m (a + k) j := by
  simp only [slice, range_add, map_append, map_map, Function.comp_def, Nat.add_assoc]

theorem slice_cons (m : Nat → α) (a k : Nat) : slice m a (k + 1) = m a :: slice m (a + 1) k := by
  rw [Nat.add_comm, slice_add]
  rfl

theorem drop_slice (m : Nat → α) (a k i : Nat) :
    (slice m a k).drop i = slice m (a + i) (k - i) := by
  rcases Nat.le_total k i with h | h
  · rw [drop_eq_nil_of_le (by simpa using h), Nat.sub_eq_zero_of_le h]
    rfl
  · obtain ⟨j, rfl⟩ := Nat.exists_eq_add_of_le h
    rw [slice_add, drop_left' (length_slice m a i), Nat.add_sub_cancel_left]

theorem take_slice (m : Nat → α) (a k i : Nat) : (slice m a k).take i = slice m a (min i k) := by
  rcases Nat.le_total k i with h | h
  · rw [take_of_length_le (by simpa using h), Nat.min_eq_right h]
  · obtain ⟨j, rfl⟩ := Nat.exists_eq_add_of_le h
    rw [slice_add, take_left' (length_slice m a i), Nat.min_eq_left h]

theorem patch_of_not_mem {x : Nat} (h : x < a ∨ a + l.length ≤ x) : patch m a l x = m x := by
  unfold patch
  split
  · exact getD_eq_default _ _ (by omega)
  · rfl

theorem patch_nil : patch m a [] = m := by
  funext x
  exact patch_of_not_mem (by simp only [length_nil]; omega)

theorem patch_append (m : Nat → α) (a : Nat) (l r : List α) :
    patch m a (l ++ r) = patch (patch m a l) (a + l.length) r := by
  funext x
  unfold patch
  by_cases h1 : a + l.length ≤ x
  · rw [if_pos (by omega), if_pos h1, getD_append_right _ _ _ _ (by omega), if_pos (by omega),
      getD_eq_default l _ (by omega)]
    congr 1
    omega
  · rw [if_neg h1]
    split
    · exact getD_append _ _ _ _ (by omega)
    · rfl

theorem patch_patch {r : List α} (h : l.length ≤ r.length) :
    patch (patch m a l) a r = patch m a r := by
  funext x
  by_cases hx : a ≤ x ∧ x < a + r.length
  · obtain ⟨i, rfl⟩ := Nat.exists_eq_add_of_le hx.1
    have hi : i < r.length := by omega
    have hr (m' : Nat → α) : patch m' a r (a + i) = r[i] := by
      rw [patch, if_pos hx.1, Nat.add_sub_cancel_left, getD_eq_getElem _ _ hi]
    rw [hr, hr]
  · rw [patch_of_not_mem (by omega), patch_of_not_mem (by omega), patch_of_not_mem (by omega)]

theorem slice_patch_self (m : Nat → α) (a : Nat) (l : List α) :
    slice (patch m a l) a l.length = l := by
  refine ext_getElem? fun i => ?_
  rw [getElem?_slice]
  split
  · rename_i h
    rw [patch, if_pos (by omega), Nat.add_sub_cancel_left, getD_eq_getElem _ _ h,
      getElem?_eq_getElem h]
  · rename_i h
    rw [getElem?_eq_none (by omega)]

theorem slice_patch_of_disjoint (h : a + k ≤ b ∨ b + l.length ≤ a) :
    slice (patch m b l) a k = slice m a k :=
  slice_congr fun x h1 h2 => patch_of_not_mem (by omega)

theorem splice_nil (xs : List α) (i : Nat) : splice xs i [] = xs := by
  rw [splice, append_nil, length_nil, Nat.add_zero, take_append_drop]

@[simp] theorem length_splice (h : b + ys.length ≤ xs.length) :
  (splice xs b ys).length = xs.length := by
  simp only [splice, length_append, length_take, length_drop]
  omega

/-- **A run that contains the patch.** -/
theorem slice_patch (h1 : a ≤ b) (h2 : b + l.length ≤ a + k) :
    slice (patch m b l) a k = splice (slice m a k) (b - a) l := by
  obtain ⟨i, rfl⟩ := Nat.exists_eq_add_of_le h1
  obtain ⟨j, rfl⟩ : ∃ j, k = i + l.length + j := ⟨k - i - l.length, by omega⟩
  rw [slice_add, slice_add, slice_patch_of_disjoint (.inl (Nat.le_refl _)), slice_patch_self,
    slice_patch_of_disjoint (.inr (by omega)), splice, take_slice, drop_slice]
  have hi : a + i - a = i := Nat.add_sub_cancel_left a i
  have hj : i + l.length + j - (i + l.length) = j := Nat.add_sub_cancel_left _ j
  rw [hi, hj, Nat.min_eq_left (by omega)]

/-- Reading a run, changing a part of it and writing it back is writing the part. -/
theorem patch_splice_slice (m : Nat → α) (a : Nat) (h : b + l.length ≤ k) :
    patch m a (splice (slice m a k) b l) = patch m (a + b) l := by
  funext x
  have hlen : (splice (slice m a k) b l).length = k := by
    rw [length_splice (by rwa [length_slice]), length_slice]
  by_cases hx : a ≤ x ∧ x < a + k
  · obtain ⟨i, rfl⟩ := Nat.exists_eq_add_of_le hx.1
    have hi : i < k := by omega
    have h1 := congrArg (fun l => l[i]?) (slice_patch_self m a (splice (slice m a k) b l))
    have h2 :=
      congrArg (fun l => l[i]?)
      (slice_patch (m := m) (l := l) (Nat.le_add_right a b)
      (show a + b + l.length ≤ a + k by omega))
    rw [hlen] at h1
    simp only [getElem?_slice, if_pos hi, Nat.add_sub_cancel_left] at h1 h2
    exact Option.some.inj (h1.trans h2.symm)
  · rw [patch_of_not_mem (by omega), patch_of_not_mem (by omega)]

end SystemProg.Data
