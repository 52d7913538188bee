import Mathlib.Data.List.Nodup

/-!
# Keyed lists

A table kept as a list of rows, each with a key: the row of a key, an update of that row in place,
its removal. The laws assume that keys are distinct where they need it.
-/

namespace SystemProg.Data

open List

variable {α κ β : Type} [DecidableEq κ] {key : α → κ} {l : List α} {k : κ} {x y : α} {f : α → α}

/-- The row with key `k`. -/
def lookup (key : α → κ) (l : List α) (k : κ) : Option α := l.find? fun x => key x = k

/-- The table with `f` applied to the row of `k`. -/
def update (key : α → κ) (l : List α) (k : κ) (f : α → α) : List α :=
  l.map fun x => if key x = k then f x else x

/-- The table without the row of `k`. -/
def remove (key : α → κ) (l : List α) (k : κ) : List α := l.filter fun x => key x ≠ k

theorem mem_of_lookup (h : lookup key l k = some x) : x ∈ l ∧ key x = k :=
  ⟨mem_of_find?_eq_some h, by simpa using find?_some h⟩

theorem lookup_cons_self : lookup key (x :: l) (key x) = some x := find?_cons_of_pos (by simp)

theorem lookup_of_mem (hl : (l.map key).Nodup) (hx : x ∈ l) : lookup key l (key x) = some x := by
  cases h : lookup key l (key x) with
  | none => exact absurd (find?_eq_none.mp h x hx) (by simp)
  | some y =>
    obtain ⟨hy, hk⟩ := mem_of_lookup h
    rw [inj_on_of_nodup_map hl hy hx hk]

theorem mem_update (h : y ∈ update key l k f) :
    (∃ x ∈ l, key x = k ∧ y = f x) ∨ (y ∈ l ∧ key y ≠ k) := by
  obtain ⟨x, hx, rfl⟩ := mem_map.mp h
  by_cases hk : key x = k
  · exact .inl ⟨x, hx, hk, if_pos hk⟩
  · rw [if_neg hk]
    exact .inr ⟨hx, hk⟩

theorem mem_update_self (hx : x ∈ l) : f x ∈ update key l (key x) f :=
  mem_map.mpr ⟨x, hx, if_pos rfl⟩

/-- What `f` leaves alone of the row, an update leaves alone. -/
theorem map_update_of_mem {g : α → β} (hf : ∀ x ∈ l, key x = k → g (f x) = g x) :
    (update key l k f).map g = l.map g := by
  rw [update, map_map]
  refine map_congr_left fun x hx => ?_
  by_cases hk : key x = k
  · simp only [Function.comp_apply, if_pos hk, hf x hx hk]
  · simp only [Function.comp_apply, if_neg hk]

theorem map_update {g : α → β} (hf : ∀ x, g (f x) = g x) : (update key l k f).map g = l.map g :=
  map_update_of_mem fun x _ _ => hf x

theorem lookup_update (hf : ∀ x, key (f x) = key x) (h : lookup key l k = some x) :
    lookup key (update key l k f) k = some (f x) := by
  induction l with
  | nil => exact absurd h (by simp [lookup])
  | cons a l ih =>
    unfold lookup update at *
    by_cases ha : key a = k
    · rw [find?_cons_of_pos (by simpa using ha)] at h
      cases h
      rw [map_cons, if_pos ha, find?_cons_of_pos (by simpa [hf] using ha)]
    · rw [find?_cons_of_neg (by simpa using ha)] at h
      rw [map_cons, if_neg ha, find?_cons_of_neg (by simpa using ha)]
      exact ih h

theorem mem_remove : x ∈ remove key l k ↔ x ∈ l ∧ key x ≠ k := by
  simp [remove]

theorem remove_sublist : (remove key l k).Sublist l := filter_sublist

theorem remove_eq_self (h : ∀ x ∈ l, key x ≠ k) : remove key l k = l :=
  filter_eq_self.mpr fun x hx => by simpa using h x hx

theorem update_eq_self (h : ∀ x ∈ l, key x ≠ k) : update key l k f = l := by
  rw [update]
  conv_rhs => rw [← map_id l]
  exact map_congr_left fun x hx => if_neg (h x hx)

theorem split_of_lookup (hl : (l.map key).Nodup) (h : lookup key l k = some x) :
    ∃ a b, l = a ++ x :: b ∧ remove key l k = a ++ b ∧ ∀ f, update key l k f = a ++ f x :: b := by
  obtain ⟨hx, rfl⟩ := mem_of_lookup h
  obtain ⟨a, b, rfl⟩ := append_of_mem hx
  rw [map_append, map_cons, nodup_middle, nodup_cons, ← map_append] at hl
  have hne : ∀ y ∈ a ++ b, key y ≠ key x := fun y hy he => hl.1 (he ▸ mem_map_of_mem hy)
  have ha : ∀ y ∈ a, key y ≠ key x := fun y hy => hne y (mem_append_left _ hy)
  have hb : ∀ y ∈ b, key y ≠ key x := fun y hy => hne y (mem_append_right _ hy)
  refine ⟨a, b, rfl, ?_, fun f => ?_⟩
  · rw [remove, filter_append, filter_cons_of_neg (by simp)]
    exact congrArg₂ _ (remove_eq_self ha) (remove_eq_self hb)
  · rw [update, map_append, map_cons, if_pos rfl]
    exact congrArg₂ _ (update_eq_self ha) (congrArg _ (update_eq_self hb))

theorem length_remove (hl : (l.map key).Nodup) (hx : x ∈ l) :
    (remove key l (key x)).length + 1 = l.length := by
  obtain ⟨a, b, rfl, hr, -⟩ := split_of_lookup hl (lookup_of_mem hl hx)
  rw [hr]
  simp only [length_append, length_cons]
  omega

theorem forall_mem_concat {P : α → Prop} (h : ∀ y ∈ l, P y) (hx : P x) : ∀ y ∈ l ++ [x], P y :=
  forall_mem_append.mpr ⟨h, forall_mem_singleton.mpr hx⟩

/-- Where keys increase, the last is the greatest. -/
theorem lt_succ_last {l : List α} {key : α → Nat} (h : (l.map key).Pairwise (· < ·)) (hx : x ∈ l)
    (hy : l.getLast? = some y) : key x < key y + 1 := by
  obtain ⟨l, rfl⟩ := getLast?_eq_some_iff.mp hy
  rw [map_append, pairwise_append] at h
  rcases mem_append.mp hx with hx | hx
  · exact Nat.lt_succ_of_lt (h.2.2 _ (mem_map_of_mem hx) _ (by simp))
  · rw [mem_singleton.mp hx]
    exact Nat.lt_succ_self _

omit [DecidableEq κ] in
theorem filterMap_insert {g g' : κ → Option α} {ks : List κ} (hks : ks.Nodup) (hk : k ∈ ks)
    (hnone : g k = none) (hsome : g' k = some x) (hrest : ∀ j ∈ ks, j ≠ k → g' j = g j) :
    (ks.filterMap g').Perm (x :: ks.filterMap g) := by
  obtain ⟨a, b, rfl⟩ := append_of_mem hk
  have hne (j) (hj : j ∈ a ++ b) : j ≠ k := fun he =>
    (nodup_middle.mp hks).notMem (he ▸ hj)
  have ha : a.filterMap g' = a.filterMap g := filterMap_congr fun j hj =>
    hrest j (mem_append_left _ hj) (hne j (mem_append_left _ hj))
  have hb : b.filterMap g' = b.filterMap g := filterMap_congr fun j hj =>
    hrest j (mem_append_right _ (mem_cons_of_mem _ hj))
      (hne j (mem_append_right _ hj))
  rw [filterMap_append, filterMap_append, filterMap_cons_some hsome,
    filterMap_cons_none hnone, ha, hb]
  exact perm_middle

end SystemProg.Data
