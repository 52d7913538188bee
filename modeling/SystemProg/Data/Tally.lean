import SystemProg.Data.Keyed

/-!
# Counts of holders

The rows of a keyed table each have a count of those who hold the row. `hs` lists the holders, each
by the key of the row it holds, and the counts agree with it.
-/

namespace SystemProg.Data

variable {α κ : Type} [DecidableEq κ] {key : α → κ} {cnt : α → Nat} {l : List α} {hs hs' : List κ}
  {k : κ} {x : α} {f : α → α}

/-- The counts of the rows are right. -/
def Tallies (key : α → κ) (cnt : α → Nat) (l : List α) (hs : List κ) : Prop :=
  ∀ x ∈ l, cnt x = hs.count (key x)

namespace Tallies

theorem perm (h : Tallies key cnt l hs) (hp : hs.Perm hs') : Tallies key cnt l hs' := fun x hx =>
  (h x hx).trans (hp.count_eq _)

/-- The row of `k` changes, and with it who holds it. -/
theorem update (h : Tallies key cnt l hs) (hkey : ∀ x, key (f x) = key x)
    (hcnt : ∀ x ∈ l, key x = k → cnt (f x) = hs'.count k)
    (hrest : ∀ j, j ≠ k → hs'.count j = hs.count j) : Tallies key cnt (update key l k f) hs' := by
  intro y hy
  rcases mem_update hy with ⟨x, hx, hk, rfl⟩ | ⟨hy, hk⟩
  · rw [hcnt x hx hk, hkey, hk]
  · rw [h y hy, hrest _ hk]

theorem acquire (h : Tallies key cnt l hs) (hkey : ∀ x, key (f x) = key x)
    (hcnt : ∀ x, cnt (f x) = cnt x + 1) : Tallies key cnt (Data.update key l k f) (k :: hs) := by
  refine h.update hkey (fun x hx hk => ?_) fun j hj => List.count_cons_of_ne (Ne.symm hj)
  rw [hcnt, h x hx, hk, List.count_cons_self]

theorem release (h : Tallies key cnt l (k :: hs)) (hkey : ∀ x, key (f x) = key x)
    (hcnt : ∀ x, cnt (f x) = cnt x - 1) : Tallies key cnt (Data.update key l k f) hs := by
  refine h.update hkey (fun x hx hk => ?_) fun j hj => (List.count_cons_of_ne (Ne.symm hj)).symm
  rw [hcnt, h x hx, hk, List.count_cons_self, Nat.add_sub_cancel]

theorem keep (h : Tallies key cnt l hs) (hkey : ∀ x, key (f x) = key x)
    (hcnt : ∀ x, cnt (f x) = cnt x) : Tallies key cnt (Data.update key l k f) hs :=
  h.update hkey (fun x hx hk => by rw [hcnt, h x hx, hk]) fun _ _ => rfl

theorem remove (h : Tallies key cnt l hs) (hrest : ∀ j, j ≠ k → hs'.count j = hs.count j) :
    Tallies key cnt (Data.remove key l k) hs' := by
  intro x hx
  obtain ⟨hx, hk⟩ := mem_remove.mp hx
  rw [h x hx, hrest _ hk]

theorem cons (h : Tallies key cnt l hs) (hx : cnt x = hs'.count (key x))
    (hrest : ∀ y ∈ l, hs'.count (key y) = hs.count (key y)) : Tallies key cnt (x :: l) hs' :=
  List.forall_mem_cons.mpr ⟨hx, fun y hy => (h y hy).trans (hrest y hy).symm⟩

end Tallies

end SystemProg.Data
