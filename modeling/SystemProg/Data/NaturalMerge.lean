import Mathlib.Data.List.Chain
import Mathlib.Order.Defs.PartialOrder

/-!
# Natural merge sort

A list is cut into runs, stretches in nondecreasing order that end where the order is broken, and in
a pass each run is merged with the one after it. `Pass le l out n` is such a pass, over `l`, with
the output `out` in `n` merged runs.

`descents` counts the places where the order is broken. An output of `n` runs has fewer than `n` of
them and an input at least `2 * (n - 1)`, so that a pass with more than one run in its output leaves
fewer descents than there were: `Pass.descents_lt`.

A pass is stable: `Pass.filter_eq` says that it keeps the order of the elements that are equal to a
given one.
-/

namespace SystemProg.Data

open List

variable {α : Type} {le : α → α → Bool} {a b x : α} {l out : List α} {n : Nat}

/-! ## Runs -/

/-- The longest run at the start of `a :: l`, and what is left. -/
def run (le : α → α → Bool) (a : α) : List α → List α × List α
  | [] => ([a], [])
  | b :: l => if le a b then (a :: (run le b l).1, (run le b l).2) else ([a], b :: l)

theorem run_append (le : α → α → Bool) (a : α) (l : List α) :
    (run le a l).1 ++ (run le a l).2 = a :: l := by
  induction l generalizing a with
  | nil => rfl
  | cons b l ih =>
    rw [run]
    split
    · exact congrArg (a :: ·) (ih b)
    · rfl

theorem run_head (le : α → α → Bool) (a : α) (l : List α) : ∃ t, (run le a l).1 = a :: t := by
  cases l with
  | nil => exact ⟨[], rfl⟩
  | cons b l =>
    rw [run]
    split
    · exact ⟨_, rfl⟩
    · exact ⟨[], rfl⟩

theorem run_isChain (le : α → α → Bool) (a : α) (l : List α) :
    (run le a l).1.IsChain fun x y => le x y = true := by
  induction l generalizing a with
  | nil => exact isChain_singleton a
  | cons b l ih =>
    rw [run]
    split
    · rename_i hab
      obtain ⟨t, ht⟩ := run_head le b l
      have hb := ih b
      dsimp only
      rw [ht] at hb ⊢
      exact isChain_cons_cons.mpr ⟨hab, hb⟩
    · exact isChain_singleton a

theorem run_stop (le : α → α → Bool) (a : α) (l : List α) :
    ∀ x ∈ (run le a l).1.getLast?, ∀ y ∈ (run le a l).2.head?, le x y = false := by
  induction l generalizing a with
  | nil => simp [run]
  | cons b l ih =>
    rw [run]
    split
    · obtain ⟨t, ht⟩ := run_head le b l
      have hb := ih b
      dsimp only
      rw [ht] at hb ⊢
      simpa only [getLast?_cons_cons] using hb
    · rename_i hab
      simpa using hab

/-! ## Descents -/

/-- The places where the order is broken. -/
def descents (le : α → α → Bool) : List α → Nat
  | a :: b :: l => (if le a b then 0 else 1) + descents le (b :: l)
  | _ => 0

/-- Whether it is broken between two lists. -/
def gap (le : α → α → Bool) (l l' : List α) : Nat :=
  match l.getLast?, l'.head? with
  | some a, some b => if le a b then 0 else 1
  | _, _ => 0

theorem descents_append (l l' : List α) :
    descents le (l ++ l') = descents le l + gap le l l' + descents le l' := by
  induction l with
  | nil => simp [descents, gap]
  | cons a l ih =>
    cases l with
    | nil =>
      cases l' with
      | nil => simp [descents, gap]
      | cons b l' => simp [descents, gap]
    | cons b l =>
      have hgap : gap le (a :: b :: l) l' = gap le (b :: l) l' := by
        rw [gap, getLast?_cons_cons, gap]
      rw [cons_append, cons_append, descents, ← cons_append, ih, hgap, descents]
      omega

theorem gap_le_one (le : α → α → Bool) (l l' : List α) : gap le l l' ≤ 1 := by
  unfold gap
  split
  · split <;> omega
  · omega

theorem descents_eq_zero : descents le l = 0 ↔ l.IsChain fun x y => le x y = true := by
  induction l with
  | nil => exact iff_of_true rfl isChain_nil
  | cons a l ih =>
    cases l with
    | nil => exact iff_of_true rfl (isChain_singleton a)
    | cons b l =>
      rw [descents, isChain_cons_cons, ← ih]
      split <;> simp_all

theorem descents_le_length (le : α → α → Bool) (l : List α) : descents le l ≤ l.length := by
  induction l with
  | nil => exact Nat.le_refl 0
  | cons a l ih =>
    cases l with
    | nil => exact Nat.zero_le _
    | cons b l =>
      rw [descents, length_cons]
      split <;> omega

/-! ## Passes -/

/-- A pass over a list, its output, and the runs in it. -/
inductive Pass (le : α → α → Bool) : List α → List α → Nat → Prop
  | nil : Pass le [] [] 0
  | last {a : α} {l : List α} (h : (run le a l).2 = []) : Pass le (a :: l) (a :: l) 1
  | merge {a b : α} {l l' out : List α} {n : Nat} (h : (run le a l).2 = b :: l')
    (hrest : Pass le (run le b l').2 out n) :
    Pass le (a :: l) ((run le a l).1.merge (run le b l').1 le ++ out) (n + 1)

theorem Pass.perm (h : Pass le l out n) : out.Perm l := by
  induction h with
  | nil => exact List.Perm.refl _
  | last => exact List.Perm.refl _
  | @merge a b l l' out n h hrest ih =>
    have hcut := run_append le a l
    rw [h, ← run_append le b l', ← append_assoc] at hcut
    rw [← hcut]
    exact (merge_perm_append le).append ih

/-- The order in which the passes sort. -/
structure Ordering (le : α → α → Bool) : Prop where
  total : ∀ a b, (le a b || le b a) = true
  trans : ∀ a b c, le a b = true → le b c = true → le a c = true

/-- In the place of one another. -/
def equal (le : α → α → Bool) (x y : α) : Bool := le x y && le y x

theorem Ordering.pairwise (ho : Ordering le) (h : l.IsChain fun x y => le x y = true) :
    l.Pairwise fun x y => le x y = true := by
  have : Trans (fun x y => le x y = true) (fun x y => le x y = true) (fun x y => le x y = true) :=
    ⟨fun hab hbc => ho.trans _ _ _ hab hbc⟩
  exact isChain_iff_pairwise.mp h

/-- A merge takes from the second list only before larger elements of the first. -/
theorem Ordering.filter_merge (ho : Ordering le) (x : α) {l l' : List α}
    (hl : l.Pairwise fun x y => le x y = true) :
    (l.merge l' le).filter (equal le x) = (l ++ l').filter (equal le x) := by
  induction l generalizing l' with
  | nil => simp
  | cons a l ih =>
    induction l' with
    | nil => simp
    | cons b l' ih' =>
      obtain ⟨ha, hl⟩ := pairwise_cons.mp hl
      rw [cons_merge_cons]
      split
      · rw [cons_append, filter_cons, filter_cons, ih hl]
      · rename_i hab
        rw [filter_append]
        by_cases hxb : equal le x b = true
        · -- nothing that is left of the first list is equal to `b`
          have hnone : (a :: l).filter (equal le x) = [] := by
            rw [filter_eq_nil_iff]
            intro z hz hxz
            simp only [equal, Bool.and_eq_true] at hxb hxz
            have haz : le a z = true := by
              rcases mem_cons.mp hz with rfl | hz
              · simpa using ho.total z z
              · exact ha z hz
            exact hab (ho.trans _ _ _ haz (ho.trans _ _ _ hxz.2 hxb.1))
          rw [filter_cons_of_pos hxb, filter_cons_of_pos hxb, ih', filter_append, hnone]
          rfl
        · rw [filter_cons_of_neg hxb, filter_cons_of_neg hxb, ih', filter_append]

/-- **A pass is stable.** -/
theorem Pass.filter_eq (h : Pass le l out n) (ho : Ordering le) (x : α) :
    out.filter (equal le x) = l.filter (equal le x) := by
  induction h with
  | nil => rfl
  | last => rfl
  | @merge a b l l' out n h hrest ih =>
    have hcut := run_append le a l
    rw [h, ← run_append le b l', ← append_assoc] at hcut
    rw [← hcut, filter_append, filter_append, ih,
      ho.filter_merge x (ho.pairwise (run_isChain le a l))]

theorem Pass.descents_out (h : Pass le l out n) (ho : Ordering le) :
    out = [] ∧ n = 0 ∨ descents le out < n := by
  induction h with
  | nil => exact .inl ⟨rfl, rfl⟩
  | @last a l h =>
    refine .inr ?_
    have hcut := run_append le a l
    rw [h, append_nil] at hcut
    rw [← hcut, descents_eq_zero.mpr (run_isChain le a l)]
    exact Nat.one_pos
  | @merge a b l l' out n h hrest ih =>
    refine .inr ?_
    have hmerged : descents le ((run le a l).1.merge (run le b l').1 le) = 0 := by
      refine descents_eq_zero.mpr (List.Pairwise.isChain ?_)
      exact pairwise_merge ho.trans ho.total _ _ (ho.pairwise (run_isChain le a l))
        (ho.pairwise (run_isChain le b l'))
    have hgap := gap_le_one le ((run le a l).1.merge (run le b l').1 le) out
    rw [descents_append, hmerged]
    rcases ih with ⟨rfl, rfl⟩ | hlt
    · simp [gap, descents]
    · omega

theorem gap_run (le : α → α → Bool) (a : α) (l : List α) (h : (run le a l).2 ≠ []) :
    gap le (run le a l).1 (run le a l).2 = 1 := by
  obtain ⟨t, ht⟩ := run_head le a l
  obtain ⟨y, l', hy⟩ := exists_cons_of_ne_nil h
  have hstop := run_stop le a l
  rw [ht, hy] at hstop ⊢
  obtain ⟨z, hz⟩ : ∃ z, (a :: t).getLast? = some z := ⟨_, getLast?_eq_some_getLast (by simp)⟩
  have := hstop z hz y rfl
  simp only [gap, hz, head?_cons, this]
  simp

theorem Pass.descents_in (h : Pass le l out n) : 2 * n ≤ descents le l + 2 := by
  induction h with
  | nil => omega
  | last => omega
  | @merge a b l l' out n h hrest ih =>
    have hcut := run_append le a l
    have hcut' := run_append le b l'
    have h1 : gap le (run le a l).1 (run le a l).2 = 1 := gap_run le a l (by simp [h])
    rw [← hcut, descents_append, h1, h, ← hcut', descents_append]
    by_cases hnil : (run le b l').2 = []
    · rw [hnil] at hrest
      cases hrest
      omega
    · have h2 := gap_run le b l' hnil
      omega

/-- **Passes end**: while there is more than one run in the output, there are fewer descents in it
than in the input. -/
theorem Pass.descents_lt (h : Pass le l out n) (ho : Ordering le) (hn : 1 < n) :
    descents le out < descents le l := by
  have hin := h.descents_in
  rcases h.descents_out ho with ⟨-, h0⟩ | hout
  · omega
  · omega

theorem Pass.isChain (h : Pass le l out n) (ho : Ordering le) (hn : n ≤ 1) :
    out.IsChain fun x y => le x y = true := by
  rw [← descents_eq_zero]
  rcases h.descents_out ho with ⟨rfl, -⟩ | hout
  · rfl
  · omega

end SystemProg.Data
