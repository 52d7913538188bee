import Mathlib.Data.List.Chain
import Mathlib.Data.List.Infix

/-!
# Doubly linked lists

Cells that point to the next and to the previous one. `Linked m l` says that the cells of `l` follow
each other in the memory `m`, in both directions; nothing is said of what is before the first and
after the last.

`Links.splice` moves a stretch of cells before another one with six writes, and `Linked.splice` says
that it does: of a block of cells only the links at its two ends change (`Linked.congr`).
-/

namespace SystemProg.Data

open List

variable {α : Type}

/-- The links of all cells. -/
structure Links (α : Type) where
  next : α → Option α
  prev : α → Option α

namespace Links

variable {m m' : Links α} {l X A S Y : List α} {a a' b s s' x y u v : α}

/-- `b` follows `a`. -/
def Joined (m : Links α) (a b : α) : Prop := m.next a = some b ∧ m.prev b = some a

/-- The cells follow each other. -/
def Linked (m : Links α) (l : List α) : Prop := l.IsChain m.Joined

theorem linked_append : m.Linked (X ++ Y) ↔ m.Linked X ∧ m.Linked Y ∧
    ∀ u, X.getLast? = some u → ∀ v, Y.head? = some v → m.Joined u v := isChain_append

theorem Linked.joined (h : m.Linked (X ++ a :: b :: Y)) : m.Joined a b :=
  (isChain_cons_cons.mp (linked_append.mp h).2.1).1

/-- Only the ends of a block are linked to something else. -/
theorem Linked.congr (h : m.Linked l) (hnext : ∀ u ∈ l.dropLast, m'.next u = m.next u)
    (hprev : ∀ v ∈ l.tail, m'.prev v = m.prev v) : m'.Linked l := by
  induction l with
  | nil => exact isChain_nil
  | cons a l ih =>
    cases l with
    | nil => exact isChain_singleton a
    | cons b l =>
      obtain ⟨⟨hab, hba⟩, hl⟩ := isChain_cons_cons.mp h
      refine isChain_cons_cons.mpr ⟨⟨?_, ?_⟩, ih hl ?_ ?_⟩
      · rw [hnext a (by simp), hab]
      · rw [hprev b (by simp), hba]
      · intro u hu
        rw [dropLast_cons_cons] at hnext
        exact hnext u (mem_cons_of_mem _ hu)
      · exact fun v hv => hprev v (mem_of_mem_tail hv)

theorem ne_of_mem_dropLast (h : l.Nodup) (hl : l.getLast? = some x) (hu : u ∈ l.dropLast) :
    u ≠ x := by
  rintro rfl
  obtain ⟨l, rfl⟩ := getLast?_eq_some_iff.mp hl
  rw [dropLast_concat] at hu
  exact (nodup_append.mp h).2.2 u hu u (by simp) rfl

theorem ne_of_mem_tail (h : l.Nodup) (hl : l.head? = some x) (hu : u ∈ l.tail) : u ≠ x := by
  rintro rfl
  obtain ⟨l, rfl⟩ := head?_eq_some_iff.mp hl
  exact (nodup_cons.mp h).1 hu

/-! ## Writing -/

variable [DecidableEq α]

/-- `a->next = b`. -/
def setNext (m : Links α) (a : α) (b : Option α) : Links α :=
  { m with next := fun u => if u = a then b else m.next u }

/-- `a->prev = b`. -/
def setPrev (m : Links α) (a : α) (b : Option α) : Links α :=
  { m with prev := fun u => if u = a then b else m.prev u }

/-- The stretch `s … s'` is taken out from between `a'` and `y` and put between `x` and `a`. -/
def splice (m : Links α) (x a a' s s' y : α) : Links α :=
  (((((m.setNext a' (some y)).setPrev y (some a')).setPrev s (some x)).setNext s' (some a)).setNext
    x (some s)).setPrev a (some s')

theorem splice_next : (m.splice x a a' s s' y).next u =
    if u = x then some s else if u = s' then some a else if u = a' then some y else m.next u := rfl

theorem splice_prev : (m.splice x a a' s s' y).prev v =
    if v = a then some s' else if v = s then some x else if v = y then some a' else m.prev v := rfl

theorem splice_next_of_ne (h1 : u ≠ x) (h2 : u ≠ s') (h3 : u ≠ a') :
    (m.splice x a a' s s' y).next u = m.next u := by
  rw [splice_next, if_neg h1, if_neg h2, if_neg h3]

theorem splice_prev_of_ne (h1 : v ≠ a) (h2 : v ≠ s) (h3 : v ≠ y) :
    (m.splice x a a' s s' y).prev v = m.prev v := by
  rw [splice_prev, if_neg h1, if_neg h2, if_neg h3]

/-- **A splice** exchanges two neighbouring stretches of cells. -/
theorem Linked.splice (hnodup : (X ++ (A ++ (S ++ Y))).Nodup) (h : m.Linked (X ++ (A ++ (S ++ Y))))
    (hx : X.getLast? = some x) (ha : A.head? = some a) (ha' : A.getLast? = some a')
    (hs : S.head? = some s) (hs' : S.getLast? = some s') (hy : Y.head? = some y) :
    (m.splice x a a' s s' y).Linked (X ++ (S ++ (A ++ Y))) := by
  obtain ⟨hX, h, -⟩ := linked_append.mp h
  obtain ⟨hA, h, -⟩ := linked_append.mp h
  obtain ⟨hS, hY, -⟩ := linked_append.mp h
  obtain ⟨nX, hnodup, dX⟩ := nodup_append.mp hnodup
  obtain ⟨nA, hnodup, dA⟩ := nodup_append.mp hnodup
  obtain ⟨nS, nY, dS⟩ := nodup_append.mp hnodup
  simp only [mem_append] at dX dA
  have mx : x ∈ X := mem_of_getLast? hx
  have ma : a ∈ A := mem_of_head? ha
  have ma' : a' ∈ A := mem_of_getLast? ha'
  have ms : s ∈ S := mem_of_head? hs
  have ms' : s' ∈ S := mem_of_getLast? hs'
  have my : y ∈ Y := mem_of_head? hy
  -- inside the blocks nothing is written
  have hX' : (m.splice x a a' s s' y).Linked X := by
    refine hX.congr (fun u hu => splice_next_of_ne (ne_of_mem_dropLast nX hx hu) ?_ ?_)
      (fun v hv => splice_prev_of_ne ?_ ?_ ?_)
    · exact dX u (mem_of_mem_dropLast hu) s' (.inr (.inl ms'))
    · exact dX u (mem_of_mem_dropLast hu) a' (.inl ma')
    · exact dX v (mem_of_mem_tail hv) a (.inl ma)
    · exact dX v (mem_of_mem_tail hv) s (.inr (.inl ms))
    · exact dX v (mem_of_mem_tail hv) y (.inr (.inr my))
  have hA' : (m.splice x a a' s s' y).Linked A := by
    refine hA.congr (fun u hu => splice_next_of_ne ?_ ?_ (ne_of_mem_dropLast nA ha' hu))
      (fun v hv => splice_prev_of_ne (ne_of_mem_tail nA ha hv) ?_ ?_)
    · exact (dX x mx u (.inl (mem_of_mem_dropLast hu))).symm
    · exact dA u (mem_of_mem_dropLast hu) s' (.inl ms')
    · exact dA v (mem_of_mem_tail hv) s (.inl ms)
    · exact dA v (mem_of_mem_tail hv) y (.inr my)
  have hS' : (m.splice x a a' s s' y).Linked S := by
    refine hS.congr (fun u hu => splice_next_of_ne ?_ (ne_of_mem_dropLast nS hs' hu) ?_)
      (fun v hv => splice_prev_of_ne ?_ (ne_of_mem_tail nS hs hv) ?_)
    · exact (dX x mx u (.inr (.inl (mem_of_mem_dropLast hu)))).symm
    · exact (dA a' ma' u (.inl (mem_of_mem_dropLast hu))).symm
    · exact (dA a ma v (.inl (mem_of_mem_tail hv))).symm
    · exact dS v (mem_of_mem_tail hv) y my
  have hY' : (m.splice x a a' s s' y).Linked Y := by
    refine hY.congr (fun u hu => splice_next_of_ne ?_ ?_ ?_)
      (fun v hv => splice_prev_of_ne ?_ ?_ (ne_of_mem_tail nY hy hv))
    · exact (dX x mx u (.inr (.inr (mem_of_mem_dropLast hu)))).symm
    · exact (dS s' ms' u (mem_of_mem_dropLast hu)).symm
    · exact (dA a' ma' u (.inr (mem_of_mem_dropLast hu))).symm
    · exact (dA a ma v (.inr (mem_of_mem_tail hv))).symm
    · exact (dS s ms v (mem_of_mem_tail hv)).symm
  -- and the ends meet
  have jXS : (m.splice x a a' s s' y).Joined x s := by
    refine ⟨by rw [splice_next, if_pos rfl], ?_⟩
    rw [splice_prev, if_neg (dA a ma s (.inl ms)).symm, if_pos rfl]
  have jSA : (m.splice x a a' s s' y).Joined s' a := by
    refine ⟨?_, by rw [splice_prev, if_pos rfl]⟩
    rw [splice_next, if_neg (dX x mx s' (.inr (.inl ms'))).symm, if_pos rfl]
  have jAY : (m.splice x a a' s s' y).Joined a' y := by
    constructor
    · rw [splice_next, if_neg (dX x mx a' (.inl ma')).symm, if_neg (dA a' ma' s' (.inl ms')),
        if_pos rfl]
    · rw [splice_prev, if_neg (dA a ma y (.inr my)).symm, if_neg (dS s ms y my).symm, if_pos rfl]
  have hAY : (A ++ Y).head? = some a := by rw [head?_append, ha]; rfl
  have hSAY : (S ++ (A ++ Y)).head? = some s := by rw [head?_append, hs]; rfl
  refine linked_append.mpr ⟨hX', linked_append.mpr ⟨hS', linked_append.mpr ⟨hA', hY', ?_⟩, ?_⟩, ?_⟩
  · intro u hu v hv
    cases ha'.symm.trans hu
    cases hy.symm.trans hv
    exact jAY
  · intro u hu v hv
    cases hs'.symm.trans hu
    cases hAY.symm.trans hv
    exact jSA
  · intro u hu v hv
    cases hx.symm.trans hu
    cases hSAY.symm.trans hv
    exact jXS

end Links

end SystemProg.Data
