import SystemProg.Data.Links
import SystemProg.Data.NaturalMerge
import SystemProg.Seq.Panic

/-!
# `list_sort`

Model of the doubly linked lists of `lib/kernel/list.c`: `list_begin`, `list_next`, `list_prev` and
`list_splice` (`list.c:36-54, 68-114, 179-204`), and the natural merge sort with `is_sorted`,
`find_end_of_run` and `inplace_merge` (`list.c:343-443`). A `struct list_elem *` that is not null is
a value of a type `α`, of which nothing is assumed; `less` looks at the elements and not at their
links. An assertion that fails and a null pointer that is followed are panics. Loops take a bound on
their turns.

`Holds` is a well-formed list of the elements `l`. Each cursor of the algorithm is the start of a
rest of that list, or its tail.

* `listSplice_spec`: a splice exchanges two neighbouring stretches.
* `mergeLoop_spec`: `inplace_merge` merges.
* `passLoop_spec`: the inner loop of `list_sort` is a `Pass`.
* `list_sort_sorts`: `list_sort` returns, and sorts.
-/

namespace SystemProg.Pintos.ListSort

open SystemProg.Seq Data List

variable {α : Type}

/-! ## The source -/

/-- `struct list`: where its two header elements are. -/
structure ListHeaders (α : Type) where
  head : α
  tail : α

/-- `is_head`. -/
def isHead (m : Links α) (elem : α) : Prop := m.prev elem = none ∧ m.next elem ≠ none

/-- `is_interior`. -/
def isInterior (m : Links α) (elem : α) : Prop := m.prev elem ≠ none ∧ m.next elem ≠ none

/-- `is_tail`. -/
def isTail (m : Links α) (elem : α) : Prop := m.prev elem ≠ none ∧ m.next elem = none

instance (m : Links α) (elem : α) : Decidable (isHead m elem) := inferInstanceAs (Decidable (_ ∧ _))
instance (m : Links α) (elem : α) : Decidable (isInterior m elem) :=
  inferInstanceAs (Decidable (_ ∧ _))
instance (m : Links α) (elem : α) : Decidable (isTail m elem) := inferInstanceAs (Decidable (_ ∧ _))

/-- Follow a pointer. -/
def deref : Option α → Panic (Links α) α
  | none => abort
  | some a => pure a

theorem deref_some (a : α) (m : Links α) : deref (some a) m = some (a, m) := rfl

/-- `list_begin`. -/
def listBegin (list : ListHeaders α) : Panic (Links α) α := do
  let m ← get
  deref (m.next list.head)

/-- `list_next`. -/
def listNext (elem : α) : Panic (Links α) α := do
  let m ← get
  assert (isHead m elem ∨ isInterior m elem)
  deref (m.next elem)

/-- `list_prev`. -/
def listPrev (elem : α) : Panic (Links α) α := do
  let m ← get
  assert (isInterior m elem ∨ isTail m elem)
  deref (m.prev elem)

section

variable [DecidableEq α]

/-- `list_splice`. -/
def listSplice (before first last : α) : Panic (Links α) Unit := do
  let m ← get
  assert (isInterior m before ∨ isTail m before)
  if first = last then pure ()
  else do
    let last ← listPrev last
    assert (isInterior m first)
    assert (isInterior m last)
    -- `first->prev->next = last->next; last->next->prev = first->prev;`
    let firstPrev ← deref (m.prev first)
    modify fun m => m.setNext firstPrev (m.next last)
    let m ← get
    let lastNext ← deref (m.next last)
    modify fun m => m.setPrev lastNext (m.prev first)
    -- `first->prev = before->prev; last->next = before;`
    modify fun m => m.setPrev first (m.prev before)
    modify fun m => m.setNext last (some before)
    -- `before->prev->next = first; before->prev = last;`
    let m ← get
    let beforePrev ← deref (m.prev before)
    modify fun m => m.setNext beforePrev (some first)
    modify fun m => m.setPrev before (some last)

variable (less : α → α → Bool)

/-- The loop of `is_sorted`. -/
def isSortedLoop (b : α) : (turns : Nat) → α → Panic (Links α) Bool
  | 0, _ => abort
  | turns + 1, a => do
    let a ← listNext a
    if a = b then pure true
    else do
      let p ← listPrev a
      if less a p then pure false else isSortedLoop b turns a

/-- `is_sorted`. -/
def isSorted (turns : Nat) (a b : α) : Panic (Links α) Bool :=
  if a = b then pure true else isSortedLoop less b turns a

/-- The loop of `find_end_of_run`. -/
def runLoop (b : α) : (turns : Nat) → α → Panic (Links α) α
  | 0, _ => abort
  | turns + 1, a => do
    let a ← listNext a
    if a = b then pure a
    else do
      let p ← listPrev a
      if less a p then pure a else runLoop b turns a

/-- `find_end_of_run`. -/
def findEndOfRun (turns : Nat) (a b : α) : Panic (Links α) α := do
  assert (a ≠ b)
  runLoop less b turns a

/-- The loop of `inplace_merge`. -/
def mergeLoop (b1 : α) : (turns : Nat) → (a0 a1b0 : α) → Panic (Links α) Unit
  | 0, _, _ => abort
  | turns + 1, a0, a1b0 =>
    if a0 ≠ a1b0 ∧ a1b0 ≠ b1 then
      if less a1b0 a0 then do
        let a1b0 ← listNext a1b0
        let p ← listPrev a1b0
        listSplice a0 p a1b0
        mergeLoop b1 turns a0 a1b0
      else do
        let a0 ← listNext a0
        mergeLoop b1 turns a0 a1b0
    else pure ()

/-- `inplace_merge`. -/
def inplaceMerge (turns : Nat) (a0 a1b0 b1 : α) : Panic (Links α) Unit := do
  let sorted ← isSorted less turns a0 a1b0
  assert (sorted = true)
  let sorted ← isSorted less turns a1b0 b1
  assert (sorted = true)
  mergeLoop less b1 turns a0 a1b0

/-- The inner loop of `list_sort`, which counts the runs it puts out. -/
def passLoop (list : ListHeaders α) (bound : Nat) :
    (turns : Nat) → (a0 : α) → (outputRunCnt : Nat) → Panic (Links α) Nat
  | 0, _, _ => abort
  | turns + 1, a0, outputRunCnt =>
    if a0 ≠ list.tail then do
      let a1b0 ← findEndOfRun less bound a0 list.tail
      if a1b0 = list.tail then pure (outputRunCnt + 1)
      else do
        let b1 ← findEndOfRun less bound a1b0 list.tail
        inplaceMerge less bound a0 a1b0 b1
        passLoop list bound turns b1 (outputRunCnt + 1)
    else pure outputRunCnt

/-- The outer loop of `list_sort`. -/
def sortLoop (list : ListHeaders α) (bound : Nat) : (turns : Nat) → Panic (Links α) Unit
  | 0 => abort
  | turns + 1 => do
    let a0 ← listBegin list
    let outputRunCnt ← passLoop less list bound bound a0 0
    if outputRunCnt > 1 then sortLoop list bound turns else pure ()

/-- `list_sort`. No loop in it takes more than `bound` turns. -/
def listSort (list : ListHeaders α) (bound : Nat) : Panic (Links α) Unit := do
  sortLoop less list bound bound
  let a0 ← listBegin list
  let sorted ← isSorted less bound a0 list.tail
  assert (sorted = true)

end

/-! ## Well-formed lists -/

/-- The cells of a list of the elements `l`. -/
def cells (list : ListHeaders α) (l : List α) : List α := list.head :: (l ++ [list.tail])

/-- The memory holds a well-formed list of the elements `l`. -/
structure Holds (m : Links α) (list : ListHeaders α) (l : List α) : Prop where
  nodup : (cells list l).Nodup
  linked : m.Linked (cells list l)
  front : m.prev list.head = none
  back : m.next list.tail = none

variable {m : Links α} {list : ListHeaders α} {l P R A B S : List α} {a b p q : α}

/-- The cell at which a rest of the list starts. -/
def start (list : ListHeaders α) (l : List α) : α := l.headD list.tail

theorem start_cons (a : α) (l : List α) : start list (a :: l) = a := rfl

theorem listNext_joined (h : m.Joined p q) : listNext p m = some (q, m) := by
  have hassert : isHead m p ∨ isInterior m p := by
    unfold isHead isInterior
    rw [h.1]
    by_cases hp : m.prev p = none <;> simp [hp]
  rw [listNext, get_bind, bind_eq (assert_eq hassert), h.1]
  rfl

theorem interior_or_tail (h : m.Joined p q) : isInterior m q ∨ isTail m q := by
  unfold isInterior isTail
  rw [h.2]
  by_cases hq : m.next q = none <;> simp [hq]

theorem listPrev_joined (h : m.Joined p q) : listPrev q m = some (p, m) := by
  rw [listPrev, get_bind, bind_eq (assert_eq (interior_or_tail h)), h.2]
  rfl

/-- After `a` comes the start of what follows it. -/
theorem Holds.joined (h : Holds m list (P ++ a :: R)) : m.Joined a (start list R) := by
  have hl := h.linked
  cases R with
  | nil =>
    refine Links.Linked.joined (X := list.head :: P) (Y := []) ?_
    simpa [cells, start] using hl
  | cons b R =>
    refine Links.Linked.joined (X := list.head :: P) (Y := R ++ [list.tail]) ?_
    simpa [cells, start] using hl

theorem Holds.begin_eq (h : Holds m list l) : listBegin list m = some (start list l, m) := by
  have hj : m.Joined list.head (start list l) := by
    have hl := h.linked
    cases l with
    | nil => exact Links.Linked.joined (X := []) (Y := []) hl
    | cons b l => exact Links.Linked.joined (X := []) (Y := l ++ [list.tail]) hl
  rw [listBegin, get_bind, hj.1]
  rfl

/-- Different rests of the list start at different cells. -/
theorem Holds.start_ne (h : Holds m list (P ++ a :: (A ++ R))) : a ≠ start list R := by
  have hn := (nodup_cons.mp h.nodup).2
  rw [append_assoc, cons_append] at hn
  have ha := (nodup_cons.mp (nodup_append.mp hn).2.1).1
  rintro rfl
  apply ha
  cases R with
  | nil => simp [start]
  | cons b R => simp [start]

theorem Holds.ne_tail (h : Holds m list (P ++ a :: S)) : a ≠ list.tail := by
  have h' : Holds m list (P ++ a :: (S ++ [])) := by simpa using h
  exact h'.start_ne

theorem Holds.interior (h : Holds m list (P ++ a :: R)) : isInterior m a := by
  have hl : m.Linked ((list.head :: P) ++ (a :: (R ++ [list.tail]))) := by
    simpa [cells] using h.linked
  have hprev := (Links.linked_append.mp hl).2.2 _ (getLast?_eq_some_getLast (by simp)) a rfl
  exact ⟨by rw [hprev.2]; simp, by rw [h.joined.1]; simp⟩

/-! ## `list_splice` -/

variable [DecidableEq α]

theorem listSplice_eq {x a a' b b' y : α} (hxa : m.Joined x a) (hab : m.Joined a' b)
    (hby : m.Joined b' y) (hb : isInterior m b) (hb' : isInterior m b') (h1 : a ≠ b) (h2 : a ≠ y)
    (h3 : b ≠ y) (h4 : b' ≠ a') :
    listSplice a b y m = some ((), m.splice x a a' b b' y) := by
  -- the links that are read again after the first writes
  have hnext : (m.setNext a' (some y)).next b' = some y := (if_neg h4).trans hby.1
  have hprev : ((m.setNext a' (some y)).setPrev y (some a')).prev a = some x :=
    (if_neg h2).trans hxa.2
  have hprev' : ((((m.setNext a' (some y)).setPrev y (some a')).setPrev b (some x)).setNext b'
      (some a)).prev a = some x := (if_neg h1).trans hprev
  rw [listSplice, get_bind, bind_eq (assert_eq (interior_or_tail hxa)), if_neg h3,
    bind_eq (listPrev_joined hby), bind_eq (assert_eq hb), bind_eq (assert_eq hb'), hab.2,
    bind_eq (deref_some _ _), bind_eq modify_eq, get_bind, hby.1, hnext, bind_eq (deref_some _ _),
    bind_eq modify_eq, show (m.setNext a' (some y)).prev b = some a' from hab.2, bind_eq modify_eq,
    hprev, bind_eq modify_eq, get_bind, hprev', bind_eq (deref_some _ _), bind_eq modify_eq,
    modify_eq]
  rfl

/-- **`list_splice` exchanges two neighbouring stretches** of a list. -/
theorem listSplice_spec (h : Holds m list (P ++ (A ++ (S ++ R)))) (ha : A.head? = some a)
    (hs : S.head? = some b) :
    ∃ m', listSplice a b (start list R) m = some ((), m') ∧
      Holds m' list (P ++ (S ++ (A ++ R))) := by
  obtain ⟨A1, rfl⟩ := head?_eq_some_iff.mp ha
  obtain ⟨S1, rfl⟩ := head?_eq_some_iff.mp hs
  obtain ⟨a', ha'⟩ : ∃ a', (a :: A1).getLast? = some a' :=
    ⟨_, getLast?_eq_some_getLast (by simp)⟩
  obtain ⟨b', hb'⟩ : ∃ b', (b :: S1).getLast? = some b' :=
    ⟨_, getLast?_eq_some_getLast (by simp)⟩
  obtain ⟨x, hx⟩ : ∃ x, (list.head :: P).getLast? = some x :=
    ⟨_, getLast?_eq_some_getLast (by simp)⟩
  have hy : (R ++ [list.tail]).head? = some (start list R) := by
    cases R <;> rfl
  have hcells : ∀ A S : List α, cells list (P ++ (A ++ (S ++ R))) =
      (list.head :: P) ++ (A ++ (S ++ (R ++ [list.tail]))) := by
    intro A S
    simp [cells]
  have hnodup := h.nodup
  have hlinked := h.linked
  rw [hcells] at hnodup hlinked
  have hspliced := hlinked.splice hnodup hx ha ha' hs hb' hy
  obtain ⟨-, hA, jXA⟩ := Links.linked_append.mp hlinked
  obtain ⟨-, hS, jAS⟩ := Links.linked_append.mp hA
  obtain ⟨-, -, jSY⟩ := Links.linked_append.mp hS
  obtain ⟨-, hnA, dX⟩ := nodup_append.mp hnodup
  obtain ⟨-, hnS, dA⟩ := nodup_append.mp hnA
  obtain ⟨-, -, dS⟩ := nodup_append.mp hnS
  have mb' : b' ∈ b :: S1 := mem_of_getLast? hb'
  have ma' : a' ∈ a :: A1 := mem_of_getLast? ha'
  have my : start list R ∈ R ++ [list.tail] := mem_of_head? hy
  refine ⟨m.splice x a a' b b' (start list R), ?_, ⟨?_, ?_, ?_, ?_⟩⟩
  · refine listSplice_eq (jXA x hx a rfl) (jAS a' ha' b rfl) (jSY b' hb' _ hy) ?_ ?_ ?_ ?_ ?_ ?_
    · have hb : Holds m list (P ++ a :: A1 ++ b :: (S1 ++ R)) := by simpa using h
      exact hb.interior
    · obtain ⟨S0, hS0⟩ := getLast?_eq_some_iff.mp hb'
      rw [hS0] at h
      have hb' : Holds m list (P ++ a :: A1 ++ S0 ++ b' :: R) := by simpa using h
      exact hb'.interior
    · exact dA a (by simp) b (by simp)
    · exact dA a (by simp) _ (mem_append_right _ my)
    · exact dS b (by simp) _ my
    · exact (dA a' ma' b' (mem_append_left _ mb')).symm
  · rw [hcells]
    refine (List.Perm.nodup_iff ?_).mp hnodup
    refine List.Perm.append_left _ ?_
    rw [← append_assoc (a :: A1), ← append_assoc (b :: S1)]
    exact List.Perm.append_right _ perm_append_comm
  · rw [hcells]
    exact hspliced
  · have dhead := dX list.head (by simp)
    rw [Links.splice_prev_of_ne (dhead a (by simp)) (dhead b (by simp))
      (dhead _ (by simp only [mem_append] at my ⊢; tauto)), h.front]
  · rw [Links.splice_next_of_ne ?_ ?_ ?_, h.back]
    · exact (dX x (mem_of_getLast? hx) list.tail (by simp)).symm
    · exact (dS b' mb' list.tail (by simp)).symm
    · exact (dA a' ma' list.tail (by simp)).symm

/-! ## `is_sorted` and `find_end_of_run` -/

variable {less : α → α → Bool}

/-- `b` may stand after `a`. -/
def le (less : α → α → Bool) (a b : α) : Bool := !less b a

theorem isSortedLoop_eq (A : List α) {turns : Nat} (hturns : A.length < turns)
    (h : Holds m list (P ++ a :: (A ++ R)))
    (hA : (a :: A).IsChain fun x y => le less x y = true) :
    isSortedLoop less (start list R) turns a m = some (true, m) := by
  induction A generalizing P a turns with
  | nil =>
    obtain ⟨turns, rfl⟩ : ∃ k, turns = k + 1 := ⟨turns - 1, by simp at hturns; omega⟩
    rw [isSortedLoop, bind_eq (listNext_joined h.joined), nil_append, if_pos rfl]
    rfl
  | cons c A ih =>
    obtain ⟨turns, rfl⟩ : ∃ k, turns = k + 1 := ⟨turns - 1, by simp at hturns; omega⟩
    obtain ⟨hac, hA⟩ := isChain_cons_cons.mp hA
    have hc : Holds m list (P ++ [a] ++ c :: (A ++ R)) := by simpa using h
    have hless : less c a = false := by simpa [le] using hac
    have hj : m.Joined a c := h.joined
    rw [isSortedLoop, bind_eq (listNext_joined hj), if_neg hc.start_ne,
      bind_eq (listPrev_joined hj), hless, if_neg (by simp)]
    exact ih (by simp at hturns; omega) hc hA

theorem isSorted_eq {turns : Nat} (hturns : A.length ≤ turns) (h : Holds m list (P ++ (A ++ R)))
    (hA : A.IsChain fun x y => le less x y = true) :
    isSorted less turns (start list (A ++ R)) (start list R) m = some (true, m) := by
  cases A with
  | nil =>
    rw [isSorted, nil_append, if_pos rfl]
    rfl
  | cons a A =>
    rw [cons_append, start_cons, isSorted, if_neg h.start_ne]
    exact isSortedLoop_eq A hturns h hA

theorem runLoop_eq (S : List α) {turns : Nat} (hturns : S.length < turns)
    (h : Holds m list (P ++ a :: S)) :
    runLoop less list.tail turns a m = some (start list (run (le less) a S).2, m) := by
  induction S generalizing P a turns with
  | nil =>
    obtain ⟨turns, rfl⟩ : ∃ k, turns = k + 1 := ⟨turns - 1, by simp at hturns; omega⟩
    rw [runLoop, bind_eq (listNext_joined h.joined),
      if_pos (show start list [] = list.tail from rfl)]
    rfl
  | cons c S ih =>
    obtain ⟨turns, rfl⟩ : ∃ k, turns = k + 1 := ⟨turns - 1, by simp at hturns; omega⟩
    have hc : Holds m list (P ++ [a] ++ c :: S) := by simpa using h
    have hj : m.Joined a c := h.joined
    rw [runLoop, bind_eq (listNext_joined hj), if_neg hc.ne_tail, bind_eq (listPrev_joined hj), run]
    cases hless : less c a with
    | true =>
      rw [if_pos rfl, if_neg (by simp [le, hless])]
      rfl
    | false =>
      rw [if_neg (by simp), if_pos (by simp [le, hless])]
      exact ih (by simp at hturns; omega) hc

/-- **`find_end_of_run` finds the end of the run** that starts at `a`. -/
theorem findEndOfRun_eq {turns : Nat} (hturns : S.length < turns)
    (h : Holds m list (P ++ a :: S)) :
    findEndOfRun less turns a list.tail m = some (start list (run (le less) a S).2, m) := by
  rw [findEndOfRun, bind_eq (assert_eq h.ne_tail)]
  exact runLoop_eq S hturns h

/-! ## `inplace_merge` -/

/-- The loop merges: what stands before `a0` is merged, and `A` and `B` are not yet. -/
theorem mergeLoop_spec (less : α → α → Bool) (turns : Nat) (hturns : A.length + B.length < turns)
    (h : Holds m list (P ++ (A ++ (B ++ R)))) :
    ∃ m', mergeLoop less (start list R) turns (start list (A ++ (B ++ R)))
        (start list (B ++ R)) m = some ((), m') ∧
      Holds m' list (P ++ (A.merge B (le less) ++ R)) := by
  induction turns generalizing P A B m with
  | zero => omega
  | succ turns ih =>
    match A, B with
    | [], B =>
      refine ⟨m, by rw [mergeLoop, nil_append, if_neg (by simp)]; rfl, ?_⟩
      simpa using h
    | a :: A, [] =>
      refine ⟨m, by rw [mergeLoop, nil_append, if_neg (by simp)]; rfl, ?_⟩
      simpa using h
    | a :: A, b :: B =>
      have hb : Holds m list (P ++ a :: A ++ b :: (B ++ R)) := by simpa using h
      have hne : a ≠ b := Holds.start_ne (R := b :: (B ++ R)) h
      have hne' : b ≠ start list R := hb.start_ne
      rw [mergeLoop, cons_append, cons_append, start_cons, start_cons,
        if_pos ⟨hne, hne'⟩, cons_merge_cons]
      simp only [length_cons] at hturns
      cases hless : less b a with
      | true =>
        -- `b` goes before `a`
        rw [if_pos rfl, if_neg (by simp [le, hless]), bind_eq (listNext_joined hb.joined),
          bind_eq (listPrev_joined hb.joined)]
        obtain ⟨m1, hsplice, h1⟩ := listSplice_spec (S := [b]) (A := a :: A) (R := B ++ R)
          (a := a) (b := b) h rfl rfl
        obtain ⟨m2, hloop, h2⟩ := ih (P := P ++ [b]) (A := a :: A) (B := B) (m := m1)
          (by simp only [length_cons]; omega) (by simpa using h1)
        refine ⟨m2, by rw [bind_eq hsplice]; exact hloop, ?_⟩
        simpa using h2
      | false =>
        rw [if_neg (by simp), if_pos (by simp [le, hless]), bind_eq (listNext_joined h.joined)]
        obtain ⟨m1, hloop, h1⟩ := ih (P := P ++ [a]) (A := A) (B := b :: B) (m := m)
          (by simp only [length_cons]; omega) (by simpa using h)
        refine ⟨m1, hloop, ?_⟩
        simpa using h1

/-- **`inplace_merge` merges** two runs that follow each other. -/
theorem inplaceMerge_spec (turns : Nat) (hturns : A.length + B.length < turns)
    (h : Holds m list (P ++ (A ++ (B ++ R)))) (hA : A.IsChain fun x y => le less x y = true)
    (hB : B.IsChain fun x y => le less x y = true) :
    ∃ m', inplaceMerge less turns (start list (A ++ (B ++ R))) (start list (B ++ R))
        (start list R) m = some ((), m') ∧
      Holds m' list (P ++ (A.merge B (le less) ++ R)) := by
  obtain ⟨m', hloop, h'⟩ := mergeLoop_spec less turns hturns h
  refine ⟨m', ?_, h'⟩
  have hB' : Holds m list (P ++ A ++ (B ++ R)) := by simpa using h
  rw [inplaceMerge, bind_eq (isSorted_eq (by omega) h hA), bind_eq (assert_eq rfl),
    bind_eq (isSorted_eq (by omega) hB' hB), bind_eq (assert_eq rfl)]
  exact hloop

/-! ## `list_sort` -/

/-- **The inner loop is a pass.** -/
theorem passLoop_spec (less : α → α → Bool) {bound : Nat} (turns : Nat) (l : List α) (cnt : Nat)
    (hturns : l.length < turns) (hbound : l.length < bound) (h : Holds m list (P ++ l)) :
    ∃ m' out n, passLoop less list bound turns (start list l) cnt m = some (cnt + n, m') ∧
      Pass (le less) l out n ∧ Holds m' list (P ++ out) := by
  induction turns generalizing P l m cnt with
  | zero => omega
  | succ turns ih =>
    cases l with
    | nil =>
      refine ⟨m, [], 0, ?_, .nil, h⟩
      rw [passLoop, if_neg (by simp [start])]
      rfl
    | cons a S =>
      have hcut := run_append (le less) a S
      simp only [length_cons] at hturns hbound
      rw [passLoop, start_cons, if_pos h.ne_tail, bind_eq (findEndOfRun_eq (by omega) h)]
      cases hrest : (run (le less) a S).2 with
      | nil =>
        refine ⟨m, a :: S, 1, ?_, .last hrest, h⟩
        rw [if_pos (by rfl)]
        rfl
      | cons b l' =>
        have hcut' := run_append (le less) b l'
        obtain ⟨t, ht⟩ := run_head (le less) a S
        have hA := run_isChain (le less) a S
        have hB := run_isChain (le less) b l'
        rw [hrest] at hcut
        -- the two runs and what is left
        have hb : Holds m list (P ++ (run (le less) a S).1 ++ b :: l') := by
          rw [append_assoc, hcut]
          exact h
        rw [← hcut, ← hcut'] at h
        have hlen := congrArg List.length hcut
        have hlen' := congrArg List.length hcut'
        simp only [length_append, length_cons] at hlen hlen'
        rw [ht, length_cons] at hlen
        obtain ⟨m1, hmerge, h1⟩ :=
          inplaceMerge_spec bound (by rw [ht, length_cons]; omega) h hA hB
        obtain ⟨m2, out, n, hloop, hpass, h2⟩ :=
          ih (P := P ++ (run (le less) a S).1.merge (run (le less) b l').1 (le less))
            (run (le less) b l').2 (cnt + 1) (by omega) (by omega) (by simpa using h1)
        refine ⟨m2, _, n + 1, ?_, .merge hrest hpass, by simpa using h2⟩
        rw [ht, hcut', cons_append, start_cons, start_cons] at hmerge
        rw [start_cons, if_neg hb.ne_tail, bind_eq (findEndOfRun_eq (by omega) hb), bind_eq hmerge,
          hloop, Nat.add_assoc, Nat.add_comm 1]

/-- A strict weak order: `less` is a strict order, and being incomparable is transitive. -/
structure StrictWeakOrder (less : α → α → Bool) : Prop where
  irrefl : ∀ a, less a a = false
  trans : ∀ a b c, less a b = true → less b c = true → less a c = true
  incomparable : ∀ a b c, less a b = false ∧ less b a = false → less b c = false ∧
    less c b = false →
    less a c = false ∧ less c a = false

omit [DecidableEq α] in
theorem StrictWeakOrder.ordering (hw : StrictWeakOrder less) : Ordering (le less) where
  total a b := by
    have hasymm : ¬(less a b = true ∧ less b a = true) := fun ⟨hab, hba⟩ => by
      have := hw.trans a b a hab hba
      rw [hw.irrefl] at this
      cases this
    cases hab : less a b <;> cases hba : less b a <;> simp_all [le]
  trans a b c hab hbc := by
    simp only [le, Bool.not_eq_true'] at hab hbc ⊢
    by_contra hca
    rw [Bool.not_eq_false] at hca
    -- `a` and `b` are incomparable, and so are `b` and `c`
    have hab' : less a b = false := by
      by_contra h
      rw [hw.trans c a b hca (by simpa using h)] at hbc
      cases hbc
    have hbc' : less b c = false := by
      by_contra h
      rw [hw.trans b c a (by simpa using h) hca] at hab
      cases hab
    rw [(hw.incomparable a b c ⟨hab', hab⟩ ⟨hbc', hbc⟩).2] at hca
    cases hca

/-- The outer loop: each pass that is followed by another one leaves fewer descents. -/
theorem sortLoop_spec (ho : Ordering (le less)) {bound : Nat} (turns : Nat)
    (hturns : descents (le less) l < turns) (hbound : l.length < bound) (h : Holds m list l) :
    ∃ m' l', sortLoop less list bound turns m = some ((), m') ∧ Holds m' list l' ∧ l'.Perm l ∧
      (l'.IsChain fun x y => le less x y = true) ∧
      ∀ x, l'.filter (equal (le less) x) = l.filter (equal (le less) x) := by
  induction turns generalizing l m with
  | zero => omega
  | succ turns ih =>
    obtain ⟨m1, out, n, hpass, hp, h1⟩ := passLoop_spec (P := []) less bound l 0 hbound hbound h
    rw [Nat.zero_add] at hpass
    rw [nil_append] at h1
    rw [sortLoop, bind_eq h.begin_eq, bind_eq hpass]
    by_cases hn : n > 1
    · have hlt := hp.descents_lt ho hn
      obtain ⟨m2, l', hloop, h2, hperm, hchain, hstable⟩ :=
        ih (by omega) (by rw [hp.perm.length_eq]; exact hbound) h1
      rw [if_pos hn]
      exact ⟨m2, l', hloop, h2, hperm.trans hp.perm, hchain,
        fun x => (hstable x).trans (hp.filter_eq ho x)⟩
    · rw [if_neg hn]
      exact ⟨m1, out, rfl, h1, hp.perm, hp.isChain ho (by omega), fun x => hp.filter_eq ho x⟩

/-- **`list_sort` sorts**, in place and stably: from a well-formed list and with a strict weak order
it returns, no assertion fails, and it leaves a well-formed list of the same elements in
nondecreasing order, with those that are incomparable to any given one in the order in which they
were. -/
theorem list_sort_sorts (hw : StrictWeakOrder less) {bound : Nat} (hbound : l.length < bound)
    (h : Holds m list l) :
    ∃ m' l', listSort less list bound m = some ((), m') ∧ Holds m' list l' ∧ l'.Perm l ∧
      (l'.Pairwise fun a b => less b a = false) ∧
      ∀ x, l'.filter (fun y => !less y x && !less x y) = l.filter fun y =>
        !less y x && !less x y := by
  have hdesc := descents_le_length (le less) l
  obtain ⟨m', l', hloop, h', hperm, hchain, hstable⟩ :=
    sortLoop_spec hw.ordering bound (by omega) hbound h
  refine ⟨m', l', ?_, h', hperm, ?_, hstable⟩
  · have hsorted : isSorted less bound (start list l') list.tail m' = some (true, m') := by
      have hrest : Holds m' list ([] ++ (l' ++ [])) := by simpa using h'
      have hlen : l'.length ≤ bound := by rw [hperm.length_eq]; omega
      have hrun := isSorted_eq hlen hrest hchain
      rwa [append_nil] at hrun
    rw [listSort, bind_eq hloop, bind_eq h'.begin_eq, bind_eq hsorted]
    rfl
  · have hpair := hw.ordering.pairwise hchain
    simpa [le] using hpair

/-- A list of three elements at the addresses 3, 1 and 2, between headers at 10 and 11. -/
def sample : Links Nat where
  next u := [(10, 3), (3, 1), (1, 2), (2, 11)].lookup u
  prev u := [(3, 10), (1, 3), (2, 1), (11, 2)].lookup u

theorem list_sort_sample :
    ∃ m' l', listSort (fun a b => decide (a < b)) ⟨10, 11⟩ 4 sample = some ((), m') ∧
      Holds m' ⟨10, 11⟩ l' ∧ l'.Perm [3, 1, 2] ∧
      l'.Pairwise fun a b => decide (b < a) = false := by
  have hw : StrictWeakOrder fun a b : Nat => decide (a < b) := by
    constructor
    · simp
    · simp only [decide_eq_true_eq]
      omega
    · simp only [decide_eq_false_iff_not]
      omega
  have h : Holds sample ⟨10, 11⟩ [3, 1, 2] := by
    refine ⟨by decide, ?_, rfl, rfl⟩
    simp only [cells, Links.Linked, cons_append, nil_append, isChain_cons_cons]
    exact ⟨⟨rfl, rfl⟩, ⟨rfl, rfl⟩, ⟨rfl, rfl⟩, ⟨rfl, rfl⟩, isChain_singleton _⟩
  obtain ⟨m', l', hrun, hm', hperm, hsorted, -⟩ := list_sort_sorts hw (show 3 < 4 by decide) h
  exact ⟨m', l', hrun, hm', hperm, hsorted⟩

end SystemProg.Pintos.ListSort
