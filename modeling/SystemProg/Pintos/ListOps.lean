import SystemProg.Data.Chains
import SystemProg.Pintos.ListSort

/-!
# The operations of doubly linked lists

Model of the rest of `lib/kernel/list.c` that changes lists: `list_insert`, `list_push_front`,
`list_push_back`, `list_remove`, `list_pop_front` and `list_pop_back` (`list.c:164-277`),
`list_reverse` with `swap` (`list.c:318-341`) and `list_unique` (`list.c:466-493`). `list_splice` is
in `SystemProg.Pintos.ListSort`. Loops take a bound on their turns.

`World hs m ls` is a memory that holds any number of well-formed lists, the list `i` with its
headers `hs i` and its elements `ls i`. What an operation does is said by `Refines`: it returns, and
it changes the elements as an operation on sequences does.

* `listInsert_refines`, `listRemove_refines`, `listSplice_refines`, `listReverse_refines`,
  `listUnique_refines`: one operation each.
* `list_operations_refine`: all of them.
-/

namespace SystemProg.Pintos.ListOps

open SystemProg.Seq Data Pintos.ListSort List

variable {α : Type}

/-! ## The source -/

/-- `list_empty`. -/
def listEmpty [DecidableEq α] (list : ListHeaders α) : Panic (Links α) Bool := do
  let e ← listBegin list
  pure (decide (e = list.tail))

section

variable [DecidableEq α]

/-- `list_insert`. -/
def listInsert (before elem : α) : Panic (Links α) Unit := do
  let m ← get
  assert (isInterior m before ∨ isTail m before)
  modify fun m => m.setPrev elem (m.prev before)
  modify fun m => m.setNext elem (some before)
  -- `before->prev->next = elem; before->prev = elem;`
  let m ← get
  let beforePrev ← deref (m.prev before)
  modify fun m => m.setNext beforePrev (some elem)
  modify fun m => m.setPrev before (some elem)

/-- `list_push_front`. -/
def listPushFront (list : ListHeaders α) (elem : α) : Panic (Links α) Unit := do
  let e ← listBegin list
  listInsert e elem

/-- `list_push_back`. -/
def listPushBack (list : ListHeaders α) (elem : α) : Panic (Links α) Unit :=
  listInsert list.tail elem

/-- `list_remove`. -/
def listRemove (elem : α) : Panic (Links α) α := do
  let m ← get
  assert (isInterior m elem)
  -- `elem->prev->next = elem->next; elem->next->prev = elem->prev;`
  let elemPrev ← deref (m.prev elem)
  modify fun m => m.setNext elemPrev (m.next elem)
  let m ← get
  let elemNext ← deref (m.next elem)
  modify fun m => m.setPrev elemNext (m.prev elem)
  let m ← get
  deref (m.next elem)

/-- `list_pop_front`, with `list_front`. -/
def listPopFront (list : ListHeaders α) : Panic (Links α) α := do
  let empty ← listEmpty list
  assert (empty = false)
  let m ← get
  let front ← deref (m.next list.head)
  let _ ← listRemove front
  pure front

/-- `list_pop_back`, with `list_back`. -/
def listPopBack (list : ListHeaders α) : Panic (Links α) α := do
  let empty ← listEmpty list
  assert (empty = false)
  let m ← get
  let back ← deref (m.prev list.tail)
  let _ ← listRemove back
  pure back

/-- The loop of `list_reverse`. -/
def reverseLoop (list : ListHeaders α) : (turns : Nat) → (e : α) → Panic (Links α) Unit
  | 0, _ => abort
  | turns + 1, e =>
    if e ≠ list.tail then do
      -- `swap(&e->prev, &e->next);`
      modify fun m => (m.setPrev e (m.next e)).setNext e (m.prev e)
      let m ← get
      let e ← deref (m.prev e)
      reverseLoop list turns e
    else pure ()

/-- `list_reverse`. -/
def listReverse (list : ListHeaders α) (bound : Nat) : Panic (Links α) Unit := do
  let empty ← listEmpty list
  if empty then pure ()
  else do
    let e ← listBegin list
    reverseLoop list bound e
    -- `swap(&list->head.next, &list->tail.prev);`
    modify fun m => (m.setNext list.head (m.prev list.tail)).setPrev list.tail (m.next list.head)
    -- `swap(&list->head.next->prev, &list->tail.prev->next);`
    let m ← get
    let first ← deref (m.next list.head)
    let last ← deref (m.prev list.tail)
    modify fun m => (m.setPrev first (m.next last)).setNext last (m.prev first)

/-- `if (duplicates != NULL) list_push_back(duplicates, next);` -/
def pushDuplicate : Option (ListHeaders α) → (next : α) → Panic (Links α) Unit
  | some duplicates, next => listPushBack duplicates next
  | none, _ => pure ()

variable (less : α → α → Bool)

/-- The loop of `list_unique`. -/
def uniqueLoop (list : ListHeaders α) (duplicates : Option (ListHeaders α)) :
    (turns : Nat) → (elem : α) → Panic (Links α) Unit
  | 0, _ => abort
  | turns + 1, elem => do
    let next ← listNext elem
    if next ≠ list.tail then
      if !less elem next && !less next elem then do
        let _ ← listRemove next
        pushDuplicate duplicates next
        uniqueLoop list duplicates turns elem
      else uniqueLoop list duplicates turns next
    else pure ()

/-- `list_unique`. -/
def listUnique (list : ListHeaders α) (duplicates : Option (ListHeaders α)) (bound : Nat) :
    Panic (Links α) Unit := do
  let empty ← listEmpty list
  if empty then pure ()
  else do
    let elem ← listBegin list
    uniqueLoop less list duplicates bound elem

end

/-! ## Lists in one memory -/

variable {ι : Type} {hs : ι → ListHeaders α} {m m' : Links α} {ls ls' : ι → List α} {i j : ι}
  {P R S U V : List α} {a e p x y : α}

/-- The memory holds lists without a common cell: the list `i` has the headers `hs i` and the
elements `ls i`. -/
def World (hs : ι → ListHeaders α) (m : Links α) (ls : ι → List α) : Prop :=
  m.Chains fun i => cells (hs i) (ls i)

theorem World.holds (h : World hs m ls) (i : ι) : Holds m (hs i) (ls i) where
  nodup := h.nodup i
  linked := h.linked i
  front := h.front i _ rfl
  back := h.back i _ (by rw [cells, ← cons_append, getLast?_concat])

theorem World.holds_of_eq {l : List α} (h : World hs m ls) (hi : ls i = l) : Holds m (hs i) l :=
  hi ▸ h.holds i

/-- The operation returns `r`. It changes the elements of the lists from `ls` to `ls'`, and no link
in a list that keeps its elements. -/
def Refines {β : Type} (hs : ι → ListHeaders α) (op : Panic (Links α) β) (m : Links α)
    (ls : ι → List α) (r : β) (ls' : ι → List α) : Prop :=
  ∃ m', op m = some (r, m') ∧ World hs m' ls' ∧
    ∀ k, ls' k = ls k → m.Same m' (cells (hs k) (ls k))

theorem World.refines {β : Type} {op : Panic (Links α) β} {r : β} (h : World hs m ls)
    (hop : op m = some (r, m')) (h' : World hs m' ls') : Refines hs op m ls r ls' := by
  have hchains : m.Chains fun i => cells (hs i) (ls i) := h
  exact ⟨m', hop, h', fun k hk => hchains.same h' (congrArg (cells (hs k)) hk)⟩

theorem cells_append (list : ListHeaders α) (P R : List α) :
    cells list (P ++ R) = (list.head :: P) ++ (R ++ [list.tail]) := by
  simp [cells]

theorem head_start (list : ListHeaders α) (R : List α) :
    (R ++ [list.tail]).head? = some (start list R) := by
  cases R <;> rfl

theorem exists_last (a : α) (l : List α) : ∃ x, (a :: l).getLast? = some x :=
  ⟨_, getLast?_eq_some_getLast (cons_ne_nil a l)⟩

/-- Before the start of a rest comes the last of what is before it. -/
theorem joined_start {list : ListHeaders α} (h : Holds m list (P ++ R))
    (hx : (list.head :: P).getLast? = some x) : m.Joined x (start list R) := by
  have hl := h.linked
  rw [cells_append] at hl
  exact (Links.linked_append.mp hl).2.2 x hx _ (head_start list R)

theorem interior_or_tail_of_prev (h : m.prev a = some x) : isInterior m a ∨ isTail m a := by
  unfold isInterior isTail
  rw [h]
  by_cases hq : m.next a = none <;> simp [hq]

theorem not_mem_cells_of_mem (h : World hs m ls) (hi : ls i = P ++ (S ++ R)) (ha : a ∈ S)
    (hk : k ≠ i) : a ∉ cells (hs k) (ls k) := by
  refine Links.Chains.not_mem_of_ne (i := i) h ?_ hk
  simp only [hi, cells, mem_cons, mem_append]
  tauto

variable [DecidableEq ι]

theorem cells_update (hs : ι → ListHeaders α) (ls : ι → List α) (i : ι) (l : List α) :
    (fun k => cells (hs k) (Function.update ls i l k)) =
      Function.update (fun k => cells (hs k) (ls k)) i (cells (hs i) l) := by
  funext k
  by_cases hk : k = i
  · subst hk
    rw [Function.update_self, Function.update_self]
  · rw [Function.update_of_ne hk, Function.update_of_ne hk]

/-! ## Sequences -/

/-- Neither is less. -/
def equivalent (less : α → α → Bool) (a b : α) : Bool := !less a b && !less b a

/-- The elements that are not equivalent to the one before them. -/
def firsts (eqv : α → α → Bool) (l : List α) : List α :=
  l.take 1 ++ ((l.zip l.tail).filter fun p => !eqv p.1 p.2).map Prod.snd

/-- The elements that are equivalent to the one before them. -/
def repeats (eqv : α → α → Bool) (l : List α) : List α :=
  ((l.zip l.tail).filter fun p => eqv p.1 p.2).map Prod.snd

theorem firsts_cons (eqv : α → α → Bool) (b : α) (l : List α) :
    b :: (firsts eqv (b :: l)).tail = firsts eqv (b :: l) := rfl

theorem firsts_cons_cons (eqv : α → α → Bool) (c b : α) (l : List α) :
    firsts eqv (c :: b :: l) =
      c :: if eqv c b then (firsts eqv (b :: l)).tail else firsts eqv (b :: l) := by
  cases h : eqv c b <;> simp [firsts, h]

theorem repeats_cons_cons (eqv : α → α → Bool) (c b : α) (l : List α) :
    repeats eqv (c :: b :: l) =
      if eqv c b then b :: repeats eqv (b :: l) else repeats eqv (b :: l) := by
  cases h : eqv c b <;> simp [repeats, h]

section

variable {less : α → α → Bool}

theorem equivalent_iff {a b : α} :
    equivalent less a b = true ↔ less a b = false ∧ less b a = false := by
  simp [equivalent]

theorem equivalent_refl (hw : StrictWeakOrder less) (a : α) : equivalent less a a = true :=
  equivalent_iff.mpr ⟨hw.irrefl a, hw.irrefl a⟩

/-- Equivalent elements are equivalent to the same ones. -/
theorem equivalent_congr (hw : StrictWeakOrder less) {a c : α} (h : equivalent less a c = true)
    (b : α) : equivalent less a b = equivalent less c b := by
  have hac := equivalent_iff.mp h
  rw [Bool.eq_iff_iff, equivalent_iff, equivalent_iff]
  exact ⟨hw.incomparable c a b hac.symm, hw.incomparable a c b hac⟩

end

/-- The removed elements are appended to the list of duplicates, if there is one. -/
def withDuplicates (ls : ι → List α) (duplicates : Option ι) (l : List α) : ι → List α :=
  match duplicates with
  | some j => Function.update ls j (ls j ++ l)
  | none => ls

theorem withDuplicates_nil (ls : ι → List α) (duplicates : Option ι) :
    withDuplicates ls duplicates [] = ls := by
  cases duplicates with
  | none => rfl
  | some j => rw [withDuplicates, append_nil, Function.update_eq_self]

theorem withDuplicates_apply (ls : ι → List α) {duplicates : Option ι} (hd : duplicates ≠ some i)
    (l : List α) : withDuplicates ls duplicates l i = ls i := by
  cases duplicates with
  | none => rfl
  | some j => exact Function.update_of_ne (fun h => hd (congrArg some h.symm)) _ _

theorem withDuplicates_append (ls : ι → List α) {duplicates : Option ι} (hd : duplicates ≠ some i)
    (l l' r r' : List α) :
    withDuplicates (Function.update (withDuplicates (Function.update ls i l) duplicates r) i l')
      duplicates r' = withDuplicates (Function.update ls i l') duplicates (r ++ r') := by
  cases duplicates with
  | none => exact Function.update_idem _ _ _
  | some j =>
    have hj : j ≠ i := fun h => hd (congrArg some h)
    funext k
    by_cases hk : k = j
    · subst hk
      simp [withDuplicates, hj]
    · by_cases hki : k = i
      · subst hki
        simp [withDuplicates, hk]
      · simp [withDuplicates, hk, hki]

/-! ## Taking elements out and putting them in -/

variable [DecidableEq α]

/-- Elements are taken out of a list, and are then in none. -/
theorem World.unlink (h : World hs m ls) (hi : ls i = P ++ (S ++ R))
    (hp : ((hs i).head :: P).getLast? = some p) :
    World hs (m.unlink p (start (hs i) R)) (Function.update ls i (P ++ R)) ∧
      (m.unlink p (start (hs i) R)).Linked S ∧
      ∀ k, S.Disjoint (cells (hs k) (Function.update ls i (P ++ R) k)) := by
  have hcells : cells (hs i) (ls i) = ((hs i).head :: P) ++ (S ++ (R ++ [(hs i).tail])) := by
    rw [hi, cells_append, append_assoc]
  obtain ⟨h', hS⟩ := Links.Chains.unlink h hcells hp (head_start (hs i) R)
  refine ⟨?_, hS, fun k a ha hmem => ?_⟩
  · rw [World, cells_update, cells_append]
    exact h'
  · by_cases hk : k = i
    · subst hk
      have hnodup := h.nodup k
      simp only [hcells] at hnodup
      obtain ⟨-, hnodup, hP⟩ := nodup_append'.mp hnodup
      obtain ⟨-, -, hR⟩ := nodup_append'.mp hnodup
      rw [Function.update_self, cells_append, mem_append] at hmem
      exact hmem.elim (fun hmem => hP hmem (mem_append_left _ ha)) (hR ha)
    · rw [Function.update_of_ne hk] at hmem
      exact not_mem_cells_of_mem h hi ha hk hmem

/-- Elements that are in no list are put into one. -/
theorem World.linkIn (h : World hs m ls) (hi : ls i = P ++ R)
    (hx : ((hs i).head :: P).getLast? = some x) (hS : m.Linked S) (nS : S.Nodup)
    (dS : ∀ k, S.Disjoint (cells (hs k) (ls k))) (ha : S.head? = some a)
    (he : S.getLast? = some e) :
    World hs (m.linkIn x a e (start (hs i) R)) (Function.update ls i (P ++ (S ++ R))) := by
  have hcells : cells (hs i) (ls i) = ((hs i).head :: P) ++ (R ++ [(hs i).tail]) := by
    rw [hi, cells_append]
  have h' := Links.Chains.linkIn h hcells hx (head_start (hs i) R) hS nS dS ha he
  rw [World, cells_update, cells_append, append_assoc]
  exact h'

/-! ## `list_insert`, `list_remove` and `list_splice` -/

theorem listInsert_eq (hx : m.prev a = some x) (ha : a ≠ e) :
    listInsert a e m = some ((), m.linkIn x e e a) := by
  have hprev : ((m.setPrev e (some x)).setNext e (some a)).prev a = some x := (if_neg ha).trans hx
  rw [listInsert, get_bind, bind_eq (assert_eq (interior_or_tail_of_prev hx)), bind_eq modify_eq,
    hx, bind_eq modify_eq, get_bind, hprev, bind_eq (deref_some _ _), bind_eq modify_eq, modify_eq]
  rfl

theorem listRemove_eq (hp : m.Joined p e) (hy : m.Joined e y) (hpe : p ≠ e) :
    listRemove e m = some (y, m.unlink p y) := by
  have hnext : (m.setNext p (some y)).next e = some y := (if_neg hpe.symm).trans hy.1
  have hinterior : isInterior m e := ⟨by rw [hp.2]; simp, by rw [hy.1]; simp⟩
  rw [listRemove, get_bind, bind_eq (assert_eq hinterior), hp.2, bind_eq (deref_some _ _),
    bind_eq modify_eq, hy.1, get_bind, hnext, bind_eq (deref_some _ _), bind_eq modify_eq,
    show (m.setNext p (some y)).prev e = some p from hp.2, get_bind,
    show ((m.setNext p (some y)).setPrev y (some p)).next e = some y from hnext, deref_some]
  rfl

/-- What `list_splice` writes: the stretch is taken out, and put in before a cell that is found in
the memory without it. -/
theorem listSplice_eq_linkIn {f l b : α} (hpf : m.Joined p f) (hly : m.Joined l y)
    (hf : isInterior m f) (hl : isInterior m l) (hfy : f ≠ y) (hlp : l ≠ p)
    (hx : (m.unlink p y).prev b = some x) (hbf : b ≠ f) :
    listSplice b f y m = some ((), (m.unlink p y).linkIn x f l b) := by
  have hb : isInterior m b ∨ isTail m b := by
    by_cases hby : b = y
    · exact hby ▸ interior_or_tail hly
    · rw [Links.unlink_prev, if_neg hby] at hx
      exact interior_or_tail_of_prev hx
  have hnext : (m.setNext p (some y)).next l = some y := (if_neg hlp).trans hly.1
  have hprev : (((m.unlink p y).setPrev f (some x)).setNext l (some b)).prev b = some x :=
    (if_neg hbf).trans hx
  rw [listSplice, get_bind, bind_eq (assert_eq hb), if_neg hfy, bind_eq (listPrev_joined hly),
    bind_eq (assert_eq hf), bind_eq (assert_eq hl), hpf.2, bind_eq (deref_some _ _),
    bind_eq modify_eq, get_bind, hly.1, hnext, bind_eq (deref_some _ _), bind_eq modify_eq,
    show (m.setNext p (some y)).prev f = some p from hpf.2, bind_eq modify_eq,
    show ((m.setNext p (some y)).setPrev y (some p)).prev b = some x from hx, bind_eq modify_eq,
    get_bind, show ((((m.setNext p (some y)).setPrev y (some p)).setPrev f (some x)).setNext l
      (some b)).prev b = some x from hprev, bind_eq (deref_some _ _), bind_eq modify_eq, modify_eq]
  rfl

/-- An element that is in no list is inserted before the start of a rest. -/
theorem World.listInsert (h : World hs m ls) (hi : ls i = P ++ R)
    (he : ∀ k, e ∉ cells (hs k) (ls k)) :
    ∃ m', ListOps.listInsert (start (hs i) R) e m = some ((), m') ∧
      World hs m' (Function.update ls i (P ++ e :: R)) := by
  obtain ⟨x, hx⟩ := exists_last (hs i).head P
  have hstart : start (hs i) R ∈ cells (hs i) (ls i) := by
    rw [hi, cells_append]
    exact mem_append_right _ (mem_of_head? (head_start (hs i) R))
  refine ⟨_, listInsert_eq (joined_start (h.holds_of_eq hi) hx).2 ?_, ?_⟩
  · exact ne_of_mem_of_not_mem hstart (he i)
  · exact h.linkIn hi hx (S := [e]) (isChain_singleton e) (nodup_singleton e)
      (fun k => singleton_disjoint.mpr (he k)) rfl rfl

/-- **`list_insert` inserts.** -/
theorem listInsert_refines (h : World hs m ls) (hi : ls i = P ++ R)
    (he : ∀ k, e ∉ cells (hs k) (ls k)) :
    Refines hs (listInsert (start (hs i) R) e) m ls () (Function.update ls i (P ++ e :: R)) := by
  obtain ⟨m', hrun, h'⟩ := h.listInsert hi he
  exact h.refines hrun h'

/-- An element is removed, and is then in no list. -/
theorem World.listRemove (h : World hs m ls) (hi : ls i = P ++ e :: R) :
    ∃ m', ListOps.listRemove e m = some (start (hs i) R, m') ∧
      World hs m' (Function.update ls i (P ++ R)) ∧
      ∀ k, e ∉ cells (hs k) (Function.update ls i (P ++ R) k) := by
  obtain ⟨p, hp⟩ := exists_last (hs i).head P
  have hi' : ls i = P ++ ([e] ++ R) := hi
  have hholds := h.holds_of_eq hi
  obtain ⟨h', -, hdis⟩ := h.unlink hi' hp
  refine ⟨_, listRemove_eq (joined_start hholds hp) hholds.joined ?_, h', fun k => ?_⟩
  · have hnodup := hholds.nodup
    rw [cells_append] at hnodup
    exact (nodup_append.mp hnodup).2.2 p (mem_of_getLast? hp) e (by simp)
  · exact singleton_disjoint.mp (hdis k)

/-- **`list_remove` deletes**, and returns what followed. -/
theorem listRemove_refines (h : World hs m ls) (hi : ls i = P ++ e :: R) :
    Refines hs (listRemove e) m ls (start (hs i) R) (Function.update ls i (P ++ R)) := by
  obtain ⟨m', hrun, h', -⟩ := h.listRemove hi
  exact h.refines hrun h'

/-- **`list_splice` moves a range**: before a cell of what is left when the range is taken out. -/
theorem listSplice_refines (h : World hs m ls) (hi : ls i = P ++ (S ++ R)) (hS : S ≠ [])
    (hj : Function.update ls i (P ++ R) j = U ++ V) :
    Refines hs (listSplice (start (hs j) V) (start (hs i) (S ++ R)) (start (hs i) R)) m ls ()
      (Function.update (Function.update ls i (P ++ R)) j (U ++ (S ++ V))) := by
  obtain ⟨f, S', rfl⟩ := exists_cons_of_ne_nil hS
  obtain ⟨l, hl⟩ := exists_last f S'
  obtain ⟨p, hp⟩ := exists_last (hs i).head P
  obtain ⟨x, hx⟩ := exists_last (hs j).head U
  have hholds := h.holds_of_eq hi
  obtain ⟨S0, hS0⟩ := getLast?_eq_some_iff.mp hl
  have hholdsl : Holds m (hs i) ((P ++ S0) ++ l :: R) := by
    have h' := hholds
    rw [hS0] at h'
    simpa using h'
  obtain ⟨h1, hlinked, hdis⟩ := h.unlink hi hp
  have hjoined := joined_start (h1.holds_of_eq hj) hx
  have hnodup := hholds.nodup
  rw [cells_append] at hnodup
  obtain ⟨-, hn, hP⟩ := nodup_append.mp hnodup
  have hnS := (nodup_append.mp (append_assoc _ _ _ ▸ hn)).1
  have hb : start (hs j) V ∉ f :: S' := by
    intro hmem
    refine hdis j hmem ?_
    rw [hj, cells_append]
    exact mem_append_right _ (mem_of_head? (head_start (hs j) V))
  refine h.refines (listSplice_eq_linkIn (joined_start hholds hp) hholdsl.joined
    hholds.interior hholdsl.interior hholds.start_ne ?_ hjoined.2 ?_)
    (h1.linkIn hj hx hlinked hnS hdis rfl hl)
  · refine (hP p (mem_of_getLast? hp) l ?_).symm
    exact mem_append_left _ (mem_append_left _ (mem_of_getLast? hl))
  · exact fun heq => hb (heq ▸ mem_cons_self)

/-! ## `list_reverse` -/

omit [DecidableEq ι] in
theorem World.listEmpty (h : World hs m ls) (i : ι) :
    ListOps.listEmpty (hs i) m = some (decide (ls i = []), m) := by
  have hholds := h.holds i
  rw [ListOps.listEmpty, bind_eq hholds.begin_eq, pure_eq]
  cases hl : ls i with
  | nil => simp [start]
  | cons a l =>
    rw [hl] at hholds
    have hne : a ≠ (hs i).tail := Holds.ne_tail (P := []) hholds
    simp [start_cons, hne]

/-- The loop has exchanged the links of `P`, and goes on with `R`. -/
theorem reverseLoop_eq {list : ListHeaders α} (h : Holds m list (P ++ R)) {turns : Nat}
    (hturns : R.length < turns) :
    reverseLoop list turns (start list R) (m.flip P) = some ((), m.flip (P ++ R)) := by
  induction R generalizing P turns with
  | nil =>
    obtain ⟨turns, rfl⟩ : ∃ k, turns = k + 1 := ⟨turns - 1, by simp at hturns; omega⟩
    rw [reverseLoop, if_neg (by simp [start]), append_nil]
    rfl
  | cons e R ih =>
    obtain ⟨turns, rfl⟩ : ∃ k, turns = k + 1 := ⟨turns - 1, by simp at hturns; omega⟩
    have hP : e ∉ P := by
      intro hmem
      have hnodup := h.nodup
      rw [cells_append] at hnodup
      exact (nodup_append.mp hnodup).2.2 e (mem_cons_of_mem _ hmem) e (by simp) rfl
    have hprev : (m.flip (P ++ [e])).prev e = some (start list R) :=
      (if_pos (by simp)).trans h.joined.1
    have hsplit : P ++ e :: R = (P ++ [e]) ++ R := by simp
    rw [start_cons, reverseLoop, if_pos h.ne_tail, bind_eq modify_eq, Links.flip_concat hP,
      get_bind, hprev, bind_eq (deref_some _ _), hsplit]
    exact ih (hsplit ▸ h) (by simp at hturns; omega)

/-- What `list_reverse` writes, for a list of `l` from `f` to `e`. -/
theorem listReverse_eq {list : ListHeaders α} {l : List α} {f : α} (h : Holds m list l)
    (hf : l.head? = some f) (he : l.getLast? = some e) {bound : Nat} (hbound : l.length < bound) :
    listReverse list bound m = some ((), m.turn l list.head f e list.tail) := by
  obtain ⟨l', rfl⟩ := head?_eq_some_iff.mp hf
  obtain ⟨l0, hl0⟩ := getLast?_eq_some_iff.mp he
  obtain ⟨hhead, hnodup⟩ := nodup_cons.mp h.nodup
  have htail : list.tail ∉ f :: l' := fun hmem =>
    (nodup_append.mp hnodup).2.2 _ hmem _ (mem_singleton_self _) rfl
  have hhead : list.head ∉ f :: l' := fun hmem => hhead (mem_append_left _ hmem)
  have hne : f ≠ list.tail := Holds.ne_tail (P := []) h
  have me : e ∈ f :: l' := mem_of_getLast? he
  -- the links at the two ends of the stretch
  have hf' : m.Joined list.head f := joined_start (P := []) h rfl
  have he' : m.Joined e list.tail := by
    have h' := h
    rw [hl0] at h'
    exact h'.joined
  -- the links that the two last swaps read
  have hloop : reverseLoop list bound f m = some ((), m.flip (f :: l')) :=
    reverseLoop_eq (P := []) h hbound
  have h1 : (m.flip (f :: l')).prev list.tail = some e := (if_neg htail).trans he'.2
  have h2 : (m.flip (f :: l')).next list.head = some f := (if_neg hhead).trans hf'.1
  obtain ⟨M, hM⟩ : ∃ M, M = ((m.flip (f :: l')).setNext list.head (some e)).setPrev list.tail
    (some f) := ⟨_, rfl⟩
  have h3 : M.next list.head = some e := by rw [hM]; exact if_pos rfl
  have h4 : M.prev list.tail = some f := by rw [hM]; exact if_pos rfl
  have h5 : M.next f = some list.head := by
    rw [hM]
    exact (if_neg (ne_of_mem_of_not_mem mem_cons_self hhead)).trans
      ((if_pos mem_cons_self).trans hf'.2)
  have h6 : M.prev e = some list.tail := by
    rw [hM]
    exact (if_neg (ne_of_mem_of_not_mem me htail)).trans ((if_pos me).trans he'.1)
  have hempty : listEmpty list m = some (false, m) := by
    rw [listEmpty, bind_eq h.begin_eq, start_cons, pure_eq, decide_eq_false hne]
  rw [listReverse, bind_eq hempty, if_neg (by simp), bind_eq h.begin_eq, start_cons, bind_eq hloop,
    bind_eq modify_eq, h1, h2, ← hM, get_bind, h3, bind_eq (deref_some _ _), h4,
    bind_eq (deref_some _ _), modify_eq, h5, h6, hM]
  rfl

/-- **`list_reverse` reverses.** -/
theorem listReverse_refines (h : World hs m ls) (i : ι) {bound : Nat}
    (hbound : (ls i).length < bound) :
    Refines hs (listReverse (hs i) bound) m ls () (Function.update ls i (ls i).reverse) := by
  cases hl : ls i with
  | nil =>
    have hempty : ListOps.listEmpty (hs i) m = some (true, m) := by
      rw [h.listEmpty i, hl]
      rfl
    have hls : Function.update ls i [].reverse = ls := by
      rw [reverse_nil, ← hl, Function.update_eq_self]
    refine h.refines ?_ (hls.symm ▸ h)
    rw [listReverse, bind_eq hempty, if_pos rfl]
    rfl
  | cons f l =>
    obtain ⟨e, he⟩ := exists_last f l
    refine h.refines (listReverse_eq (h.holds_of_eq hl) rfl he (hl ▸ hbound)) ?_
    have h' := Links.Chains.turn h (congrArg (cells (hs i)) hl) rfl he
    rw [World, cells_update]
    exact h'

/-! ## `list_unique` -/

/-- The removed element is appended to the duplicates. -/
theorem World.pushDuplicate (h : World hs m ls) (he : ∀ k, e ∉ cells (hs k) (ls k))
    (duplicates : Option ι) :
    ∃ m', ListOps.pushDuplicate (duplicates.map hs) e m = some ((), m') ∧
      World hs m' (withDuplicates ls duplicates [e]) := by
  cases duplicates with
  | none => exact ⟨m, rfl, h⟩
  | some j => exact h.listInsert (append_nil (ls j)).symm he

/-- The loop stands at `a`, which is equivalent to the element `c` that was before `R` at first. -/
theorem uniqueLoop_spec {less : α → α → Bool} (hw : StrictWeakOrder less) {duplicates : Option ι}
    (hd : duplicates ≠ some i) {c : α} (h : World hs m ls) (hi : ls i = P ++ a :: R)
    (hac : equivalent less a c = true) {turns : Nat} (hturns : R.length < turns) :
    ∃ m', uniqueLoop less (hs i) (duplicates.map hs) turns a m = some ((), m') ∧
      World hs m' (withDuplicates
        (Function.update ls i (P ++ a :: (firsts (equivalent less) (c :: R)).tail)) duplicates
        (repeats (equivalent less) (c :: R))) := by
  induction R generalizing P a c m ls turns with
  | nil =>
    obtain ⟨turns, rfl⟩ : ∃ k, turns = k + 1 := ⟨turns - 1, by simp at hturns; omega⟩
    refine ⟨m, ?_, ?_⟩
    · rw [uniqueLoop, bind_eq (listNext_joined (h.holds_of_eq hi).joined), if_neg (by simp [start])]
      rfl
    · have hls : withDuplicates ls duplicates [] = ls := withDuplicates_nil ls duplicates
      rw [show P ++ a :: (firsts (equivalent less) [c]).tail = ls i from hi.symm,
        Function.update_eq_self, show repeats (equivalent less) [c] = [] from rfl, hls]
      exact h
  | cons b R ih =>
    obtain ⟨turns, rfl⟩ : ∃ k, turns = k + 1 := ⟨turns - 1, by simp at hturns; omega⟩
    have hb : ls i = (P ++ [a]) ++ b :: R := by simpa using hi
    have hlen : R.length < turns := by simp at hturns; omega
    have hnext : listNext a m = some (b, m) := listNext_joined (h.holds_of_eq hi).joined
    rw [uniqueLoop, bind_eq hnext, if_pos (h.holds_of_eq hb).ne_tail, firsts_cons_cons,
      repeats_cons_cons, ← equivalent_congr hw hac b, tail_cons]
    cases hab : equivalent less a b with
    | true =>
      obtain ⟨m1, hremove, h1, hout⟩ := h.listRemove hb
      obtain ⟨m2, hpush, h2⟩ := h1.pushDuplicate hout duplicates
      have hi2 : withDuplicates (Function.update ls i (P ++ [a] ++ R)) duplicates [b] i =
          P ++ a :: R := by
        rw [withDuplicates_apply _ hd, Function.update_self, append_assoc, singleton_append]
      obtain ⟨m', hrun, h'⟩ := ih h2 hi2 hab hlen
      have hcond : (!less a b && !less b a) = true := hab
      refine ⟨m', ?_, ?_⟩
      · rw [hcond, if_pos rfl, bind_eq hremove, bind_eq hpush, hrun]
      · rw [withDuplicates_append _ hd] at h'
        exact h'
    | false =>
      have hcond : (!less a b && !less b a) = false := hab
      rw [hcond, if_neg (by simp)]
      obtain ⟨m', hrun, h'⟩ := ih h hb (equivalent_refl hw b) hlen
      refine ⟨m', hrun, ?_⟩
      rw [append_assoc, singleton_append, firsts_cons] at h'
      exact h'

/-- **`list_unique` removes repeats.** -/
theorem listUnique_refines {less : α → α → Bool} (hw : StrictWeakOrder less) (h : World hs m ls)
    {duplicates : Option ι} (hd : duplicates ≠ some i) {bound : Nat}
    (hbound : (ls i).length < bound) :
    Refines hs (listUnique less (hs i) (duplicates.map hs) bound) m ls ()
      (withDuplicates (Function.update ls i (firsts (equivalent less) (ls i))) duplicates
        (repeats (equivalent less) (ls i))) := by
  have hempty := h.listEmpty i
  cases hl : ls i with
  | nil =>
    rw [hl] at hempty
    have hrun : listUnique less (hs i) (duplicates.map hs) bound m = some ((), m) := by
      rw [listUnique, bind_eq hempty]
      rfl
    refine h.refines hrun ?_
    rw [show firsts (equivalent less) ([] : List α) = ls i from hl.symm, Function.update_eq_self,
      show repeats (equivalent less) ([] : List α) = [] from rfl, withDuplicates_nil]
    exact h
  | cons a l =>
    rw [hl] at hempty hbound
    have hlen : l.length < bound := by simp at hbound; omega
    obtain ⟨m', hrun, h'⟩ := uniqueLoop_spec (P := []) hw hd h hl (equivalent_refl hw a) hlen
    refine h.refines ?_ h'
    rw [listUnique, bind_eq hempty, if_neg (by simp), bind_eq (h.holds_of_eq hl).begin_eq,
      start_cons, hrun]

/-! ## Ends -/

/-- **The ends of a list.** Pushing and popping insert and delete there. -/
theorem ends_refine (h : World hs m ls) (i : ι) :
    (∀ e, (∀ k, e ∉ cells (hs k) (ls k)) →
      Refines hs (listPushFront (hs i) e) m ls () (Function.update ls i (e :: ls i)) ∧
      Refines hs (listPushBack (hs i) e) m ls () (Function.update ls i (ls i ++ [e]))) ∧
    (∀ e l, ls i = e :: l → Refines hs (listPopFront (hs i)) m ls e (Function.update ls i l)) ∧
    ∀ e l, ls i = l ++ [e] → Refines hs (listPopBack (hs i)) m ls e (Function.update ls i l) := by
  have hempty := h.listEmpty i
  refine ⟨fun e he => ⟨?_, ?_⟩, fun e l hl => ?_, fun e l hl => ?_⟩
  · obtain ⟨m', hrun, h'⟩ := h.listInsert (P := []) (R := ls i) rfl he
    refine h.refines ?_ h'
    rw [listPushFront, bind_eq (h.holds i).begin_eq, hrun]
  · exact listInsert_refines h (append_nil (ls i)).symm he
  · obtain ⟨m', hrun, h', -⟩ := h.listRemove (P := []) hl
    have hnext : m.next (hs i).head = some e := (joined_start (P := []) (h.holds_of_eq hl) rfl).1
    refine h.refines ?_ h'
    rw [listPopFront, bind_eq hempty, bind_eq (assert_eq (by simp [hl])), get_bind, hnext,
      bind_eq (deref_some _ _), bind_eq hrun, pure_eq]
  · obtain ⟨m', hrun, h', -⟩ := h.listRemove hl
    have hprev : m.prev (hs i).tail = some e := (h.holds_of_eq hl).joined.2
    rw [append_nil] at h'
    refine h.refines ?_ h'
    rw [listPopBack, bind_eq hempty, bind_eq (assert_eq (by simp [hl])), get_bind, hprev,
      bind_eq (deref_some _ _), bind_eq hrun, pure_eq]

/-! ## Ordered insertion -/

/-- The loop of `list_insert_ordered`. -/
def orderedLoop (less : α → α → Bool) (list : ListHeaders α) (elem : α) :
    (turns : Nat) → (e : α) → Panic (Links α) α
  | 0, _ => abort
  | turns + 1, e =>
    if e ≠ list.tail then
      if less elem e then pure e
      else do
        let e ← listNext e
        orderedLoop less list elem turns e
    else pure e

/-- `list_insert_ordered` (`list.c:448-464`). -/
def listInsertOrdered (less : α → α → Bool) (list : ListHeaders α) (elem : α) (bound : Nat) :
    Panic (Links α) Unit := do
  let e ← listBegin list
  let e ← orderedLoop less list elem bound e
  listInsert e elem

omit [DecidableEq ι] in
/-- The loop goes past what the element is not less than. -/
theorem orderedLoop_spec (less : α → α → Bool) (e : α) (h : World hs m ls) (hi : ls i = P ++ R)
    {turns : Nat} (hturns : R.length < turns) :
    ∃ A B, R = A ++ B ∧ (∀ x ∈ A, less e x = false) ∧ (∀ x ∈ B.head?, less e x = true) ∧
      orderedLoop less (hs i) e turns (start (hs i) R) m = some (start (hs i) B, m) := by
  induction turns generalizing P R with
  | zero => omega
  | succ turns ih =>
    rw [orderedLoop]
    cases R with
    | nil =>
      rw [if_neg (by simp [start])]
      exact ⟨[], [], rfl, by simp, by simp, rfl⟩
    | cons x R =>
      rw [start_cons, if_pos (h.holds_of_eq hi).ne_tail]
      cases hx : less e x with
      | true => exact ⟨[], x :: R, rfl, by simp, by simp [hx], rfl⟩
      | false =>
        obtain ⟨A, B, rfl, hA, hB, hrun⟩ := ih (P := P ++ [x]) (by simpa using hi)
          (by simp at hturns; omega)
        refine ⟨x :: A, B, rfl, forall_mem_cons.mpr ⟨hx, hA⟩, hB, ?_⟩
        rw [if_neg (by simp), bind_eq (listNext_joined (h.holds_of_eq hi).joined), hrun]

/-- **Ordered insertion.** In a sorted list the element comes after all that it is not less than,
its equals among them, and before all others, and the list stays sorted. -/
theorem list_insert_ordered_sorts {less : α → α → Bool} (hw : StrictWeakOrder less)
    (h : World hs m ls) (i : ι) (hsorted : (ls i).Pairwise fun x y => less y x = false)
    (he : ∀ k, e ∉ cells (hs k) (ls k)) {bound : Nat} (hbound : (ls i).length < bound) :
    ∃ A B, ls i = A ++ B ∧ (∀ x ∈ A, less e x = false) ∧ (∀ x ∈ B, less e x = true) ∧
      ((A ++ e :: B).Pairwise fun x y => less y x = false) ∧
      Refines hs (listInsertOrdered less (hs i) e bound) m ls ()
        (Function.update ls i (A ++ e :: B)) := by
  have hle := hw.ordering
  obtain ⟨A, B, hi, hA, hhead, hrun⟩ := orderedLoop_spec less e (P := []) h rfl hbound
  rw [hi] at hsorted
  obtain ⟨hsA, hsB, hAB⟩ := pairwise_append.mp hsorted
  have hB : ∀ x ∈ B, less e x = true := by
    intro x hx
    cases B with
    | nil => cases hx
    | cons b B =>
      have hb : less e b = true := hhead b rfl
      rcases mem_cons.mp hx with rfl | hx
      · exact hb
      · -- an element that is not after `x` is not after what is before `x`
        by_contra hex
        have := hle.trans b x e (by simp [le, (pairwise_cons.mp hsB).1 x hx])
          (by simpa [le] using hex)
        simp [le, hb] at this
  have hBe : ∀ y ∈ B, less y e = false := fun y hy => by
    simpa [le, hB y hy] using hle.total e y
  refine ⟨A, B, hi, hA, hB, pairwise_append.mpr ⟨hsA, pairwise_cons.mpr ⟨hBe, hsB⟩,
    fun x hx y hy => ?_⟩, ?_⟩
  · rcases mem_cons.mp hy with rfl | hy
    · exact hA x hx
    · exact hAB x hx y hy
  · obtain ⟨m', hinsert, h'⟩ := h.listInsert hi he
    refine h.refines ?_ h'
    rw [listInsertOrdered, bind_eq (h.holds i).begin_eq, bind_eq hrun, hinsert]

/-! ## All operations -/

/-- **The operations of doubly linked lists** do to the elements of the lists what insertion,
deletion, moving a range, reversal and removal of repeats do to sequences. They keep every list
well-formed, and change no link of the others. -/
theorem list_operations_refine (hs : ι → ListHeaders α) (m : Links α) (ls : ι → List α)
    (h : World hs m ls) :
    (∀ i P R e, ls i = P ++ R → (∀ k, e ∉ cells (hs k) (ls k)) →
      Refines hs (listInsert (start (hs i) R) e) m ls () (Function.update ls i (P ++ e :: R))) ∧
    (∀ i P e R, ls i = P ++ e :: R →
      Refines hs (listRemove e) m ls (start (hs i) R) (Function.update ls i (P ++ R))) ∧
    (∀ i P S R, ls i = P ++ (S ++ R) → S ≠ [] →
      ∀ j U V, Function.update ls i (P ++ R) j = U ++ V →
        Refines hs (listSplice (start (hs j) V) (start (hs i) (S ++ R)) (start (hs i) R)) m ls ()
          (Function.update (Function.update ls i (P ++ R)) j (U ++ (S ++ V)))) ∧
    (∀ i bound, (ls i).length < bound →
      Refines hs (listReverse (hs i) bound) m ls () (Function.update ls i (ls i).reverse)) ∧
    ∀ less, StrictWeakOrder less → ∀ i bound, (ls i).length < bound →
      ∀ duplicates : Option ι, duplicates ≠ some i →
        Refines hs (listUnique less (hs i) (duplicates.map hs) bound) m ls ()
          (withDuplicates (Function.update ls i (firsts (equivalent less) (ls i))) duplicates
            (repeats (equivalent less) (ls i))) :=
  ⟨fun _ _ _ _ hi he => listInsert_refines h hi he, fun _ _ _ _ hi => listRemove_refines h hi,
    fun _ _ _ _ hi hS _ _ _ hj => listSplice_refines h hi hS hj,
    fun i _ hbound => listReverse_refines h i hbound,
    fun _ hw _ _ hbound _ hd => listUnique_refines hw h hd hbound⟩

/-! ## Two lists -/

/-- A list of the elements 3, 1 and 2 between headers at 10 and 11, and one of the element 4 between
headers at 12 and 13. -/
def twoLists : Links Nat where
  next u := [(10, 3), (3, 1), (1, 2), (2, 11), (12, 4), (4, 13)].lookup u
  prev u := [(3, 10), (1, 3), (2, 1), (11, 2), (4, 12), (13, 4)].lookup u

/-- The headers of two lists. -/
def twoHeaders : Bool → ListHeaders Nat
  | false => ⟨10, 11⟩
  | true => ⟨12, 13⟩

/-- Their elements. -/
def twoSequences : Bool → List Nat
  | false => [3, 1, 2]
  | true => [4]

theorem twoLists_world : World twoHeaders twoLists twoSequences where
  nodup i := by cases i <;> decide
  disjoint i j hij a hi hj := by
    cases i <;> cases j <;> simp [twoHeaders, twoSequences, cells] at hij hi hj <;> omega
  linked i := by
    cases i
    · simp only [cells, twoHeaders, twoSequences, Links.Linked, cons_append, nil_append,
        isChain_cons_cons]
      exact ⟨⟨rfl, rfl⟩, ⟨rfl, rfl⟩, ⟨rfl, rfl⟩, ⟨rfl, rfl⟩, isChain_singleton _⟩
    · simp only [cells, twoHeaders, twoSequences, Links.Linked, cons_append, nil_append,
        isChain_cons_cons]
      exact ⟨⟨rfl, rfl⟩, ⟨rfl, rfl⟩, isChain_singleton _⟩
  front i a ha := by cases i <;> cases ha <;> rfl
  back i a ha := by cases i <;> cases ha <;> rfl

/-- Odd elements come first; elements of equal parity are equivalent. -/
def lessParity (a b : Nat) : Bool := decide (b % 2 < a % 2)

theorem lessParity_order : StrictWeakOrder lessParity where
  irrefl a := by simp [lessParity]
  trans a b c := by
    simp only [lessParity, decide_eq_true_eq]
    omega
  incomparable a b c := by
    simp only [lessParity, decide_eq_false_iff_not]
    omega

theorem list_operations_refine_two :
    Refines twoHeaders (listInsert 1 5) twoLists twoSequences ()
      (Function.update twoSequences false [3, 5, 1, 2]) ∧
    Refines twoHeaders (listRemove 1) twoLists twoSequences 2
      (Function.update twoSequences false [3, 2]) ∧
    Refines twoHeaders (listSplice 4 3 2) twoLists twoSequences ()
      (Function.update (Function.update twoSequences false [2]) true [3, 1, 4]) ∧
    Refines twoHeaders (listReverse ⟨10, 11⟩ 4) twoLists twoSequences ()
      (Function.update twoSequences false [2, 1, 3]) ∧
    Refines twoHeaders (listUnique lessParity ⟨10, 11⟩ (some ⟨12, 13⟩) 4) twoLists twoSequences ()
      (Function.update (Function.update twoSequences false [3, 2]) true [4, 1]) := by
  obtain ⟨hinsert, hremove, hsplice, hreverse, hunique⟩ :=
    list_operations_refine twoHeaders twoLists twoSequences twoLists_world
  have hfree : ∀ k, 5 ∉ cells (twoHeaders k) (twoSequences k) := by decide
  exact ⟨hinsert false [3] [1, 2] 5 rfl hfree, hremove false [3] 1 [2] rfl,
    hsplice false [] [3, 1] [2] rfl (by decide) true [] [4] rfl, hreverse false 4 (by decide),
    hunique lessParity lessParity_order false 4 (by decide) (some true) (by decide)⟩

theorem ends_refine_two :
    Refines twoHeaders (listPushFront ⟨10, 11⟩ 5) twoLists twoSequences ()
      (Function.update twoSequences false [5, 3, 1, 2]) ∧
    Refines twoHeaders (listPopBack ⟨12, 13⟩) twoLists twoSequences 4
      (Function.update twoSequences true []) :=
  ⟨((ends_refine twoLists_world false).1 5 (by decide)).1,
    (ends_refine twoLists_world true).2.2 4 [] rfl⟩

/-- 5 comes after the odd elements, before the even one. -/
theorem list_insert_ordered_sorts_two :
    Refines twoHeaders (listInsertOrdered lessParity ⟨10, 11⟩ 5 4) twoLists twoSequences ()
      (Function.update twoSequences false [3, 1, 5, 2]) := by
  obtain ⟨A, B, hl, hA, hB, -, h⟩ := list_insert_ordered_sorts (e := 5) lessParity_order
    twoLists_world false (by decide) (by decide) (show 3 < 4 by decide)
  have hsplit : A = [3, 1] ∧ B = [2] := by
    have hl : A ++ B = [3, 1, 2] := hl.symm
    rcases A with _ | ⟨a, _ | ⟨b, _ | ⟨c, A⟩⟩⟩ <;> simp_all [lessParity]
  rwa [hsplit.1, hsplit.2] at h

end SystemProg.Pintos.ListOps
