import Mathlib.Data.List.Nodup
import Mathlib.Logic.Function.Basic
import SystemProg.Data.Links

/-!
# Many chains in one memory

`Chains m cs` says that the cells of every `cs i` follow each other, from a first one that has
nothing before it to a last one that has nothing after it, and that no cell is in two chains or
twice in one.

A change of the memory is described by the cells of which it writes a link, `Edits`. A stretch stays
linked if only links at its two ends are written (`Edits.linked`), and a chain of which no cell is
written stays as it is. From that follow the three changes below.

* `Chains.same`: memories that hold the same chain agree on its cells.
* `Chains.unlink`: a stretch is taken out of a chain.
* `Chains.linkIn`: a stretch is put into a chain.
* `Chains.turn`: what is between the two ends of a chain is turned around.
-/

namespace SystemProg.Data.Links

open List

variable {α ι : Type} {m m' : Links α} {ns ps l S X Y : List α} {cs : ι → List α} {i : ι}
  {a b e f p x y : α}

/-! ## What is written -/

/-- At most the next links of `ns` and the previous links of `ps` are written. -/
structure Edits (m m' : Links α) (ns ps : List α) : Prop where
  next : ∀ u, u ∉ ns → m'.next u = m.next u
  prev : ∀ v, v ∉ ps → m'.prev v = m.prev v

theorem Edits.linked (h : Edits m m' ns ps) (hl : m.Linked l) (hns : ∀ u ∈ ns, u ∉ l.dropLast)
    (hps : ∀ v ∈ ps, v ∉ l.tail) : m'.Linked l :=
  hl.congr (fun u hu => h.next u fun hmem => hns u hmem hu)
    (fun v hv => h.prev v fun hmem => hps v hmem hv)

/-- The links of the cells of `l` are the same in both memories. -/
def Same (m m' : Links α) (l : List α) : Prop :=
  ∀ a ∈ l, m'.next a = m.next a ∧ m'.prev a = m.prev a

theorem Edits.same (h : Edits m m' ns ps) (hns : ∀ u ∈ ns, u ∉ l) (hps : ∀ v ∈ ps, v ∉ l) :
    Same m m' l :=
  fun a ha => ⟨h.next a fun hmem => hns a hmem ha, h.prev a fun hmem => hps a hmem ha⟩

theorem Same.linked (h : Same m m' l) (hl : m.Linked l) : m'.Linked l :=
  hl.congr (fun u hu => (h u (mem_of_mem_dropLast hu)).1)
    (fun v hv => (h v (mem_of_mem_tail hv)).2)

theorem not_mem_dropLast_of_not_mem (h : a ∉ l) : a ∉ l.dropLast :=
  fun hmem => h (mem_of_mem_dropLast hmem)

theorem not_mem_tail_of_not_mem (h : a ∉ l) : a ∉ l.tail :=
  fun hmem => h (mem_of_mem_tail hmem)

theorem not_mem_dropLast_of_last (h : l.Nodup) (hl : l.getLast? = some a) : a ∉ l.dropLast :=
  fun hmem => ne_of_mem_dropLast h hl hmem rfl

theorem not_mem_tail_of_head (h : l.Nodup) (hl : l.head? = some a) : a ∉ l.tail :=
  fun hmem => ne_of_mem_tail h hl hmem rfl

/-! ## Chains -/

/-- The memory holds the chains `cs`, which have no cell in common. -/
structure Chains (m : Links α) (cs : ι → List α) : Prop where
  nodup : ∀ i, (cs i).Nodup
  disjoint : ∀ i j, i ≠ j → (cs i).Disjoint (cs j)
  linked : ∀ i, m.Linked (cs i)
  front : ∀ i a, (cs i).head? = some a → m.prev a = none
  back : ∀ i a, (cs i).getLast? = some a → m.next a = none

theorem Chains.not_mem_of_ne {k : ι} (h : Chains m cs) (ha : a ∈ cs i) (hk : k ≠ i) : a ∉ cs k :=
  fun hmem => h.disjoint k i hk hmem ha

theorem Chains.same {cs' : ι → List α} (h : Chains m cs) (h' : Chains m' cs') (hi : cs' i = cs i) :
    Same m m' (cs i) := by
  intro a ha
  obtain ⟨X, Y, hXY⟩ := append_of_mem ha
  have hl := h.linked i
  have hl' := h'.linked i
  rw [hi] at hl'
  rw [hXY] at hl hl'
  constructor
  · cases Y with
    | nil =>
      have hlast : (cs i).getLast? = some a := by rw [hXY, getLast?_concat]
      rw [h.back i a hlast, h'.back i a (by rw [hi, hlast])]
    | cons b Y => rw [hl.joined.1, hl'.joined.1]
  · rcases eq_nil_or_concat X with rfl | ⟨X, b, rfl⟩
    · have hhead : (cs i).head? = some a := by rw [hXY]; rfl
      rw [h.front i a hhead, h'.front i a (by rw [hi, hhead])]
    · rw [concat_eq_append, append_assoc, singleton_append] at hl hl'
      rw [hl.joined.2, hl'.joined.2]

/-- One chain is changed between its ends, and only links of cells that are in no other chain are
written. -/
theorem Chains.edit [DecidableEq ι] (h : Chains m cs) (hE : Edits m m' ns ps)
    (hns : ∀ u ∈ ns, (∀ k, k ≠ i → u ∉ cs k) ∧ (cs i).getLast? ≠ some u)
    (hps : ∀ v ∈ ps, (∀ k, k ≠ i → v ∉ cs k) ∧ (cs i).head? ≠ some v)
    (hnodup : l.Nodup) (hdis : ∀ k, k ≠ i → l.Disjoint (cs k)) (hlinked : m'.Linked l)
    (hhead : l.head? = (cs i).head?) (hlast : l.getLast? = (cs i).getLast?) :
    Chains m' (Function.update cs i l) := by
  have hsame : ∀ k, k ≠ i → Same m m' (cs k) := fun k hk =>
    hE.same (fun u hu => (hns u hu).1 k hk) (fun v hv => (hps v hv).1 k hk)
  -- what is asked of one chain
  have hone : ∀ k, (Function.update cs i l k).Nodup ∧ m'.Linked (Function.update cs i l k) ∧
      (∀ a, (Function.update cs i l k).head? = some a → m'.prev a = none) ∧
      ∀ a, (Function.update cs i l k).getLast? = some a → m'.next a = none := by
    intro k
    by_cases hk : k = i
    · subst hk
      rw [Function.update_self, hhead, hlast]
      refine ⟨hnodup, hlinked, fun a ha => ?_, fun a ha => ?_⟩
      · rw [hE.prev a fun hmem => (hps a hmem).2 ha, h.front k a ha]
      · rw [hE.next a fun hmem => (hns a hmem).2 ha, h.back k a ha]
    · rw [Function.update_of_ne hk]
      refine ⟨h.nodup k, ?_, fun a ha => ?_, fun a ha => ?_⟩
      · exact (hsame k hk).linked (h.linked k)
      · rw [(hsame k hk a (mem_of_head? ha)).2, h.front k a ha]
      · rw [(hsame k hk a (mem_of_getLast? ha)).1, h.back k a ha]
  refine ⟨fun k => (hone k).1, fun k k' hne => ?_, fun k => (hone k).2.1, fun k => (hone k).2.2.1,
    fun k => (hone k).2.2.2⟩
  by_cases hk : k = i
  · subst hk
    rw [Function.update_self, Function.update_of_ne hne.symm]
    exact hdis k' hne.symm
  · rw [Function.update_of_ne hk]
    by_cases hk' : k' = i
    · subst hk'
      rw [Function.update_self]
      exact fun a ha ha' => hdis k hk ha' ha
    · rw [Function.update_of_ne hk']
      exact h.disjoint k k' hne

theorem head_append_ne (hX : X ≠ []) (ha : a ∉ X) : (X ++ Y).head? ≠ some a := by
  obtain ⟨b, X, rfl⟩ := exists_cons_of_ne_nil hX
  intro h
  exact ha (mem_of_head? (l := b :: X) h)

theorem last_append_ne (hY : Y ≠ []) (ha : a ∉ Y) : (X ++ Y).getLast? ≠ some a := by
  rw [getLast?_append_of_ne_nil X hY]
  exact fun h => ha (mem_of_getLast? h)

theorem head_append (hX : X ≠ []) : (X ++ Y).head? = X.head? := by
  obtain ⟨b, X, rfl⟩ := exists_cons_of_ne_nil hX
  rfl

/-! ## Taking a stretch out -/

variable [DecidableEq ι] [DecidableEq α]

/-- What is between `p` and `y` is taken out. -/
def unlink (m : Links α) (p y : α) : Links α := (m.setNext p (some y)).setPrev y (some p)

theorem unlink_prev (v : α) : (m.unlink p y).prev v = if v = y then some p else m.prev v := rfl

theorem unlink_edits (m : Links α) (p y : α) : Edits m (m.unlink p y) [p] [y] where
  next _ hu := if_neg (ne_of_not_mem_cons hu)
  prev _ hv := if_neg (ne_of_not_mem_cons hv)

/-- **A stretch is taken out of a chain**, and stays linked itself. -/
theorem Chains.unlink (h : Chains m cs) (hi : cs i = X ++ (S ++ Y)) (hp : X.getLast? = some p)
    (hy : Y.head? = some y) :
    Chains (m.unlink p y) (Function.update cs i (X ++ Y)) ∧ (m.unlink p y).Linked S := by
  have hnodup := h.nodup i
  have hlinked := h.linked i
  rw [hi] at hnodup hlinked
  obtain ⟨hX, hSY, -⟩ := linked_append.mp hlinked
  obtain ⟨hS, hY, -⟩ := linked_append.mp hSY
  obtain ⟨nX, nSY, dX⟩ := nodup_append'.mp hnodup
  obtain ⟨nS, nY, dS⟩ := nodup_append'.mp nSY
  have mp : p ∈ X := mem_of_getLast? hp
  have my : y ∈ Y := mem_of_head? hy
  have nX0 : X ≠ [] := ne_nil_of_mem mp
  have nY0 : Y ≠ [] := ne_nil_of_mem my
  have hpS : p ∉ S := fun hmem => dX mp (mem_append_left Y hmem)
  have hpY : p ∉ Y := fun hmem => dX mp (mem_append_right S hmem)
  have hyX : y ∉ X := fun hmem => dX hmem (mem_append_right S my)
  have hyS : y ∉ S := fun hmem => dS hmem my
  have hsub : ∀ a ∈ X ++ Y, a ∈ cs i := by
    intro a ha
    rw [hi]
    simp only [mem_append] at ha ⊢
    tauto
  -- the links of `p` and of `y` that are written are no links inside a stretch
  have hE := unlink_edits m p y
  have hX' : (m.unlink p y).Linked X := hE.linked hX
    (forall_mem_singleton.mpr (not_mem_dropLast_of_last nX hp))
    (forall_mem_singleton.mpr (not_mem_tail_of_not_mem hyX))
  have hY' : (m.unlink p y).Linked Y := hE.linked hY
    (forall_mem_singleton.mpr (not_mem_dropLast_of_not_mem hpY))
    (forall_mem_singleton.mpr (not_mem_tail_of_head nY hy))
  have hS' : (m.unlink p y).Linked S := hE.linked hS
    (forall_mem_singleton.mpr (not_mem_dropLast_of_not_mem hpS))
    (forall_mem_singleton.mpr (not_mem_tail_of_not_mem hyS))
  refine ⟨h.edit hE ?_ ?_ ?_ ?_ ?_ ?_ ?_, hS'⟩
  · refine forall_mem_singleton.mpr ⟨fun k hk => ?_, ?_⟩
    · exact h.not_mem_of_ne (hsub p (mem_append_left Y mp)) hk
    · rw [hi, ← append_assoc]
      exact last_append_ne nY0 hpY
  · refine forall_mem_singleton.mpr ⟨fun k hk => ?_, ?_⟩
    · exact h.not_mem_of_ne (hsub y (mem_append_right X my)) hk
    · rw [hi]
      exact head_append_ne nX0 hyX
  · exact nodup_append'.mpr ⟨nX, nY, fun a ha ha' => dX ha (mem_append_right S ha')⟩
  · exact fun k hk a ha ha' => h.not_mem_of_ne (hsub a ha) hk ha'
  · refine linked_append.mpr ⟨hX', hY', fun u hu v hv => ?_⟩
    cases hp.symm.trans hu
    cases hy.symm.trans hv
    exact ⟨if_pos rfl, if_pos rfl⟩
  · rw [hi, head_append nX0, head_append nX0]
  · rw [hi, ← append_assoc, getLast?_append_of_ne_nil _ nY0, getLast?_append_of_ne_nil _ nY0]

/-! ## Putting a stretch in -/

omit [DecidableEq α] in
theorem forall_mem_pair {P : α → Prop} : (∀ u ∈ [a, b], P u) ↔ P a ∧ P b := by simp

/-- The stretch `f … e` is put between `x` and `b`. -/
def linkIn (m : Links α) (x f e b : α) : Links α :=
  (((m.setPrev f (some x)).setNext e (some b)).setNext x (some f)).setPrev b (some e)

theorem linkIn_next (u : α) : (m.linkIn x f e b).next u =
    if u = x then some f else if u = e then some b else m.next u := rfl

theorem linkIn_prev (v : α) : (m.linkIn x f e b).prev v =
    if v = b then some e else if v = f then some x else m.prev v := rfl

theorem linkIn_edits (m : Links α) (x f e b : α) : Edits m (m.linkIn x f e b) [x, e] [b, f] where
  next u hu := by
    rw [mem_cons, mem_singleton, not_or] at hu
    rw [linkIn_next, if_neg hu.1, if_neg hu.2]
  prev v hv := by
    rw [mem_cons, mem_singleton, not_or] at hv
    rw [linkIn_prev, if_neg hv.1, if_neg hv.2]

/-- **A stretch is put into a chain.** -/
theorem Chains.linkIn (h : Chains m cs) (hi : cs i = X ++ Y) (hx : X.getLast? = some x)
    (hb : Y.head? = some b) (hS : m.Linked S) (nS : S.Nodup) (dS : ∀ k, S.Disjoint (cs k))
    (hf : S.head? = some f) (he : S.getLast? = some e) :
    Chains (m.linkIn x f e b) (Function.update cs i (X ++ (S ++ Y))) := by
  have hnodup := h.nodup i
  have hlinked := h.linked i
  have hdis := dS i
  rw [hi] at hnodup hlinked hdis
  obtain ⟨hX, hY, -⟩ := linked_append.mp hlinked
  obtain ⟨nX, nY, dX⟩ := nodup_append'.mp hnodup
  obtain ⟨dSX, dSY⟩ := disjoint_append_right.mp hdis
  have mx : x ∈ X := mem_of_getLast? hx
  have mb : b ∈ Y := mem_of_head? hb
  have mf : f ∈ S := mem_of_head? hf
  have me : e ∈ S := mem_of_getLast? he
  have nX0 : X ≠ [] := ne_nil_of_mem mx
  have nY0 : Y ≠ [] := ne_nil_of_mem mb
  have hxY : x ∉ Y := fun hmem => dX mx hmem
  have hbX : b ∉ X := fun hmem => dX hmem mb
  have hxS : x ∉ S := fun hmem => dSX hmem mx
  have hbS : b ∉ S := fun hmem => dSY hmem mb
  have heX : e ∉ X := fun hmem => dSX me hmem
  have hfY : f ∉ Y := fun hmem => dSY mf hmem
  have hfX : f ∉ X := fun hmem => dSX mf hmem
  have heY : e ∉ Y := fun hmem => dSY me hmem
  have hE := linkIn_edits m x f e b
  have hX' : (m.linkIn x f e b).Linked X := hE.linked hX
    (forall_mem_pair.mpr ⟨not_mem_dropLast_of_last nX hx, not_mem_dropLast_of_not_mem heX⟩)
    (forall_mem_pair.mpr ⟨not_mem_tail_of_not_mem hbX, not_mem_tail_of_not_mem hfX⟩)
  have hY' : (m.linkIn x f e b).Linked Y := hE.linked hY
    (forall_mem_pair.mpr ⟨not_mem_dropLast_of_not_mem hxY, not_mem_dropLast_of_not_mem heY⟩)
    (forall_mem_pair.mpr ⟨not_mem_tail_of_head nY hb, not_mem_tail_of_not_mem hfY⟩)
  have hS' : (m.linkIn x f e b).Linked S := hE.linked hS
    (forall_mem_pair.mpr ⟨not_mem_dropLast_of_not_mem hxS, not_mem_dropLast_of_last nS he⟩)
    (forall_mem_pair.mpr ⟨not_mem_tail_of_not_mem hbS, not_mem_tail_of_head nS hf⟩)
  have hcells : ∀ a ∈ X ++ (S ++ Y), ∀ k, k ≠ i → a ∉ cs k := by
    intro a ha k hk hmem
    simp only [mem_append] at ha
    rcases ha with ha | ha | ha
    · exact h.not_mem_of_ne (by rw [hi]; exact mem_append_left Y ha) hk hmem
    · exact dS k ha hmem
    · exact h.not_mem_of_ne (by rw [hi]; exact mem_append_right X ha) hk hmem
  refine h.edit hE ?_ ?_ ?_ (fun k hk a ha => hcells a ha k hk) ?_ ?_ ?_
  · rw [hi]
    exact forall_mem_pair.mpr ⟨⟨hcells x (by simp [mx]), last_append_ne nY0 hxY⟩,
      hcells e (by simp [me]), last_append_ne nY0 heY⟩
  · rw [hi]
    exact forall_mem_pair.mpr ⟨⟨hcells b (by simp [mb]), head_append_ne nX0 hbX⟩,
      hcells f (by simp [mf]), head_append_ne nX0 hfX⟩
  · refine nodup_append'.mpr ⟨nX, nodup_append'.mpr ⟨nS, nY, dSY⟩, ?_⟩
    exact disjoint_append_right.mpr ⟨fun a ha ha' => dSX ha' ha, dX⟩
  · have hSY : (S ++ Y).head? = some f := by rw [head_append (ne_nil_of_mem mf), hf]
    refine linked_append.mpr ⟨hX', linked_append.mpr ⟨hS', hY', fun u hu v hv => ?_⟩,
      fun u hu v hv => ?_⟩
    · cases he.symm.trans hu
      cases hb.symm.trans hv
      exact ⟨by rw [linkIn_next, if_neg (ne_of_mem_of_not_mem me hxS), if_pos rfl], if_pos rfl⟩
    · cases hx.symm.trans hu
      cases hSY.symm.trans hv
      exact ⟨if_pos rfl, by rw [linkIn_prev, if_neg (ne_of_mem_of_not_mem mf hbS), if_pos rfl]⟩
  · rw [hi, head_append nX0, head_append nX0]
  · rw [hi, ← append_assoc, getLast?_append_of_ne_nil _ nY0, getLast?_append_of_ne_nil _ nY0]

/-! ## Turning a chain around -/

/-- The two links of each cell of `l` are exchanged. -/
def flip (m : Links α) (l : List α) : Links α where
  next u := if u ∈ l then m.prev u else m.next u
  prev v := if v ∈ l then m.next v else m.prev v

theorem flip_concat (h : a ∉ l) : ((m.flip l).setPrev a ((m.flip l).next a)).setNext a
    ((m.flip l).prev a) = m.flip (l ++ [a]) := by
  have hnext : (m.flip l).next a = m.next a := if_neg h
  have hprev : (m.flip l).prev a = m.prev a := if_neg h
  rw [hnext, hprev]
  unfold flip setPrev setNext
  congr 1
  all_goals
    funext u
    by_cases hu : u = a <;> simp [hu, h]

/-- What is from `f` to `e`, between `x` and `y`, is turned around. -/
def turn (m : Links α) (l : List α) (x f e y : α) : Links α :=
  ((((m.flip l).setNext x (some e)).setPrev y (some f)).setPrev e (some x)).setNext f (some y)

theorem turn_next (u : α) : (m.turn l x f e y).next u =
    if u = f then some y else if u = x then some e else if u ∈ l then m.prev u else m.next u := rfl

theorem turn_prev (v : α) : (m.turn l x f e y).prev v =
    if v = e then some x else if v = y then some f else if v ∈ l then m.next v else m.prev v := rfl

theorem turn_edits (m : Links α) (hf : f ∈ l) (he : e ∈ l) (x y : α) :
    Edits m (m.turn l x f e y) (x :: l) (y :: l) where
  next u hu := by
    rw [mem_cons, not_or] at hu
    rw [turn_next, if_neg (ne_of_mem_of_not_mem hf hu.2).symm, if_neg hu.1, if_neg hu.2]
  prev v hv := by
    rw [mem_cons, not_or] at hv
    rw [turn_prev, if_neg (ne_of_mem_of_not_mem he hv.2).symm, if_neg hv.1, if_neg hv.2]

/-- **The stretch between the ends of a chain is turned around.** -/
theorem Chains.turn (h : Chains m cs) (hi : cs i = x :: (l ++ [y])) (hf : l.head? = some f)
    (he : l.getLast? = some e) :
    Chains (m.turn l x f e y) (Function.update cs i (x :: (l.reverse ++ [y]))) := by
  have hnodup := h.nodup i
  have hlinked := h.linked i
  rw [hi] at hnodup hlinked
  obtain ⟨hxl, hnodup⟩ := nodup_cons.mp hnodup
  obtain ⟨nl, -, dl⟩ := nodup_append'.mp hnodup
  have mf : f ∈ l := mem_of_head? hf
  have me : e ∈ l := mem_of_getLast? he
  rw [mem_append, mem_singleton, not_or] at hxl
  have hyl : y ∉ l := fun hmem => dl hmem (mem_singleton_self y)
  have hlinked : m.Linked ([x] ++ (l ++ [y])) := hlinked
  obtain ⟨hl, -, hjoin⟩ := linked_append.mp (linked_append.mp hlinked).2.1
  have hey : m.Joined e y := hjoin e he y rfl
  -- inside the stretch each pair of neighbours is exchanged
  have hl' : (m.turn l x f e y).Linked l.reverse := by
    refine isChain_reverse.mpr (List.IsChain.imp_of_mem_tail_imp ?_ hl)
    rintro a b ha hb ⟨hab, hba⟩
    have hmb : b ∈ l := mem_of_mem_tail hb
    have hae : a ≠ e := by
      rintro rfl
      rw [hey.1] at hab
      cases hab
      exact hyl hmb
    constructor
    · rw [turn_next, if_neg (ne_of_mem_tail nl hf hb), if_neg (ne_of_mem_of_not_mem hmb hxl.1),
        if_pos hmb, hba]
    · rw [turn_prev, if_neg hae, if_neg (ne_of_mem_of_not_mem ha hyl), if_pos ha, hab]
  have hsub : ∀ a ∈ x :: (l ++ [y]), ∀ k, k ≠ i → a ∉ cs k := fun a ha k hk =>
    h.not_mem_of_ne (by rwa [hi]) hk
  have hperm : (x :: (l.reverse ++ [y])).Perm (x :: (l ++ [y])) :=
    ((reverse_perm l).append_right [y]).cons x
  refine h.edit (turn_edits m mf me x y) ?_ ?_ ?_ ?_ ?_ ?_ ?_
  · intro u hu
    refine ⟨hsub u (by rw [← cons_append]; exact mem_append_left _ hu), ?_⟩
    rw [hi, ← cons_append]
    refine last_append_ne (cons_ne_nil _ _) ?_
    rw [mem_singleton]
    rintro rfl
    exact (mem_cons.mp hu).elim (fun h => hxl.2 h.symm) hyl
  · intro v hv
    refine ⟨hsub v ?_, ?_⟩
    · simp only [mem_cons, mem_append] at hv ⊢
      tauto
    · rw [hi]
      rintro ⟨⟩
      exact (mem_cons.mp hv).elim hxl.2 hxl.1
  · exact hperm.nodup_iff.mpr (hi ▸ h.nodup i)
  · exact fun k hk a ha => hsub a (hperm.mem_iff.mp ha) k hk
  · refine linked_append.mpr ⟨isChain_singleton x, linked_append.mpr
      ⟨hl', isChain_singleton y, fun u hu v hv => ?_⟩, fun u hu v hv => ?_⟩
    · rw [getLast?_reverse] at hu
      cases hf.symm.trans hu
      cases hv
      exact ⟨if_pos rfl, by rw [turn_prev, if_neg (ne_of_mem_of_not_mem me hyl).symm, if_pos rfl]⟩
    · have hlast : (l.reverse ++ [y]).head? = some e := by
        rw [head_append (by simpa using ne_nil_of_mem me), head?_reverse, he]
      obtain rfl : x = u := by simpa using hu
      cases hlast.symm.trans hv
      exact ⟨by rw [turn_next, if_neg (ne_of_mem_of_not_mem mf hxl.1).symm, if_pos rfl], if_pos rfl⟩
  · rw [hi]
    rfl
  · rw [hi, ← cons_append, ← cons_append, getLast?_append_of_ne_nil _ (cons_ne_nil _ _),
      getLast?_append_of_ne_nil _ (cons_ne_nil _ _)]

end SystemProg.Data.Links
