import SystemProg.Pintos.Malloc

/-!
# What the kernel heap keeps

The functions of `threads/malloc.c` keep `HeapInv`: a block that is taken or given back moves
between the free list and the live blocks, a new arena brings free blocks, and an arena whose blocks
are all free takes them with it.

* `kernel_heap` is over every sequence of calls: the invariant, no panic, and what `realloc` keeps.
* `malloc_fits_iff`: where the block is as long as the request.
-/

namespace SystemProg.Pintos

open Data Text SystemProg.Seq List
open Option (some.inj)

variable {h h' : Heap} {live : List Nat} {page : Option Nat} {a b : Arena} {d n p q size : Nat}

/-! ## The loops -/

/-- The first blocks of an arena. -/
def blocksUpTo (a d cnt : Nat) : List Nat :=
  (List.range cnt).map fun i => a + headerSize + i * (descAt d).blockSize

theorem blocks_eq (hd : a.desc = some d) :
    a.blocks = blocksUpTo a.addr d (descAt d).blocksPerArena := by
  rw [Arena.blocks, hd]
  rfl

theorem blocksUpTo_succ (a d cnt : Nat) : blocksUpTo a d (cnt + 1) =
    blocksUpTo a d cnt ++ [a + headerSize + cnt * (descAt d).blockSize] := by
  rw [blocksUpTo, range_succ, map_append]
  rfl

section Loops

variable (hpos : 0 < a.addr) (ha : lookup Arena.addr h.arenas a.addr = some a)
  (hd : a.desc = some d)

include hpos ha hd

theorem pushBlocks_eq {cnt : Nat} (hcnt : cnt ≤ (descAt d).blocksPerArena) :
    pushBlocks d a.addr cnt h =
      some ((), h.setFree d (h.freeList d ++ blocksUpTo a.addr d cnt)) := by
  induction cnt with
  | zero =>
    rw [blocksUpTo, range_zero, map_nil, append_nil, h.setFree_self]
    rfl
  | succ cnt ih =>
    have hblock := arenaToBlock_eq (h := h.setFree d (h.freeList d ++ blocksUpTo a.addr d cnt)) hpos
      ha hd hcnt
    rw [pushBlocks, bind_eq (ih (by omega)), bind_eq hblock, modify_eq, Heap.freeList_setFree,
      Heap.setFree_setFree, blocksUpTo_succ, append_assoc]

/-- The blocks are on the list, so that no `list_remove` fails. -/
theorem removeBlocks_eq {cnt : Nat} (hcnt : cnt ≤ (descAt d).blocksPerArena)
    (hnodup : (blocksUpTo a.addr d cnt).Nodup)
    (hmem : ∀ b ∈ blocksUpTo a.addr d cnt, b ∈ h.freeList d) :
    removeBlocks d a.addr cnt h =
      some ((), h.setFree d ((h.freeList d).diff (blocksUpTo a.addr d cnt))) := by
  induction cnt with
  | zero =>
    rw [blocksUpTo, range_zero, map_nil, diff_nil, h.setFree_self]
    rfl
  | succ cnt ih =>
    rw [blocksUpTo_succ] at hnodup hmem ⊢
    obtain ⟨hne, hnodup⟩ := nodup_cons.mp (nodup_middle.mp hnodup)
    rw [append_nil] at hne hnodup
    obtain ⟨hmem, hlast⟩ := forall_mem_append.mp hmem
    have hblock := arenaToBlock_eq
      (h := h.setFree d ((h.freeList d).diff (blocksUpTo a.addr d cnt))) hpos ha hd hcnt
    have hlast := mem_diff_of_mem (hlast _ (mem_singleton_self _)) hne
    rw [removeBlocks, bind_eq (ih (by omega) hnodup hmem), bind_eq hblock, get_bind,
      Heap.freeList_setFree, bind_eq (assert_eq hlast), set_eq, Heap.setFree_setFree,
      diff_append, diff_cons, diff_nil]

end Loops

/-! ## `malloc` keeps the invariant -/

/-- The pages that `malloc` asks for. -/
def asked (size : Nat) : Nat :=
  match descFor size with
  | some _ => 1
  | none => pagesFor size

/-- What the page allocator gives: pages of which no byte is in use. -/
def PageOk (page : Option Nat) (h : Heap) (cnt : Nat) : Prop :=
  ∀ a, page = some a → pgOfs a = 0 ∧ 0 < a ∧ ∀ r ∈ h.pages, PagesApart (a, cnt) r

/-- What is known of the block at `p` after `malloc(size)`. -/
structure Granted (h h' : Heap) (live : List Nat) (size p : Nat) : Prop where
  inv : HeapInv h' (p :: live)
  mem : h'.mem = h.mem
  keeps : ∀ q n, h.Extent q n → h'.Extent q n
  block : ∃ a ∈ h'.arenas, p ∈ a.blocks ∧ a.desc = descFor size ∧
    (a.desc = none → a.freeCnt = pagesFor size)

theorem HeapBase.freeCnt_le (hb : HeapBase h live) (ha : a ∈ h.arenas) (hd : a.desc = some d) :
    a.freeCnt ≤ (descAt d).blocksPerArena := by
  rw [hb.count a ha d hd, ← length_blocks hd]
  exact countP_le_length

/-- The first free block is taken; its arena may be new. -/
theorem takeBlock_spec {rest : List Nat} (hb : HeapBase h live) (hd : d < descs.length)
    (hfree : h.freeList d = p :: rest) (hused : ∀ x ∈ h.arenas, p ∉ x.blocks →
      ∀ e, x.desc = some e → x.freeCnt < (descAt e).blocksPerArena) :
    wp (takeBlock d) (fun b h' => b = p ∧ HeapInv h' (p :: live) ∧ h'.mem = h.mem ∧
      (∀ q n, h.Extent q n → h'.Extent q n) ∧
        ∃ a ∈ h'.arenas, p ∈ a.blocks ∧ a.desc = some d) h := by
  obtain ⟨⟨a, ha, had, hpa⟩, hpl⟩ := (hb.free d p).mp (hfree ▸ mem_cons_self)
  have hnodup : (p :: rest).Nodup := hfree ▸ hb.freeNodup d
  have hcnt := countP_cons_of_mem (nodup_blocks (hb.ok ha).desc) hpa hpl
  rw [← hb.count a ha d had] at hcnt
  have hle := hb.freeCnt_le ha had
  have hto : blockToArena p (h.setFree d rest) = some (a, h.setFree d rest) :=
    blockToArena_eq (hb.ok ha) (hb.lookup_eq ha) hpa
  have hbase : HeapBase ((h.setFree d rest).recounted a.addr (a.freeCnt - 1)) (p :: live) := by
    refine hb.move (m := h.mem) ha had (nodup_cons.mpr ⟨hpl, hb.liveNodup⟩) ?_ ?_ ?_ ?_ ?_
    · exact forall_mem_cons.mpr ⟨⟨_, a, ha, had, hpa⟩, hb.liveBlock⟩
    · intro q hq
      have hne : q ≠ p := fun he => hq (he ▸ hpa)
      rw [mem_cons, or_iff_right hne]
    · exact hb.nodup_setFree (nodup_cons.mp hnodup).2 d
    · intro e q
      have hq := hb.free e q
      rw [mem_cons, not_or]
      by_cases he : e = d
      · subst he
        rw [hfree, mem_cons] at hq
        rw [h.freeList_setFree]
        have hne (hqr : q ∈ rest) : q ≠ p := fun he => (nodup_cons.mp hnodup).1 (he ▸ hqr)
        tauto
      · rw [h.freeList_setFree_of_ne rest he]
        have hne (hqe : h.Block (some e) q) : q ≠ p := by
          rintro rfl
          exact he (some.inj ((hb.desc_of_block ha hpa hqe).trans had))
        tauto
    · omega
  have hrow : { a with freeCnt := a.freeCnt - 1 } ∈
      ((h.setFree d rest).recounted a.addr (a.freeCnt - 1)).arenas := mem_update_self ha
  unfold takeBlock
  refine wp_get ?_
  rw [hfree]
  refine wp_set (wp_call hto (wp_modify (wp_pure ⟨rfl, ⟨hbase, ?_⟩, rfl, ?_, _, hrow, hpa, had⟩)))
  · intro y hy e he
    rcases mem_update hy with ⟨x, hx, hk, rfl⟩ | ⟨hy, hk⟩
    · obtain rfl := inj_on_of_nodup_map hb.addr_nodup hx ha hk
      obtain rfl := some.inj (he.symm.trans had)
      show x.freeCnt - 1 < _
      omega
    · refine hused y hy (fun hpy => hk ?_) e he
      exact congrArg Arena.addr (hb.arena_unique hy ha hpy hpa)
  · intro q n hq
    exact hb.extent_recounted (n := a.freeCnt - 1) ha had hq

theorem pallocGet_zero : pallocGet page 0 h = some (none, h) := rfl

theorem pallocGet_none : pallocGet none n h = some (none, h) := by
  unfold pallocGet
  split <;> rfl

theorem pallocGet_some {k : Nat} (hn : n ≠ 0) :
    pallocGet (some k) n h = some (some k, { h with pages := (k, n) :: h.pages }) := by
  rw [pallocGet, if_neg hn]
  rfl

/-- A new arena, with all its blocks free. -/
def fresh (k d : Nat) : Arena := ⟨k, some d, (descAt d).blocksPerArena⟩

theorem Arena.Ok.fresh {k : Nat} (haligned : pgOfs k = 0) (hpos : 0 < k) (hd : d < descs.length) :
    (fresh k d).Ok :=
  ⟨haligned, hpos, Nat.one_pos, fun _ he => some.inj he ▸ hd⟩

theorem newArena_spec {k : Nat} (hb : HeapBase h live) (hd : d < descs.length)
    (hfree : h.freeList d = []) (hpage : PageOk (some k) h 1) :
    wp (newArena (some k) d) (fun ok h' => ok = true ∧ HeapBase h' live ∧ h'.mem = h.mem ∧
      h'.arenas = fresh k d :: h.arenas ∧ h'.freeList d = (fresh k d).blocks) h := by
  obtain ⟨haligned, hpos, hapart⟩ := hpage k rfl
  have hok := Arena.Ok.fresh haligned hpos hd
  have hbase := hb.add (m := h.mem) (f := (h.setFree d (fresh k d).blocks).freeList) hok hapart
    (fun e he => some.inj he ▸ rfl) hb.liveNodup
    (fun p => (or_iff_right fun hp => nomatch hp.1).symm)
      (hb.nodup_setFree (nodup_blocks hok.desc) d)
    (by
      intro e p
      by_cases he : e = d
      · rw [he, h.freeList_setFree, hfree]
        exact ⟨fun hp => .inl ⟨rfl, hp⟩, fun hp => hp.elim And.right nofun⟩
      · rw [h.freeList_setFree_of_ne _ he]
        exact (or_iff_right fun hp => he (some.inj hp.1).symm).symm)
  obtain ⟨h1, hh1⟩ : ∃ h1 : Heap,
    h1 = { h with pages := (k, 1) :: h.pages, arenas := fresh k d :: h.arenas } := ⟨_, rfl⟩
  have hpush : pushBlocks d k (descAt d).blocksPerArena h1 =
      some ((), h1.setFree d (fresh k d).blocks) := by
    have hl : lookup Arena.addr h1.arenas (fresh k d).addr = some (fresh k d) := by
      rw [hh1]
      exact lookup_cons_self
    have hnil : h1.freeList d = [] := hh1 ▸ hfree
    rw [blocks_eq rfl, ← nil_append (blocksUpTo _ _ _), ← hnil]
    exact pushBlocks_eq hpos hl rfl le_rfl
  refine ⟨true, h1.setFree d (fresh k d).blocks, ?_, rfl, ?_, ?_, ?_, ?_⟩
  · rw [hh1] at hpush ⊢
    rw [newArena, bind_eq (pallocGet_some Nat.one_ne_zero)]
    exact (bind_eq modify_eq).trans (bind_eq hpush)
  · rw [hh1]
    exact hbase
  · rw [hh1]
    rfl
  · rw [hh1]
    rfl
  · exact h1.freeList_setFree _ _

theorem extent_cons {x : Arena} (hl : h'.arenas = x :: h.arenas) (hp : h.Extent p n) :
    h'.Extent p n := by
  obtain ⟨a, ha, hp⟩ := hp
  exact ⟨a, hl ▸ mem_cons_of_mem _ ha, hp⟩

theorem mallocBig_spec (hinv : HeapInv h live) (hdesc : descFor size = none)
    (hpage : PageOk page h (pagesFor size)) : wp (mallocBig page size) (fun r h' =>
      match r with
      | some p => Granted h h' live size p
      | none => h' = h) h := by
  unfold mallocBig
  by_cases hcnt : pagesFor size = 0
  · rw [hcnt]
    exact wp_call pallocGet_zero (wp_pure rfl)
  · cases page with
    | none => exact wp_call pallocGet_none (wp_pure rfl)
    | some k =>
      obtain ⟨haligned, hpos, hapart⟩ := hpage k rfl
      have hok : (⟨k, none, pagesFor size⟩ : Arena).Ok :=
        ⟨haligned, hpos, Nat.pos_of_ne_zero hcnt, nofun⟩
      have hblock : k + headerSize ∈ (⟨k, none, pagesFor size⟩ : Arena).blocks :=
        (mem_blocks_of_none rfl).mpr rfl
      have hnew : k + headerSize ∉ live := fun hl => by
        obtain ⟨e, he⟩ := hinv.liveBlock _ hl
        exact hinv.new hok hapart _ hblock e he
      have hbase := hinv.add (m := h.mem) (f := h.freeList) hok hapart nofun
        (nodup_cons.mpr ⟨hnew, hinv.liveNodup⟩)
        (fun p => by
          rw [mem_cons, mem_blocks_of_none rfl]
          exact or_congr_left (and_iff_right rfl).symm)
        hinv.freeNodup (fun e p => (or_iff_right fun hp => nomatch hp.1).symm)
      refine wp_call (pallocGet_some hcnt) (wp_modify (wp_pure ?_))
      refine ⟨⟨hbase, ?_⟩, rfl, fun q n hq => extent_cons rfl hq, ?_⟩
      · exact forall_mem_cons.mpr ⟨nofun, hinv.used⟩
      · exact ⟨_, mem_cons_self, hblock, hdesc.symm, fun _ => rfl⟩

/-- **`malloc`** returns; a null pointer changes nothing. -/
theorem malloc_spec (hinv : HeapInv h live) (hpage : PageOk page h (asked size)) :
    wp (malloc page size) (fun r h' =>
      match r with
      | some p => Granted h h' live size p
      | none => h' = h) h := by
  unfold malloc
  split
  · exact wp_pure rfl
  · rw [asked] at hpage
    cases hdesc : descFor size with
    | none =>
      rw [hdesc] at hpage
      exact mallocBig_spec hinv hdesc hpage
    | some d =>
      rw [hdesc] at hpage
      have hd := (descFor_eq_some hdesc).1
      refine wp_get ?_
      by_cases hfree : h.freeList d = []
      · rw [if_pos hfree]
        cases page with
        | none => exact wp_call (bind_eq pallocGet_none) (wp_pure rfl)
        | some k =>
          refine wp_bind (newArena_spec hinv.toHeapBase hd hfree hpage) ?_
          rintro _ h1 ⟨rfl, hbase, hmem, harenas, hblocks⟩
          obtain ⟨p, rest, hpr⟩ :=
            exists_cons_of_ne_nil (blocks_ne_nil (x := fresh k d) rfl hd)
          have hp : p ∈ (fresh k d).blocks := hpr ▸ mem_cons_self
          have hused : ∀ x ∈ h1.arenas, p ∉ x.blocks →
              ∀ e, x.desc = some e → x.freeCnt < (descAt e).blocksPerArena := by
            rw [harenas]
            exact forall_mem_cons.mpr ⟨fun hn => absurd hp hn, fun x hx _ => hinv.used x hx⟩
          refine wp_bind (takeBlock_spec hbase hd (hblocks.trans hpr) hused) ?_
          rintro _ h' ⟨rfl, hinv', hmem', hkeep, a, ha, hpa, had⟩
          exact wp_pure ⟨hinv', hmem'.trans hmem, fun q n hq => hkeep q n (extent_cons harenas hq),
            a, ha, hpa, had.trans hdesc.symm, fun hn => nomatch had.symm.trans hn⟩
      · rw [if_neg hfree]
        obtain ⟨p, rest, hfree⟩ := exists_cons_of_ne_nil hfree
        have htake := takeBlock_spec hinv.toHeapBase hd hfree fun x hx _ => hinv.used x hx
        refine wp_bind htake ?_
        rintro _ h' ⟨rfl, hinv', hmem, hkeep, a, ha, hpa, had⟩
        exact wp_pure ⟨hinv', hmem, hkeep, a, ha, hpa, had.trans hdesc.symm,
          fun hn => nomatch had.symm.trans hn⟩

/-! ## `free` keeps the invariant -/

/-- What `free(p)` leaves. -/
structure Freed (h h' : Heap) (live : List Nat) (p : Nat) : Prop where
  inv : HeapInv h' (live.erase p)
  keeps : ∀ q n, q ∈ live → q ≠ p → h.Extent q n →
    h'.Extent q n ∧ slice h'.mem q n = slice h.mem q n

theorem pallocFree_eq (hr : (p, n) ∈ h.pages) : pallocFree p n h = some ((),
    ⟨patch h.mem p (List.replicate (pgSize * n) 0xcc), remove Prod.fst h.pages p,
      remove Arena.addr h.arenas p, h.freeList⟩) := by
  rw [pallocFree, get_bind, bind_eq (assert_eq hr)]
  rfl

namespace HeapBase

variable {i : Nat}

theorem extent_removed (hb : HeapBase h live) (ha : a ∈ h.arenas)
    (hl : h'.arenas = remove Arena.addr h.arenas a.addr) (hq : h.Extent q i) (hqa : q ∉ a.blocks) :
    h'.Extent q i := by
  obtain ⟨x, hx, hqx, hi⟩ := hq
  refine ⟨x, ?_, hqx, hi⟩
  rw [hl]
  refine mem_remove.mpr ⟨hx, fun hk => hqa ?_⟩
  rwa [← inj_on_of_nodup_map hb.addr_nodup hx ha hk]

/-- A live block of an arena goes back to the free list. -/
theorem put {m : Nat → Byte} (hb : HeapBase h live) (ha : a ∈ h.arenas) (hd : a.desc = some d)
    (hpa : p ∈ a.blocks) (hpl : p ∈ live) :
    HeapBase { (h.setFree d (p :: h.freeList d)).recounted a.addr (a.freeCnt + 1) with mem := m }
      (live.erase p) := by
  have hmem (q) : q ∈ live.erase p ↔ q ≠ p ∧ q ∈ live := hb.liveNodup.mem_erase_iff
  have hpf : p ∉ h.freeList d := fun hp => ((hb.free d p).mp hp).2 hpl
  refine hb.move (f := (h.setFree d (p :: h.freeList d)).freeList) ha hd
    (hb.liveNodup.erase p) ?_ ?_ ?_
    ?_ ?_
  · exact fun q hq => hb.liveBlock q ((hmem q).mp hq).2
  · intro q hqa
    have hne : q ≠ p := fun he => hqa (he ▸ hpa)
    rw [hmem, and_iff_right hne]
  · exact hb.nodup_setFree (nodup_cons.mpr ⟨hpf, hb.freeNodup d⟩) d
  · intro e q
    have hq := hb.free e q
    rw [hmem]
    by_cases hqp : q = p
    · subst hqp
      by_cases he : e = d
      · rw [he, h.freeList_setFree]
        exact iff_of_true mem_cons_self ⟨⟨a, ha, hd, hpa⟩, fun hn => hn.1 rfl⟩
      · rw [h.freeList_setFree_of_ne _ he, hq]
        refine iff_of_false (fun hn => hn.2 hpl) fun hn => he ?_
        exact some.inj ((hb.desc_of_block ha hpa hn.1).trans hd)
    · by_cases he : e = d
      · subst he
        rw [h.freeList_setFree, mem_cons, or_iff_right hqp, and_iff_right hqp]
        exact hq
      · rw [h.freeList_setFree_of_ne _ he, and_iff_right hqp]
        exact hq
  · rw [← countP_cons_of_mem (nodup_blocks (hb.ok ha).desc) hpa fun hn => ((hmem p).mp hn).1 rfl,
      hb.count a ha d hd]
    congr 1
    refine countP_congr fun q _ => ?_
    rw [decide_eq_true_eq, decide_eq_true_eq, (perm_cons_erase hpl).mem_iff]

/-- **An arena without live blocks** goes back to the page allocator. -/
theorem dissolve {m : Nat → Byte} (hb : HeapBase h live) (ha : a ∈ h.arenas) (hd : a.desc = some d)
    (hcnt : a.freeCnt = (descAt d).blocksPerArena) :
    (∀ q ∈ a.blocks, q ∉ live) ∧ HeapBase ⟨m, remove Prod.fst h.pages a.addr,
      remove Arena.addr h.arenas a.addr, (h.setFree d ((h.freeList d).diff a.blocks)).freeList⟩
      live := by
  have hdead : ∀ q ∈ a.blocks, q ∉ live := by
    have hlen := hb.count a ha d hd
    rw [hcnt, ← length_blocks hd, eq_comm, countP_eq_length] at hlen
    exact fun q hq => of_decide_eq_true (hlen q hq)
  refine ⟨hdead, hb.drop ha hb.liveNodup ?_ ?_ ?_⟩
  · exact fun q => (and_iff_left_of_imp fun hql hqa => hdead q hqa hql).symm
  · exact hb.nodup_setFree (hb.freeNodup d).diff d
  · intro e q
    by_cases he : e = d
    · rw [he, h.freeList_setFree, (hb.freeNodup d).mem_sdiff_iff]
    · rw [h.freeList_setFree_of_ne _ he]
      refine (and_iff_left_of_imp fun hq hqa => he ?_).symm
      exact some.inj ((hb.desc_of_block ha hqa ((hb.free e q).mp hq).1).trans hd)

end HeapBase

theorem slice_filled {m : Nat → Byte} {v : Byte} {k : Nat} (hpq : q + k ≤ p ∨ p + n ≤ q) :
    slice (patch m p (List.replicate n v)) q k = slice m q k :=
  slice_patch_of_disjoint (by rwa [length_replicate])

theorem free_big (hinv : HeapInv h live) (hp : p ∈ live) (ha : a ∈ h.arenas) (hpa : p ∈ a.blocks)
    (hd : a.desc = none) : wp (pallocFree a.addr a.freeCnt) (fun _ h' => Freed h h' live p) h := by
  have hb := hinv.toHeapBase
  have hblocks (q) : q ∈ a.blocks ↔ q = p := by
    rw [mem_blocks_of_none hd, (mem_blocks_of_none hd).mp hpa]
  have hcnt : a.pageCnt = a.freeCnt := by rw [Arena.pageCnt, hd]
  have hr : (a.addr, a.freeCnt) ∈ h.pages := hcnt ▸ hb.mem_pages ha
  refine wp_of_eq (pallocFree_eq hr) ⟨⟨hb.drop ha (hb.liveNodup.erase p) ?_ hb.freeNodup ?_, ?_⟩,
    ?_⟩
  · intro q
    rw [hb.liveNodup.mem_erase_iff, hblocks, and_comm]
  · intro e q
    rw [hblocks]
    refine (and_iff_left_of_imp fun hq (he : q = p) => ?_).symm
    exact ((hb.free e q).mp hq).2 (he ▸ hp)
  · exact fun x hx => hinv.used x (mem_remove.mp hx).1
  · intro q n _ hqp hq
    have hqa : q ∉ a.blocks := fun hn => hqp ((hblocks q).mp hn)
    exact ⟨hb.extent_removed ha rfl hq hqa, slice_filled (hcnt ▸ hb.extent_outside ha hq hqa)⟩

/-- The state after the writes to a block of a descriptor. -/
def Heap.returned (h : Heap) (a : Arena) (d p : Nat) : Heap :=
  { (h.setFree d (p :: h.freeList d)).recounted a.addr (a.freeCnt + 1) with
    mem := patch h.mem p (List.replicate (descAt d).blockSize 0xcc) }

/-- The arena's row after them. -/
def Arena.credited (a : Arena) : Arena := { a with freeCnt := a.freeCnt + 1 }

section Returned

variable (hinv : HeapInv h live) (hp : p ∈ live) (ha : a ∈ h.arenas) (hpa : p ∈ a.blocks)
  (hd : a.desc = some d)

include hinv ha

theorem mem_returned {y : Arena} (hy : y ∈ (h.returned a d p).arenas) :
    y = a.credited ∨ y ∈ h.arenas ∧ y.addr ≠ a.addr := by
  rcases mem_update hy with ⟨x, hx, hk, rfl⟩ | hy
  · rw [inj_on_of_nodup_map hinv.addr_nodup hx ha hk]
    exact .inl rfl
  · exact .inr hy

include hpa hd

theorem returned_keeps (q n) (hqp : q ≠ p) (hq : h.Extent q n) :
    (h.returned a d p).Extent q n ∧ slice (h.returned a d p).mem q n = slice h.mem q n := by
  have hsize : h.Extent p (descAt d).blockSize := ⟨a, ha, hpa, by rw [Arena.blockSize, hd]⟩
  exact ⟨hinv.extent_recounted ha hd hq, slice_filled (hinv.extents_apart hq hsize hqp)⟩

include hp

/-- The last block of an arena: all of them leave the free list, and the page is freed. -/
theorem free_last (hfull : a.freeCnt + 1 = (descAt d).blocksPerArena) :
    wp (removeBlocks d a.addr (descAt d).blocksPerArena >>= fun _ => pallocFree a.addr 1)
      (fun _ h' => Freed h h' live p) (h.returned a d p) := by
  have hput : HeapBase (h.returned a d p) (live.erase p) := hinv.put ha hd hpa hp
  have hrow : a.credited ∈ (h.returned a d p).arenas := mem_update_self ha
  have hcd : a.credited.desc = some d := hd
  have hblocks := blocks_eq hcd
  obtain ⟨h1, hh1⟩ : ∃ h1 : Heap, h1 = h.returned a d p := ⟨_, rfl⟩
  have hkeep := returned_keeps hinv ha hpa hd
  have hrest (y) (hy : y ∈ (h.returned a d p).arenas) := mem_returned hinv ha hy
  rw [← hh1] at hput hrow hkeep hrest ⊢
  have hok := hput.ok hrow
  obtain ⟨hdead, hbase⟩ := hput.dissolve
    (m := patch h1.mem a.addr (List.replicate (pgSize * 1) 0xcc)) hrow hcd hfull
  have hremove := removeBlocks_eq hok.pos (hput.lookup_eq hrow) hcd le_rfl
    (hblocks ▸ nodup_blocks hok.desc)
    (fun q hq => (hput.free d q).mpr ⟨⟨_, hrow, hcd, hblocks ▸ hq⟩, hdead q (hblocks ▸ hq)⟩)
  rw [← hblocks] at hremove
  have hr : (a.addr, 1) ∈ (h1.setFree d ((h1.freeList d).diff a.credited.blocks)).pages := by
    have := hput.mem_pages hrow
    rwa [Arena.pageCnt, hcd] at this
  refine wp_call hremove (wp_of_eq (pallocFree_eq hr) ⟨⟨hbase, ?_⟩, ?_⟩)
  · intro y hy e he
    obtain ⟨hy, hk⟩ := mem_remove.mp hy
    rcases hrest y hy with rfl | ⟨hy, -⟩
    · exact absurd rfl hk
    · exact hinv.used y hy e he
  · intro q n hql hqp hq
    obtain ⟨hext, hslice⟩ := hkeep q n hqp hq
    have hqa : q ∉ a.credited.blocks := fun hqa =>
      hdead q hqa (hinv.liveNodup.mem_erase_iff.mpr ⟨hqp, hql⟩)
    have hout := hput.extent_outside hrow hext hqa
    rw [Arena.pageCnt, hcd] at hout
    exact ⟨hput.extent_removed hrow rfl hext hqa, (slice_filled hout).trans hslice⟩

end Returned

/-- **`free`** of a live block: no assertion fails, and an arena whose blocks are all free goes back
to the page allocator. -/
theorem free_spec (hinv : HeapInv h live) (hp : p ∈ live) :
    wp (free (some p)) (fun _ h' => Freed h h' live p) h := by
  have hb := hinv.toHeapBase
  obtain ⟨e, a, ha, -, hpa⟩ := hb.liveBlock p hp
  unfold free
  refine wp_call (blockToArena_eq (hb.ok ha) (hb.lookup_eq ha) hpa) ?_
  cases hd : a.desc with
  | none => exact free_big hinv hp ha hpa hd
  | some d =>
    have hcnt := hinv.used a ha d hd
    refine wp_modify (wp_modify (wp_modify ?_))
    show wp _ _ (h.returned a d p)
    split
    · rename_i hfull
      have hfull : a.freeCnt + 1 = (descAt d).blocksPerArena := by omega
      exact wp_assert hfull (free_last hinv hp ha hpa hd hfull)
    · rename_i hfull
      refine wp_pure ⟨⟨hb.put ha hd hpa hp, ?_⟩,
        fun q n _ hqp hq => returned_keeps hinv ha hpa hd q n hqp hq⟩
      intro y hy e he
      rcases mem_returned hinv ha hy with rfl | ⟨hy, -⟩
      · obtain rfl := some.inj (hd.symm.trans he)
        exact Nat.lt_of_not_le hfull
      · exact hinv.used y hy e he

/-! ## Sizes -/

theorem HeapInv.withMem (hinv : HeapInv h live) (m : Nat → Byte) :
    HeapInv { h with mem := m } live :=
  ⟨⟨hinv.pages, hinv.page, hinv.apart, hinv.desc, hinv.liveNodup, hinv.liveBlock, hinv.big,
    hinv.freeNodup, hinv.free, hinv.count⟩, hinv.used⟩

theorem blockSize_eq (hb : HeapBase h live) (hp : h.Extent p n) : blockSize p h = some (n, h) := by
  obtain ⟨a, ha, hpa, rfl⟩ := hp
  have hok := hb.ok ha
  rw [blockSize, bind_eq (blockToArena_eq hok (hb.lookup_eq ha) hpa), Arena.blockSize]
  cases hd : a.desc with
  | none =>
    have hofs : pgOfs p = headerSize := by
      have := hok.aligned
      rw [(mem_blocks_of_none hd).mp hpa]
      unfold pgOfs pgSize headerSize at *
      omega
    show some (pgSize * a.freeCnt - pgOfs p, h) = _
    rw [hofs]
  | some d => rfl

/-- **The block is as long as the request, but for the last eleven sizes**, where the number of
pages wraps around to one. -/
theorem Granted.fits_iff (hg : Granted h h' live size p) (hsize : size < 2 ^ 32) :
    (∃ n, h'.Extent p n ∧ size ≤ n) ↔ size + 11 < 2 ^ 32 := by
  obtain ⟨a, ha, hpa, hdesc, hcnt⟩ := hg.block
  have hpages := (hg.inv.ok ha).pages
  have hext : (∃ n, h'.Extent p n ∧ size ≤ n) ↔ size ≤ a.blockSize := by
    constructor
    · rintro ⟨n, hn, hle⟩
      rwa [← hg.inv.extent_unique hn ⟨a, ha, hpa, rfl⟩]
    · exact fun hle => ⟨_, ⟨a, ha, hpa, rfl⟩, hle⟩
  rw [hext, Arena.blockSize]
  cases hd : a.desc with
  | some d =>
    have hfor := descFor_eq_some (hdesc.symm.trans hd)
    have hmax : (descAt d).blockSize ≤ 1024 := descAt_le d hfor.1
    exact iff_of_true hfor.2 (by omega)
  | none =>
    have hbig := descFor_eq_none (hdesc.symm.trans hd)
    have hpages : 0 < pagesFor size := by simpa only [Arena.pageCnt, hd, hcnt hd] using hpages
    show size ≤ pgSize * a.freeCnt - headerSize ↔ _
    rw [hcnt hd]
    unfold pagesFor headerSize pgSize at *
    omega

/-! ## `calloc` and `realloc` -/

/-- What a call that returned `p` for a request left. -/
structure Allotted (h' : Heap) (live : List Nat) (size p : Nat) : Prop where
  inv : HeapInv h' (p :: live)
  fits : ∃ n, h'.Extent p n ∧ size ≤ n

theorem calloc_spec {x y : Nat} (hinv : HeapInv h live) (hxy : x * y < 2 ^ 31)
    (hpage : PageOk page h (asked (x * y))) : wp (calloc page x y) (fun r h' =>
      match r with
      | some p => Allotted h' live (x * y) p
      | none => h' = h) h := by
  have hmod : x * y % 2 ^ 32 = x * y := Nat.mod_eq_of_lt (by omega)
  unfold calloc
  rw [hmod]
  show wp (if _ then _ else _) _ _
  split
  · exact wp_pure rfl
  · refine wp_bind (malloc_spec hinv hpage) fun r h' hr => ?_
    cases r with
    | none => exact wp_pure hr
    | some p =>
      refine wp_modify (wp_pure ⟨hr.inv.withMem _, ?_⟩)
      exact (hr.fits_iff (by omega)).mpr (by omega)

/-- What `realloc` left of an old block. -/
def Reallocated (h h' : Heap) (old size : Nat) : Option Nat → Prop
  | some new => ∀ n, h.Extent old n → slice h'.mem new (min n size) = slice h.mem old (min n size)
  | none => h' = h

theorem Reallocated.copied {m : Nat → Byte} {n : Nat} (hfreed : slice h'.mem p n = slice m p n)
    (hcopy : slice m p (min q size) = slice h.mem d (min q size)) (hn : min q size ≤ n) :
    slice h'.mem p (min q size) = slice h.mem d (min q size) := by
  have := congrArg (List.take (min q size)) hfreed
  rwa [take_slice, take_slice, Nat.min_eq_left hn, hcopy] at this

/-- **`realloc`** to a size that is not zero. -/
theorem realloc_spec {old : Nat} (hinv : HeapInv h live) (hold : old ∈ live) (hsize : size < 2 ^ 31)
    (hzero : size ≠ 0) (hpage : PageOk page h (asked size)) :
    wp (realloc page (some old) size) (fun r h' => Reallocated h h' old size r ∧
      ∀ p, r = some p → Allotted h' (live.erase old) size p) h := by
  unfold realloc
  rw [if_neg hzero]
  refine wp_bind (malloc_spec hinv hpage) fun r h1 hr => ?_
  cases r with
  | none => exact wp_pure ⟨hr, nofun⟩
  | some new =>
    obtain ⟨n, hn, hle⟩ := (hr.fits_iff (by omega)).mpr (by omega)
    obtain ⟨e, a, ha, -, hoa⟩ := hinv.liveBlock old hold
    have hext : h.Extent old a.blockSize := ⟨a, ha, hoa, rfl⟩
    have hnew : new ∉ live := (nodup_cons.mp hr.inv.liveNodup).1
    have hne : new ≠ old := fun he => hnew (he ▸ hold)
    have hmin : (if size < a.blockSize then size else a.blockSize) = min a.blockSize size := by
      split <;> omega
    refine wp_call (blockSize_eq hr.inv.toHeapBase (hr.keeps _ _ hext)) ?_
    rw [hmin]
    refine wp_modify (wp_bind (free_spec (hr.inv.withMem _) (mem_cons_of_mem _ hold)) ?_)
    intro _ h' hfreed
    have hinv' := hfreed.inv
    rw [erase_cons_tail (by simpa using hne)] at hinv'
    obtain ⟨hn', hslice⟩ := hfreed.keeps new n mem_cons_self hne hn
    refine wp_pure ⟨fun k hk => ?_, fun p hp => some.inj hp ▸ ⟨hinv', n, hn', hle⟩⟩
    obtain rfl := hinv.extent_unique hext hk
    refine Reallocated.copied hslice ?_ ((Nat.min_le_right _ _).trans hle)
    have hcopy := slice_patch_self h1.mem new (slice h1.mem old (min a.blockSize size))
    rw [length_slice] at hcopy
    exact hcopy.trans (congrArg (slice · old _) hr.mem)

/-! ## Sequences of calls -/

/-- A call of `malloc.c`. -/
inductive HeapCall where
  | malloc (size : Nat)
  | calloc (x y : Nat)
  | realloc (old : Option Nat) (size : Nat)
  | free (p : Option Nat)
  deriving DecidableEq

namespace HeapCall

/-- The call, where the page allocator has `page`. -/
def exec (page : Option Nat) : HeapCall → Panic Heap (Option Nat)
  | malloc size => Pintos.malloc page size
  | calloc x y => Pintos.calloc page x y
  | realloc old size => Pintos.realloc page old size
  | free p => do
    Pintos.free p
    return none

/-- The bytes asked for; for `calloc` the true product. -/
def request : HeapCall → Nat
  | malloc size => size
  | calloc x y => x * y
  | realloc _ size => size
  | free _ => 0

/-- The pointer passed. -/
def block : HeapCall → Option Nat
  | realloc old _ => old
  | free p => p
  | _ => none

/-- Whether the call frees its block. -/
def frees (r : Option Nat) : HeapCall → Prop
  | realloc _ size => size = 0 ∨ r ≠ none
  | free _ => True
  | _ => False

instance (r : Option Nat) : DecidablePred (frees r)
  | malloc _ => inferInstanceAs (Decidable False)
  | calloc _ _ => inferInstanceAs (Decidable False)
  | realloc _ size => inferInstanceAs (Decidable (size = 0 ∨ r ≠ none))
  | free _ => inferInstanceAs (Decidable True)

/-- The live blocks after a call that returned `r`. -/
def after (c : HeapCall) (r : Option Nat) (live : List Nat) : List Nat :=
  r.toList ++ if c.frees r then c.block.elim live live.erase else live

/-- A request below 2^31, and a pointer that is null or to a live block. -/
structure Valid (c : HeapCall) (page : Option Nat) (h : Heap) (live : List Nat) : Prop where
  request : c.request < 2 ^ 31
  block : ∀ p, c.block = some p → p ∈ live
  page : PageOk page h (asked c.request)

end HeapCall

/-- What sequences of calls reach; between two calls the owners write to their blocks. -/
inductive HeapRuns : Heap → List Nat → Prop
  | init (m : Nat → Byte) : HeapRuns ⟨m, [], [], fun _ => []⟩ []
  | call {h h' : Heap} {live : List Nat} {page r : Option Nat} {c : HeapCall} (hr : HeapRuns h live)
      (hv : c.Valid page h live) (he : c.exec page h = some (r, h')) : HeapRuns h' (c.after r live)
  | write {h : Heap} {live : List Nat} (hr : HeapRuns h live) (m : Nat → Byte)
      (hm : ∀ x, m x ≠ h.mem x → ∃ p ∈ live, ∃ n, h.Extent p n ∧ p ≤ x ∧ x < p + n) :
      HeapRuns { h with mem := m } live

/-- The invariant, with what follows for the blocks. -/
structure HeapOk (h : Heap) (live : List Nat) : Prop extends HeapInv h live where
  inside : ∀ p ∈ live, ∃ a ∈ h.arenas, p ∈ a.blocks ∧ a.addr + headerSize ≤ p ∧
    p + a.blockSize ≤ a.addr + pgSize * a.pageCnt
  disjoint : ∀ p ∈ live, ∀ q ∈ live, p ≠ q → ∀ m n, h.Extent p m → h.Extent q n →
    p + m ≤ q ∨ q + n ≤ p
  headers : ∀ p ∈ live, ∀ n, h.Extent p n → ∀ a ∈ h.arenas, a.addr + headerSize ≤ p ∨ p + n ≤ a.addr

theorem HeapInv.heapOk (hinv : HeapInv h live) : HeapOk h live where
  toHeapInv := hinv
  inside p hp := by
    obtain ⟨_, a, ha, -, hpa⟩ := hinv.liveBlock p hp
    have hin := (hinv.ok ha).inside hpa
    exact ⟨a, ha, hpa, hin.1, hin.2.1⟩
  disjoint _ _ _ _ hne _ _ hp hq := hinv.extents_apart hp hq hne
  headers _ _ _ hp _ ha := hinv.extent_header hp ha

/-- What a call leaves. -/
structure Served (c : HeapCall) (h h' : Heap) (live : List Nat) (r : Option Nat) : Prop where
  inv : HeapInv h' (c.after r live)
  fits : ∀ p, r = some p → ∃ n, h'.Extent p n ∧ c.request ≤ n
  kept : ∀ old size, c = .realloc (some old) size → size ≠ 0 → Reallocated h h' old size r

theorem Allotted.served {c : HeapCall} (hp : Allotted h' (if c.frees (some p) then
    c.block.elim live live.erase else live) c.request p)
    (hkept : ∀ old size, c = .realloc (some old) size → size ≠ 0 →
      Reallocated h h' old size (some p)) :
    Served c h h' live (some p) :=
  ⟨hp.inv, fun _ he => some.inj he ▸ hp.fits, hkept⟩

theorem served_of_alloc {c : HeapCall} {r : Option Nat} (hinv : HeapInv h live)
    (hblock : c.block = none) (hr : match r with
      | some p => Allotted h' live c.request p
      | none => h' = h) : Served c h h' live r := by
  have hsame (r : Option Nat) :
      (if c.frees r then c.block.elim live live.erase else live) = live := by
    rw [hblock]
    exact ite_self _
  have hkept (old size) (hc : c = .realloc (some old) size) : Reallocated h h' old size r := by
    subst hc
    cases hblock
  cases r with
  | none =>
    refine ⟨?_, nofun, fun old size hc _ => hkept old size hc⟩
    rw [HeapCall.after, hsame, hr]
    exact hinv
  | some p =>
    refine Allotted.served ?_ fun old size hc _ => hkept old size hc
    rw [hsame]
    exact hr

theorem Granted.allotted (hg : Granted h h' live size p) (hsize : size < 2 ^ 31) :
    Allotted h' live size p := ⟨hg.inv, (hg.fits_iff (by omega)).mpr (by omega)⟩

theorem Freed.served {c : HeapCall} (hf : Freed h h' live p) (hblock : c.block = some p)
    (hc : c.frees none) (hzero : c.request = 0) : Served c h h' live none := by
  refine ⟨?_, nofun, ?_⟩
  · rw [HeapCall.after, if_pos hc, hblock]
    exact hf.inv
  · rintro old size rfl hsize
    exact absurd hzero hsize

theorem malloc_served {c : HeapCall} (hinv : HeapInv h live) (hblock : c.block = none)
    (hsize : c.request < 2 ^ 31) (hpage : PageOk page h (asked c.request)) :
    wp (malloc page c.request) (fun r h' => Served c h h' live r) h := by
  refine wp_mono (malloc_spec hinv hpage) fun r h' hr => served_of_alloc hinv hblock ?_
  cases r with
  | none => exact hr
  | some p => exact hr.allotted hsize

theorem realloc_served {old : Option Nat} (hinv : HeapInv h live)
    (hblock : ∀ p, old = some p → p ∈ live) (hsize : size < 2 ^ 31)
    (hpage : PageOk page h (asked size)) :
    wp (realloc page old size) (fun r h' => Served (.realloc old size) h h' live r) h := by
  cases old with
  | none =>
    unfold realloc
    split
    · exact wp_call rfl (wp_pure (served_of_alloc hinv rfl rfl))
    · refine wp_bind (malloc_served (c := .realloc none size) hinv rfl hsize hpage) ?_
      exact fun r h' hr => wp_pure hr
  | some p =>
    by_cases hzero : size = 0
    · subst hzero
      refine wp_bind (free_spec hinv (hblock p rfl)) fun _ h' hf => wp_pure ?_
      exact hf.served rfl (.inl rfl) rfl
    · refine wp_mono (realloc_spec hinv (hblock p rfl) hsize hzero hpage) ?_
      rintro r h' ⟨hkept, hr⟩
      have hkept' (old size') (hc : HeapCall.realloc (some p) size = .realloc (some old) size') :
          Reallocated h h' old size' r := by
        cases hc
        exact hkept
      cases r with
      | none =>
        have hstill : ¬HeapCall.frees none (.realloc (some p) size) :=
          not_or.mpr ⟨hzero, not_not.mpr rfl⟩
        refine ⟨?_, nofun, fun old size' hc _ => hkept' old size' hc⟩
        rw [HeapCall.after, if_neg hstill, show h' = h from hkept]
        exact hinv
      | some new =>
        have hgone : HeapCall.frees (some new) (.realloc (some p) size) :=
          .inr (Option.some_ne_none new)
        refine Allotted.served ?_ fun old size' hc _ => hkept' old size' hc
        rw [if_pos hgone]
        exact hr new rfl

/-- **Every valid call returns**, and keeps the invariant. -/
theorem HeapCall.exec_spec {c : HeapCall} (hinv : HeapInv h live) (hv : c.Valid page h live) :
    wp (c.exec page) (fun r h' => Served c h h' live r) h := by
  obtain ⟨hsize, hblock, hpage⟩ := hv
  have hskip {c : HeapCall} (hc : c.block = none) : Served c h h live none :=
    served_of_alloc hinv hc rfl
  cases c with
  | malloc size => exact malloc_served hinv rfl hsize hpage
  | calloc x y =>
    exact wp_mono (calloc_spec hinv hsize hpage) fun r h' hr => served_of_alloc hinv rfl hr
  | free p =>
    cases p with
    | none => exact wp_call rfl (wp_pure (hskip rfl))
    | some p =>
      refine wp_bind (free_spec hinv (hblock p rfl)) fun _ h' hf => wp_pure ?_
      exact hf.served rfl trivial rfl
  | realloc old size => exact realloc_served hinv hblock hsize hpage

theorem HeapInv.init (m : Nat → Byte) : HeapInv ⟨m, [], [], fun _ => []⟩ [] := by
  refine ⟨⟨rfl, ?_, .nil, ?_, .nil, ?_, ?_, fun _ => .nil, ?_, ?_⟩, ?_⟩
  all_goals simp [Heap.Block]

theorem HeapRuns.heapInv (hr : HeapRuns h live) : HeapInv h live := by
  induction hr with
  | init m => exact HeapInv.init m
  | call _ hv he ih => exact (of_wp (HeapCall.exec_spec ih hv) he).inv
  | write _ m _ ih => exact ih.withMem m

/-- **The kernel heap**: after every sequence of calls the live blocks are disjoint and inside their
arenas, the free lists and the counts are right, and every next call returns. -/
theorem kernel_heap (hr : HeapRuns h live) : HeapOk h live ∧
    ∀ (page : Option Nat) (c : HeapCall), c.Valid page h live →
      ∃ r h', c.exec page h = some (r, h') ∧ Served c h h' live r :=
  ⟨hr.heapInv.heapOk, fun _ _ hv => HeapCall.exec_spec hr.heapInv hv⟩

/-- The heap before the first call, in memory full of zeros. -/
def emptyHeap : Heap := ⟨fun _ => 0, [], [], fun _ => []⟩

theorem pageOk_some {k cnt : Nat}
    (hk : pgOfs k = 0 ∧ 0 < k ∧ ∀ r ∈ h.pages, PagesApart (k, cnt) r) :
    PageOk (some k) h cnt := fun _ he => some.inj he ▸ hk

/-- A block of a kilobyte grows to two pages; its arena goes back. -/
theorem kernel_heap_grown : ∃ h h' : Heap, HeapRuns h [0xc000100c] ∧
    HeapCall.Valid (.realloc (some 0xc000100c) 5000) (some 0xc0002000) h [0xc000100c] ∧
    HeapCall.exec (some 0xc0002000) (.realloc (some 0xc000100c) 5000) h =
      some (some 0xc000200c, h') ∧
    h'.pages = [(0xc0002000, 2)] ∧ HeapOk h' [0xc000200c] := by
  have hv : HeapCall.Valid (.malloc 1024) (some 0xc0001000) emptyHeap [] :=
    ⟨by decide, nofun,
      pageOk_some ⟨by decide, by decide, nofun⟩⟩
  have hr : HeapRuns _ [0xc000100c] := .call (.init fun _ => 0) hv rfl
  have hv' (h1 : Heap) (hp : h1.pages = [(0xc0001000, 1)]) :
      HeapCall.Valid (.realloc (some 0xc000100c) 5000) (some 0xc0002000) h1 [0xc000100c] := by
    refine ⟨by decide, fun _ he => some.inj he ▸ mem_singleton_self _, pageOk_some ?_⟩
    rw [hp]
    exact ⟨by decide, by decide, forall_mem_singleton.mpr (.inr (by decide))⟩
  exact ⟨_, _, hr, hv' _ rfl, rfl, rfl, (kernel_heap (hr.call (hv' _ rfl) rfl)).1⟩

/-! ## Blocks and requests -/

/-- **The block that `malloc` returns is as long as the request** exactly if the size is not one of
the last eleven. -/
theorem malloc_fits_iff (hinv : HeapInv h live) (hsize : size < 2 ^ 32)
    (hpage : PageOk page h (asked size)) (hm : malloc page size h = some (some p, h')) :
    (∃ n, h'.Extent p n ∧ size ≤ n) ↔ size + 11 < 2 ^ 32 :=
  (of_wp (malloc_spec hinv hpage) hm).fits_iff hsize

theorem malloc_fits_two_pages : ∃ h',
    malloc (some 0xc0001000) 5000 emptyHeap = some (some 0xc000100c, h') ∧
    ∃ n, h'.Extent 0xc000100c n ∧ 5000 ≤ n := by
  have hpage : PageOk (some 0xc0001000) emptyHeap (asked 5000) :=
    pageOk_some ⟨by decide, by decide, nofun⟩
  exact ⟨_, rfl, (malloc_fits_iff (HeapInv.init _) (by decide) hpage rfl).mpr (by decide)⟩

/-- `malloc(SIZE_MAX)` returns a block in one page. -/
theorem malloc_size_max : ∃ h',
    malloc (some 0xc0001000) 0xffffffff emptyHeap = some (some 0xc000100c, h') ∧
    h'.pages = [(0xc0001000, 1)] ∧ ∀ n, h'.Extent 0xc000100c n → n = 4084 := by
  refine ⟨_, rfl, rfl, ?_⟩
  rintro n ⟨a, ha, -, rfl⟩
  rw [mem_singleton.mp ha]
  rfl

/-- **The block that `calloc` returns has room for the product of its arguments**, and that many
zeros in it, exactly if the product is not above the last eleven sizes. -/
theorem calloc_fits_iff {x y : Nat} (hinv : HeapInv h live)
    (hpage : PageOk page h (asked (x * y % 2 ^ 32))) (hc : calloc page x y h = some (some p, h')) :
    (x * y < 2 ^ 32 ∧ ∃ n, h'.Extent p n ∧ x * y ≤ n ∧
      slice h'.mem p (x * y) = List.replicate (x * y) 0) ↔ x * y + 11 < 2 ^ 32 := by
  have hspec : wp (calloc page x y) (fun r h' => ∀ p, r = some p →
      ∃ h₁, Granted h h₁ live (x * y % 2 ^ 32) p ∧
        h' = { h₁ with mem := patch h₁.mem p (List.replicate (x * y % 2 ^ 32) 0) }) h := by
    unfold calloc
    show wp (if _ then _ else _) _ _
    split
    · exact wp_pure nofun
    · refine wp_bind (malloc_spec hinv hpage) fun r h₁ hr => ?_
      cases r with
      | none => exact wp_pure nofun
      | some q => exact wp_modify (wp_pure fun p he => some.inj he ▸ ⟨h₁, hr, rfl⟩)
  obtain ⟨h₁, hg, rfl⟩ := of_wp hspec hc p rfl
  by_cases hlt : x * y < 2 ^ 32
  · rw [Nat.mod_eq_of_lt hlt] at hg ⊢
    rw [← hg.fits_iff hlt]
    constructor
    · rintro ⟨-, n, hn, hle, -⟩
      exact ⟨n, hn, hle⟩
    · rintro ⟨n, hn, hle⟩
      have hzero := slice_patch_self h₁.mem p (List.replicate (x * y) (0 : Byte))
      rw [length_replicate] at hzero
      exact ⟨hlt, n, hn, hle, hzero⟩
  · exact iff_of_false (fun h => hlt h.1) (by omega)

theorem calloc_fits_two_pages : ∃ h',
    calloc (some 0xc0001000) 50 100 emptyHeap = some (some 0xc000100c, h') ∧
    ∃ n, h'.Extent 0xc000100c n ∧ 5000 ≤ n ∧
      slice h'.mem 0xc000100c 5000 = List.replicate 5000 0 := by
  have hpage : PageOk (some 0xc0001000) emptyHeap (asked (50 * 100 % 2 ^ 32)) :=
    pageOk_some ⟨by decide, by decide, nofun⟩
  exact ⟨_, rfl, ((calloc_fits_iff (HeapInv.init _) hpage rfl).mpr (by decide)).2⟩

/-- The product of 65537 and 65537 wraps around to 131073, which is below neither: `calloc` returns
a block in 33 pages. -/
theorem calloc_wraps : ∃ h',
    calloc (some 0xc0001000) 65537 65537 emptyHeap = some (some 0xc000100c, h') ∧
    h'.pages = [(0xc0001000, 33)] ∧ (∀ n, h'.Extent 0xc000100c n → n = 135156) ∧
    2 ^ 32 ≤ 65537 * 65537 := by
  refine ⟨_, rfl, rfl, ?_, by decide⟩
  rintro n ⟨a, ha, -, rfl⟩
  rw [mem_singleton.mp ha]
  rfl

end SystemProg.Pintos
