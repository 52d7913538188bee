import Mathlib.Data.List.Pairwise
import SystemProg.Data.Keyed
import SystemProg.Pintos.Palloc

/-!
# The kernel heap

Model of `threads/malloc.c`. A page that holds blocks, or the first page of a big block, is an
*arena*: it starts with a header of 12 bytes. The headers are a table here, `arenas`; that the magic
number is at the start of a page is that the table has a row for the page. Free lists are lists
of addresses; the links in the free blocks are not modelled, nor are the locks of the descriptors.
Owners write to live blocks only (`HeapRuns`), which are clear of both (`HeapOk`).

What the page allocator returns is an argument, `page`: `none` for a null pointer. `pages` are the
pages it has given out, each run with its length. `size_t` has 32 bits.

* `HeapInv` is the invariant: each block of an arena is live or on the free list of the arena's
  descriptor, and the counts agree.
-/

namespace SystemProg.Pintos

open Data Text SystemProg.Seq List

/-! ## Descriptors and arenas -/

/-- `pg_round_down`. -/
def pgRoundDown (va : Nat) : Nat := va - va % pgSize

/-- `sizeof(struct arena)`. -/
def headerSize : Nat := 12

/-- `struct desc`. -/
structure Desc where
  blockSize : Nat
  blocksPerArena : Nat
  deriving DecidableEq

/-- The loop of `malloc_init`; `none` if its assertion fails: the array has room for 10
descriptors. -/
def mallocInit : (turns blockSize : Nat) → (descs : List Desc) → Option (List Desc)
  | 0, _, _ => none
  | turns + 1, blockSize, descs =>
    if blockSize < pgSize / 2 then
      if descs.length + 1 ≤ 10 then
        mallocInit turns (blockSize * 2)
          (descs ++ [⟨blockSize, (pgSize - headerSize) / blockSize⟩])
      else none
    else some descs

/-- `descs[0..desc_cnt)`. -/
def descs : List Desc := (mallocInit 11 16 []).getD []

theorem mallocInit_eq : mallocInit 11 16 [] = some descs := by decide

/-- `descs[d]`. -/
def descAt (d : Nat) : Desc := descs.getD d ⟨0, 0⟩

/-- `struct arena`, at `addr`; `desc` is an index, `none` for a big block. -/
structure Arena where
  addr : Nat
  desc : Option Nat
  freeCnt : Nat
  deriving DecidableEq

/-- The state of the heap. -/
structure Heap where
  mem : Nat → Byte
  pages : List (Nat × Nat)
  arenas : List Arena
  freeList : Nat → List Nat

/-! ## Memory -/

/-- `memset`. -/
def memset (p : Nat) (value : Byte) (size : Nat) : Panic Heap Unit :=
  modify fun h => { h with mem := patch h.mem p (List.replicate size value) }

/-- `memcpy`. -/
def memcpy (dst src size : Nat) : Panic Heap Unit :=
  modify fun h => { h with mem := patch h.mem dst (slice h.mem src size) }

/-- `palloc_get_multiple`, where the page allocator has `page`. -/
def pallocGet (page : Option Nat) (pageCnt : Nat) : Panic Heap (Option Nat) := do
  if pageCnt = 0 then return none
  match page with
  | some a =>
    modify fun h => { h with pages := (a, pageCnt) :: h.pages }
    return some a
  | none => return none

/-- `palloc_free_multiple`; the pages are overwritten, with the header. -/
def pallocFree (a pageCnt : Nat) : Panic Heap Unit := do
  let h ← get
  assert ((a, pageCnt) ∈ h.pages)
  set { h with
    mem := patch h.mem a (List.replicate (pgSize * pageCnt) 0xcc)
    pages := remove Prod.fst h.pages a
    arenas := remove Arena.addr h.arenas a }

/-! ## Blocks and arenas -/

/-- A write to a free list. -/
def Heap.setFree (h : Heap) (d : Nat) (l : List Nat) : Heap :=
  { h with freeList := fun j => if j = d then l else h.freeList j }

/-- A write to `a->free_cnt`. -/
def setFreeCnt (a cnt : Nat) : Panic Heap Unit :=
  modify fun h =>
    { h with arenas := update Arena.addr h.arenas a fun x => { x with freeCnt := cnt } }

/-- `*a`, with the assertions on `a`. -/
def arenaAt (a : Nat) : Panic Heap Arena := do
  assert (a ≠ 0)
  let h ← get
  match lookup Arena.addr h.arenas a with
  | some a => return a
  | none => abort

/-- `pg_ofs(b) - sizeof *a`. -/
def blockOfs (b : Nat) : Nat := (pgOfs b + 2 ^ 32 - headerSize) % 2 ^ 32

/-- `block_to_arena`. -/
def blockToArena (b : Nat) : Panic Heap Arena := do
  let a ← arenaAt (pgRoundDown b)
  match a.desc with
  | some d => assert (blockOfs b % (descAt d).blockSize = 0)
  | none => assert (pgOfs b = headerSize)
  return a

/-- `arena_to_block`. -/
def arenaToBlock (a idx : Nat) : Panic Heap Nat := do
  let x ← arenaAt a
  match x.desc with
  | some d =>
    assert (idx < (descAt d).blocksPerArena)
    return a + headerSize + idx * (descAt d).blockSize
  | none => abort

/-! ## `malloc` -/

/-- The loop of `malloc` that adds the blocks of an arena to the free list. -/
def pushBlocks (d a : Nat) : (cnt : Nat) → Panic Heap Unit
  | 0 => return ()
  | cnt + 1 => do
    pushBlocks d a cnt
    let b ← arenaToBlock a cnt
    modify fun h => h.setFree d (h.freeList d ++ [b])

/-- A new arena; `false` if there is no page. -/
def newArena (page : Option Nat) (d : Nat) : Panic Heap Bool := do
  match ← pallocGet page 1 with
  | some a =>
    modify fun h => { h with arenas := ⟨a, some d, (descAt d).blocksPerArena⟩ :: h.arenas }
    pushBlocks d a (descAt d).blocksPerArena
    return true
  | none => return false

/-- `list_pop_front`, and the count of the arena. -/
def takeBlock (d : Nat) : Panic Heap Nat := do
  let h ← get
  match h.freeList d with
  | [] => abort
  | b :: rest =>
    set (h.setFree d rest)
    let a ← blockToArena b
    setFreeCnt a.addr (a.freeCnt - 1)
    return b

/-- `DIV_ROUND_UP(size + sizeof *a, PGSIZE)`. -/
def pagesFor (size : Nat) : Nat := (size + headerSize + pgSize - 1) % 2 ^ 32 / pgSize

/-- `malloc` of a block that is too big for any descriptor. -/
def mallocBig (page : Option Nat) (size : Nat) : Panic Heap (Option Nat) := do
  match ← pallocGet page (pagesFor size) with
  | some a =>
    modify fun h => { h with arenas := ⟨a, none, pagesFor size⟩ :: h.arenas }
    return some (a + headerSize)
  | none => return none

/-- The smallest descriptor for a block of `size` bytes. -/
def descFor (size : Nat) : Option Nat := descs.findIdx? fun d => size ≤ d.blockSize

/-- `malloc`. -/
def malloc (page : Option Nat) (size : Nat) : Panic Heap (Option Nat) := do
  if size = 0 then return none
  match descFor size with
  | some d =>
    let h ← get
    if h.freeList d = [] then
      if !(← newArena page d) then return none
    let b ← takeBlock d
    return some b
  | none => mallocBig page size

/-- `calloc`. -/
def calloc (page : Option Nat) (a b : Nat) : Panic Heap (Option Nat) := do
  let size := a * b % 2 ^ 32
  if size < a ∨ size < b then return none
  let p ← malloc page size
  match p with
  | some p => memset p 0 size
  | none => pure ()
  return p

/-! ## `free` and `realloc` -/

/-- The size of the blocks of an arena. -/
def Arena.blockSize (a : Arena) : Nat :=
  match a.desc with
  | some d => (descAt d).blockSize
  | none => pgSize * a.freeCnt - headerSize

/-- `block_size`. -/
def blockSize (block : Nat) : Panic Heap Nat := do
  let a ← blockToArena block
  match a.desc with
  | some d => return (descAt d).blockSize
  | none => return pgSize * a.freeCnt - pgOfs block

/-- The loop of `free` that takes the blocks of an arena off the free list. -/
def removeBlocks (d a : Nat) : (cnt : Nat) → Panic Heap Unit
  | 0 => return ()
  | cnt + 1 => do
    removeBlocks d a cnt
    let b ← arenaToBlock a cnt
    let h ← get
    assert (b ∈ h.freeList d)
    set (h.setFree d ((h.freeList d).erase b))

/-- `free`. -/
def free : (p : Option Nat) → Panic Heap Unit
  | some b => do
    let a ← blockToArena b
    match a.desc with
    | some d =>
      memset b 0xcc (descAt d).blockSize
      modify fun h => h.setFree d (b :: h.freeList d)
      setFreeCnt a.addr (a.freeCnt + 1)
      if (descAt d).blocksPerArena ≤ a.freeCnt + 1 then
        assert (a.freeCnt + 1 = (descAt d).blocksPerArena)
        removeBlocks d a.addr (descAt d).blocksPerArena
        pallocFree a.addr 1
    | none => pallocFree a.addr a.freeCnt
  | none => return ()

/-- `realloc`. -/
def realloc (page oldBlock : Option Nat) (newSize : Nat) : Panic Heap (Option Nat) := do
  if newSize = 0 then
    free oldBlock
    return none
  let newBlock ← malloc page newSize
  match oldBlock, newBlock with
  | some old, some new =>
    let oldSize ← blockSize old
    memcpy new old (if newSize < oldSize then newSize else oldSize)
    free (some old)
  | _, _ => pure ()
  return newBlock

/-! ## The invariant -/

/-- The blocks of an arena. -/
def Arena.blocks (a : Arena) : List Nat :=
  match a.desc with
  | some d =>
    (List.range (descAt d).blocksPerArena).map fun i =>
      a.addr + headerSize + i * (descAt d).blockSize
  | none => [a.addr + headerSize]

/-- The pages of an arena. -/
def Arena.pageCnt (a : Arena) : Nat :=
  match a.desc with
  | some _ => 1
  | none => a.freeCnt

/-- `p` is a block of an arena of a descriptor. -/
def Heap.Block (h : Heap) (d : Option Nat) (p : Nat) : Prop :=
  ∃ a ∈ h.arenas, a.desc = d ∧ p ∈ a.blocks

/-- Two runs of pages. -/
def PagesApart (r s : Nat × Nat) : Prop := r.1 + pgSize * r.2 ≤ s.1 ∨ s.1 + pgSize * s.2 ≤ r.1

/-- The invariant, also while `malloc` is filling an arena. -/
structure HeapBase (h : Heap) (live : List Nat) : Prop where
  pages : h.pages = h.arenas.map fun a => (a.addr, a.pageCnt)
  page : ∀ r ∈ h.pages, pgOfs r.1 = 0 ∧ 0 < r.1 ∧ 0 < r.2
  apart : h.pages.Pairwise PagesApart
  desc : ∀ a ∈ h.arenas, ∀ d, a.desc = some d → d < descs.length
  liveNodup : live.Nodup
  liveBlock : ∀ p ∈ live, ∃ d, h.Block d p
  big : ∀ p, h.Block none p → p ∈ live
  freeNodup : ∀ d, (h.freeList d).Nodup
  free : ∀ d p, p ∈ h.freeList d ↔ h.Block (some d) p ∧ p ∉ live
  count : ∀ a ∈ h.arenas, ∀ d, a.desc = some d → a.freeCnt = a.blocks.countP (· ∉ live)

/-- **The invariant** between two calls. -/
structure HeapInv (h : Heap) (live : List Nat) : Prop extends HeapBase h live where
  used : ∀ a ∈ h.arenas, ∀ d, a.desc = some d → a.freeCnt < (descAt d).blocksPerArena

variable {h h' : Heap} {live : List Nat} {page : Option Nat} {a b : Arena} {d n p q size : Nat}

/-! ## Where blocks are -/

theorem desc_ok : ∀ d, d < descs.length → 16 ≤ (descAt d).blockSize ∧
    3 ≤ (descAt d).blocksPerArena ∧
    headerSize + (descAt d).blocksPerArena * (descAt d).blockSize ≤ pgSize := by decide

theorem descAt_le : ∀ d, d < descs.length → (descAt d).blockSize ≤ 1024 := by decide

theorem descFor_eq_some (h : descFor size = some d) :
    d < descs.length ∧ size ≤ (descAt d).blockSize := by
  obtain ⟨hd, hsize, -⟩ := findIdx?_eq_some_iff_getElem.mp h
  refine ⟨hd, ?_⟩
  rw [descAt, getD_eq_getElem _ _ hd]
  exact of_decide_eq_true hsize

theorem descFor_eq_none (h : descFor size = none) : 1024 < size := by
  have := findIdx?_eq_none_iff.mp h ⟨1024, 3⟩ (by decide)
  simpa using this

theorem mem_blocks_of_desc (hd : a.desc = some d) : p ∈ a.blocks ↔
    ∃ i, i < (descAt d).blocksPerArena ∧ a.addr + headerSize + i * (descAt d).blockSize = p := by
  rw [Arena.blocks, hd, mem_map]
  simp only [mem_range]

theorem mem_blocks_of_none (hd : a.desc = none) : p ∈ a.blocks ↔ p = a.addr + headerSize := by
  rw [Arena.blocks, hd, mem_singleton]

theorem length_blocks (hd : a.desc = some d) : a.blocks.length = (descAt d).blocksPerArena := by
  rw [Arena.blocks, hd, length_map, length_range]

theorem blocks_ne_nil {x : Arena} (hx : x.desc = some d) (hd : d < descs.length) :
    x.blocks ≠ [] := by
  intro he
  have hlen := length_blocks hx
  have := (desc_ok d hd).2.1
  rw [he, length_nil] at hlen
  omega

theorem blocks_apart (hd : a.desc = some d) (hp : p ∈ a.blocks) (hq : q ∈ a.blocks) (hne : p ≠ q) :
    p + (descAt d).blockSize ≤ q ∨ q + (descAt d).blockSize ≤ p := by
  obtain ⟨i, -, rfl⟩ := (mem_blocks_of_desc hd).mp hp
  obtain ⟨j, -, rfl⟩ := (mem_blocks_of_desc hd).mp hq
  rcases Nat.lt_trichotomy i j with hij | rfl | hij
  · have := Nat.mul_le_mul_right (descAt d).blockSize hij
    rw [Nat.succ_mul] at this
    exact .inl (by omega)
  · exact absurd rfl hne
  · have := Nat.mul_le_mul_right (descAt d).blockSize hij
    rw [Nat.succ_mul] at this
    exact .inr (by omega)

theorem nodup_blocks (hok : ∀ d, a.desc = some d → d < descs.length) : a.blocks.Nodup := by
  cases hd : a.desc with
  | none =>
    rw [Arena.blocks, hd]
    exact nodup_singleton _
  | some d =>
    have hpos := (desc_ok d (hok d hd)).1
    rw [Arena.blocks, hd]
    refine nodup_range.map_on fun i _ j _ he => ?_
    exact Nat.eq_of_mul_eq_mul_right (by omega) (Nat.add_left_cancel he)

/-- What a well-formed arena is. -/
structure Arena.Ok (a : Arena) : Prop where
  aligned : pgOfs a.addr = 0
  pos : 0 < a.addr
  pages : 0 < a.pageCnt
  desc : ∀ d, a.desc = some d → d < descs.length

/-- **A block is inside its arena**, clear of the header, in the first page. -/
theorem Arena.Ok.inside (ha : a.Ok) (hp : p ∈ a.blocks) : a.addr + headerSize ≤ p ∧
    p + a.blockSize ≤ a.addr + pgSize * a.pageCnt ∧ p < a.addr + pgSize := by
  cases hd : a.desc with
  | none =>
    obtain rfl := (mem_blocks_of_none hd).mp hp
    have hpages := ha.pages
    rw [Arena.pageCnt, hd] at hpages ⊢
    rw [Arena.blockSize, hd]
    dsimp only at *
    unfold headerSize pgSize
    omega
  | some d =>
    obtain ⟨i, hi, rfl⟩ := (mem_blocks_of_desc hd).mp hp
    obtain ⟨h1, h2, h3⟩ := desc_ok d (ha.desc d hd)
    have hmul := Nat.mul_le_mul_right (descAt d).blockSize hi
    rw [Nat.succ_mul] at hmul
    rw [Arena.pageCnt, Arena.blockSize, hd]
    dsimp only
    omega

theorem Arena.Ok.pgRoundDown_eq (ha : a.Ok) (hp : p ∈ a.blocks) : pgRoundDown p = a.addr := by
  obtain ⟨h1, -, h2⟩ := ha.inside hp
  have := ha.aligned
  unfold pgRoundDown pgOfs pgSize headerSize at *
  omega

theorem arenaAt_eq (hpos : 0 < a.addr) (ha : lookup Arena.addr h.arenas a.addr = some a) :
    arenaAt a.addr h = some (a, h) := by
  rw [arenaAt, bind_eq (assert_eq (Nat.ne_of_gt hpos)), get_bind, ha]
  rfl

theorem arenaToBlock_eq (hpos : 0 < a.addr) (ha : lookup Arena.addr h.arenas a.addr = some a)
    (hd : a.desc = some d) (hn : n < (descAt d).blocksPerArena) :
    arenaToBlock a.addr n h = some (a.addr + headerSize + n * (descAt d).blockSize, h) := by
  rw [arenaToBlock, bind_eq (arenaAt_eq hpos ha), hd]
  exact bind_eq (assert_eq hn)

/-- **`block_to_arena`**: its assertions hold for every block. -/
theorem blockToArena_eq (hok : a.Ok) (ha : lookup Arena.addr h.arenas a.addr = some a)
    (hp : p ∈ a.blocks) : blockToArena p h = some (a, h) := by
  have hofs : pgOfs p = p - a.addr := by
    obtain ⟨h1, -, h2⟩ := hok.inside hp
    have := hok.aligned
    unfold pgOfs pgSize headerSize at *
    omega
  rw [blockToArena, hok.pgRoundDown_eq hp, bind_eq (arenaAt_eq hok.pos ha)]
  cases hd : a.desc with
  | none =>
    obtain rfl := (mem_blocks_of_none hd).mp hp
    exact bind_eq (assert_eq (by rw [hofs]; omega))
  | some d =>
    have hblock : blockOfs p % (descAt d).blockSize = 0 := by
      obtain ⟨i, hi, rfl⟩ := (mem_blocks_of_desc hd).mp hp
      obtain ⟨-, -, h3⟩ := desc_ok d (hok.desc d hd)
      have hmul := Nat.mul_le_mul_right (descAt d).blockSize (Nat.le_of_lt hi)
      have hsub : (i * (descAt d).blockSize + 2 ^ 32) % 2 ^ 32 = i * (descAt d).blockSize := by
        rw [Nat.add_mod_right, Nat.mod_eq_of_lt]
        unfold pgSize headerSize at h3
        omega
      have : pgOfs (a.addr + headerSize + i * (descAt d).blockSize) + 2 ^ 32 - headerSize =
          i * (descAt d).blockSize + 2 ^ 32 := by
        rw [hofs]
        omega
      rw [blockOfs, this, hsub, Nat.mul_mod_left]
    exact bind_eq (assert_eq hblock)

namespace HeapBase

variable (hb : HeapBase h live)

include hb

theorem mem_pages (ha : a ∈ h.arenas) : (a.addr, a.pageCnt) ∈ h.pages :=
  hb.pages ▸ mem_map_of_mem ha

theorem ok (ha : a ∈ h.arenas) : a.Ok := by
  obtain ⟨h1, h2, h3⟩ := hb.page _ (hb.mem_pages ha)
  exact ⟨h1, h2, h3, hb.desc a ha⟩

theorem arenas_apart :
    h.arenas.Pairwise fun a b => PagesApart (a.addr, a.pageCnt) (b.addr, b.pageCnt) := by
  have := hb.apart
  rwa [hb.pages, pairwise_map] at this

theorem addr_nodup : (h.arenas.map Arena.addr).Nodup := by
  rw [List.Nodup, pairwise_map]
  refine hb.arenas_apart.imp_of_mem fun {a b} ha hb' hab he => ?_
  have h1 := (hb.ok ha).pages
  have h2 := (hb.ok hb').pages
  unfold PagesApart pgSize at hab
  dsimp only at hab
  omega

theorem lookup_eq (ha : a ∈ h.arenas) : lookup Arena.addr h.arenas a.addr = some a :=
  lookup_of_mem hb.addr_nodup ha

theorem arena_unique (ha : a ∈ h.arenas) (hb' : b ∈ h.arenas) (hp : p ∈ a.blocks)
    (hq : p ∈ b.blocks) : a = b :=
  inj_on_of_nodup_map hb.addr_nodup ha hb'
    (((hb.ok ha).pgRoundDown_eq hp).symm.trans ((hb.ok hb').pgRoundDown_eq hq))

end HeapBase

theorem HeapBase.desc_of_block {e : Option Nat} (hb : HeapBase h live) (ha : a ∈ h.arenas)
    (hp : p ∈ a.blocks) (he : h.Block e p) : e = a.desc := by
  obtain ⟨x, hx, rfl, hpx⟩ := he
  rw [hb.arena_unique hx ha hpx hp]

/-! ## Free lists -/

theorem Heap.freeList_setFree (h : Heap) (d : Nat) (l : List Nat) :
    (h.setFree d l).freeList d = l := if_pos rfl

theorem Heap.freeList_setFree_of_ne {e : Nat} (h : Heap) (l : List Nat) (he : e ≠ d) :
    (h.setFree d l).freeList e = h.freeList e := if_neg he

theorem Heap.setFree_setFree (h : Heap) (d : Nat) (l l' : List Nat) :
    (h.setFree d l).setFree d l' = h.setFree d l' := by
  unfold Heap.setFree
  congr 1
  funext j
  by_cases hj : j = d
  · simp only [if_pos hj]
  · simp only [if_neg hj]

theorem Heap.setFree_self (h : Heap) (d : Nat) : h.setFree d (h.freeList d) = h := by
  unfold Heap.setFree
  congr 1
  funext j
  split
  · rename_i hj
    rw [hj]
  · rfl

theorem HeapBase.nodup_setFree {l : List Nat} (hb : HeapBase h live) (hl : l.Nodup) (d e : Nat) :
    ((h.setFree d l).freeList e).Nodup := by
  by_cases he : e = d
  · rw [he, h.freeList_setFree]
    exact hl
  · rw [h.freeList_setFree_of_ne l he]
    exact hb.freeNodup e

/-! ## Moves -/

theorem countP_cons_of_mem (hnodup : a.blocks.Nodup) (hp : p ∈ a.blocks) (hlive : p ∉ live) :
    a.blocks.countP (· ∉ p :: live) + 1 = a.blocks.countP (· ∉ live) := by
  obtain ⟨l, r, hlr⟩ := append_of_mem hp
  rw [hlr] at hnodup ⊢
  have hne (q) (hq : q ∈ l ++ r) : q ≠ p := fun he =>
    (nodup_middle.mp hnodup).notMem (he ▸ hq)
  have hcongr (k : List Nat) (hk : ∀ q ∈ k, q ∈ l ++ r) :
      k.countP (· ∉ p :: live) = k.countP (· ∉ live) := by
    refine countP_congr fun q hq => ?_
    rw [decide_eq_true_eq, decide_eq_true_eq, mem_cons, not_or]
    exact and_iff_right (hne q (hk q hq))
  rw [countP_append, countP_append, countP_cons, countP_cons,
    hcongr l fun q hq => mem_append_left _ hq, hcongr r fun q hq => mem_append_right _ hq]
  simp only [mem_cons, true_or, not_true, decide_false, Bool.false_eq_true, if_false, hlive,
    not_false_eq_true, decide_true, if_true]
  omega

/-- The state with another `free_cnt` in the arena at `k`. -/
def Heap.recounted (h : Heap) (k cnt : Nat) : Heap :=
  { h with arenas := update Arena.addr h.arenas k fun x => { x with freeCnt := cnt } }

theorem Heap.block_recounted (k cnt : Nat) (d : Option Nat) :
    (h.recounted k cnt).Block d p ↔ h.Block d p := by
  constructor
  · rintro ⟨y, hy, hd, hp⟩
    rcases mem_update hy with ⟨x, hx, -, rfl⟩ | ⟨hy, -⟩
    · exact ⟨x, hx, hd, hp⟩
    · exact ⟨y, hy, hd, hp⟩
  · rintro ⟨x, hx, hd, hp⟩
    refine ⟨_, mem_map_of_mem hx, ?_⟩
    split
    · exact ⟨hd, hp⟩
    · exact ⟨hd, hp⟩

namespace HeapBase

variable {live' : List Nat} {f : Nat → List Nat} {m : Nat → Byte}

/-- Blocks of one arena go from the free list to the live ones, or back. -/
theorem move (hb : HeapBase h live) (ha : a ∈ h.arenas) (hd : a.desc = some d)
    (hlive : live'.Nodup) (hblock : ∀ p ∈ live', ∃ d, h.Block d p)
    (hsame : ∀ p, p ∉ a.blocks → (p ∈ live' ↔ p ∈ live)) (hfl : ∀ e, (f e).Nodup)
    (hfree : ∀ e p, p ∈ f e ↔ h.Block (some e) p ∧ p ∉ live')
    (hn : n = a.blocks.countP (· ∉ live')) :
    HeapBase { h.recounted a.addr n with freeList := f, mem := m } live' := by
  have hone (x) (hx : x ∈ h.arenas) (hk : x.addr = a.addr) : x = a :=
    inj_on_of_nodup_map hb.addr_nodup hx ha hk
  refine ⟨?_, hb.page, hb.apart, ?_, hlive, ?_, ?_, hfl, ?_, ?_⟩
  · refine hb.pages.trans (map_update_of_mem fun x hx hk => ?_).symm
    obtain rfl := hone x hx hk
    simp only [Arena.pageCnt, hd]
  · intro y hy e he
    rcases mem_update hy with ⟨x, hx, -, rfl⟩ | ⟨hy, -⟩
    · exact hb.desc x hx e he
    · exact hb.desc y hy e he
  · intro p hp
    obtain ⟨e, he⟩ := hblock p hp
    exact ⟨e, (h.block_recounted a.addr n e).mpr he⟩
  · intro p hp
    have hp' := (h.block_recounted a.addr n none).mp hp
    refine (hsame p fun hpa => ?_).mpr (hb.big p hp')
    rw [← hb.desc_of_block ha hpa hp'] at hd
    cases hd
  · intro e p
    exact (hfree e p).trans (and_congr_left fun _ => (h.block_recounted a.addr n _).symm)
  · intro y hy e he
    rcases mem_update hy with ⟨x, hx, hk, rfl⟩ | ⟨hy, hk⟩
    · obtain rfl := hone x hx hk
      exact hn
    · rw [hb.count y hy e he]
      refine countP_congr fun p hp => ?_
      have hpa : p ∉ a.blocks := fun hpa => hk (congrArg Arena.addr (hb.arena_unique hy ha hp hpa))
      rw [decide_eq_true_eq, decide_eq_true_eq, hsame p hpa]

theorem block_cons {x : Arena} {d : Option Nat} (hl : h'.arenas = x :: h.arenas) :
    h'.Block d p ↔ (x.desc = d ∧ p ∈ x.blocks) ∨ h.Block d p := by
  rw [Heap.Block, hl, Heap.Block]
  exact exists_mem_cons_iff _ _ _

/-- **A new arena**: no block of it is in use yet. -/
theorem new {x : Arena} (hb : HeapBase h live) (hx : x.Ok)
    (hapart : ∀ r ∈ h.pages, PagesApart (x.addr, x.pageCnt) r) :
    ∀ p ∈ x.blocks, ∀ d, ¬h.Block d p := by
  rintro p hp d ⟨y, hy, -, hpy⟩
  have h1 := hx.inside hp
  have h2 := (hb.ok hy).inside hpy
  have h3 := hapart _ (hb.mem_pages hy)
  have h4 := hx.pages
  have h5 := (hb.ok hy).pages
  have h6 : pgRoundDown p = x.addr := hx.pgRoundDown_eq hp
  have h7 : pgRoundDown p = y.addr := (hb.ok hy).pgRoundDown_eq hpy
  unfold PagesApart pgSize at h3
  dsimp only at h3
  omega

/-- **The table with a new arena**: its blocks are free, or its one big block is live. -/
theorem add {x : Arena} (hb : HeapBase h live) (hx : x.Ok)
    (hapart : ∀ r ∈ h.pages, PagesApart (x.addr, x.pageCnt) r)
    (hcnt : ∀ d, x.desc = some d → x.freeCnt = (descAt d).blocksPerArena)
    (hlive : live'.Nodup)
    (hmem : ∀ p, p ∈ live' ↔ (x.desc = none ∧ p ∈ x.blocks) ∨ p ∈ live)
    (hfl : ∀ e, (f e).Nodup)
    (hfree : ∀ e p, p ∈ f e ↔ (x.desc = some e ∧ p ∈ x.blocks) ∨ p ∈ h.freeList e) :
    HeapBase ⟨m, (x.addr, x.pageCnt) :: h.pages, x :: h.arenas, f⟩ live' := by
  have hnew := hb.new hx hapart
  have hold (p) (hp : p ∈ x.blocks) : p ∉ live := fun hl => by
    obtain ⟨e, he⟩ := hb.liveBlock p hl
    exact hnew p hp e he
  obtain ⟨h', hh'⟩ : ∃ h' : Heap, h' = ⟨m, (x.addr, x.pageCnt) :: h.pages, x :: h.arenas, f⟩ :=
    ⟨_, rfl⟩
  have hblock (d p) : h'.Block d p ↔ (x.desc = d ∧ p ∈ x.blocks) ∨ h.Block d p :=
    block_cons (by rw [hh'])
  rw [← hh']
  refine ⟨?_, ?_, ?_, ?_, hlive, ?_, ?_, ?_, ?_, ?_⟩
  · rw [hh', map_cons, hb.pages]
  · rw [hh']
    exact forall_mem_cons.mpr ⟨⟨hx.aligned, hx.pos, hx.pages⟩, hb.page⟩
  · rw [hh']
    exact pairwise_cons.mpr ⟨hapart, hb.apart⟩
  · rw [hh']
    exact forall_mem_cons.mpr ⟨hx.desc, hb.desc⟩
  · intro p hp
    rcases (hmem p).mp hp with hp | hp
    · exact ⟨none, (hblock _ _).mpr (.inl hp)⟩
    · obtain ⟨e, he⟩ := hb.liveBlock p hp
      exact ⟨e, (hblock _ _).mpr (.inr he)⟩
  · intro p hp
    rw [hmem]
    exact ((hblock _ _).mp hp).imp_right (hb.big p)
  · rw [hh']
    exact hfl
  · intro e p
    rw [hh', hfree, ← hh', hblock, hmem]
    constructor
    · rintro (⟨he, hp⟩ | hp)
      · refine ⟨.inl ⟨he, hp⟩, ?_⟩
        rintro (⟨hn, -⟩ | hl)
        · rw [he] at hn
          cases hn
        · exact hold p hp hl
      · obtain ⟨he, hl⟩ := (hb.free e p).mp hp
        refine ⟨.inr he, ?_⟩
        rintro (⟨-, hpx⟩ | hl')
        · exact hnew p hpx _ he
        · exact hl hl'
    · rintro ⟨hp | hp, hl⟩
      · exact .inl hp
      · exact .inr ((hb.free e p).mpr ⟨hp, fun hpl => hl (.inr hpl)⟩)
  · rw [hh']
    refine forall_mem_cons.mpr ⟨fun d hd => ?_, fun y hy d hd => ?_⟩
    · rw [hcnt d hd, ← length_blocks hd, eq_comm, countP_eq_length]
      intro p hp
      rw [decide_eq_true_eq, hmem]
      rintro (⟨hn, -⟩ | hl)
      · rw [hd] at hn
        cases hn
      · exact hold p hp hl
    · rw [hb.count y hy d hd]
      refine countP_congr fun p hp => ?_
      rw [decide_eq_true_eq, decide_eq_true_eq, hmem, not_or]
      refine (and_iff_right ?_).symm
      rintro ⟨-, hpx⟩
      exact hnew p hpx _ ⟨y, hy, rfl, hp⟩

/-- **The table without an arena**: its blocks are neither free nor live. -/
theorem drop (hb : HeapBase h live) (ha : a ∈ h.arenas) (hlive : live'.Nodup)
    (hmem : ∀ p, p ∈ live' ↔ p ∈ live ∧ p ∉ a.blocks) (hfl : ∀ e, (f e).Nodup)
    (hfree : ∀ e p, p ∈ f e ↔ p ∈ h.freeList e ∧ p ∉ a.blocks) :
    HeapBase ⟨m, remove Prod.fst h.pages a.addr, remove Arena.addr h.arenas a.addr, f⟩ live' := by
  have hone (x) (hx : x ∈ h.arenas) (hk : x.addr = a.addr) : x = a :=
    inj_on_of_nodup_map hb.addr_nodup hx ha hk
  obtain ⟨h', hh'⟩ : ∃ h' : Heap,
    h' = ⟨m, remove Prod.fst h.pages a.addr, remove Arena.addr h.arenas a.addr, f⟩ := ⟨_, rfl⟩
  have harenas (x) : x ∈ h'.arenas ↔ x ∈ h.arenas ∧ x.addr ≠ a.addr := by
    rw [hh']
    exact mem_remove
  have hother (x) (hx : x ∈ h'.arenas) (p) (hp : p ∈ x.blocks) : p ∉ a.blocks := by
    obtain ⟨hx, hk⟩ := (harenas x).mp hx
    exact fun hpa => hk (congrArg Arena.addr (hb.arena_unique hx ha hp hpa))
  have hblock (d p) : h'.Block d p ↔ h.Block d p ∧ p ∉ a.blocks := by
    constructor
    · rintro ⟨x, hx, hd, hp⟩
      exact ⟨⟨x, ((harenas x).mp hx).1, hd, hp⟩, hother x hx p hp⟩
    · rintro ⟨⟨x, hx, hd, hp⟩, hpa⟩
      exact ⟨x, (harenas x).mpr ⟨hx, fun hk => hpa (hone x hx hk ▸ hp)⟩, hd, hp⟩
  rw [← hh']
  refine ⟨?_, ?_, ?_, ?_, hlive, ?_, ?_, ?_, ?_, ?_⟩
  · rw [hh', hb.pages]
    exact filter_map
  · rw [hh']
    exact fun r hr => hb.page r (mem_remove.mp hr).1
  · rw [hh']
    exact hb.apart.sublist remove_sublist
  · exact fun x hx => hb.desc x ((harenas x).mp hx).1
  · intro p hp
    obtain ⟨hl, hpa⟩ := (hmem p).mp hp
    obtain ⟨e, he⟩ := hb.liveBlock p hl
    exact ⟨e, (hblock e p).mpr ⟨he, hpa⟩⟩
  · intro p hp
    obtain ⟨hp, hpa⟩ := (hblock _ _).mp hp
    exact (hmem p).mpr ⟨hb.big p hp, hpa⟩
  · rw [hh']
    exact hfl
  · intro e p
    rw [hh', hfree, ← hh', hblock, hmem, hb.free]
    tauto
  · intro x hx d hd
    rw [hb.count x ((harenas x).mp hx).1 d hd]
    refine countP_congr fun p hp => ?_
    rw [decide_eq_true_eq, decide_eq_true_eq, hmem, and_iff_left (hother x hx p hp)]

end HeapBase

/-! ## Extents -/

/-- `n` bytes from `p` are a block. -/
def Heap.Extent (h : Heap) (p n : Nat) : Prop := ∃ a ∈ h.arenas, p ∈ a.blocks ∧ a.blockSize = n

namespace HeapBase

variable {i j : Nat}

theorem pages_apart (hb : HeapBase h live) (ha : a ∈ h.arenas) (hb' : b ∈ h.arenas) (hne : a ≠ b) :
    PagesApart (a.addr, a.pageCnt) (b.addr, b.pageCnt) := by
  have : Std.Symm fun a b : Arena => PagesApart (a.addr, a.pageCnt) (b.addr, b.pageCnt) :=
    ⟨fun _ _ => Or.symm⟩
  exact hb.arenas_apart.forall ha hb' hne

theorem extent_outside (hb : HeapBase h live) (ha : a ∈ h.arenas) (he : h.Extent p i)
    (hp : p ∉ a.blocks) : p + i ≤ a.addr ∨ a.addr + pgSize * a.pageCnt ≤ p := by
  obtain ⟨x, hx, hpx, rfl⟩ := he
  have hne : x ≠ a := fun he => hp (he ▸ hpx)
  have h1 := (hb.ok hx).inside hpx
  have h2 := hb.pages_apart hx ha hne
  unfold PagesApart at h2
  dsimp only at h2
  omega

/-- **Blocks are disjoint.** -/
theorem extents_apart (hb : HeapBase h live) (hp : h.Extent p i) (hq : h.Extent q j) (hne : p ≠ q) :
    p + i ≤ q ∨ q + j ≤ p := by
  obtain ⟨x, hx, hpx, rfl⟩ := hp
  by_cases hqx : q ∈ x.blocks
  · obtain ⟨y, hy, hqy, rfl⟩ := hq
    obtain rfl := hb.arena_unique hx hy hqx hqy
    cases hd : x.desc with
    | none => exact absurd (((mem_blocks_of_none hd).mp hpx).trans
        ((mem_blocks_of_none hd).mp hqx).symm) hne
    | some d =>
      simp only [Arena.blockSize, hd]
      exact blocks_apart hd hpx hqx hne
  · have h1 := hb.extent_outside hx hq hqx
    have h2 := (hb.ok hx).inside hpx
    omega

/-- **Blocks are clear of the headers.** -/
theorem extent_header (hb : HeapBase h live) (hp : h.Extent p i) (ha : a ∈ h.arenas) :
    a.addr + headerSize ≤ p ∨ p + i ≤ a.addr := by
  by_cases hpa : p ∈ a.blocks
  · exact .inl ((hb.ok ha).inside hpa).1
  · have h1 := hb.extent_outside ha hp hpa
    have h2 := (hb.ok ha).pages
    unfold pgSize headerSize at *
    omega

theorem extent_unique (hb : HeapBase h live) (hp : h.Extent p i) (hq : h.Extent p j) : i = j := by
  obtain ⟨x, hx, hpx, rfl⟩ := hp
  obtain ⟨y, hy, hpy, rfl⟩ := hq
  rw [hb.arena_unique hx hy hpx hpy]

/-- A count of free blocks does not change the size of a block. -/
theorem extent_recounted (hb : HeapBase h live) (ha : a ∈ h.arenas) (hd : a.desc = some d)
    (hp : h.Extent p i) : (h.recounted a.addr n).Extent p i := by
  obtain ⟨x, hx, hpx, rfl⟩ := hp
  refine ⟨_, mem_map_of_mem hx, ?_⟩
  split
  · rename_i hk
    obtain rfl := inj_on_of_nodup_map hb.addr_nodup hx ha hk
    exact ⟨hpx, by simp only [Arena.blockSize, hd]⟩
  · exact ⟨hpx, rfl⟩

end HeapBase

end SystemProg.Pintos
