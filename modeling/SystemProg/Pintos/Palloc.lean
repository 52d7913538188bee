import SystemProg.Data.Memory
import SystemProg.Pintos.Bitmap
import SystemProg.Seq.Panic

/-!
# The page allocator

Model of `threads/palloc.c`. The kernel pool and the user pool each start with their bitmap, which
was sized for all the pages of the pool and marks those that come after it. Addresses are virtual
(`ptov`) and never 0, so a null pointer is `none`; there are less than 2^32 of them, so nothing
wraps around. The locks of the pools are not modelled.

* `Pools` is where the pools and their bitmaps are; `pallocInit_pools`.
* `Held` is the invariant of a run: the marks are those of the live ranges, which are apart.
-/

namespace SystemProg.Pintos

open Data Text SystemProg.Seq
open Option (bind_eq_some_iff)

/-! ## `vaddr.h` -/

/-- `PGSIZE`. -/
def pgSize : Nat := 4096

/-- `PHYS_BASE`. -/
def physBase : Nat := 0xc0000000

/-- `ptov`, but for its assertion that `paddr` is below `PHYS_BASE`. -/
def ptov (paddr : Nat) : Nat := paddr + physBase

/-- `pg_no`. -/
def pgNo (va : Nat) : Nat := va / pgSize

/-- `pg_ofs`. -/
def pgOfs (va : Nat) : Nat := va % pgSize

/-! ## Pools -/

/-- `struct pool`. -/
structure PagePool where
  usedMap : Bitmap
  /-- Where the bitmap is, that is the pointer `used_map`. -/
  mapAt : Nat
  base : Nat

/-- The pools, and the memory. -/
structure Palloc where
  kernelPool : PagePool
  userPool : PagePool
  mem : Nat → Byte

/-- `bitmap_buf_size`: a `struct bitmap` has 8 bytes. -/
def bitmapBufSize (bitCnt : Nat) : Nat := 8 + byteCnt bitCnt

/-- The pages of the bitmap in `init_pool`. -/
def bmPages (pageCnt : Nat) : Nat := (bitmapBufSize pageCnt + pgSize - 1) / pgSize

/-- `init_pool`, with the assertion of `bitmap_create_in_buf`; `junk` are the bits of the last word
past the end. -/
def initPool (base pageCnt : Nat) (junk : Nat → Bool) : Option PagePool :=
  if pageCnt < bmPages pageCnt then none
  else if bmPages pageCnt * pgSize < bitmapBufSize (pageCnt - bmPages pageCnt) then none
  else some
    { usedMap := Bitmap.create (pageCnt - bmPages pageCnt) junk
      mapAt := base
      base := base + bmPages pageCnt * pgSize }

/-- `palloc_init`. -/
def pallocInit (initRamPages userPageLimit : Nat) (junk : Bool → Nat → Bool) (mem : Nat → Byte) :
    Option Palloc := do
  guard (initRamPages * pgSize < physBase)
  let freeStart := ptov (1024 * 1024)
  let freeEnd := ptov (initRamPages * pgSize)
  let freePages := (freeEnd - freeStart) / pgSize
  let userPages := min (freePages / 2) userPageLimit
  let kernelPages := freePages - userPages
  let kernelPool ← initPool freeStart kernelPages (junk false)
  let userPool ← initPool (freeStart + kernelPages * pgSize) userPages (junk true)
  return ⟨kernelPool, userPool, mem⟩

/-- `enum palloc_flags`. -/
structure PallocFlags where
  /-- `PAL_ASSERT`. -/
  assert : Bool
  /-- `PAL_ZERO`. -/
  zero : Bool
  /-- `PAL_USER`. -/
  user : Bool

/-- The pool that `PAL_USER` selects. -/
def Palloc.pool (P : Palloc) (user : Bool) : PagePool := if user then P.userPool else P.kernelPool

/-- The state with another bitmap in one of the pools. -/
def Palloc.setMap (P : Palloc) (user : Bool) (m : Bitmap) : Palloc :=
  if user then { P with userPool.usedMap := m } else { P with kernelPool.usedMap := m }

/-- `memset(pages, value, PGSIZE * page_cnt)`. -/
def Palloc.fill (P : Palloc) (pages pageCnt : Nat) (value : Byte) : Palloc :=
  { P with mem := patch P.mem pages (List.replicate (pgSize * pageCnt) value) }

/-- `palloc_get_multiple`; `none` for a null pointer. -/
def pallocGetMultiple (flags : PallocFlags) (pageCnt : Nat) : Panic Palloc (Option Nat) := do
  if pageCnt = 0 then return none
  let P ← get
  let pool := P.pool flags.user
  match pool.usedMap.scan pageCnt false with
  | some pageIdx =>
    set (P.setMap flags.user (pool.usedMap.setMultiple pageIdx pageCnt true))
    let pages := pool.base + pgSize * pageIdx
    if flags.zero then modify fun P => P.fill pages pageCnt 0
    return some pages
  | none =>
    if flags.assert then abort
    return none

/-- `page_from_pool`. -/
def pageFromPool (pool : PagePool) (page : Nat) : Bool :=
  pgNo pool.base ≤ pgNo page && pgNo page < pgNo pool.base + pool.usedMap.bitCnt

/-- The pool that `palloc_free_multiple` gives the pages back to. -/
def Palloc.poolOf (P : Palloc) (pages : Nat) : Option Bool :=
  if pageFromPool P.kernelPool pages then some false
  else if pageFromPool P.userPool pages then some true
  else none

/-- `palloc_free_multiple`. -/
def pallocFreeMultiple : (pages : Option Nat) → (pageCnt : Nat) → Panic Palloc Unit
  | some pages, pageCnt => do
    assert (pgOfs pages = 0)
    if pageCnt = 0 then return ()
    let P ← get
    match P.poolOf pages with
    | none => abort
    | some user =>
      let pool := P.pool user
      let pageIdx := pgNo pages - pgNo pool.base
      modify fun P => P.fill pages pageCnt 0xcc
      assert (pool.usedMap.InRange pageIdx pageCnt)
      assert (pool.usedMap.all pageIdx pageCnt = true)
      modify fun P => P.setMap user (pool.usedMap.setMultiple pageIdx pageCnt false)
  | none, _ => return ()

/-! ## Runs -/

/-- Pages that `palloc_get_multiple` returned. -/
structure PageRange where
  addr : Nat
  cnt : Nat
  user : Bool
  deriving DecidableEq

/-- The allocator and the live ranges. -/
structure PallocState where
  P : Palloc
  live : List PageRange

/-- Calls in any order; only live ranges are freed. -/
inductive PallocRuns (initRamPages userPageLimit : Nat) : PallocState → Prop
  | init {junk : Bool → Nat → Bool} {mem : Nat → Byte} {P : Palloc}
      (hinit : pallocInit initRamPages userPageLimit junk mem = some P) :
      PallocRuns initRamPages userPageLimit ⟨P, []⟩
  | get {S : PallocState} {flags : PallocFlags} {cnt addr : Nat} {P' : Palloc}
      (h : PallocRuns initRamPages userPageLimit S)
      (hget : pallocGetMultiple flags cnt S.P = some (some addr, P')) :
      PallocRuns initRamPages userPageLimit ⟨P', ⟨addr, cnt, flags.user⟩ :: S.live⟩
  | fail {S : PallocState} {flags : PallocFlags} {cnt : Nat} {P' : Palloc}
      (h : PallocRuns initRamPages userPageLimit S)
      (hget : pallocGetMultiple flags cnt S.P = some (none, P')) :
      PallocRuns initRamPages userPageLimit ⟨P', S.live⟩
  | free {S : PallocState} {r : PageRange} {P' : Palloc}
      (h : PallocRuns initRamPages userPageLimit S) (hr : r ∈ S.live)
      (hfree : pallocFreeMultiple (some r.addr) r.cnt S.P = some ((), P')) :
      PallocRuns initRamPages userPageLimit ⟨P', S.live.erase r⟩

/-! ## Where the pools are -/

variable {P P' : Palloc} {pool : PagePool} {ram limit base cnt idx pages : Nat} {u : Bool}
  {live l : List PageRange} {r s : PageRange} {S : PallocState}

/-- The bytes of the pages of a pool. -/
def PagePool.bytes (pool : PagePool) : Set Nat :=
  Set.Ico pool.base (pool.base + pgSize * pool.usedMap.bitCnt)

/-- The bytes of its bitmap. -/
def PagePool.mapBytes (pool : PagePool) : Set Nat :=
  Set.Ico pool.mapAt (pool.mapAt + bitmapBufSize pool.usedMap.bitCnt)

/-- From the first free byte of memory to the last one: the bitmap of the kernel pool, its pages,
the bitmap of the user pool, its pages. -/
structure Pools (ram : Nat) (P : Palloc) : Prop where
  start : ptov (1024 * 1024) = P.kernelPool.mapAt
  kernelMap : P.kernelPool.mapAt + bitmapBufSize P.kernelPool.usedMap.bitCnt ≤ P.kernelPool.base
  kernel : P.kernelPool.base + pgSize * P.kernelPool.usedMap.bitCnt = P.userPool.mapAt
  userMap : P.userPool.mapAt + bitmapBufSize P.userPool.usedMap.bitCnt ≤ P.userPool.base
  user : P.userPool.base + pgSize * P.userPool.usedMap.bitCnt = ptov (ram * pgSize)
  aligned : ∀ u, pgOfs (P.pool u).base = 0

theorem initPool_spec {junk : Nat → Bool} (h : initPool base cnt junk = some pool) :
    pool.mapAt = base ∧ base + bitmapBufSize pool.usedMap.bitCnt ≤ pool.base ∧
      pool.base + pgSize * pool.usedMap.bitCnt = base + pgSize * cnt ∧
      (pgOfs base = 0 → pgOfs pool.base = 0) ∧
      ∀ i, i < pool.usedMap.bitCnt → pool.usedMap.test i = false := by
  unfold initPool at h
  split at h
  · cases h
  rename_i hle
  split at h
  · cases h
  rename_i hbuf
  cases h
  have hcnt : (Bitmap.create (cnt - bmPages cnt) junk).bitCnt = cnt - bmPages cnt := rfl
  refine ⟨rfl, ?_, ?_, ?_, fun i hi => Bitmap.test_create hi⟩
  · show base + bitmapBufSize (cnt - bmPages cnt) ≤ base + bmPages cnt * pgSize
    omega
  · show base + bmPages cnt * pgSize + pgSize * (cnt - bmPages cnt) = _
    unfold pgSize
    omega
  · intro hb
    show (base + bmPages cnt * pgSize) % pgSize = 0
    rw [Nat.add_mul_mod_self_right]
    exact hb

/-- **`palloc_init`** lays out the pools, with no page in use. -/
theorem pallocInit_spec {junk : Bool → Nat → Bool} {mem : Nat → Byte} (hram : 256 < ram)
    (h : pallocInit ram limit junk mem = some P) : Pools ram P ∧
      ∀ u i, i < (P.pool u).usedMap.bitCnt → (P.pool u).usedMap.test i = false := by
  obtain ⟨_, -, h⟩ := Option.bind_eq_some_iff.mp h
  obtain ⟨K, hK, h⟩ := Option.bind_eq_some_iff.mp h
  obtain ⟨U, hU, h⟩ := Option.bind_eq_some_iff.mp h
  cases h
  obtain ⟨k1, k2, k3, k4, k5⟩ := initPool_spec hK
  obtain ⟨u1, u2, u3, u4, u5⟩ := initPool_spec hU
  have hfree : (ptov (ram * pgSize) - ptov (1024 * 1024)) / pgSize = ram - 256 := by
    unfold ptov pgSize
    omega
  rw [hfree] at k3 u1 u2 u3 u4
  have ha : pgOfs (ptov (1024 * 1024)) = 0 := by decide
  have hend : ptov (ram * pgSize) = ptov (1024 * 1024) + pgSize * (ram - 256) := by
    unfold ptov pgSize
    omega
  refine ⟨⟨k1.symm, k1 ▸ k2, ?_, u1 ▸ u2, ?_, fun u => ?_⟩, fun u => ?_⟩
  · rw [k3, u1, Nat.mul_comm pgSize]
  · rw [u3, hend]
    unfold pgSize
    omega
  · cases u with
    | false => exact k4 ha
    | true =>
      refine u4 ?_
      rw [pgOfs, Nat.add_mul_mod_self_right]
      exact ha
  · cases u with
    | false => exact k5
    | true => exact u5

/-- The pools stay, with another bitmap in one of them. -/
structure Remapped (P P' : Palloc) (u : Bool) (m : Bitmap) : Prop where
  base : ∀ v, (P'.pool v).base = (P.pool v).base
  mapAt : ∀ v, (P'.pool v).mapAt = (P.pool v).mapAt
  self : (P'.pool u).usedMap = m
  other : ∀ v, v ≠ u → (P'.pool v).usedMap = (P.pool v).usedMap

theorem remapped_setMap (P : Palloc) (u : Bool) (m : Bitmap) : Remapped P (P.setMap u m) u m := by
  refine ⟨fun v => ?_, fun v => ?_, ?_, fun v hv => ?_⟩
  · cases u <;> cases v <;> rfl
  · cases u <;> cases v <;> rfl
  · cases u <;> rfl
  · cases u <;> cases v <;> first | rfl | exact absurd rfl hv

theorem Remapped.bitCnt {m : Bitmap} (h : Remapped P P' u m)
    (hm : m.bitCnt = (P.pool u).usedMap.bitCnt) (v : Bool) :
    (P'.pool v).usedMap.bitCnt = (P.pool v).usedMap.bitCnt := by
  by_cases hv : v = u
  · rw [hv, h.self, hm]
  · rw [h.other v hv]

theorem Pools.remap {m : Bitmap} (hP : Pools ram P) (h : Remapped P P' u m)
    (hm : m.bitCnt = (P.pool u).usedMap.bitCnt) : Pools ram P' := by
  have hb := h.bitCnt hm
  have hk : P'.kernelPool.base = P.kernelPool.base := h.base false
  have hu : P'.userPool.base = P.userPool.base := h.base true
  have hk' : P'.kernelPool.mapAt = P.kernelPool.mapAt := h.mapAt false
  have hu' : P'.userPool.mapAt = P.userPool.mapAt := h.mapAt true
  have hkb : P'.kernelPool.usedMap.bitCnt = P.kernelPool.usedMap.bitCnt := hb false
  have hub : P'.userPool.usedMap.bitCnt = P.userPool.usedMap.bitCnt := hb true
  refine ⟨?_, ?_, ?_, ?_, ?_, fun v => ?_⟩
  · rw [hk', hP.start]
  · rw [hk', hkb, hk]
    exact hP.kernelMap
  · rw [hk, hkb, hu']
    exact hP.kernel
  · rw [hu', hub, hu]
    exact hP.userMap
  · rw [hu, hub]
    exact hP.user
  · rw [h.base v]
    exact hP.aligned v

/-! ## Live ranges -/

/-- Its bytes. -/
def PageRange.bytes (r : PageRange) : Set Nat := Set.Ico r.addr (r.addr + pgSize * r.cnt)

/-- The range is a run of pages of its pool, from page `idx` on. -/
structure PageRange.At (r : PageRange) (P : Palloc) (idx : Nat) : Prop where
  addr : r.addr = (P.pool r.user).base + pgSize * idx
  pos : 0 < r.cnt
  le : idx + r.cnt ≤ (P.pool r.user).usedMap.bitCnt

/-- **The marks are the live ranges**, which are apart. -/
structure Held (P : Palloc) (live : List PageRange) : Prop where
  inside : ∀ r ∈ live, ∃ idx, r.At P idx
  apart : live.Pairwise fun r s => Disjoint r.bytes s.bytes
  marked : ∀ u i, i < (P.pool u).usedMap.bitCnt → ((P.pool u).usedMap.test i = true ↔
    ∃ r ∈ live, r.user = u ∧ (P.pool u).base + pgSize * i ∈ r.bytes)

theorem PageRange.At.mem_bytes (h : r.At P idx) (i : Nat) :
    (P.pool r.user).base + pgSize * i ∈ r.bytes ↔ idx ≤ i ∧ i < idx + r.cnt := by
  rw [PageRange.bytes, Set.mem_Ico, h.addr]
  unfold pgSize
  omega

theorem PageRange.At.remap {m : Bitmap} (hr : r.At P idx) (h : Remapped P P' u m)
    (hm : m.bitCnt = (P.pool u).usedMap.bitCnt) : r.At P' idx where
  addr := by rw [h.base, hr.addr]
  pos := hr.pos
  le := by rw [h.bitCnt hm]; exact hr.le

theorem Pools.disjoint (hP : Pools ram P) {i j : Nat} (hr : r.At P i) (hs : s.At P j)
    (hne : r.user ≠ s.user) : Disjoint r.bytes s.bytes := by
  have h1 := hP.kernel
  have h2 := hP.userMap
  obtain ⟨a, n, u⟩ := r
  obtain ⟨b, m, v⟩ := s
  have ha := hr.addr
  have hle := hr.le
  have hb := hs.addr
  have hle' := hs.le
  rw [Set.disjoint_left]
  simp only [PageRange.bytes, Set.mem_Ico]
  cases u <;> cases v <;> simp only [Palloc.pool, Bool.false_eq_true, if_false, if_true] at * <;>
    first | exact absurd rfl hne | (unfold pgSize at *; omega)

namespace Held

theorem perm (h : Held P live) (hp : live.Perm l) : Held P l where
  inside r hr := h.inside r (hp.mem_iff.mpr hr)
  apart := (hp.pairwise_iff fun h => h.symm).mp h.apart
  marked u i hi := (h.marked u i hi).trans
    (exists_congr fun _ => and_congr_left fun _ => hp.mem_iff)

theorem empty (hfree : ∀ u i, i < (P.pool u).usedMap.bitCnt → (P.pool u).usedMap.test i = false) :
    Held P [] where
  inside := by simp
  apart := .nil
  marked u i hi := by simp [hfree u i hi]

theorem take (h : Held P live) (hP : Pools ram P) (hcnt : 0 < cnt)
    (hscan : (P.pool u).usedMap.scan cnt false = some idx)
    (hmap : Remapped P P' u ((P.pool u).usedMap.setMultiple idx cnt true)) :
    Held P' (⟨(P.pool u).base + pgSize * idx, cnt, u⟩ :: live) := by
  obtain ⟨hin, hfree⟩ := Bitmap.scan_eq_some hscan
  obtain ⟨r, hr⟩ : ∃ r : PageRange, r = ⟨(P.pool u).base + pgSize * idx, cnt, u⟩ := ⟨_, rfl⟩
  have hru : r.user = u := by rw [hr]
  have hat : r.At P idx := by
    subst hr
    exact ⟨rfl, hcnt, hin.2⟩
  have hrc : r.cnt = cnt := by rw [hr]
  rw [← hr]
  have hbits := hmap.bitCnt Bitmap.bitCnt_setMultiple
  refine ⟨?_, List.pairwise_cons.mpr ⟨fun s hs => ?_, h.apart⟩, fun v i hi => ?_⟩
  · intro s hs
    obtain ⟨j, hj⟩ : ∃ j, s.At P j := by
      rcases List.mem_cons.mp hs with rfl | hs
      · exact ⟨idx, hat⟩
      · exact h.inside s hs
    exact ⟨j, hj.remap hmap Bitmap.bitCnt_setMultiple⟩
  · obtain ⟨j, hj⟩ := h.inside s hs
    by_cases hne : r.user = s.user
    swap
    · exact hP.disjoint hat hj hne
    -- a common byte would be in a page that is marked and free
    refine Set.disjoint_left.mpr fun x hx hx' => ?_
    have hju := hj.addr
    rw [← hne, hru] at hju
    have hpage : idx ≤ max idx j ∧ max idx j < idx + cnt ∧ j ≤ max idx j ∧
        max idx j < j + s.cnt := by
      simp only [PageRange.bytes, Set.mem_Ico] at hx hx'
      rw [hat.addr, hru, hrc] at hx
      rw [hju] at hx'
      unfold pgSize at hx hx'
      omega
    have hmem : (P.pool s.user).base + pgSize * max idx j ∈ s.bytes :=
      (hj.mem_bytes _).mpr hpage.2.2
    rw [← hne, hru] at hmem
    have := (h.marked u (max idx j) (by have := hin.2; omega)).mpr ⟨s, hs, hne ▸ hru, hmem⟩
    rw [hfree _ hpage.1 hpage.2.1] at this
    cases this
  · rw [hbits] at hi
    rw [hmap.base]
    by_cases hv : v = u
    swap
    · have hne : ¬(r.user = v) := fun he => hv (he ▸ hru)
      rw [hmap.other v hv, h.marked v i hi, List.exists_mem_cons_iff]
      exact ⟨.inr, fun hor => hor.resolve_left fun hc => hne hc.1⟩
    subst hv
    have hmem := hat.mem_bytes i
    rw [hru, hrc] at hmem
    rw [hmap.self, Bitmap.test_setMultiple hin, List.exists_mem_cons_iff, hmem]
    by_cases hx : idx ≤ i ∧ i < idx + cnt
    · rw [if_pos hx]
      exact ⟨fun _ => .inl ⟨hru, hx⟩, fun _ => rfl⟩
    · rw [if_neg hx, h.marked v i hi]
      exact ⟨.inr, fun hor => hor.resolve_left fun hc => hx hc.2⟩

theorem give (h : Held P (r :: live)) (hat : r.At P idx)
    (hmap : Remapped P P' r.user ((P.pool r.user).usedMap.setMultiple idx r.cnt false)) :
    Held P' live := by
  have hin : (P.pool r.user).usedMap.InRange idx r.cnt := ⟨by have := hat.le; omega, hat.le⟩
  have hbits := hmap.bitCnt Bitmap.bitCnt_setMultiple
  obtain ⟨hout, hapart⟩ := List.pairwise_cons.mp h.apart
  refine ⟨fun s hs => ?_, hapart, fun v i hi => ?_⟩
  · obtain ⟨j, hj⟩ := h.inside s (List.mem_cons_of_mem _ hs)
    exact ⟨j, hj.remap hmap Bitmap.bitCnt_setMultiple⟩
  · rw [hbits] at hi
    rw [hmap.base]
    have hm := h.marked v i hi
    rw [List.exists_mem_cons_iff] at hm
    by_cases hv : v = r.user
    swap
    · rw [hmap.other v hv, hm]
      exact ⟨fun hor => hor.resolve_left fun hc => hv hc.1.symm, .inr⟩
    subst hv
    rw [hmap.self, Bitmap.test_setMultiple hin]
    rw [hat.mem_bytes i] at hm
    by_cases hx : idx ≤ i ∧ i < idx + r.cnt
    · rw [if_pos hx]
      refine ⟨fun hc => absurd hc (by decide), ?_⟩
      rintro ⟨s, hs, -, hmem⟩
      exact absurd hmem (Set.disjoint_left.mp (hout s hs) ((hat.mem_bytes i).mpr hx))
    · rw [if_neg hx, hm]
      exact ⟨fun hor => hor.resolve_left fun hc => hx hc.2, .inr⟩

end Held

/-! ## The functions -/

variable {flags : PallocFlags}

/-- **`palloc_get_multiple`** where the scan finds pages. -/
theorem pallocGetMultiple_some (hcnt : cnt ≠ 0)
    (hscan : (P.pool flags.user).usedMap.scan cnt false = some idx) :
    ∃ P', pallocGetMultiple flags cnt P =
        some (some ((P.pool flags.user).base + pgSize * idx), P') ∧
      Remapped P P' flags.user ((P.pool flags.user).usedMap.setMultiple idx cnt true) := by
  rw [pallocGetMultiple, if_neg hcnt, get_bind, hscan]
  have hmap := remapped_setMap P flags.user ((P.pool flags.user).usedMap.setMultiple idx cnt true)
  cases flags.zero with
  | false => exact ⟨_, rfl, hmap⟩
  | true => exact ⟨_, rfl, hmap.base, hmap.mapAt, hmap.self, hmap.other⟩

/-- Where it finds none, the result is a null pointer or a panic. -/
theorem pallocGetMultiple_none (hcnt : cnt ≠ 0)
    (hscan : (P.pool flags.user).usedMap.scan cnt false = none) :
    pallocGetMultiple flags cnt P = if flags.assert then none else some (none, P) := by
  rw [pallocGetMultiple, if_neg hcnt, get_bind, hscan]
  cases flags.assert <;> rfl

/-- The pool of a live range is found from its address. -/
theorem Pools.poolOf_eq (hP : Pools ram P) (hat : r.At P idx) :
    P.poolOf r.addr = some r.user ∧ pgOfs r.addr = 0 ∧ pgNo r.addr - pgNo (P.pool r.user).base =
      idx := by
  have h1 := hP.kernel
  have h2 := hP.userMap
  have ha := hP.aligned r.user
  have haddr := hat.addr
  have hle := hat.le
  have hpos := hat.pos
  obtain ⟨a, n, u⟩ := r
  refine ⟨?_, ?_, ?_⟩
  · cases u with
    | false =>
      have hin : pageFromPool P.kernelPool a = true := by
        simp only [Palloc.pool, Bool.false_eq_true, if_false] at *
        rw [pageFromPool, Bool.and_eq_true, decide_eq_true_eq, decide_eq_true_eq]
        unfold pgNo pgSize at *
        omega
      rw [Palloc.poolOf, if_pos hin]
    | true =>
      have hin : pageFromPool P.userPool a = true := by
        simp only [Palloc.pool, if_true] at *
        rw [pageFromPool, Bool.and_eq_true, decide_eq_true_eq, decide_eq_true_eq]
        unfold pgNo pgSize at *
        omega
      have hout : ¬pageFromPool P.kernelPool a = true := by
        have ha' : pgOfs P.kernelPool.base = 0 := hP.aligned false
        simp only [Palloc.pool, if_true] at *
        rw [pageFromPool, Bool.and_eq_true, decide_eq_true_eq, decide_eq_true_eq]
        unfold pgNo pgOfs pgSize at *
        omega
      rw [Palloc.poolOf, if_neg hout, if_pos hin]
  · unfold pgOfs pgSize at *
    omega
  · unfold pgNo pgOfs pgSize at *
    omega

/-- **`palloc_free_multiple`** of a live range: its assertions hold. -/
theorem pallocFreeMultiple_spec (hP : Pools ram P) (h : Held P live) (hr : r ∈ live)
    (hat : r.At P idx) : ∃ P', pallocFreeMultiple (some r.addr) r.cnt P = some ((), P') ∧
      Remapped P P' r.user ((P.pool r.user).usedMap.setMultiple idx r.cnt false) := by
  obtain ⟨hpool, hofs, hidx⟩ := hP.poolOf_eq hat
  have hle := hat.le
  have hin : (P.pool r.user).usedMap.InRange idx r.cnt := ⟨by omega, hle⟩
  have hall : (P.pool r.user).usedMap.all idx r.cnt = true := by
    refine Bitmap.all_eq_true.mpr fun i h1 h2 => (h.marked r.user i (by omega)).mpr ?_
    exact ⟨r, hr, rfl, (hat.mem_bytes i).mpr ⟨h1, h2⟩⟩
  obtain ⟨m, hm⟩ : ∃ m, m = (P.pool r.user).usedMap.setMultiple idx r.cnt false := ⟨_, rfl⟩
  have hmap := remapped_setMap (P.fill r.addr r.cnt 0xcc) r.user m
  rw [← hm]
  refine ⟨_, ?_, hmap.base, hmap.mapAt, hmap.self, hmap.other⟩
  rw [pallocFreeMultiple, bind_eq (assert_eq hofs), if_neg (Nat.ne_of_gt hat.pos), get_bind, hpool]
  dsimp only
  rw [hidx, ← hm, bind_eq modify_eq, bind_eq (assert_eq hin), bind_eq (assert_eq hall)]
  rfl

/-! ## Runs keep the invariant -/

theorem PallocRuns.held (h : PallocRuns ram limit S) (hram : 256 < ram) :
    Pools ram S.P ∧ Held S.P S.live := by
  induction h with
  | init hinit =>
    obtain ⟨hP, hfree⟩ := pallocInit_spec hram hinit
    exact ⟨hP, .empty hfree⟩
  | @get S flags cnt addr P' _ hget ih =>
    obtain ⟨hP, hheld⟩ := ih
    have hcnt : cnt ≠ 0 := by
      rintro rfl
      cases hget
    cases hscan : (S.P.pool flags.user).usedMap.scan cnt false with
    | some idx =>
      obtain ⟨P1, heq, hmap⟩ := pallocGetMultiple_some hcnt hscan
      rw [hget] at heq
      obtain ⟨ha, rfl⟩ := Prod.mk.inj (Option.some.inj heq)
      cases ha
      exact ⟨hP.remap hmap Bitmap.bitCnt_setMultiple,
        hheld.take hP (Nat.pos_of_ne_zero hcnt) hscan hmap⟩
    | none =>
      rw [pallocGetMultiple_none hcnt hscan] at hget
      split at hget <;> cases hget
  | @fail S flags cnt P' _ hget ih =>
    by_cases hcnt : cnt = 0
    · subst hcnt
      cases hget
      exact ih
    cases hscan : (S.P.pool flags.user).usedMap.scan cnt false with
    | some idx =>
      obtain ⟨P1, heq, -⟩ := pallocGetMultiple_some hcnt hscan
      rw [hget] at heq
      cases heq
    | none =>
      rw [pallocGetMultiple_none hcnt hscan] at hget
      split at hget
      · cases hget
      · cases hget
        exact ih
  | @free S r P' _ hr hfree ih =>
    obtain ⟨hP, hheld⟩ := ih
    obtain ⟨idx, hat⟩ := hheld.inside r hr
    obtain ⟨P1, heq, hmap⟩ := pallocFreeMultiple_spec hP hheld hr hat
    rw [hfree] at heq
    cases heq
    exact ⟨hP.remap hmap Bitmap.bitCnt_setMultiple, (hheld.perm (List.perm_cons_erase hr)).give hat
      hmap⟩

/-! ## The page allocator -/

/-- The pools' pages are apart from each other and from both bitmaps, and in memory above 1 MB. -/
structure PoolsApart (ram : Nat) (P : Palloc) : Prop where
  pools : Disjoint P.kernelPool.bytes P.userPool.bytes
  maps : ∀ u v, Disjoint (P.pool u).bytes (P.pool v).mapBytes
  memory : ∀ u, (P.pool u).bytes ⊆ Set.Ico (ptov (1024 * 1024)) (ptov (ram * pgSize))

theorem Pools.apart (hP : Pools ram P) : PoolsApart ram P := by
  obtain ⟨h1, h2, h3, h4, h5, -⟩ := hP
  unfold pgSize bitmapBufSize at *
  refine ⟨?_, fun u v => ?_, fun u => ?_⟩
  · rw [Set.disjoint_left]
    simp only [PagePool.bytes, Set.mem_Ico, pgSize]
    omega
  · rw [Set.disjoint_left]
    cases u <;> cases v <;> simp only [PagePool.bytes, PagePool.mapBytes, bitmapBufSize,
      Set.mem_Ico, pgSize, Palloc.pool, Bool.false_eq_true, if_false, if_true] <;> omega
  · intro x
    cases u <;> simp only [PagePool.bytes, Set.mem_Ico, pgSize, Palloc.pool, Bool.false_eq_true,
      if_false, if_true] <;> omega

/-- The page is in no live range. -/
def PallocState.FreePage (S : PallocState) (user : Bool) (i : Nat) : Prop :=
  ∀ r ∈ S.live, (S.P.pool user).base + pgSize * i ∉ r.bytes

/-- The pool has `n` consecutive free pages. -/
def PallocState.HasRoom (S : PallocState) (user : Bool) (n : Nat) : Prop :=
  ∃ idx, idx + n ≤ (S.P.pool user).usedMap.bitCnt ∧ ∀ i, idx ≤ i → i < idx + n → S.FreePage user i

theorem Held.freePage_iff (hP : Pools ram S.P) (h : Held S.P S.live) {i : Nat}
    (hi : i < (S.P.pool u).usedMap.bitCnt) :
    S.FreePage u i ↔ (S.P.pool u).usedMap.test i = false := by
  rw [← Bool.not_eq_true, h.marked u i hi]
  constructor
  · rintro hfree ⟨r, hr, -, hmem⟩
    exact hfree r hr hmem
  · intro hno r hr hmem
    refine hno ⟨r, hr, ?_, hmem⟩
    -- the page alone is a range of its pool
    by_contra hne
    obtain ⟨idx, hat⟩ := h.inside r hr
    have hone : PageRange.At ⟨(S.P.pool u).base + pgSize * i, 1, u⟩ S.P i :=
      ⟨rfl, Nat.one_pos, hi⟩
    refine Set.disjoint_left.mp (hP.disjoint hat hone hne) hmem ?_
    exact (hone.mem_bytes i).mpr ⟨Nat.le_refl i, Nat.lt_succ_self i⟩

theorem Held.hasRoom_iff (hP : Pools ram S.P) (h : Held S.P S.live) :
    S.HasRoom u cnt ↔ (S.P.pool u).usedMap.scan cnt false ≠ none := by
  rw [Ne, Bitmap.scan_eq_none]
  simp only [not_forall, not_exists]
  constructor
  · rintro ⟨idx, hle, hfree⟩
    refine ⟨idx, hle, ?_⟩
    rintro j ⟨h1, h2, h3⟩
    rw [(h.freePage_iff hP (by omega)).mp (hfree j h1 h2)] at h3
    cases h3
  · rintro ⟨idx, hle, hno⟩
    refine ⟨idx, hle, fun i h1 h2 => (h.freePage_iff hP (by omega)).mpr ?_⟩
    have := hno i
    rw [← Bool.not_eq_true]
    exact fun hc => this ⟨h1, h2, hc⟩

/-- **The page allocator.** In every run from a boot with more than 1 MB and less than 1 GB of
memory: the pools are apart; the live ranges are runs of whole pages of the pool they were asked
for, apart from each other; a live range can be freed, back to its pool; and a request fails if
and only if its pool does not have that many consecutive free pages. -/
theorem page_allocator (hram : 256 < ram ∧ ram < 2 ^ 18) (h : PallocRuns ram limit S) :
    PoolsApart ram S.P ∧ S.live.Pairwise (fun r s => Disjoint r.bytes s.bytes) ∧
    (∀ r ∈ S.live, (∃ idx, r.At S.P idx) ∧ S.P.poolOf r.addr = some r.user ∧
      ∃ P', pallocFreeMultiple (some r.addr) r.cnt S.P = some ((), P')) ∧
    ∀ (flags : PallocFlags) (n : Nat), 0 < n →
      ((∃ addr P', pallocGetMultiple flags n S.P = some (some addr, P')) ↔
        S.HasRoom flags.user n) ∧
      (pallocGetMultiple flags n S.P = (if flags.assert then none else some (none, S.P)) ↔
        ¬S.HasRoom flags.user n) := by
  obtain ⟨hP, hheld⟩ := h.held hram.1
  refine ⟨hP.apart, hheld.apart, fun r hr => ?_, fun flags n hn => ?_⟩
  · obtain ⟨idx, hat⟩ := hheld.inside r hr
    obtain ⟨P', hfree, -⟩ := pallocFreeMultiple_spec hP hheld hr hat
    exact ⟨⟨idx, hat⟩, (hP.poolOf_eq hat).1, P', hfree⟩
  · rw [hheld.hasRoom_iff hP]
    cases hscan : (S.P.pool flags.user).usedMap.scan n false with
    | some idx =>
      obtain ⟨P', hget, -⟩ := pallocGetMultiple_some (Nat.ne_of_gt hn) hscan
      refine ⟨⟨fun _ => by simp, fun _ => ⟨_, P', hget⟩⟩,
        ⟨fun hc => ?_, fun hc => absurd (by simp) hc⟩⟩
      rw [hget] at hc
      split at hc <;> cases hc
    | none =>
      have hget := pallocGetMultiple_none (Nat.ne_of_gt hn) hscan
      refine ⟨⟨?_, fun hc => absurd rfl hc⟩, ⟨fun _ => by simp, fun _ => hget⟩⟩
      rintro ⟨addr, P', hc⟩
      rw [hget] at hc
      split at hc <;> cases hc

/-- With 260 pages of memory, each pool has one page; the user's is taken. -/
theorem page_allocator_taken : ∃ S r, PallocRuns 260 100 S ∧ S.live = [r] ∧ r.user = true ∧
    S.P.poolOf r.addr = some true ∧
    pallocGetMultiple ⟨false, false, true⟩ 1 S.P = some (none, S.P) := by
  have hrun : ((pallocInit 260 100 (fun _ _ => true) fun _ => 1).bind fun P =>
      (pallocGetMultiple ⟨true, true, true⟩ 1 P).bind fun r =>
        r.1.map fun _ => r.2.userPool.usedMap.bitCnt) = some 1 := by decide +kernel
  obtain ⟨P, hinit, hrun⟩ := Option.bind_eq_some_iff.mp hrun
  obtain ⟨⟨a, P'⟩, hget, hrun⟩ := Option.bind_eq_some_iff.mp hrun
  obtain ⟨addr, rfl, hcnt⟩ := Option.map_eq_some_iff.mp hrun
  have hS := PallocRuns.get (.init hinit) hget
  obtain ⟨-, -, hlive, hreq⟩ := page_allocator (by decide) hS
  obtain ⟨⟨idx, hat⟩, hpool, -⟩ := hlive _ List.mem_cons_self
  refine ⟨_, _, hS, rfl, rfl, hpool, (hreq ⟨false, false, true⟩ 1 (by decide)).2.mpr ?_⟩
  -- the only page is in the live range
  rintro ⟨j, hj, hfree⟩
  have hcnt : (P'.pool true).usedMap.bitCnt = 1 := hcnt
  have hle := hat.le
  have hj : j + 1 ≤ (P'.pool true).usedMap.bitCnt := hj
  have hidx : idx + 1 ≤ (P'.pool true).usedMap.bitCnt := hle
  refine hfree j (Nat.le_refl j) (Nat.lt_succ_self j) _ List.mem_cons_self ?_
  exact (hat.mem_bytes j).mpr ⟨by omega, by show j < idx + 1; omega⟩

end SystemProg.Pintos
