import Mathlib.Data.List.Nodup
import Mathlib.Data.List.Perm.Basic
import SystemProg.Pintos.Palloc

/-!
# Page directories

`pagedir.c` with `pte.h` and `vaddr.h`: a directory of 1024 words, each 0 or the address of a page
table with flags, and page tables of 1024 words, each the address of a frame with flags. The user
part of a directory is a map from pages to frames.

* `Directory M pd table` — the directory `pd` has the page tables `table`.
* `PagedirOp.exec_effect` — a call changes the entry of its own page and no other.
* `page_directory` — the directory is the map that its history says, and what `pagedir_destroy`
  frees.

The words of a page are bit vectors. What `palloc_get_page` returns is an argument, and `used` is
the `used_map` of its pools. Invalidating the TLB is left out.
-/

namespace SystemProg.Pintos

open SystemProg.Seq List
open Option (some.inj map_some getD_some)
open Function (update update_self update_of_ne)

/-! ## `pte.h` -/

/-- A page directory entry or a page table entry. -/
abbrev Word : Type := BitVec 32

/-- `PTE_ADDR`, the address bits. -/
def pteAddr : Word := 0xfffff000

/-- `PTE_P`: present. -/
def pteP : Word := 0x1

/-- `PTE_W`: read/write. -/
def pteW : Word := 0x2

/-- `PTE_U`: user. -/
def pteU : Word := 0x4

/-- `PTE_A`: accessed. -/
def pteA : Word := 0x20

/-- `PTE_D`: dirty. -/
def pteD : Word := 0x40

/-- `pt_no`, bits 12 to 21. -/
def ptNo (va : Nat) : Nat := va / pgSize % 1024

/-- `pd_no`, bits 22 to 31. -/
def pdNo (va : Nat) : Nat := va / pgSize / 1024

/-- `vtop`, but for its assertion that `va` is a kernel address. -/
def vtop (va : Nat) : Nat := va - physBase

/-- `pde_create`. -/
def pdeCreate (pt : Nat) : Word := BitVec.ofNat 32 (vtop pt) ||| pteU ||| pteP ||| pteW

/-- `pte_create_kernel`. -/
def pteCreateKernel (page : Nat) (writable : Bool) : Word :=
  BitVec.ofNat 32 (vtop page) ||| pteP ||| (if writable then pteW else 0#32)

/-- `pte_create_user`. -/
def pteCreateUser (page : Nat) (writable : Bool) : Word := pteCreateKernel page writable ||| pteU

/-- The page that an entry points to: `ptov` of its address bits. -/
def entryPage (e : Word) : Nat := ptov (e &&& pteAddr).toNat

/-! ## The functions -/

/-- The pages, as arrays of words, and those of them that `palloc` has given out. -/
structure Paging where
  words : Nat → Nat → Word
  used : Nat → Bool
  /-- The pages given back, the newest first. -/
  freed : List Nat

/-- `init_page_dir` and `init_ram_pages`. -/
structure PagingInit where
  pageDir : Nat
  ramPages : Nat

/-- `palloc_get_page` gives out `page`, with `fill` in it. -/
def takePage (page : Nat) (fill : Nat → Word) : Panic Paging Unit := modify fun M =>
  { M with words := update M.words page fill, used := update M.used page true }

/-- `pt[i] = w`. -/
def storeWord (pt i : Nat) (w : Word) : Panic Paging Unit := modify fun M =>
  { M with words := update M.words pt (update (M.words pt) i w) }

/-- `ptov` of the address bits, with its assertion. -/
def pteGetPage (pte : Word) : Panic Paging Nat := do
  assert ((pte &&& pteAddr).toNat < physBase)
  return entryPage pte

/-- `pde_get_pt`. -/
def pdeGetPt (pde : Word) : Panic Paging Nat := do
  assert (pde &&& pteP ≠ 0#32)
  pteGetPage pde

/-- `pagedir_create`; `page` is what `palloc_get_page` returns. -/
def pagedirCreate (I : PagingInit) (page : Option Nat) : Panic Paging (Option Nat) := do
  match page with
  | some pd =>
    takePage pd ((← get).words I.pageDir)
    return some pd
  | none => return none

/-- `lookup_page`: the table and the index of the entry for `va`. -/
def lookupPage (pd va : Nat) (create : Bool) (page : Option Nat) :
    Panic Paging (Option (Nat × Nat)) := do
  assert (create = false ∨ va < physBase)
  let pde := (← get).words pd (pdNo va)
  if pde = 0#32 then
    if create = true then
      match page with
      | some pt =>
        takePage pt fun _ => 0#32
        assert (physBase ≤ pt ∧ pgOfs pt = 0)
        storeWord pd (pdNo va) (pdeCreate pt)
        let pt ← pdeGetPt (pdeCreate pt)
        return some (pt, ptNo va)
      | none => return none
    else return none
  else
    let pt ← pdeGetPt pde
    return some (pt, ptNo va)

/-- `pagedir_set_page`. -/
def pagedirSetPage (I : PagingInit) (pd upage kpage : Nat) (writable : Bool) (page : Option Nat) :
    Panic Paging Bool := do
  assert (pgOfs upage = 0)
  assert (pgOfs kpage = 0)
  assert (upage < physBase)
  assert (physBase ≤ kpage ∧ vtop kpage / pgSize < I.ramPages)
  assert (pd ≠ I.pageDir)
  match ← lookupPage pd upage true page with
  | some (pt, i) =>
    assert ((← get).words pt i &&& pteP = 0#32)
    storeWord pt i (pteCreateUser kpage writable)
    return true
  | none => return false

/-- `pagedir_get_page`. -/
def pagedirGetPage (pd uaddr : Nat) : Panic Paging (Option Nat) := do
  assert (uaddr < physBase)
  match ← lookupPage pd uaddr false none with
  | some (pt, i) =>
    let pte := (← get).words pt i
    if pte &&& pteP ≠ 0#32 then
      let page ← pteGetPage pte
      return some (page + pgOfs uaddr)
    else return none
  | none => return none

/-- `pagedir_clear_page`. -/
def pagedirClearPage (pd upage : Nat) : Panic Paging Unit := do
  assert (pgOfs upage = 0)
  assert (upage < physBase)
  match ← lookupPage pd upage false none with
  | some (pt, i) =>
    let pte := (← get).words pt i
    if pte &&& pteP ≠ 0#32 then storeWord pt i (pte &&& ~~~pteP)
  | none => pure ()

/-- `pagedir_set_dirty` and `pagedir_set_accessed`. -/
def pagedirSetFlag (flag : Word) (pd vpage : Nat) (on : Bool) : Panic Paging Unit := do
  match ← lookupPage pd vpage false none with
  | some (pt, i) =>
    let pte := (← get).words pt i
    if on = true then storeWord pt i (pte ||| flag) else storeWord pt i (pte &&& ~~~flag)
  | none => pure ()

/-- `pagedir_set_dirty`. -/
def pagedirSetDirty : Nat → Nat → Bool → Panic Paging Unit := pagedirSetFlag pteD

/-- `pagedir_set_accessed`. -/
def pagedirSetAccessed : Nat → Nat → Bool → Panic Paging Unit := pagedirSetFlag pteA

/-- `palloc_free_page`: the page must be in use, and is filled with 0xcc. -/
def freePage (page : Nat) : Panic Paging Unit := do
  assert (pgOfs page = 0)
  assert ((← get).used page = true)
  modify fun M =>
    { words := update M.words page fun _ => 0xcccccccc
      used := update M.used page false
      freed := page :: M.freed }

/-- The body of the inner loop of `pagedir_destroy`. -/
def freeEntry (pt j : Nat) : Panic Paging Unit := do
  let pte := (← get).words pt j
  if pte &&& pteP ≠ 0#32 then
    let page ← pteGetPage pte
    freePage page

/-- The body of its outer loop. -/
def freeTable (pd d : Nat) : Panic Paging Unit := do
  let pde := (← get).words pd d
  if pde &&& pteP ≠ 0#32 then
    let pt ← pdeGetPt pde
    (List.range (pgSize / 4)).forM (freeEntry pt)
    freePage pt

/-- `pagedir_destroy`. -/
def pagedirDestroy (I : PagingInit) (pd : Option Nat) : Panic Paging Unit := do
  match pd with
  | some pd =>
    assert (pd ≠ I.pageDir)
    (List.range (pdNo physBase)).forM (freeTable pd)
    freePage pd
  | none => pure ()

/-! ## Entries -/

/-- A page of the kernel. -/
structure KernelPage (page : Nat) : Prop where
  aligned : pgOfs page = 0
  le : physBase ≤ page
  lt : page < 2 ^ 32

section Entries

variable {w k m : Word} {page : Nat} {b : Bool}

theorem or_and_of_disjoint (h : k &&& m = 0#32) : (w ||| k) &&& m = w &&& m := by
  rw [BitVec.and_or_distrib_right, h, BitVec.or_zero]

theorem and_not_and_of_disjoint (h : k &&& m = 0#32) : (w &&& ~~~k) &&& m = w &&& m := by
  have hm : ~~~k &&& m = m := by
    have hall : (k ||| ~~~k) &&& m = m := by
      rw [BitVec.or_not_self, BitVec.allOnes_and]
    rwa [BitVec.and_or_distrib_right, h, BitVec.zero_or] at hall
  rw [BitVec.and_assoc, hm]

theorem ofNat_and_flags {n : Nat} (hn : n % pgSize = 0) (hm : 0xfff#32 &&& m = m) :
    BitVec.ofNat 32 n &&& m = 0#32 := by
  have hflags : BitVec.ofNat 32 n &&& 0xfff#32 = 0#32 := by
    apply BitVec.eq_of_toNat_eq
    rw [BitVec.toNat_and, BitVec.toNat_ofNat, BitVec.toNat_ofNat]
    have hmod := Nat.and_two_pow_sub_one_eq_mod (n % 2 ^ 32) 12
    rw [pgSize] at hn
    simp at hmod ⊢
    omega
  rw [← hm, ← BitVec.and_assoc, hflags, BitVec.zero_and]

theorem ofNat_and_pteAddr {n : Nat} (hn : n % pgSize = 0) :
    BitVec.ofNat 32 n &&& pteAddr = BitVec.ofNat 32 n := by
  have hall : BitVec.ofNat 32 n &&& (pteAddr ||| 0xfff#32) = BitVec.ofNat 32 n := by
    rw [show pteAddr ||| 0xfff#32 = BitVec.allOnes 32 by decide, BitVec.and_allOnes]
  rwa [BitVec.and_or_distrib_left, ofNat_and_flags hn (m := 0xfff#32) (by decide), BitVec.or_zero]
    at hall

theorem KernelPage.vtop_aligned (hp : KernelPage page) : vtop page % pgSize = 0 := by
  obtain ⟨hal, hle, -⟩ := hp
  rw [pgOfs] at hal
  rw [vtop, physBase, pgSize] at *
  omega

/-- The page of an entry, whatever its flags are. -/
theorem entryPage_eq (hp : KernelPage page) (hk : k &&& pteAddr = 0#32) :
    entryPage (BitVec.ofNat 32 (vtop page) ||| k) = page ∧
      ((BitVec.ofNat 32 (vtop page) ||| k) &&& pteAddr).toNat < physBase := by
  rw [entryPage, or_and_of_disjoint hk, ofNat_and_pteAddr hp.vtop_aligned, BitVec.toNat_ofNat, ptov,
    vtop]
  have hle := hp.le
  have hlt := hp.lt
  rw [physBase] at *
  omega

theorem entry_flags (hp : KernelPage page) (hm : 0xfff#32 &&& m = m) :
    (BitVec.ofNat 32 (vtop page) ||| k) &&& m = k &&& m := by
  rw [BitVec.and_or_distrib_right, ofNat_and_flags hp.vtop_aligned hm, BitVec.zero_or]

/-- What `entryPage` and the present bit are of an entry for a page. -/
structure PointsTo (e : Word) (page : Nat) : Prop where
  page : entryPage e = page
  lt : (e &&& pteAddr).toNat < physBase
  present : e &&& pteP ≠ 0#32

theorem pointsTo_or (hp : KernelPage page) (hk : k &&& pteAddr = 0#32) (hP : k &&& pteP ≠ 0#32) :
    PointsTo (BitVec.ofNat 32 (vtop page) ||| k) page := by
  obtain ⟨hpage, hlt⟩ := entryPage_eq hp hk
  refine ⟨hpage, hlt, ?_⟩
  rwa [entry_flags hp (by decide)]

theorem pointsTo_pdeCreate (hp : KernelPage page) : PointsTo (pdeCreate page) page := by
  rw [pdeCreate, BitVec.or_assoc, BitVec.or_assoc]
  exact pointsTo_or hp (by decide) (by decide)

theorem pointsTo_pteCreateUser (hp : KernelPage page) : PointsTo (pteCreateUser page b) page := by
  rw [pteCreateUser, pteCreateKernel, BitVec.or_assoc, BitVec.or_assoc]
  cases b
  · exact pointsTo_or hp (by decide) (by decide)
  · exact pointsTo_or hp (by decide) (by decide)

theorem PointsTo.ne_zero {e : Word} (h : PointsTo e page) : e ≠ 0#32 := by
  rintro rfl
  exact h.present BitVec.zero_and

/-- The frame of a page table entry, if it is present. -/
def frame (e : Word) : Option Nat := if e &&& pteP ≠ 0#32 then some (entryPage e) else none

theorem frame_zero : frame 0#32 = none := if_neg (not_not.mpr BitVec.zero_and)

theorem PointsTo.frame_eq {e : Word} (h : PointsTo e page) : frame e = some page := by
  rw [frame, if_pos h.present, h.page]

end Entries

/-! ## Directories -/

section Directory

variable {M M' : Paging} {I : PagingInit} {pd va d pt : Nat} {table : Nat → Option Nat} {w : Word}
  {page : Option Nat}

/-- The directory `pd` has the page tables `table`, whatever the flags of the entries are: the CPU
sets `PTE_A`. -/
structure Directory (M : Paging) (pd : Nat) (table : Nat → Option Nat) : Prop where
  entry : ∀ d, d < 1024 → (table d).elim (M.words pd d = 0#32) (PointsTo (M.words pd d))
  page : ∀ d pt, table d = some pt → KernelPage pt ∧ M.used pt = true
  used : M.used pd = true
  apart : ∀ d, table d ≠ some pd
  inj : ∀ d e pt, table d = some pt → table e = some pt → d = e

/-- The page table entry for `va`, 0 if there is no page table for it. -/
def Paging.pte (M : Paging) (pd va : Nat) : Word :=
  if M.words pd (pdNo va) = 0#32 then 0#32 else M.words (entryPage (M.words pd (pdNo va))) (ptNo va)

/-- What `palloc_get_page` may return. -/
def Paging.Available (M : Paging) (page : Option Nat) : Prop :=
  ∀ p, page = some p → KernelPage p ∧ M.used p = false

theorem pdNo_lt (hva : va < 2 ^ 32) : pdNo va < 1024 := by
  rw [pdNo, pgSize]
  omega

theorem pgNo_eq_iff (va vb : Nat) : pgNo va = pgNo vb ↔ pdNo va = pdNo vb ∧ ptNo va = ptNo vb := by
  rw [pgNo, pgNo, pdNo, pdNo, ptNo, ptNo]
  omega

namespace Directory

theorem eq_zero (h : Directory M pd table) (hd : d < 1024) (ht : table d = none) :
    M.words pd d = 0#32 := by
  have hentry := h.entry d hd
  rwa [ht] at hentry

theorem pointsTo (h : Directory M pd table) (hd : d < 1024) (ht : table d = some pt) :
    PointsTo (M.words pd d) pt := by
  have hentry := h.entry d hd
  rwa [ht] at hentry

theorem pte_eq (h : Directory M pd table) (hva : va < 2 ^ 32) :
    M.pte pd va = ((table (pdNo va)).map fun pt => M.words pt (ptNo va)).getD 0#32 := by
  cases ht : table (pdNo va) with
  | none => exact if_pos (h.eq_zero (pdNo_lt hva) ht)
  | some pt =>
    have hp := h.pointsTo (pdNo_lt hva) ht
    rw [Paging.pte, if_neg hp.ne_zero, hp.page]
    rfl

/-- Taking a page for anything else changes nothing. -/
theorem take (h : Directory M pd table) (hnew : M.used pt = false) (fill : Nat → Word) :
    Directory { M with
      words := update M.words pt fill
      used := update M.used pt true } pd table := by
  have hne : ∀ p, M.used p = true → p ≠ pt := fun p hp he => by rw [he, hnew] at hp; cases hp
  refine ⟨fun d hd => ?_, fun d q hq => ?_, ?_, h.apart, h.inj⟩
  · dsimp only
    rw [update_of_ne (hne pd h.used)]
    exact h.entry d hd
  · obtain ⟨hpage, hused⟩ := h.page d q hq
    refine ⟨hpage, ?_⟩
    dsimp only
    rw [update_of_ne (hne q hused)]
    exact hused
  · dsimp only
    rw [update_of_ne (hne pd h.used)]
    exact h.used

theorem link (h : Directory M pd table) (hpt : KernelPage pt ∧ M.used pt = true) (hpd : pt ≠ pd)
    (hnew : ∀ d, table d ≠ some pt) (hd : d < 1024) :
    Directory
      { M with words := update M.words pd (update (M.words pd) d (pdeCreate pt)) }
      pd (update table d (some pt)) := by
  refine ⟨fun e he => ?_, fun e q hq => ?_, h.used, fun e => ?_, fun e f q he hf => ?_⟩
  · dsimp only
    rw [update_self]
    by_cases hed : e = d
    · subst hed
      rw [update_self, update_self]
      exact pointsTo_pdeCreate hpt.1
    · rw [update_of_ne hed, update_of_ne hed]
      exact h.entry e he
  · by_cases hed : e = d
    · subst hed
      rw [update_self] at hq
      cases hq
      exact hpt
    · rw [update_of_ne hed] at hq
      exact h.page e q hq
  · by_cases hed : e = d
    · subst hed
      rw [update_self]
      exact fun heq => hpd (some.inj heq)
    · rw [update_of_ne hed]
      exact h.apart e
  · by_cases hed : e = d <;> by_cases hfd : f = d
    · rw [hed, hfd]
    · subst hed
      rw [update_self] at he
      rw [update_of_ne hfd, ← he] at hf
      exact absurd hf (hnew f)
    · subst hfd
      rw [update_self] at hf
      rw [update_of_ne hed, ← hf] at he
      exact absurd he (hnew e)
    · rw [update_of_ne hed] at he
      rw [update_of_ne hfd] at hf
      exact h.inj e f q he hf

theorem store (h : Directory M pd table) (ht : table (pdNo va) = some pt) :
    ∃ M', storeWord pt (ptNo va) w M = some ((), M') ∧ M'.used = M.used ∧ M'.freed = M.freed ∧
      Directory M' pd table ∧
      ∀ vb, vb < 2 ^ 32 → M'.pte pd vb = if pgNo vb = pgNo va then w else M.pte pd vb := by
  have hpd : pd ≠ pt := fun he => h.apart _ (he ▸ ht)
  have hdir : Directory
      { M with words := update M.words pt (update (M.words pt) (ptNo va) w) } pd
      table := by
    refine ⟨fun d hd => ?_, h.page, h.used, h.apart, h.inj⟩
    dsimp only
    rw [update_of_ne hpd]
    exact h.entry d hd
  refine ⟨_, modify_eq, rfl, rfl, hdir, fun vb hvb => ?_⟩
  rw [hdir.pte_eq hvb, h.pte_eq hvb]
  by_cases hd : pdNo vb = pdNo va
  · rw [hd, ht]
    show update M.words pt _ pt (ptNo vb) = if _ then w else M.words pt (ptNo vb)
    rw [update_self]
    by_cases hi : ptNo vb = ptNo va
    · rw [hi, update_self, if_pos ((pgNo_eq_iff vb va).mpr ⟨hd, hi⟩)]
    · rw [update_of_ne hi, if_neg fun he => hi ((pgNo_eq_iff vb va).mp he).2]
  · rw [if_neg fun he => hd ((pgNo_eq_iff vb va).mp he).1]
    cases hb : table (pdNo vb) with
    | none => rfl
    | some q =>
      have hq : q ≠ pt := fun he => hd (h.inj _ _ pt (he ▸ hb) ht)
      show update M.words pt _ q (ptNo vb) = M.words q (ptNo vb)
      rw [update_of_ne hq]

end Directory

theorem pdeGetPt_eq (hto : PointsTo w pt) : pdeGetPt w M = some (pt, M) := by
  rw [pdeGetPt, bind_eq (assert_eq hto.present), pteGetPage, bind_eq (assert_eq hto.lt), hto.page]
  rfl

/-- `lookup_page` where there is a page table, or without `create`. -/
theorem Directory.lookupPage_eq (h : Directory M pd table) (hva : va < 2 ^ 32) {create : Bool}
    (hc : create = false ∨ va < physBase) (hold : create = true → table (pdNo va) = none →
      page = none) :
    lookupPage pd va create page M = some ((table (pdNo va)).map (·, ptNo va), M) := by
  unfold lookupPage
  rw [bind_eq (assert_eq hc), get_bind]
  cases ht : table (pdNo va) with
  | none =>
    rw [if_pos (h.eq_zero (pdNo_lt hva) ht)]
    cases create with
    | false => rfl
    | true =>
      rw [hold rfl ht]
      rfl
  | some pt =>
    have hp := h.pointsTo (pdNo_lt hva) ht
    rw [if_neg hp.ne_zero, bind_eq (pdeGetPt_eq hp)]
    rfl

/-- The directory has the page tables that it had, and perhaps a new one for the entry `d`, which is
the only page that has been taken. -/
def Grows (M : Paging) (table : Nat → Option Nat) (d : Nat) (M' : Paging)
    (table' : Nat → Option Nat) : Prop :=
  M'.used = M.used ∧ table' = table ∨ ∃ pt, M.used pt = false ∧
    M'.used = update M.used pt true ∧ table d = none ∧
    table' = update table d (some pt)

theorem Grows.used {table' : Nat → Option Nat} {p : Nat} (h : Grows M table d M' table')
    (hp : M.used p = true) : M'.used p = true := by
  obtain ⟨hused, -⟩ | ⟨pt, hnew, hused, -⟩ := h
  · rw [hused]
    exact hp
  · have hne : p ≠ pt := fun he => by rw [he, hnew] at hp; cases hp
    rw [hused, update_of_ne hne]
    exact hp

/-- `lookup_page` with `create`: no entry changes, whether the table was there, is new or could not
be had. -/
theorem Directory.lookupPage_create (h : Directory M pd table) (hva : va < physBase)
    (hav : M.Available page) :
    ∃ M' table', lookupPage pd va true page M = some ((table' (pdNo va)).map (·, ptNo va), M') ∧
      Directory M' pd table' ∧ M'.freed = M.freed ∧ Grows M table (pdNo va) M' table' ∧
      ∀ vb, vb < 2 ^ 32 → M'.pte pd vb = M.pte pd vb := by
  have hva' : va < 2 ^ 32 := by
    rw [physBase] at hva
    omega
  by_cases hold : table (pdNo va) = none → page = none
  · exact ⟨M, table, h.lookupPage_eq hva' (.inr hva) fun _ => hold, h, rfl, .inl ⟨rfl, rfl⟩,
      fun _ _ => rfl⟩
  -- there is no page table and `palloc_get_page` returns one
  obtain ⟨ht, hpage⟩ := Classical.not_imp.mp hold
  obtain ⟨pt, rfl⟩ := Option.ne_none_iff_exists'.mp hpage
  obtain ⟨hpt, hnew⟩ := hav pt rfl
  have hpd : pt ≠ pd := fun he => by rw [he, h.used] at hnew; cases hnew
  have hfresh : ∀ d, table d ≠ some pt := fun d hd => by
    rw [(h.page d pt hd).2] at hnew
    cases hnew
  have hlink := (h.take hnew fun _ => 0#32).link ⟨hpt, update_self ..⟩ hpd hfresh
    (pdNo_lt hva')
  refine ⟨_, _, ?_, hlink, rfl, .inr ⟨pt, hnew, rfl, ht, rfl⟩, fun vb hvb => ?_⟩
  · unfold lookupPage
    rw [bind_eq (assert_eq (.inr hva)), get_bind, if_pos (h.eq_zero (pdNo_lt hva') ht), if_pos rfl]
    dsimp only
    rw [bind_eq (show takePage pt (fun _ => 0#32) M = some ((), _) from rfl),
      bind_eq (assert_eq ⟨hpt.le, hpt.aligned⟩),
      bind_eq (show storeWord pd (pdNo va) (pdeCreate pt) _ = some ((), _) from rfl),
      bind_eq (pdeGetPt_eq (pointsTo_pdeCreate hpt)), update_self]
    rfl
  · rw [hlink.pte_eq hvb, h.pte_eq hvb]
    have hword : ∀ q i, q ≠ pd → q ≠ pt →
        update (update M.words pt fun _ => 0#32) pd
          (update (update M.words pt (fun _ => 0#32) pd) (pdNo va) (pdeCreate pt))
          q i = M.words q i := fun q i hqd hqt => by
      rw [update_of_ne hqd, update_of_ne hqt]
    by_cases hd : pdNo vb = pdNo va
    · rw [hd, update_self, ht]
      dsimp only [map_some, Option.map_none, getD_some, Option.getD_none]
      rw [update_of_ne hpd, update_self]
    · rw [update_of_ne hd]
      cases hb : table (pdNo vb) with
      | none => rfl
      | some q => exact hword q _ (fun he => h.apart _ (he ▸ hb)) fun he => hfresh _ (he ▸ hb)

end Directory

/-! ## Operations -/

/-- A call that changes the directory. -/
inductive PagedirOp where
  | setPage (upage kpage : Nat) (writable : Bool) (page : Option Nat)
  | clearPage (upage : Nat)
  | setDirty (vpage : Nat) (dirty : Bool)
  | setAccessed (vpage : Nat) (accessed : Bool)

namespace PagedirOp

/-- The call, and what it returns: `true` for the functions that return nothing. -/
def exec (I : PagingInit) (pd : Nat) : PagedirOp → Panic Paging Bool
  | setPage upage kpage writable page => pagedirSetPage I pd upage kpage writable page
  | clearPage upage => do
    pagedirClearPage pd upage
    return true
  | setDirty vpage dirty => do
    pagedirSetDirty pd vpage dirty
    return true
  | setAccessed vpage accessed => do
    pagedirSetAccessed pd vpage accessed
    return true

/-- The page that the call is about. -/
def vpage : PagedirOp → Nat
  | setPage upage .. => upage
  | clearPage upage => upage
  | setDirty vpage _ => vpage
  | setAccessed vpage _ => vpage

/-- The pointers are pointers, and `palloc_get_page` gives out no page that is in use. -/
def Args (M : Paging) : PagedirOp → Prop
  | setPage upage kpage _ page => upage < 2 ^ 32 ∧ kpage < 2 ^ 32 ∧ M.Available page
  | op => op.vpage < 2 ^ 32

/-- What a call that returns `r` makes of the entry `e` for its page. -/
def Changes (r : Bool) (e e' : Word) : PagedirOp → Prop
  | setPage upage kpage writable _ => upage < physBase ∧ KernelPage kpage ∧
    (r = true ∧ e &&& pteP = 0#32 ∧ e' = pteCreateUser kpage writable ∨ r = false ∧ e' = e)
  | clearPage upage => upage < physBase ∧ r = true ∧
    e' = if e &&& pteP ≠ 0#32 then e &&& ~~~pteP else e
  | setDirty _ dirty => r = true ∧ (e' = if dirty then e ||| pteD else e &&& ~~~pteD) ∨ e' = e
  | setAccessed _ accessed =>
    r = true ∧ (e' = if accessed then e ||| pteA else e &&& ~~~pteA) ∨ e' = e

end PagedirOp

/-- The frame that the page `p` was last set to, if it was not cleared since; the newest call is
first. -/
def mapping : List (PagedirOp × Bool) → Nat → Option Nat
  | [], _ => none
  | (.setPage upage kpage _ _, true) :: hist, p =>
    if p = pgNo upage then some kpage else mapping hist p
  | (.clearPage upage, _) :: hist, p => if p = pgNo upage then none else mapping hist p
  | _ :: hist, p => mapping hist p

/-- The calls on the directory `pd` since `pagedir_create` returned it, with what they returned;
`init_page_dir` has kernel mappings only. -/
inductive PagedirRuns (I : PagingInit) (pd : Nat) : List (PagedirOp × Bool) → Paging → Prop
  | create {M M' : Paging} {kernel : Nat → Option Nat} (hinit : Directory M I.pageDir kernel)
    (huser : ∀ d, d < pdNo physBase → kernel d = none) (hpd : M.Available (some pd))
    (h : pagedirCreate I (some pd) M = some (some pd, M')) : PagedirRuns I pd [] M'
  | call {M M' : Paging} {hist : List (PagedirOp × Bool)} {op : PagedirOp} {r : Bool}
    (hrun : PagedirRuns I pd hist M) (hargs : op.Args M)
    (h : op.exec I pd M = some (r, M')) : PagedirRuns I pd ((op, r) :: hist) M'

section Operations

variable {M M' : Paging} {I : PagingInit} {pd va pt : Nat} {table : Nat → Option Nat}
  {op : PagedirOp} {r : Bool} {hist : List (PagedirOp × Bool)} {e e' : Word} {m : Option Nat}

theorem pte_congr {vb : Nat} (h : pgNo va = pgNo vb) : M.pte pd va = M.pte pd vb := by
  obtain ⟨hd, ht⟩ := (pgNo_eq_iff va vb).mp h
  rw [Paging.pte, Paging.pte, hd, ht]

theorem Directory.pte_none (h : Directory M pd table) (hva : va < 2 ^ 32)
    (ht : table (pdNo va) = none) : M.pte pd va = 0#32 := by
  rw [h.pte_eq hva, ht]
  rfl

theorem Directory.words_eq (h : Directory M pd table) (hva : va < 2 ^ 32)
    (ht : table (pdNo va) = some pt) : M.words pt (ptNo va) = M.pte pd va := by
  rw [h.pte_eq hva, ht]
  rfl

/-- **What a call does**: it changes the entry of its own page, and no other entry. -/
structure PagedirOp.Effect (op : PagedirOp) (r : Bool) (M M' : Paging) (pd : Nat)
    (table : Nat → Option Nat) : Prop where
  dir : ∃ table', Directory M' pd table' ∧ Grows M table (pdNo op.vpage) M' table'
  freed : M'.freed = M.freed
  other : ∀ va, va < 2 ^ 32 → pgNo va ≠ pgNo op.vpage → M'.pte pd va = M.pte pd va
  own : op.Changes r (M.pte pd op.vpage) (M'.pte pd op.vpage)

theorem setPage_effect {upage kpage : Nat} {writable : Bool} {page : Option Nat}
    (h : Directory M pd table) (hargs : (PagedirOp.setPage upage kpage writable page).Args M)
    (hex : pagedirSetPage I pd upage kpage writable page M = some (r, M')) :
    (PagedirOp.setPage upage kpage writable page).Effect r M M' pd table := by
  obtain ⟨hu, hk, hav⟩ := hargs
  obtain ⟨-, hex⟩ := of_assert_bind hex
  obtain ⟨hkal, hex⟩ := of_assert_bind hex
  obtain ⟨hub, hex⟩ := of_assert_bind hex
  obtain ⟨⟨hkb, -⟩, hex⟩ := of_assert_bind hex
  obtain ⟨-, hex⟩ := of_assert_bind hex
  obtain ⟨M1, table', hlook, hdir, hfreed, hgrows, hpte⟩ := h.lookupPage_create hub hav
  rw [bind_eq hlook] at hex
  have hkp : KernelPage kpage := ⟨hkal, hkb, hk⟩
  cases ht : table' (pdNo upage) with
  | none =>
    rw [ht] at hex
    cases hex
    exact ⟨⟨_, hdir, hgrows⟩, hfreed, fun va hva _ => hpte va hva, hub, hkp,
      .inr ⟨rfl, hpte _ hu⟩⟩
  | some pt =>
    rw [ht, map_some] at hex
    dsimp only at hex
    rw [get_bind] at hex
    obtain ⟨hP, hex⟩ := of_assert_bind hex
    rw [hdir.words_eq hu ht, hpte _ hu] at hP
    obtain ⟨M2, hst, hused2, hfreed2, hdir2, hpte2⟩ :=
      hdir.store ht (w := pteCreateUser kpage writable)
    rw [bind_eq hst] at hex
    obtain ⟨rfl, rfl⟩ := Prod.mk.inj (some.inj hex)
    have hgrows2 : Grows M table (pdNo upage) M2 table' := by
      unfold Grows at hgrows ⊢
      rwa [hused2]
    refine ⟨⟨_, hdir2, hgrows2⟩, hfreed2.trans hfreed, fun va hva hne => ?_, hub, hkp,
      .inl ⟨rfl, hP, ?_⟩⟩
    · rw [hpte2 va hva, if_neg (show pgNo va ≠ pgNo upage from hne), hpte va hva]
    · rw [PagedirOp.vpage, hpte2 upage hu, if_pos rfl]

/-- A call that looks its page up and may store something else in its entry. -/
theorem effect_store (h : Directory M pd table) {w : Word} (hv : op.vpage < 2 ^ 32)
    (ht : table (pdNo op.vpage) = some pt)
    (hown : op.Changes r (M.pte pd op.vpage) w)
    (hex : storeWord pt (ptNo op.vpage) w M = some ((), M')) : op.Effect r M M' pd table := by
  obtain ⟨M1, hst, hused, hfreed, hdir, hpte⟩ := h.store ht (w := w)
  obtain ⟨-, rfl⟩ := Prod.mk.inj (some.inj (hst.symm.trans hex))
  refine ⟨⟨_, hdir, .inl ⟨hused, rfl⟩⟩, hfreed, fun va hva hne => ?_, ?_⟩
  · rw [hpte va hva, if_neg hne]
  · rw [hpte _ hv, if_pos rfl]
    exact hown

theorem effect_same (h : Directory M pd table)
    (hown : op.Changes r (M.pte pd op.vpage) (M.pte pd op.vpage)) : op.Effect r M M pd table :=
  ⟨⟨_, h, .inl ⟨rfl, rfl⟩⟩, rfl, fun _ _ _ => rfl, hown⟩

theorem clearPage_effect {upage : Nat} (h : Directory M pd table) (hu : upage < 2 ^ 32)
    (hex : pagedirClearPage pd upage M = some ((), M')) :
    (PagedirOp.clearPage upage).Effect true M M' pd table := by
  obtain ⟨-, hex⟩ := of_assert_bind hex
  obtain ⟨hub, hex⟩ := of_assert_bind hex
  rw [bind_eq (h.lookupPage_eq hu (.inl rfl) nofun)] at hex
  cases ht : table (pdNo upage) with
  | none =>
    rw [ht] at hex
    cases hex
    refine effect_same h ⟨hub, rfl, ?_⟩
    rw [PagedirOp.vpage, h.pte_none hu ht]
    rfl
  | some pt =>
    rw [ht] at hex
    change (if M.words pt (ptNo upage) &&& pteP ≠ 0#32 then _ else _ : Panic Paging Unit) M =
      _ at hex
    rw [h.words_eq hu ht] at hex
    split at hex
    · rename_i hP
      exact effect_store h hu ht ⟨hub, rfl, (if_pos hP).symm⟩ hex
    · rename_i hP
      cases hex
      exact effect_same h ⟨hub, rfl, (if_neg hP).symm⟩

theorem setFlag_effect {flag : Word} {on : Bool} (h : Directory M pd table)
    (hv : op.vpage < 2 ^ 32) (hex : pagedirSetFlag flag pd op.vpage on M = some ((), M'))
    (hsame : ∀ e, op.Changes true e e)
    (hset : ∀ e, op.Changes true e (if on then e ||| flag else e &&& ~~~flag)) :
    op.Effect true M M' pd table := by
  rw [pagedirSetFlag, bind_eq (h.lookupPage_eq hv (.inl rfl) nofun)] at hex
  cases ht : table (pdNo op.vpage) with
  | none =>
    rw [ht] at hex
    cases hex
    exact effect_same h (hsame _)
  | some pt =>
    rw [ht] at hex
    refine effect_store h hv ht (hset _) ?_
    rw [← h.words_eq hv ht]
    cases on with
    | false => exact hex
    | true => exact hex

theorem PagedirOp.exec_effect (h : Directory M pd table) (hargs : op.Args M)
    (hex : op.exec I pd M = some (r, M')) : op.Effect r M M' pd table := by
  cases op with
  | setPage upage kpage writable page => exact setPage_effect h hargs hex
  | clearPage upage =>
    obtain ⟨_, M1, hcall, hret⟩ := of_bind_eq hex
    cases hret
    exact clearPage_effect h hargs hcall
  | setDirty vpage dirty =>
    obtain ⟨_, M1, hcall, hret⟩ := of_bind_eq hex
    cases hret
    exact setFlag_effect h hargs hcall (fun _ => .inr rfl) fun _ => .inl ⟨rfl, rfl⟩
  | setAccessed vpage accessed =>
    obtain ⟨_, M1, hcall, hret⟩ := of_bind_eq hex
    cases hret
    exact setFlag_effect h hargs hcall (fun _ => .inr rfl) fun _ => .inl ⟨rfl, rfl⟩

/-! ## The map -/

/-- The entry `e` maps its page to the frame `k`, or does not map it. -/
def Maps (e : Word) : Option Nat → Prop
  | some k => KernelPage k ∧ PointsTo e k
  | none => e &&& pteP = 0#32

theorem Maps.frame_eq (h : Maps e m) : frame e = m := by
  cases m with
  | none => exact if_neg (not_not.mpr h)
  | some k => exact h.2.frame_eq

/-- The bits that say where a page is and how it may be used. -/
def pteMap : Word := pteAddr ||| pteP ||| pteW ||| pteU

theorem maps_congr (h : e' &&& pteMap = e &&& pteMap) (hm : Maps e m) : Maps e' m := by
  have hpart : ∀ k, pteMap &&& k = k → e' &&& k = e &&& k := fun k hk => by
    rw [← hk, ← BitVec.and_assoc, h, BitVec.and_assoc]
  have hP := hpart pteP (by decide)
  have ha := hpart pteAddr (by decide)
  cases m with
  | none => exact hP.trans hm
  | some k =>
    obtain ⟨hk, hto⟩ := hm
    refine ⟨hk, ⟨?_, ha ▸ hto.lt, hP ▸ hto.present⟩⟩
    rw [entryPage, ha]
    exact hto.page

/-- Setting or clearing a flag that says neither. -/
theorem set_and_pteMap {flag : Word} {on : Bool} (h : flag &&& pteMap = 0#32) :
    (if on then e ||| flag else e &&& ~~~flag) &&& pteMap = e &&& pteMap := by
  cases on with
  | false => exact and_not_and_of_disjoint h
  | true => exact or_and_of_disjoint h

/-- The calls on the flags leave the mapping alone. -/
theorem PagedirOp.Changes.kernel (h : op.Changes r e e') (hv : physBase ≤ op.vpage) :
    e' &&& pteMap = e &&& pteMap := by
  cases op with
  | setPage => exact absurd h.1 (Nat.not_lt.mpr hv)
  | clearPage => exact absurd h.1 (Nat.not_lt.mpr hv)
  | setDirty =>
    obtain ⟨-, rfl⟩ | rfl := h
    · exact set_and_pteMap (by decide)
    · rfl
  | setAccessed =>
    obtain ⟨-, rfl⟩ | rfl := h
    · exact set_and_pteMap (by decide)
    · rfl

theorem PagedirOp.Changes.failed (h : op.Changes false e e') : e' = e := by
  cases op with
  | setPage =>
    obtain ⟨-, -, ⟨hr, -⟩ | ⟨-, he⟩⟩ := h
    · cases hr
    · exact he
  | clearPage => cases h.2.1
  | setDirty =>
    obtain ⟨hr, -⟩ | he := h
    · cases hr
    · exact he
  | setAccessed =>
    obtain ⟨hr, -⟩ | he := h
    · cases hr
    · exact he

theorem mapping_other {p : Nat} (hp : p ≠ pgNo op.vpage) :
    mapping ((op, r) :: hist) p = mapping hist p := by
  cases op with
  | setPage =>
    cases r with
    | false => rfl
    | true => exact if_neg hp
  | clearPage => exact if_neg hp
  | setDirty => rfl
  | setAccessed => rfl

/-- The entry of the page of the call is what the history says after it. -/
theorem PagedirOp.Changes.maps (h : op.Changes r e e')
    (hm : Maps e (mapping hist (pgNo op.vpage))) :
    Maps e' (mapping ((op, r) :: hist) (pgNo op.vpage)) := by
  cases op with
  | setPage =>
    obtain ⟨-, hk, ⟨rfl, -, rfl⟩ | ⟨rfl, rfl⟩⟩ := h
    · rw [mapping, vpage, if_pos rfl]
      exact ⟨hk, pointsTo_pteCreateUser hk⟩
    · exact hm
  | clearPage =>
    obtain ⟨-, rfl, rfl⟩ := h
    rw [mapping, vpage, if_pos rfl]
    split
    · show e &&& ~~~pteP &&& pteP = 0#32
      rw [BitVec.and_assoc, show ~~~pteP &&& pteP = 0#32 by decide, BitVec.and_zero]
    · rename_i hP
      exact not_not.mp hP
  | setDirty =>
    obtain ⟨-, rfl⟩ | rfl := h
    · exact maps_congr (set_and_pteMap (by decide)) hm
    · exact hm
  | setAccessed =>
    obtain ⟨-, rfl⟩ | rfl := h
    · exact maps_congr (set_and_pteMap (by decide)) hm
    · exact hm

/-- What is kept along a run. -/
structure PagedirInv (I : PagingInit) (pd : Nat) (hist : List (PagedirOp × Bool)) (M : Paging) :
    Prop where
  dir : ∃ table, Directory M pd table
  ne : pd ≠ I.pageDir
  page : KernelPage pd
  maps : ∀ va, va < physBase → Maps (M.pte pd va) (mapping hist (pgNo va))

theorem lt_of_lt_physBase (h : va < physBase) : va < 2 ^ 32 := by
  rw [physBase] at h
  omega

theorem pdNo_lt_of_lt (h : va < physBase) : pdNo va < pdNo physBase := by
  rw [physBase] at h
  rw [pdNo, pdNo, physBase, pgSize]
  omega

theorem PagedirOp.Effect.maps (heff : op.Effect r M M' pd table)
    (hmaps : ∀ va, va < physBase → Maps (M.pte pd va) (mapping hist (pgNo va))) :
    ∀ va, va < physBase → Maps (M'.pte pd va) (mapping ((op, r) :: hist) (pgNo va)) := by
  intro va hva
  have hm := hmaps va hva
  by_cases hp : pgNo va = pgNo op.vpage
  · rw [hp, pte_congr hp] at hm ⊢
    exact heff.own.maps hm
  · rw [heff.other va (lt_of_lt_physBase hva) hp, mapping_other hp]
    exact hm

theorem PagedirRuns.inv (h : PagedirRuns I pd hist M) : PagedirInv I pd hist M := by
  induction h with
  | @create M M' kernel hinit huser hpd h =>
    obtain ⟨hpage, hnew⟩ := hpd pd rfl
    cases h
    have hdir : Directory { M with
        words := update M.words pd (M.words I.pageDir)
        used := update M.used pd true } pd kernel := by
      refine ⟨fun d hd => ?_, (hinit.take hnew (M.words I.pageDir)).page, ?_, fun d hd =>
        ?_, hinit.inj⟩
      · dsimp only
        rw [update_self]
        exact hinit.entry d hd
      · exact update_self ..
      · rw [(hinit.page d pd hd).2] at hnew
        cases hnew
    refine ⟨⟨kernel, hdir⟩, fun he => ?_, hpage, fun va hva => ?_⟩
    · rw [he, hinit.used] at hnew
      cases hnew
    · rw [hdir.pte_eq (lt_of_lt_physBase hva), huser _ (pdNo_lt_of_lt hva)]
      exact BitVec.zero_and
  | @call M M' hist op r hrun hargs h ih =>
    obtain ⟨table, hdir⟩ := ih.dir
    have heff := PagedirOp.exec_effect hdir hargs h
    obtain ⟨table', hdir', -⟩ := heff.dir
    exact ⟨⟨table', hdir'⟩, ih.ne, ih.page, heff.maps ih.maps⟩

/-- `pagedir_get_page` returns what the entry says. -/
theorem Directory.pagedirGetPage_eq (hdir : Directory M pd table) (hva : va < physBase)
    (hmaps : Maps (M.pte pd va) m) :
    pagedirGetPage pd va M = some (m.map (· + pgOfs va), M) := by
  have hva' := lt_of_lt_physBase hva
  unfold pagedirGetPage
  rw [bind_eq (assert_eq hva), bind_eq (hdir.lookupPage_eq hva' (.inl rfl) nofun)]
  cases ht : table (pdNo va) with
  | none =>
    rw [← hmaps.frame_eq, hdir.pte_none hva' ht]
    rfl
  | some pt =>
    show (if M.words pt (ptNo va) &&& pteP ≠ 0#32 then _ else _ : Panic Paging (Option Nat)) M = _
    rw [hdir.words_eq hva' ht]
    cases m with
    | none => exact congrFun (if_neg (not_not.mpr hmaps)) M
    | some k =>
      rw [if_pos hmaps.2.present, pteGetPage, bind_eq (bind_eq (assert_eq hmaps.2.lt)),
        hmaps.2.page]
      rfl

/-- `pagedir_set_page` returns if its assertions hold. -/
theorem Directory.pagedirSetPage_returns (hdir : Directory M pd table) (writable : Bool)
    {upage kpage : Nat} {page : Option Nat} (hpd : pd ≠ I.pageDir) (hav : M.Available page)
    (hal : pgOfs upage = 0) (hkal : pgOfs kpage = 0) (hu : upage < physBase)
    (hk : physBase ≤ kpage ∧ vtop kpage / pgSize < I.ramPages)
    (hP : M.pte pd upage &&& pteP = 0#32) :
    ∃ r M', pagedirSetPage I pd upage kpage writable page M = some (r, M') := by
  have hu' := lt_of_lt_physBase hu
  obtain ⟨M1, table', hlook, hdir1, -, -, hpte⟩ := hdir.lookupPage_create hu hav
  rw [pagedirSetPage, bind_eq (assert_eq hal), bind_eq (assert_eq hkal), bind_eq (assert_eq hu),
    bind_eq (assert_eq hk), bind_eq (assert_eq hpd), bind_eq hlook]
  cases ht : table' (pdNo upage) with
  | none => exact ⟨false, M1, rfl⟩
  | some pt =>
    rw [← hpte upage hu', ← hdir1.words_eq hu' ht] at hP
    rw [map_some]
    dsimp only
    rw [get_bind, bind_eq (assert_eq hP)]
    exact ⟨true, _, rfl⟩

end Operations

/-! ## Destruction -/

/-- The state after the pages `L` have been given back, the newest first. -/
def Paging.release (M : Paging) (L : List Nat) : Paging where
  words p := if p ∈ L then fun _ => 0xcccccccc else M.words p
  used p := if p ∈ L then false else M.used p
  freed := L ++ M.freed

/-- The frames of the page table `pt`. -/
def Paging.frames (M : Paging) (pt : Nat) : List Nat :=
  (List.range (pgSize / 4)).filterMap fun j => frame (M.words pt j)

/-- What `pagedir_destroy` frees for an entry of the directory, in order. -/
def Paging.freeing (M : Paging) (pde : Word) : List Nat :=
  ((frame pde).map fun pt => M.frames pt ++ [pt]).getD []

/-- The user page tables of the directory `pd`. -/
def Paging.userTables (M : Paging) (pd : Nat) : List Nat :=
  (List.range (pdNo physBase)).filterMap fun d => frame (M.words pd d)

/-- The frames that the user pages are mapped to, one for each page that is mapped. -/
def mappedFrames (hist : List (PagedirOp × Bool)) : List Nat :=
  (List.range (pgNo physBase)).filterMap (mapping hist)

section Destroy

variable {M : Paging} {I : PagingInit} {pd pt page : Nat} {table : Nat → Option Nat}
  {hist : List (PagedirOp × Bool)} {L : List Nat}

theorem Paging.release_nil (M : Paging) : M.release [] = M := by
  simp [Paging.release]

theorem freePage_release (hal : pgOfs page = 0) (hused : M.used page = true) (hL : page ∉ L) :
    freePage page (M.release L) = some ((), M.release (page :: L)) := by
  have hin : (M.release L).used page = true := (if_neg hL).trans hused
  rw [freePage, bind_eq (assert_eq hal), get_bind, bind_eq (assert_eq hin), modify_eq]
  congr 2
  rw [Paging.release, Paging.release, Paging.mk.injEq]
  refine ⟨funext fun p => ?_, funext fun p => ?_, rfl⟩
  · by_cases hp : p = page
    · subst hp
      rw [update_self, if_pos mem_cons_self]
    · rw [update_of_ne hp]
      simp [hp]
  · by_cases hp : p = page
    · subst hp
      rw [update_self, if_pos mem_cons_self]
    · rw [update_of_ne hp]
      simp [hp]

/-- The page may be given back. -/
def Paging.Freeable (M : Paging) (page : Nat) : Prop := pgOfs page = 0 ∧ M.used page = true

theorem frame_eq_none {e : Word} (h : frame e = none) : ¬ e &&& pteP ≠ 0#32 := by
  intro hP
  rw [frame, if_pos hP] at h
  cases h

theorem Paging.release_words {p : Nat} (hL : p ∉ L) : (M.release L).words p = M.words p := if_neg hL

theorem freeFrames_eq {js F : List Nat} (hF : js.filterMap (fun j => frame (M.words pt j)) = F)
    (hto : ∀ j ∈ js, ∀ k, frame (M.words pt j) = some k → PointsTo (M.words pt j) k)
    (hok : ∀ p ∈ F, M.Freeable p) (hnd : (F ++ L).Nodup) (hpt : pt ∉ F ++ L) :
    js.forM (freeEntry pt) (M.release L) = some ((), M.release (F.reverse ++ L)) := by
  induction js generalizing L F with
  | nil =>
    subst hF
    rfl
  | cons j js ih =>
    have hread := Paging.release_words (M := M) fun h => hpt (mem_append_right F h)
    show (freeEntry pt j >>= fun _ => js.forM (freeEntry pt)) (M.release L) = _
    cases hf : frame (M.words pt j) with
    | none =>
      rw [filterMap_cons, hf] at hF
      have hskip : freeEntry pt j (M.release L) = some ((), M.release L) := by
        rw [freeEntry, get_bind, hread, if_neg (frame_eq_none hf)]
        rfl
      rw [bind_eq hskip]
      exact ih hF (fun i hi => hto i (mem_cons_of_mem _ hi)) hok hnd hpt
    | some k =>
      rw [filterMap_cons, hf] at hF
      subst hF
      have hk := hto j mem_cons_self k hf
      obtain ⟨hal, hused⟩ := hok k mem_cons_self
      have hperm : (js.filterMap (fun j => frame (M.words pt j)) ++ k :: L).Perm
          (k :: (js.filterMap (fun j => frame (M.words pt j)) ++ L)) := perm_middle
      have hfree : freeEntry pt j (M.release L) = some ((), M.release (k :: L)) := by
        rw [freeEntry, get_bind, hread, if_pos hk.present, pteGetPage,
          bind_eq (bind_eq (assert_eq hk.lt)), hk.page]
        exact freePage_release hal hused fun h =>
          (nodup_cons.mp hnd).1 (mem_append_right _ h)
      rw [bind_eq hfree, ih rfl (fun i hi => hto i (mem_cons_of_mem _ hi))
        (fun p hp => hok p (mem_cons_of_mem _ hp)) (hperm.nodup_iff.mpr hnd)
        fun h => hpt (hperm.mem_iff.mp h), reverse_cons, append_assoc]
      rfl

/-- An entry of the directory that `pagedir_destroy` can follow: the page table and its entries. -/
def Paging.Sound (M : Paging) (pde : Word) : Prop :=
  ∀ pt, frame pde = some pt → PointsTo pde pt ∧
    ∀ j, j < pgSize / 4 → ∀ k, frame (M.words pt j) = some k → PointsTo (M.words pt j) k

theorem freeTable_eq {F : List Nat} {d : Nat} (hF : M.freeing (M.words pd d) = F)
    (hpde : M.Sound (M.words pd d)) (hok : ∀ p ∈ F, M.Freeable p) (hnd : (F ++ L).Nodup)
    (hpd : pd ∉ L) :
    freeTable pd d (M.release L) = some ((), M.release (F.reverse ++ L)) := by
  rw [freeTable, get_bind, Paging.release_words hpd]
  cases hf : frame (M.words pd d) with
  | none =>
    rw [Paging.freeing, hf] at hF
    subst hF
    rw [if_neg (frame_eq_none hf)]
    rfl
  | some pt =>
    rw [Paging.freeing, hf, map_some, getD_some] at hF
    subst hF
    obtain ⟨hto, hents⟩ := hpde pt hf
    rw [append_assoc, singleton_append, perm_middle.nodup_iff, nodup_cons]
      at hnd
    obtain ⟨hpt, hnd⟩ := hnd
    obtain ⟨hal, hused⟩ := hok pt (mem_append_right _ (mem_singleton_self pt))
    have hget : pdeGetPt (M.words pd d) (M.release L) = some (pt, M.release L) := by
      rw [pdeGetPt, bind_eq (assert_eq hto.present), pteGetPage, bind_eq (assert_eq hto.lt),
        hto.page]
      rfl
    have hloop := freeFrames_eq (L := L) (F := M.frames pt) rfl
      (fun j hj => hents j (mem_range.mp hj)) (fun p hp => hok p (mem_append_left _ hp))
      hnd hpt
    have hptF : pt ∉ (M.frames pt).reverse ++ L := fun h =>
      hpt (((reverse_perm _).append_right L).mem_iff.mp h)
    rw [if_pos hto.present, bind_eq hget, bind_eq hloop, reverse_append,
      reverse_singleton, append_assoc, singleton_append]
    exact freePage_release hal hused hptF

theorem freeTables_eq {ds F : List Nat} (hF : ds.flatMap (fun d => M.freeing (M.words pd d)) = F)
    (hpde : ∀ d ∈ ds, M.Sound (M.words pd d)) (hok : ∀ p ∈ F, M.Freeable p)
    (hnd : (F ++ L).Nodup) (hpd : pd ∉ F ++ L) :
    ds.forM (freeTable pd) (M.release L) = some ((), M.release (F.reverse ++ L)) := by
  induction ds generalizing L F with
  | nil =>
    subst hF
    rfl
  | cons d ds ih =>
    rw [flatMap_cons] at hF
    generalize hT : M.freeing (M.words pd d) = T at hF
    generalize hG : ds.flatMap (fun d => M.freeing (M.words pd d)) = G at hF
    subst hF
    rw [append_assoc] at hnd hpd
    -- what is freed first moves behind what is still to be freed
    have hperm : (T ++ (G ++ L)).Perm (G ++ (T.reverse ++ L)) :=
      (perm_append_comm_assoc _ _ _).trans
        ((List.Perm.append_right L (reverse_perm _).symm).append_left G)
    have htable := freeTable_eq (L := L) hT (hpde d mem_cons_self)
      (fun p hp => hok p (mem_append_left _ hp))
      (hnd.sublist ((sublist_append_right G L).append_left _))
      fun h => hpd (mem_append_right _ (mem_append_right _ h))
    show (freeTable pd d >>= fun _ => ds.forM (freeTable pd)) (M.release L) = _
    rw [bind_eq htable, ih hG (fun i hi => hpde i (mem_cons_of_mem _ hi))
      (fun p hp => hok p (mem_append_right _ hp)) (hperm.nodup_iff.mp hnd)
      fun h => hpd (hperm.mem_iff.mpr h), reverse_append, append_assoc]

theorem pagedirDestroy_eq {F : List Nat}
    (hF : (List.range (pdNo physBase)).flatMap (fun d => M.freeing (M.words pd d)) = F)
    (hI : pd ≠ I.pageDir)
    (hpde : ∀ d, d < pdNo physBase → M.Sound (M.words pd d))
    (hok : ∀ p ∈ pd :: F, M.Freeable p) (hnd : (pd :: F).Nodup) :
    pagedirDestroy I (some pd) M = some ((), M.release (pd :: F.reverse)) := by
  obtain ⟨hpd, hnd⟩ := nodup_cons.mp hnd
  obtain ⟨hal, hused⟩ := hok pd mem_cons_self
  have hloop := freeTables_eq (L := []) hF (fun d hd => hpde d (mem_range.mp hd))
    (fun p hp => hok p (mem_cons_of_mem _ hp)) (by rwa [append_nil])
    (by rwa [append_nil])
  rw [Paging.release_nil, append_nil] at hloop
  unfold pagedirDestroy
  dsimp only
  rw [bind_eq (assert_eq hI), bind_eq hloop]
  exact freePage_release hal hused (by rwa [mem_reverse])

/-- The elements of a range of `n * m`, row by row. -/
theorem filterMap_range_mul {α : Type} (f : Nat → Option α) (n m : Nat) :
    (List.range (n * m)).filterMap f =
      (List.range n).flatMap fun i => (List.range m).filterMap fun j => f (i * m + j) := by
  induction n with
  | zero => simp
  | succ n ih =>
    rw [Nat.succ_mul, range_add, filterMap_append, ih, range_succ, flatMap_append, filterMap_map]
    simp

/-- The frames of the user page tables are those that the user pages are mapped to. -/
theorem PagedirInv.mappedFrames_eq (h : PagedirInv I pd hist M) (hdir : Directory M pd table) :
    (List.range (pdNo physBase)).flatMap (fun d => ((table d).map M.frames).getD []) =
      mappedFrames hist := by
  have hsize : pgNo physBase = pdNo physBase * (pgSize / 4) := by decide
  rw [mappedFrames, hsize, filterMap_range_mul]
  refine flatMap_congr fun d hd => ?_
  have hva : ∀ j, j < pgSize / 4 → (d * (pgSize / 4) + j) * pgSize < physBase ∧
      pgNo ((d * (pgSize / 4) + j) * pgSize) = d * (pgSize / 4) + j ∧
      pdNo ((d * (pgSize / 4) + j) * pgSize) = d ∧ ptNo ((d * (pgSize / 4) + j) * pgSize) = j := by
    have hd := mem_range.mp hd
    simp only [pdNo, ptNo, pgNo, pgSize, physBase] at hd ⊢
    omega
  have hent : ∀ j, j < pgSize / 4 → mapping hist (d * (pgSize / 4) + j) =
      (table d).bind fun pt => frame (M.words pt j) := by
    intro j hj
    obtain ⟨hlt, hpg, hpd, hpt⟩ := hva j hj
    have hmaps := h.maps _ hlt
    rw [hpg, hdir.pte_eq (lt_of_lt_physBase hlt), hpd, hpt] at hmaps
    rw [← hmaps.frame_eq]
    cases table d with
    | none => exact frame_zero
    | some pt => rfl
  rw [filterMap_congr fun j hj => hent j (mem_range.mp hj)]
  cases table d with
  | none => simp
  | some pt => simp only [Option.bind_some, map_some, getD_some, Paging.frames]

theorem Directory.frame_eq (hdir : Directory M pd table) {d : Nat} (hd : d < 1024) :
    frame (M.words pd d) = table d := by
  cases ht : table d with
  | none => rw [hdir.eq_zero hd ht, frame_zero]
  | some pt => exact (hdir.pointsTo hd ht).frame_eq

theorem lt_of_user {d : Nat} (hd : d ∈ List.range (pdNo physBase)) : d < 1024 :=
  Nat.lt_trans (mem_range.mp hd) (by decide)

theorem Directory.userTables_eq (hdir : Directory M pd table) :
    M.userTables pd = (List.range (pdNo physBase)).filterMap table :=
  filterMap_congr fun _ hd => hdir.frame_eq (lt_of_user hd)

/-- Every frame that a user page is mapped to is a page in use, which no other user page is mapped
to and which is not part of the directory. -/
structure FramesOwned (M : Paging) (pd : Nat) (hist : List (PagedirOp × Bool)) : Prop where
  nodup : (mappedFrames hist).Nodup
  used : ∀ k ∈ mappedFrames hist, M.used k = true
  apart : ∀ k ∈ mappedFrames hist, k ≠ pd ∧ k ∉ M.userTables pd

theorem PagedirInv.freeing_perm (h : PagedirInv I pd hist M) (hdir : Directory M pd table) :
    ((List.range (pdNo physBase)).flatMap fun d => M.freeing (M.words pd d)).Perm
      (M.userTables pd ++ mappedFrames hist) := by
  rw [← h.mappedFrames_eq hdir, hdir.userTables_eq, filterMap_eq_flatMap_toList]
  refine ((List.Perm.of_eq (flatMap_congr fun d hd => ?_)).trans
    (flatMap_append_perm (List.range (pdNo physBase))
      (fun d => ((table d).map M.frames).getD []) fun d => (table d).toList).symm).trans
    perm_append_comm
  rw [Paging.freeing, hdir.frame_eq (lt_of_user hd)]
  cases table d with
  | none => rfl
  | some pt => simp only [map_some, getD_some, Option.toList_some]

theorem PagedirInv.sound (h : PagedirInv I pd hist M) (hdir : Directory M pd table) {d : Nat}
    (hd : d < pdNo physBase) : M.Sound (M.words pd d) := by
  have hd' : d < 1024 := Nat.lt_trans hd (by decide)
  intro pt hpt
  rw [hdir.frame_eq hd'] at hpt
  refine ⟨hdir.pointsTo hd' hpt, fun j hj k hk => ?_⟩
  have hva : (d * 1024 + j) * pgSize < physBase ∧ pdNo ((d * 1024 + j) * pgSize) = d ∧
      ptNo ((d * 1024 + j) * pgSize) = j := by
    simp only [pdNo, ptNo, pgSize, physBase] at hd hj ⊢
    omega
  obtain ⟨hlt, hpd, hj'⟩ := hva
  have hmaps := h.maps _ hlt
  rw [hdir.pte_eq (lt_of_lt_physBase hlt), hpd, hj', hpt, map_some, getD_some]
    at hmaps
  rw [hmaps.frame_eq] at hk
  rw [hk] at hmaps
  exact hmaps.2

/-- The frames of the map are pages of the kernel. -/
theorem PagedirInv.mem_mappedFrames (h : PagedirInv I pd hist M) {k : Nat}
    (hk : k ∈ mappedFrames hist) : KernelPage k := by
  obtain ⟨p, hp, hpk⟩ := mem_filterMap.mp hk
  have hp := mem_range.mp hp
  have hva : p * pgSize < physBase ∧ pgNo (p * pgSize) = p := by
    simp only [pgNo, pgSize, physBase] at hp ⊢
    omega
  have hmaps := h.maps _ hva.1
  rw [hva.2, hpk] at hmaps
  exact hmaps.1

theorem PagedirInv.destroy (h : PagedirInv I pd hist M) (hown : FramesOwned M pd hist) :
    ∃ L, pagedirDestroy I (some pd) M = some ((), M.release L) ∧ L.Nodup ∧
      L.Perm (pd :: (M.userTables pd ++ mappedFrames hist)) := by
  obtain ⟨table, hdir⟩ := h.dir
  have hperm := h.freeing_perm hdir
  generalize hF : (List.range (pdNo physBase)).flatMap (fun d => M.freeing (M.words pd d)) = F
    at hperm
  have htable : ∀ pt ∈ M.userTables pd, ∃ d, table d = some pt := by
    intro pt hpt
    obtain ⟨d, hd, hdpt⟩ := mem_filterMap.mp hpt
    exact ⟨d, (hdir.frame_eq (lt_of_user hd)).symm.trans hdpt⟩
  have hnd : (pd :: (M.userTables pd ++ mappedFrames hist)).Nodup := by
    refine nodup_cons.mpr ⟨fun hmem => ?_, nodup_append'.mpr ⟨?_, hown.nodup, ?_⟩⟩
    · obtain hmem | hmem := mem_append.mp hmem
      · obtain ⟨d, hd⟩ := htable pd hmem
        exact hdir.apart d hd
      · exact (hown.apart pd hmem).1 rfl
    · rw [hdir.userTables_eq]
      exact nodup_range.filterMap hdir.inj
    · exact fun k hk hk' => (hown.apart k hk').2 hk
  have hok : ∀ p ∈ pd :: F, M.Freeable p := by
    intro p hp
    obtain rfl | hp := mem_cons.mp hp
    · exact ⟨h.page.aligned, hdir.used⟩
    obtain hp | hp := mem_append.mp (hperm.mem_iff.mp hp)
    · obtain ⟨d, hd⟩ := htable p hp
      exact ⟨(hdir.page d p hd).1.aligned, (hdir.page d p hd).2⟩
    · exact ⟨(h.mem_mappedFrames hp).aligned, hown.used p hp⟩
  have hpermL : (pd :: F.reverse).Perm (pd :: (M.userTables pd ++ mappedFrames hist)) :=
    ((reverse_perm F).trans hperm).cons pd
  exact ⟨pd :: F.reverse, pagedirDestroy_eq hF h.ne (fun d hd => h.sound hdir hd) hok
    ((hperm.cons pd).nodup_iff.mpr hnd), hpermL.nodup_iff.mpr hnd, hpermL⟩

end Destroy

/-! ## The page directory as a map -/

/-- The call meets the assertions of its function. -/
def PagedirOp.Respects (I : PagingInit) (hist : List (PagedirOp × Bool)) : PagedirOp → Prop
  | setPage upage kpage _ _ => pgOfs upage = 0 ∧ pgOfs kpage = 0 ∧ upage < physBase ∧
    (physBase ≤ kpage ∧ vtop kpage / pgSize < I.ramPages) ∧ mapping hist (pgNo upage) = none
  | clearPage upage => pgOfs upage = 0 ∧ upage < physBase
  | setDirty .. => True
  | setAccessed .. => True

section Map

variable {M M' : Paging} {I : PagingInit} {pd va : Nat} {table : Nat → Option Nat}
  {op : PagedirOp} {r : Bool} {hist : List (PagedirOp × Bool)}

theorem pagedirSetFlag_returns (flag : Word) (on : Bool) (h : Directory M pd table)
    (hva : va < 2 ^ 32) : ∃ M', pagedirSetFlag flag pd va on M = some ((), M') := by
  rw [pagedirSetFlag, bind_eq (h.lookupPage_eq hva (.inl rfl) nofun)]
  cases table (pdNo va) with
  | none => exact ⟨_, rfl⟩
  | some pt =>
    cases on with
    | false => exact ⟨_, rfl⟩
    | true => exact ⟨_, rfl⟩

theorem PagedirInv.returns (h : PagedirInv I pd hist M) (hargs : op.Args M)
    (hop : op.Respects I hist) : ∃ r M', op.exec I pd M = some (r, M') := by
  obtain ⟨table, hdir⟩ := h.dir
  cases op with
  | setPage upage kpage writable page =>
    obtain ⟨hal, hkal, hu, hk, hnone⟩ := hop
    have hmaps := h.maps upage hu
    rw [hnone] at hmaps
    exact hdir.pagedirSetPage_returns writable h.ne hargs.2.2 hal hkal hu hk hmaps
  | clearPage upage =>
    obtain ⟨hal, hu⟩ := hop
    have hcall : ∃ M', pagedirClearPage pd upage M = some ((), M') := by
      rw [pagedirClearPage, bind_eq (assert_eq hal), bind_eq (assert_eq hu),
        bind_eq (hdir.lookupPage_eq (show upage < 2 ^ 32 from hargs) (.inl rfl) nofun)]
      cases table (pdNo upage) with
      | none => exact ⟨_, rfl⟩
      | some pt =>
        rw [map_some]
        dsimp only
        rw [get_bind]
        split
        · exact ⟨_, rfl⟩
        · exact ⟨_, rfl⟩
    obtain ⟨M', hcall⟩ := hcall
    exact ⟨true, M', by rw [PagedirOp.exec, bind_eq hcall]; rfl⟩
  | setDirty vpage dirty =>
    obtain ⟨M', hcall⟩ := pagedirSetFlag_returns pteD dirty hdir (show vpage < 2 ^ 32 from hargs)
    exact ⟨true, M', by rw [PagedirOp.exec, pagedirSetDirty, bind_eq hcall]; rfl⟩
  | setAccessed vpage accessed =>
    obtain ⟨M', hcall⟩ := pagedirSetFlag_returns pteA accessed hdir (show vpage < 2 ^ 32 from hargs)
    exact ⟨true, M', by rw [PagedirOp.exec, pagedirSetAccessed, bind_eq hcall]; rfl⟩

/-- **The page directory is a map**, after any calls: `pagedir_get_page` returns the frame that the
page was last set to, plus the offset; a call that meets its assertions returns; a failed
`pagedir_set_page` changes no entry; no call changes the entry of another page or a kernel mapping;
and if the frames belong to the user pages, `pagedir_destroy` frees one frame for each present user
page, the user page tables and the directory, each once, and nothing else. -/
theorem page_directory (h : PagedirRuns I pd hist M) :
    (∀ ua, ua < physBase →
      pagedirGetPage pd ua M = some ((mapping hist (pgNo ua)).map (· + pgOfs ua), M)) ∧
    (∀ op : PagedirOp, op.Args M → op.Respects I hist → ∃ r M', op.exec I pd M = some (r, M')) ∧
    (∀ (op : PagedirOp) r M', op.Args M → op.exec I pd M = some (r, M') →
      (r = false → ∀ va, va < 2 ^ 32 → M'.pte pd va = M.pte pd va) ∧
      (∀ va, va < 2 ^ 32 → pgNo va ≠ pgNo op.vpage → M'.pte pd va = M.pte pd va) ∧
      ∀ va, physBase ≤ va → va < 2 ^ 32 → M'.pte pd va &&& pteMap = M.pte pd va &&& pteMap) ∧
    (FramesOwned M pd hist → ∃ M' L, pagedirDestroy I (some pd) M = some ((), M') ∧ M'.freed =
      L ++ M.freed ∧ L.Nodup ∧
      L.Perm (pd :: (M.userTables pd ++ mappedFrames hist))) := by
  have hinv := h.inv
  obtain ⟨table, hdir⟩ := hinv.dir
  refine ⟨fun ua hua => hdir.pagedirGetPage_eq hua (hinv.maps ua hua), fun op hargs hop =>
    hinv.returns hargs hop, fun op r M' hargs hex => ?_, fun hown => ?_⟩
  · have heff := PagedirOp.exec_effect hdir hargs hex
    refine ⟨fun hr va hva => ?_, heff.other, fun va hva hva' => ?_⟩
    · by_cases hp : pgNo va = pgNo op.vpage
      · rw [pte_congr hp, pte_congr hp]
        subst hr
        exact heff.own.failed
      · exact heff.other va hva hp
    · by_cases hp : pgNo va = pgNo op.vpage
      · rw [pte_congr hp, pte_congr hp]
        refine heff.own.kernel ?_
        simp only [pgNo, pgSize, physBase] at hp hva ⊢
        omega
      · rw [heff.other va hva' hp]
  · obtain ⟨L, hdestroy, hnd, hperm⟩ := hinv.destroy hown
    exact ⟨_, L, hdestroy, rfl, hnd, hperm⟩

end Map

/-- `init_page_dir` at 0xc0100000, with one page table that has been used, and two frames in use. -/
def pagingStart : Paging where
  words p d := if p = 0xc0100000 ∧ d = 768 then pdeCreate 0xc0101000 ||| pteA else 0#32
  used p := p ∈ [0xc0100000, 0xc0101000, 0xc0200000, 0xc0201000]
  freed := []

/-- Its kernel. -/
def pagingInit : PagingInit := ⟨0xc0100000, 1024⟩

theorem directory_pagingStart : Directory pagingStart pagingInit.pageDir
    fun d => if d = 768 then some 0xc0101000 else none := by
  refine ⟨fun d _ => ?_, fun d pt hpt => ?_, rfl, fun d hd => ?_, fun d e pt hd he => ?_⟩
  · by_cases hd : d = 768
    · subst hd
      exact ⟨by decide, by decide, by decide⟩
    · simp [pagingStart, hd]
  · by_cases hd : d = 768
    · subst hd
      cases hpt
      exact ⟨⟨rfl, by decide, by decide⟩, rfl⟩
    · simp [hd] at hpt
  · by_cases hd' : d = 768
    · subst hd'
      cases hd
    · simp [hd'] at hd
  · by_cases hd' : d = 768 <;> by_cases he' : e = 768
    · rw [hd', he']
    · simp [he'] at he
    · simp [hd'] at hd
    · simp [hd'] at hd

theorem available_some {M : Paging} {p : Nat} (hp : KernelPage p) (hused : M.used p = false) :
    M.Available (some p) := by
  intro q hq
  cases hq
  exact ⟨hp, hused⟩

/-- A call at the end of a run, with what comes after it. -/
theorem PagedirRuns.call_eq {I : PagingInit} {pd : Nat} {hist : List (PagedirOp × Bool)}
    {M : Paging} (h : PagedirRuns I pd hist M) (op : PagedirOp) (r : Bool) (hargs : op.Args M)
    (hr : (op.exec I pd M).map Prod.fst = some r) {α : Type} (f : Panic Paging α) :
    ∃ M', PagedirRuns I pd ((op, r) :: hist) M' ∧ f M' = (op.exec I pd >>= fun _ => f) M := by
  obtain ⟨⟨_, M'⟩, hex, rfl⟩ := Option.map_eq_some_iff.mp hr
  exact ⟨M', .call h hargs hex, (bind_eq (f := fun _ => f) hex).symm⟩

/-- The page at 0x8048000 is set, in a new directory. -/
def onePage : Paging :=
  ((do
    let _ ← pagedirCreate pagingInit (some 0xc0102000)
    pagedirSetPage pagingInit 0xc0102000 0x8048000 0xc0200000 true (some 0xc0103000) :
    Panic Paging Bool) pagingStart).elim pagingStart Prod.snd

theorem pagedirRuns_onePage : PagedirRuns pagingInit 0xc0102000
    [(.setPage 0x8048000 0xc0200000 true (some 0xc0103000), true)] onePage :=
  .call (.create directory_pagingStart (fun d hd => if_neg (Nat.ne_of_lt hd))
    (available_some ⟨rfl, by decide, by decide⟩ rfl) rfl)
    ⟨by decide, by decide, available_some ⟨rfl, by decide, by decide⟩ rfl⟩ rfl

/-- Two pages are set, in one page table. -/
def twoPages : List (PagedirOp × Bool) :=
  [(.setPage 0x8049000 0xc0201000 false none, true),
    (.setPage 0x8048000 0xc0200000 true (some 0xc0103000), true)]

theorem framesOwned_twoPages {M : Paging}
    (hused : M.used 0xc0200000 = true ∧ M.used 0xc0201000 = true)
    (htables : M.userTables 0xc0102000 = [0xc0103000]) : FramesOwned M 0xc0102000 twoPages := by
  have hmap : ∀ p k, mapping twoPages p = some k → p = pgNo 0x8049000 ∧ k = 0xc0201000 ∨
      p = pgNo 0x8048000 ∧ k = 0xc0200000 := by
    intro p k hk
    rw [twoPages, mapping, mapping] at hk
    split at hk
    · exact .inl ⟨‹_›, (some.inj hk).symm⟩
    split at hk
    · exact .inr ⟨‹_›, (some.inj hk).symm⟩
    · cases hk
  have hmem : ∀ k ∈ mappedFrames twoPages, k = 0xc0201000 ∨ k = 0xc0200000 := fun k hk => by
    obtain ⟨p, -, hp⟩ := mem_filterMap.mp hk
    exact (hmap p k hp).imp And.right And.right
  refine ⟨nodup_range.filterMap fun p q k hp hq => ?_, fun k hk => ?_, fun k hk => ?_⟩
  · rcases hmap p k hp with ⟨rfl, rfl⟩ | ⟨rfl, rfl⟩ <;>
      rcases hmap q _ hq with ⟨rfl, he⟩ | ⟨rfl, he⟩ <;> first | rfl | cases he
  · rcases hmem k hk with rfl | rfl
    · exact hused.2
    · exact hused.1
  · rw [htables]
    rcases hmem k hk with rfl | rfl <;> decide

/-- A program with two pages. -/
theorem page_directory_two : ∃ M M' L, PagedirRuns pagingInit 0xc0102000 twoPages M ∧
    pagedirGetPage 0xc0102000 0x8048123 M = some (some 0xc0200123, M) ∧
    pagedirGetPage 0xc0102000 0x8049123 M = some (some 0xc0201123, M) ∧
    pagedirDestroy pagingInit (some 0xc0102000) M = some ((), M') ∧ M'.freed = L ++ M.freed ∧
    L.Nodup := by
  obtain ⟨M, hrun, hM⟩ := pagedirRuns_onePage.call_eq (.setPage 0x8049000 0xc0201000 false none)
    true ⟨by decide, by decide, nofun⟩ (by decide +kernel) fun M =>
      some ((M.used 0xc0200000, M.used 0xc0201000, M.userTables 0xc0102000), M)
  obtain ⟨hused, hM⟩ := Prod.mk.inj (some.inj ((congrArg (Option.map Prod.fst) hM).trans
    (show _ = some (true, true, [0xc0103000]) by decide +kernel)))
  obtain ⟨hused', htables⟩ := Prod.mk.inj hM
  obtain ⟨hget, -, -, hdestroy⟩ := page_directory hrun
  obtain ⟨M', L, hM', hfreed, hnd, -⟩ :=
    hdestroy (framesOwned_twoPages ⟨hused, hused'⟩ htables)
  exact ⟨M, M', L, hrun, hget 0x8048123 (by decide), hget 0x8049123 (by decide), hM', hfreed, hnd⟩

/-- Two pages set to one frame: `pagedir_destroy` frees it for the first and panics at the
second. -/
theorem pagedir_destroy_shared : ∃ M,
    PagedirRuns pagingInit 0xc0102000
      [(.setPage 0x8049000 0xc0200000 true none, true),
        (.setPage 0x8048000 0xc0200000 true (some 0xc0103000), true)] M ∧
    pagedirDestroy pagingInit (some 0xc0102000) M = none := by
  obtain ⟨M, hM, hdestroy⟩ := pagedirRuns_onePage.call_eq (.setPage 0x8049000 0xc0200000 true none)
    true ⟨by decide, by decide, nofun⟩ (by decide +kernel)
    (pagedirDestroy pagingInit (some 0xc0102000))
  exact ⟨M, hM, hdestroy.trans (Option.isNone_iff_eq_none.mp (by decide +kernel))⟩

end SystemProg.Pintos
