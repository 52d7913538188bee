import Mathlib.Algebra.Group.Int.Defs
import SystemProg.Pintos.Pagedir

/-!
# Loading an executable

`load` of `process.c` with `validate_segment`, `load_segment`, `setup_stack` and `install_page`,
over the page directory. Every number of the file is a 32-bit word that the file chooses; sums and
differences wrap around, and an offset is a signed word.

* `AddressSpace E pd L view` — the pages that the user sees in the directory `pd`.
* `loadPages_spec`, `loadHeaders_spec`, `setupStack_spec` — what the loops and the stack add.
* `load_image` — `load` returns, and if it returns true the address space is the image of the file.

A page in use is a table or a frame: its words are in `paging` and its bytes in `bytes`. `file_read`
may stop anywhere, as `inode_read_at` does when it gets no bounce buffer.
-/

namespace SystemProg.Pintos.Elf

open Function SystemProg.Seq Text List

/-! ## The file -/

/-- An executable file. Its length is an `off_t`. -/
structure ElfFile where
  content : List Byte
  length_lt : content.length < 2 ^ 31

/-- An `uint32_t` as an `off_t`. -/
def toOff (n : Nat) : Int := if n < 2 ^ 31 then n else n - 2 ^ 32

/-- Arithmetic of `uint32_t`. -/
def u32 (n : Nat) : Nat := n % 2 ^ 32

/-- `a - b` of two `uint32_t`. -/
def u32Sub (a b : Nat) : Nat := u32 (a + (2 ^ 32 - b))

/-- The 16-bit word at `i`, the least significant byte first. -/
def halfAt (bs : List Byte) (i : Nat) : Nat := (bs.getD i 0).toNat + 256 * (bs.getD (i + 1) 0).toNat

/-- The 32-bit word at `i`. -/
def wordAt (bs : List Byte) (i : Nat) : Nat := halfAt bs i + 65536 * halfAt bs (i + 2)

/-- `Elf32_Ehdr`, what `load` reads of it. -/
structure Ehdr where
  eIdent : List Byte
  eType : Nat
  eMachine : Nat
  eVersion : Nat
  eEntry : Nat
  ePhoff : Nat
  ePhentsize : Nat
  ePhnum : Nat

/-- `sizeof (struct Elf32_Ehdr)`. -/
def ehdrSize : Nat := 52

/-- The header, as read. -/
def Ehdr.ofBytes (bs : List Byte) : Ehdr where
  eIdent := bs.take 16
  eType := halfAt bs 16
  eMachine := halfAt bs 18
  eVersion := wordAt bs 20
  eEntry := wordAt bs 24
  ePhoff := wordAt bs 28
  ePhentsize := halfAt bs 42
  ePhnum := halfAt bs 44

/-- `Elf32_Phdr`, what `load` reads of it. -/
structure Phdr where
  pType : Nat
  pOffset : Nat
  pVaddr : Nat
  pFilesz : Nat
  pMemsz : Nat
  pFlags : Nat

/-- `sizeof (struct Elf32_Phdr)`. -/
def phdrSize : Nat := 32

/-- A program header, as read. -/
def Phdr.ofBytes (bs : List Byte) : Phdr where
  pType := wordAt bs 0
  pOffset := wordAt bs 4
  pVaddr := wordAt bs 8
  pFilesz := wordAt bs 16
  pMemsz := wordAt bs 20
  pFlags := wordAt bs 24

/-- `PT_LOAD`. -/
def ptLoad : Nat := 1

/-- `PT_DYNAMIC`, `PT_INTERP` and `PT_SHLIB`: `load` fails. -/
def ptRefused : List Nat := [2, 3, 5]

/-- `PF_W`. -/
def pfW : Nat := 2

/-- `ROUND_UP (x, PGSIZE)`. -/
def roundUp (x : Nat) : Nat := u32 (x + (pgSize - 1)) / pgSize * pgSize

/-! ## The state -/

/-- What is not the loader's own: the kernel's page directory, the page that the `n`-th
`palloc_get_page` returns, where `used` says which pages are in use, and the number of bytes after
which the `n`-th `file_read` stops because `inode_read_at` gets no bounce buffer. -/
structure Env where
  init : PagingInit
  palloc : Nat → (Nat → Bool) → Option Nat
  cut : Nat → Nat
  palloc_spec : ∀ n used page, palloc n used = some page →
    KernelPage page ∧ used page = false ∧ vtop page / pgSize < init.ramPages

/-- The state of `load`: the pages as tables and as bytes, `t->pagedir`, the position in the file,
`*eip` and `*esp`, and the calls so far. -/
structure Loader where
  paging : Paging
  bytes : Nat → Nat → Byte
  pagedir : Option Nat
  pos : Int
  eip : Nat
  esp : Nat
  pallocs : Nat
  reads : Nat

/-- A function of the page directory. -/
def onPaging {α : Type} (m : Panic Paging α) : Panic Loader α := fun L =>
  (m L.paging).map fun r => (r.1, { L with paging := r.2 })

section Load

variable (E : Env)

/-- What the next `palloc_get_page` returns. -/
def nextPage : Panic Loader (Option Nat) := do
  let L ← get
  set { L with pallocs := L.pallocs + 1 }
  return E.palloc L.pallocs L.paging.used

/-- `palloc_get_page (PAL_USER)`. -/
def pallocGetPage : Panic Loader (Option Nat) := do
  let page ← nextPage E
  match page with
  | some kpage => modify fun L =>
      { L with paging := { L.paging with used := update L.paging.used kpage true } }
  | none => pure ()
  return page

/-- `memcpy` and `memset` into a page. -/
def storeBytes (kpage ofs : Nat) (bs : List Byte) : Panic Loader Unit := modify fun L =>
  { L with bytes := update L.bytes kpage fun i =>
      if ofs ≤ i ∧ i < ofs + bs.length then bs.getD (i - ofs) 0 else L.bytes kpage i }

/-- `file_seek`. -/
def fileSeek (pos : Int) : Panic Loader Unit := do
  assert (0 ≤ pos)
  modify fun L => { L with pos }

/-- `file_read`: the bytes that it reads. -/
def fileRead (f : ElfFile) (size : Nat) : Panic Loader (List Byte) := do
  let L ← get
  let bs := (f.content.drop L.pos.toNat).take (min size (E.cut L.reads))
  set { L with pos := L.pos + bs.length, reads := L.reads + 1 }
  return bs

/-- `install_page`. -/
def installPage (upage kpage : Nat) (writable : Bool) : Panic Loader Bool := do
  match (← get).pagedir with
  | some pd =>
    match ← onPaging (pagedirGetPage pd upage) with
    | some _ => return false
    | none =>
      let page ← nextPage E
      onPaging (pagedirSetPage E.init pd upage kpage writable page)
  | none => abort

/-- `validate_segment`. -/
def validateSegment (phdr : Phdr) (f : ElfFile) : Bool :=
  pgOfs phdr.pOffset = pgOfs phdr.pVaddr && phdr.pOffset ≤ f.content.length &&
    phdr.pFilesz ≤ phdr.pMemsz && phdr.pMemsz ≠ 0 && phdr.pVaddr < physBase &&
    u32 (phdr.pVaddr + phdr.pMemsz) < physBase && phdr.pVaddr ≤ u32 (phdr.pVaddr + phdr.pMemsz) &&
    pgSize ≤ phdr.pVaddr

/-- The loop of `load_segment`. It maps a page in each round, so that more rounds than there are
pages would be a loop that does not end. -/
def loadPages (f : ElfFile) (writable : Bool) :
    (rounds upage readBytes zeroBytes : Nat) → Panic Loader Bool
  | 0, _, _, _ => abort
  | rounds + 1, upage, readBytes, zeroBytes => do
    if 0 < readBytes ∨ 0 < zeroBytes then
      let pageReadBytes := if readBytes < pgSize then readBytes else pgSize
      let pageZeroBytes := pgSize - pageReadBytes
      match ← pallocGetPage E with
      | some kpage =>
        let bs ← fileRead E f pageReadBytes
        storeBytes kpage 0 bs
        if bs.length ≠ pageReadBytes then
          onPaging (freePage kpage)
          return false
        else
          storeBytes kpage pageReadBytes (List.replicate pageZeroBytes 0)
          if ← installPage E upage kpage writable then
            loadPages f writable rounds (u32 (upage + pgSize)) (u32Sub readBytes pageReadBytes)
              (u32Sub zeroBytes pageZeroBytes)
          else
            onPaging (freePage kpage)
            return false
      | none => return false
    else return true

/-- `load_segment`. -/
def loadSegment (f : ElfFile) (ofs : Int) (upage readBytes zeroBytes : Nat) (writable : Bool) :
    Panic Loader Bool := do
  assert (u32 (readBytes + zeroBytes) % pgSize = 0)
  assert (pgOfs upage = 0)
  assert (ofs % pgSize = 0)
  fileSeek ofs
  loadPages E f writable (pgNo (2 ^ 32) + 1) upage readBytes zeroBytes

/-- The case `PT_LOAD` of `load`. -/
def loadHeader (f : ElfFile) (phdr : Phdr) : Panic Loader Bool := do
  if validateSegment phdr f = true then
    let writable := phdr.pFlags &&& pfW ≠ 0
    let filePage := phdr.pOffset - pgOfs phdr.pOffset
    let memPage := phdr.pVaddr - pgOfs phdr.pVaddr
    let pageOffset := pgOfs phdr.pVaddr
    if 0 < phdr.pFilesz then
      let readBytes := u32 (pageOffset + phdr.pFilesz)
      let zeroBytes := u32Sub (roundUp (u32 (pageOffset + phdr.pMemsz))) readBytes
      loadSegment E f (toOff filePage) memPage readBytes zeroBytes writable
    else
      let zeroBytes := roundUp (u32 (pageOffset + phdr.pMemsz))
      loadSegment E f (toOff filePage) memPage 0 zeroBytes writable
  else return false

/-- The loop of `load` over the program headers; `false` is `goto done`. -/
def loadHeaders (f : ElfFile) : (count : Nat) → (fileOfs : Int) → Panic Loader Bool
  | 0, _ => return true
  | count + 1, fileOfs => do
    if fileOfs < 0 ∨ (f.content.length : Int) < fileOfs then return false
    else
      fileSeek fileOfs
      let bs ← fileRead E f phdrSize
      if bs.length ≠ phdrSize then return false
      else
        let phdr := Phdr.ofBytes bs
        let fileOfs := toOff (u32 (fileOfs.toNat + phdrSize))
        if phdr.pType = ptLoad then
          if ← loadHeader E f phdr then loadHeaders f count fileOfs else return false
        else if phdr.pType ∈ ptRefused then return false
        else loadHeaders f count fileOfs

/-- `setup_stack`. -/
def setupStack : Panic Loader Bool := do
  match ← pallocGetPage E with
  | some kpage =>
    storeBytes kpage 0 (List.replicate pgSize 0)
    if ← installPage E (physBase - pgSize) kpage true then
      modify fun L => { L with esp := physBase }
      return true
    else
      onPaging (freePage kpage)
      return false
  | none => return false

/-- The header is that of an executable that can be loaded. -/
def Ehdr.valid (ehdr : Ehdr) : Bool :=
  ehdr.eIdent.take 7 = [0o177, 0x45, 0x4c, 0x46, 1, 1, 1] && ehdr.eType = 2 && ehdr.eMachine = 3 &&
    ehdr.eVersion = 1 && ehdr.ePhentsize = phdrSize && ehdr.ePhnum ≤ 1024

/-- The part of `load` that has a page directory and an open file. -/
def loadFile (f : ElfFile) : Panic Loader Bool := do
  modify fun L => { L with pos := 0 }
  let bs ← fileRead E f ehdrSize
  if bs.length ≠ ehdrSize ∨ (Ehdr.ofBytes bs).valid = false then return false
  else
    if ← loadHeaders E f (Ehdr.ofBytes bs).ePhnum (toOff (Ehdr.ofBytes bs).ePhoff) then
      if ← setupStack E then
        modify fun L => { L with eip := (Ehdr.ofBytes bs).eEntry }
        return true
      else return false
    else return false

/-- `t->pagedir = pagedir_create ()`. -/
def loadPagedir : Panic Loader (Option Nat) := do
  let page ← nextPage E
  let pd ← onPaging (pagedirCreate E.init page)
  modify fun L => { L with pagedir := pd }
  return pd

/-- `load`; `file` is what `filesys_open` returns. -/
def load (file : Option ElfFile) : Panic Loader Bool := do
  match ← loadPagedir E, file with
  | some _, some f => loadFile E f
  | _, _ => return false

end Load

/-! ## The address space -/

/-- The user pages by number: whether the page is writable, and its bytes. -/
abbrev View : Type := Nat → Option (Bool × (Nat → Byte))

/-- The page table entry `e` is that of the page `v`. -/
def Holds (L : Loader) (e : Word) : Option (Bool × (Nat → Byte)) → Prop
  | some (w, b) => ∃ k, KernelPage k ∧ PointsTo e k ∧ L.paging.used k = true ∧
    (e &&& pteW ≠ 0#32 ↔ w = true) ∧ e &&& pteU ≠ 0#32 ∧ ∀ i, i < pgSize → L.bytes k i = b i
  | none => e &&& pteP = 0#32

/-- The address space of the directory `pd` is `view`. -/
structure AddressSpace (E : Env) (pd : Nat) (L : Loader) (view : View) : Prop where
  dir : ∃ table, Directory L.paging pd table
  ne : pd ≠ E.init.pageDir
  current : L.pagedir = some pd
  entry : ∀ va, va < physBase → Holds L (L.paging.pte pd va) (view (pgNo va))

section Space

variable {E : Env} {pd k upage : Nat} {L L' : Loader} {view : View} {e : Word}
  {v : Option (Bool × (Nat → Byte))} {w : Bool} {b : Nat → Byte}

theorem onPaging_eq {α : Type} {m : Panic Paging α} {a : α} {M' : Paging}
    (h : m L.paging = some (a, M')) : onPaging m L = some (a, { L with paging := M' }) := by
  rw [onPaging, h]
  rfl

theorem Holds.maps (h : Holds L e v) : ∃ m, Maps e m ∧ (m = none ↔ v = none) := by
  match v with
  | none => exact ⟨none, h, by simp⟩
  | some (w, b) =>
    obtain ⟨k, hk, hto, -⟩ := h
    exact ⟨some k, ⟨hk, hto⟩, by simp⟩

theorem Holds.mono (h : Holds L e v) (hused : ∀ k, L.paging.used k = true →
      L'.paging.used k = true ∧ L'.bytes k = L.bytes k) : Holds L' e v := by
  match v with
  | none => exact h
  | some (w, b) =>
    obtain ⟨k, hk, hto, hk', hw, hu, hb⟩ := h
    obtain ⟨hused, hbytes⟩ := hused k hk'
    exact ⟨k, hk, hto, hused, hw, hu, fun i hi => (congrFun hbytes i).trans (hb i hi)⟩

theorem AddressSpace.congr (h : AddressSpace E pd L view) (hpaging : L'.paging = L.paging)
    (hbytes : L'.bytes = L.bytes) (hdir : L'.pagedir = L.pagedir) : AddressSpace E pd L' view := by
  refine ⟨hpaging ▸ h.dir, h.ne, hdir.trans h.current, fun va hva => ?_⟩
  rw [hpaging]
  exact (h.entry va hva).mono fun k hk => ⟨by rw [hpaging]; exact hk, congrFun hbytes k⟩

theorem pte_of_words {M M' : Paging} (h : M'.words = M.words) (va : Nat) :
    M'.pte pd va = M.pte pd va := by
  rw [Paging.pte, Paging.pte, h]

/-- A page that was not in use is taken and filled. -/
theorem AddressSpace.fill (h : AddressSpace E pd L view) (hk : L.paging.used k = false)
    (hpaging : L'.paging = { L.paging with used := update L.paging.used k true })
    (hdir : L'.pagedir = L.pagedir) (hbytes : ∀ q, q ≠ k → L'.bytes q = L.bytes q) :
    AddressSpace E pd L' view := by
  obtain ⟨table, htable⟩ := h.dir
  have htake := htable.take hk (L.paging.words k)
  rw [update_eq_self, ← hpaging] at htake
  refine ⟨⟨table, htake⟩, h.ne, hdir.trans h.current, fun va hva => ?_⟩
  rw [pte_of_words (by rw [hpaging])]
  refine (h.entry va hva).mono fun q hq => ?_
  have hne : q ≠ k := fun he => by rw [he, hk] at hq; cases hq
  rw [hpaging]
  exact ⟨(update_of_ne hne ..).trans hq, hbytes q hne⟩

theorem pteCreateUser_flags (hk : KernelPage k) :
    (pteCreateUser k w &&& pteW ≠ 0#32 ↔ w = true) ∧ pteCreateUser k w &&& pteU ≠ 0#32 := by
  rw [pteCreateUser, pteCreateKernel, BitVec.or_assoc, BitVec.or_assoc, entry_flags hk (by decide),
    entry_flags hk (by decide)]
  cases w
  · decide
  · decide

theorem installPage_spec (h : AddressSpace E pd L view) (hk : KernelPage k)
    (hram : vtop k / pgSize < E.init.ramPages) (hused : L.paging.used k = true)
    (hb : ∀ i, i < pgSize → L.bytes k i = b i) (hal : pgOfs upage = 0) (hu : upage < physBase) :
    wp (installPage E upage k w) (fun r L' => L'.paging.used k = true ∧ L'.pos = L.pos ∧
      (r = true → view (pgNo upage) = none ∧
        AddressSpace E pd L' (update view (pgNo upage) (some (w, b))))) L := by
  obtain ⟨table, hdir⟩ := h.dir
  obtain ⟨m, hmaps, hnone⟩ := (h.entry upage hu).maps
  rw [installPage]
  refine wp_get ?_
  rw [h.current]
  refine wp_call (onPaging_eq (hdir.pagedirGetPage_eq hu hmaps)) ?_
  match m with
  | some k' => exact wp_pure ⟨hused, rfl, nofun⟩
  | none =>
    have hav : L.paging.Available (E.palloc L.pallocs L.paging.used) := fun p hp =>
      ⟨(E.palloc_spec _ _ _ hp).1, (E.palloc_spec _ _ _ hp).2.1⟩
    obtain ⟨r, M', hset⟩ := hdir.pagedirSetPage_returns w h.ne hav hal hk.aligned hu
      ⟨hk.le, hram⟩ hmaps
    have heff := setPage_effect hdir ⟨lt_of_lt_physBase hu, hk.lt, hav⟩ hset
    obtain ⟨table', hdir', hgrows⟩ := heff.dir
    refine wp_call rfl (wp_of_eq (onPaging_eq hset) ⟨hgrows.used hused, rfl, ?_⟩)
    rintro rfl
    refine ⟨hnone.mp rfl, ⟨table', hdir'⟩, h.ne, h.current, fun va hva => ?_⟩
    by_cases hp : pgNo va = pgNo upage
    · obtain ⟨-, -, ⟨-, -, hnew⟩ | ⟨hr, -⟩⟩ := heff.own
      · rw [hp, update_self]
        dsimp only
        rw [pte_congr hp, show M'.pte pd upage = _ from hnew]
        obtain ⟨hw, hU⟩ := pteCreateUser_flags hk (w := w)
        exact ⟨k, hk, pointsTo_pteCreateUser hk, hgrows.used hused, hw, hU, hb⟩
      · cases hr
    · rw [update_of_ne hp]
      dsimp only
      rw [heff.other va (lt_of_lt_physBase hva) hp]
      exact (h.entry va hva).mono fun q hq => ⟨hgrows.used hq, rfl⟩

end Space

/-! ## Segments -/

/-- Page `j` of a segment with `readBytes` bytes at `ofs` in the file, and zeros after them. -/
def segmentPage (f : ElfFile) (ofs readBytes j i : Nat) : Byte :=
  if j * pgSize + i < readBytes then f.content.getD (ofs + (j * pgSize + i)) 0 else 0

/-- The address space with `cnt` pages of a segment from page `p` on. -/
def View.segment (view : View) (f : ElfFile) (w : Bool) (p cnt ofs readBytes : Nat) : View :=
  fun q => if p ≤ q ∧ q < p + cnt then some (w, segmentPage f ofs readBytes (q - p)) else view q

section Segments

variable {E : Env} {f : ElfFile} {pd k : Nat} {L L' : Loader} {view : View} {w : Bool}
  {p cnt ofs readBytes zeroBytes rounds : Nat}

theorem freePage_returns {M : Paging} (hk : KernelPage k) (hused : M.used k = true) :
    ∃ M', freePage k M = some ((), M') := by
  rw [freePage, bind_eq (assert_eq hk.aligned), get_bind, bind_eq (assert_eq hused)]
  exact ⟨_, rfl⟩

theorem wp_free (hk : KernelPage k) (hused : L.paging.used k = true) {Q : Bool → Loader → Prop}
    (hQ : ∀ L', Q false L') :
    wp (do onPaging (freePage k); return false) Q L := by
  obtain ⟨M', hfree⟩ := freePage_returns hk hused
  exact wp_call (onPaging_eq hfree) (wp_pure (hQ _))

theorem segment_zero : view.segment f w p 0 ofs readBytes = view := by
  funext q
  rw [View.segment, if_neg (by omega)]

theorem segmentPage_succ {n : Nat} (hn : n = min readBytes pgSize) (j : Nat) :
    segmentPage f (ofs + n) (readBytes - n) j = segmentPage f ofs readBytes (j + 1) := by
  funext i
  rw [segmentPage, segmentPage, Nat.succ_mul]
  by_cases hr : j * pgSize + pgSize + i < readBytes
  · rw [if_pos hr, if_pos (by omega), show ofs + n + (j * pgSize + i) =
      ofs + (j * pgSize + pgSize + i)
      by omega]
  · rw [if_neg hr, if_neg (by omega)]

theorem segment_succ {n : Nat} (hn : n = min readBytes pgSize) :
    View.segment (update view p (some (w, segmentPage f ofs readBytes 0))) f w (p + 1) cnt
      (ofs + n) (readBytes - n) = view.segment f w p (cnt + 1) ofs readBytes := by
  funext q
  rw [View.segment, View.segment]
  by_cases hq : q = p
  · subst hq
    rw [if_neg (by omega), if_pos (by omega), update_self, Nat.sub_self]
  · rw [update_of_ne hq]
    by_cases hin : p + 1 ≤ q ∧ q < p + 1 + cnt
    · rw [if_pos hin, if_pos (by omega), segmentPage_succ hn, show q - p = q - (p + 1) + 1 by omega]
    · rw [if_neg hin, if_neg (by omega)]

theorem pallocGetPage_some (h : E.palloc L.pallocs L.paging.used = some k) :
    pallocGetPage E L = some (some k,
      { L with
        pallocs := L.pallocs + 1
        paging := { L.paging with used := update L.paging.used k true } }) := by
  rw [pallocGetPage, bind_eq (show nextPage E L = some (E.palloc L.pallocs L.paging.used, _)
    from rfl), h]
  rfl

theorem pallocGetPage_none (h : E.palloc L.pallocs L.paging.used = none) :
    pallocGetPage E L = some (none, { L with pallocs := L.pallocs + 1 }) := by
  rw [pallocGetPage, bind_eq (show nextPage E L = some (E.palloc L.pallocs L.paging.used, _)
    from rfl), h]
  rfl

theorem page_bytes {n i : Nat} {bs : List Byte} (hn : n = min readBytes pgSize)
    (hbs : bs = (f.content.drop ofs).take n) (hlen : bs.length = n) (hi : i < pgSize)
    {old : Nat → Byte} :
    (if n ≤ i ∧ i < n + (List.replicate (pgSize - n) (0 : Byte)).length
      then (List.replicate (pgSize - n) (0 : Byte)).getD (i - n) 0
      else if 0 ≤ i ∧ i < 0 + bs.length then bs.getD (i - 0) 0 else old i) =
      segmentPage f ofs readBytes 0 i := by
  rw [segmentPage, length_replicate]
  by_cases hin : i < n
  · rw [if_neg (by omega), if_pos (by omega), if_pos (by omega), hbs]
    simp [getD_eq_getElem?_getD, getElem?_drop, hin]
  · rw [if_pos (by omega), if_neg (by omega)]
    rw [getD_eq_getElem?_getD, getElem?_replicate]
    split
    · rfl
    · rfl

/-- No sum or difference of a round of the loop wraps around. -/
theorem round_arith {n : Nat} (hsum : readBytes + zeroBytes = (cnt + 1) * pgSize)
    (hp : p + (cnt + 1) ≤ pgNo physBase) (hn : n = min readBytes pgSize) :
    (0 < readBytes ∨ 0 < zeroBytes) ∧ p * pgSize < physBase ∧
      u32 (p * pgSize + pgSize) = (p + 1) * pgSize ∧ u32Sub readBytes n = readBytes - n ∧
      u32Sub zeroBytes (pgSize - n) = zeroBytes - (pgSize - n) ∧
      readBytes - n + (zeroBytes - (pgSize - n)) = cnt * pgSize := by
  simp only [pgSize, physBase, pgNo, u32, u32Sub] at *
  omega

/-- What `file_read` returns is what it was asked for, if it is as long. -/
theorem take_min_eq {l bs : List Byte} {n c : Nat} (h : l.take (min n c) = bs)
    (hlen : bs.length = n) : bs = l.take n ∧ n ≤ l.length := by
  rw [← h, length_take] at hlen
  rw [← h, show min n c = n by omega]
  exact ⟨rfl, by omega⟩

/-- **The loop of `load_segment`** ends without a failed assertion; if it does not fail, the pages
were free and hold the segment. -/
theorem loadPages_spec (h : AddressSpace E pd L view) (hpos : L.pos = ofs)
    (hsum : readBytes + zeroBytes = cnt * pgSize) (hp : p + cnt ≤ pgNo physBase)
    (hrounds : cnt < rounds) :
    wp (loadPages E f w rounds (p * pgSize) readBytes zeroBytes) (fun r L' => r = true →
      (∀ q, p ≤ q → q < p + cnt → view q = none) ∧
      (∀ t, t < readBytes → ofs + t < f.content.length) ∧
      AddressSpace E pd L' (view.segment f w p cnt ofs readBytes)) L := by
  induction cnt generalizing L view p ofs readBytes zeroBytes rounds with
  | zero =>
    obtain ⟨rounds, rfl⟩ := Nat.exists_eq_add_one_of_ne_zero (Nat.ne_of_gt hrounds)
    rw [loadPages, if_neg (by omega)]
    refine wp_pure fun _ => ⟨fun q h1 h2 => by omega, fun t ht => by omega, ?_⟩
    rw [segment_zero]
    exact h
  | succ cnt ih =>
    obtain ⟨rounds, rfl⟩ :=
      Nat.exists_eq_add_one_of_ne_zero (Nat.ne_of_gt (Nat.zero_lt_of_lt hrounds))
    have hmin : (if readBytes < pgSize then readBytes else pgSize) = min readBytes pgSize := by
      split <;> omega
    generalize hn : min readBytes pgSize = n at hmin
    obtain ⟨hpos0, hup, hnext, hread, hzero, hrest⟩ := round_arith hsum hp hn.symm
    rw [loadPages, if_pos hpos0, hmin]
    cases hpal : E.palloc L.pallocs L.paging.used with
    | none => exact wp_call (pallocGetPage_none hpal) (wp_pure nofun)
    | some k =>
      obtain ⟨hk, hnew, hram⟩ := E.palloc_spec _ _ _ hpal
      refine wp_call (pallocGetPage_some hpal) (wp_call rfl (wp_call rfl ?_))
      split
      · exact wp_free hk (update_self ..) fun _ => nofun
      rename_i hlen
      have hlen := not_not.mp hlen
      generalize hbs : (f.content.drop _).take _ = bs at hlen ⊢
      obtain ⟨hbs, hleft⟩ := take_min_eq hbs hlen
      rw [hpos, Int.toNat_natCast] at hbs hleft
      refine wp_call rfl
        (wp_bind
        (installPage_spec (b := segmentPage f ofs readBytes 0) (h.fill hnew rfl rfl fun q hq => ?_)
        hk hram (update_self ..) (fun i hi => ?_)
        (by rw [pgOfs, Nat.mul_mod_left]) hup) ?_)
      · dsimp only
        rw [update_of_ne hq, update_of_ne hq]
      · dsimp only
        rw [update_self, update_self]
        exact page_bytes hn.symm hbs hlen hi
      rintro r L' ⟨hused, hpos', hr⟩
      rw [show pgNo (p * pgSize) = p by rw [pgNo, Nat.mul_div_cancel _ (by decide)]] at hr
      cases r with
      | false => exact wp_free hk hused fun _ => nofun
      | true =>
        obtain ⟨hfree, hspace⟩ := hr rfl
        have hpos'' : L'.pos = (ofs + n : Nat) := by
          refine hpos'.trans ?_
          show L.pos + (bs.length : Int) = _
          rw [hpos, hlen, Int.natCast_add]
        rw [if_pos rfl, hnext, hread, hzero]
        refine wp_mono (ih hspace hpos'' hrest (by omega) (by omega)) fun r L'' hr hr' => ?_
        obtain ⟨hfree', hlt, hspace'⟩ := hr hr'
        rw [segment_succ hn.symm] at hspace'
        refine ⟨fun q hq1 hq2 => ?_, fun t ht => ?_, hspace'⟩
        · by_cases hq : q = p
          · rw [hq]
            exact hfree
          · have := hfree' q (by omega) (by omega)
            rwa [update_of_ne hq] at this
        · by_cases htn : t < n
          · rw [length_drop] at hleft
            omega
          · have := hlt (t - n) (by omega)
            omega

end Segments

/-! ## Program headers -/

namespace Phdr

/-- The fields are 32-bit words. -/
structure Words (h : Phdr) : Prop where
  offset : h.pOffset < 2 ^ 32
  vaddr : h.pVaddr < 2 ^ 32
  filesz : h.pFilesz < 2 ^ 32
  memsz : h.pMemsz < 2 ^ 32

/-- What `validate_segment` asks for, without wrapping around. -/
structure Fits (h : Phdr) (f : ElfFile) : Prop where
  offset : pgOfs h.pOffset = pgOfs h.pVaddr
  offset_le : h.pOffset ≤ f.content.length
  filesz : h.pFilesz ≤ h.pMemsz
  pos : 0 < h.pMemsz
  first : pgSize ≤ h.pVaddr
  last : h.pVaddr + h.pMemsz < physBase

/-- Whether the segment is writable. -/
def writable (h : Phdr) : Bool := h.pFlags &&& pfW ≠ 0

/-- The bytes that are read, from the start of the first page. -/
def readBytes (h : Phdr) : Nat := if 0 < h.pFilesz then pgOfs h.pVaddr + h.pFilesz else 0

/-- The number of its pages. -/
def pageCnt (h : Phdr) : Nat := (pgOfs h.pVaddr + h.pMemsz + (pgSize - 1)) / pgSize

/-- The page `q` is mapped for the segment. -/
def Covers (h : Phdr) (q : Nat) : Prop := pgNo h.pVaddr ≤ q ∧ q < pgNo h.pVaddr + h.pageCnt

/-- The offset in the file of the first page. -/
def filePage (h : Phdr) : Nat := h.pOffset - pgOfs h.pOffset

/-- The segment in the address space. -/
def load (h : Phdr) (f : ElfFile) (view : View) : View :=
  view.segment f h.writable (pgNo h.pVaddr) h.pageCnt h.filePage h.readBytes

end Phdr

section Headers

variable {E : Env} {f : ElfFile} {pd : Nat} {L L' : Loader} {view view' : View} {w : Bool}
  {p cnt ofs readBytes zeroBytes : Nat} {h : Phdr} {hs : List Phdr}

theorem wordAt_lt (bs : List Byte) (i : Nat) : wordAt bs i < 2 ^ 32 := by
  have h0 := (bs.getD i 0).toNat_lt
  have h1 := (bs.getD (i + 1) 0).toNat_lt
  have h2 := (bs.getD (i + 2) 0).toNat_lt
  have h3 := (bs.getD (i + 2 + 1) 0).toNat_lt
  rw [wordAt, halfAt, halfAt]
  omega

theorem Phdr.words_ofBytes (bs : List Byte) : (Phdr.ofBytes bs).Words :=
  ⟨wordAt_lt bs 4, wordAt_lt bs 8, wordAt_lt bs 16, wordAt_lt bs 20⟩

theorem Phdr.Words.fits (hw : h.Words) (hv : validateSegment h f = true) : h.Fits f := by
  obtain ⟨ho, hv1, hf, hm⟩ := hw
  simp only [validateSegment, Bool.and_eq_true, decide_eq_true_eq] at hv
  obtain ⟨⟨⟨⟨⟨⟨⟨h1, h2⟩, h3⟩, h4⟩, h5⟩, h6⟩, h7⟩, h8⟩ := hv
  refine ⟨h1, h2, h3, Nat.pos_of_ne_zero h4, h8, ?_⟩
  rw [u32] at h6 h7
  rw [physBase] at h5 h6 ⊢
  omega

theorem fileSeek_eq {pos : Int} (hpos : 0 ≤ pos) : fileSeek pos L = some ((), { L with pos }) := by
  rw [fileSeek, bind_eq (assert_eq hpos)]
  rfl

/-- **`load_segment`**. -/
theorem loadSegment_spec (hs : AddressSpace E pd L view) (hofs : ofs % pgSize = 0)
    (hsum : readBytes + zeroBytes = cnt * pgSize) (hp : p + cnt ≤ pgNo physBase) :
    wp (loadSegment E f ofs (p * pgSize) readBytes zeroBytes w) (fun r L' => r = true →
      (∀ q, p ≤ q → q < p + cnt → view q = none) ∧
      (∀ t, t < readBytes → ofs + t < f.content.length) ∧
      AddressSpace E pd L' (view.segment f w p cnt ofs readBytes)) L := by
  have hpages : pgNo physBase = 786432 := by decide
  rw [loadSegment]
  refine wp_assert ?_ (wp_assert ?_ (wp_assert ?_
    (wp_call (fileSeek_eq (Int.natCast_nonneg ofs)) (loadPages_spec ?_ rfl hsum hp ?_))))
  · rw [hsum, u32, pgSize]
    omega
  · rw [pgOfs, Nat.mul_mod_left]
  · rw [← Int.natCast_mod, hofs]
    rfl
  · exact hs.congr rfl rfl rfl
  · rw [show pgNo (2 ^ 32) = 1048576 by decide]
    omega

theorem Phdr.Fits.arith (hf : h.Fits f) :
    h.filePage % pgSize = 0 ∧ toOff h.filePage = h.filePage ∧ h.pVaddr - pgOfs h.pVaddr =
      pgNo h.pVaddr * pgSize ∧
      pgNo h.pVaddr + h.pageCnt ≤ pgNo physBase ∧
      roundUp (u32 (pgOfs h.pVaddr + h.pMemsz)) = h.pageCnt * pgSize ∧
      u32 (pgOfs h.pVaddr + h.pFilesz) = pgOfs h.pVaddr + h.pFilesz ∧
      u32Sub (h.pageCnt * pgSize) (pgOfs h.pVaddr + h.pFilesz) =
        h.pageCnt * pgSize - (pgOfs h.pVaddr + h.pFilesz) ∧
      pgOfs h.pVaddr + h.pFilesz ≤ h.pageCnt * pgSize := by
  obtain ⟨h1, h2, h3, h4, h5, h6⟩ := hf
  have hlen := f.length_lt
  simp only [Phdr.filePage, Phdr.pageCnt, toOff, roundUp, u32, u32Sub, pgOfs, pgNo, pgSize,
    physBase] at *
  omega

theorem loadHeader_spec (hs : AddressSpace E pd L view) (hw : h.Words) :
    wp (loadHeader E f h) (fun r L' => r = true → h.Fits f ∧ (∀ q, h.Covers q → view q = none) ∧
      (∀ t, t < h.readBytes → h.filePage + t < f.content.length) ∧
      AddressSpace E pd L' (h.load f view)) L := by
  rw [loadHeader]
  by_cases hv : validateSegment h f = true
  · have hfits := hw.fits hv
    obtain ⟨hfile, hoff, hmem, hlast, hround, hread, hsub, hle⟩ := hfits.arith
    have hseg : ∀ zeroBytes, h.readBytes + zeroBytes = h.pageCnt * pgSize →
        wp (loadSegment E f (toOff h.filePage) (h.pVaddr - pgOfs h.pVaddr) h.readBytes zeroBytes
          h.writable) (fun r L' => r = true → h.Fits f ∧ (∀ q, h.Covers q → view q = none) ∧
          (∀ t, t < h.readBytes → h.filePage + t < f.content.length) ∧
          AddressSpace E pd L' (h.load f view)) L := by
      intro zeroBytes hsum
      rw [hoff, hmem]
      refine wp_mono (loadSegment_spec hs hfile hsum hlast) fun r L' hr hr' => ?_
      obtain ⟨hfree, hlt, hspace⟩ := hr hr'
      exact ⟨hfits, fun q hq => hfree q hq.1 hq.2, hlt, hspace⟩
    rw [if_pos hv]
    by_cases hz : 0 < h.pFilesz
    · have hrb : pgOfs h.pVaddr + h.pFilesz = h.readBytes := (if_pos hz).symm
      rw [if_pos hz]
      dsimp only
      rw [hread, hround, hsub, hrb]
      exact hseg _ (by omega)
    · have hrb : h.readBytes = 0 := if_neg hz
      have hzero := hseg (h.pageCnt * pgSize) (by omega)
      rw [hrb] at hzero ⊢
      rw [if_neg hz]
      dsimp only
      rw [hround]
      exact hzero
  · rw [if_neg hv]
    exact wp_pure nofun

end Headers

/-! ## The image -/

/-- The program header at `ofs` in the file. -/
def ElfFile.phdrAt (f : ElfFile) (ofs : Nat) : Phdr :=
  Phdr.ofBytes ((f.content.drop ofs).take phdrSize)

/-- The program headers that start at `ofs`. -/
def ElfFile.phdrsAt (f : ElfFile) : (count ofs : Nat) → List Phdr
  | 0, _ => []
  | count + 1, ofs => f.phdrAt ofs :: f.phdrsAt count (ofs + phdrSize)

/-- The header of the file. -/
def ElfFile.ehdr (f : ElfFile) : Ehdr := Ehdr.ofBytes (f.content.take ehdrSize)

/-- The headers of type `PT_LOAD`. -/
def loadable (hs : List Phdr) : List Phdr := hs.filter fun h => h.pType = ptLoad

/-- The segments to load. -/
def ElfFile.segments (f : ElfFile) : List Phdr := loadable (f.phdrsAt f.ehdr.ePhnum f.ehdr.ePhoff)

/-- The segments `hs` are loaded one after another, each on pages that are free. -/
def Overlays (f : ElfFile) : View → List Phdr → View → Prop
  | view, [], view' => view' = view
  | view, h :: hs, view' => h.Fits f ∧ (∀ q, h.Covers q → view q = none) ∧
    (∀ t, t < h.readBytes → h.filePage + t < f.content.length) ∧ Overlays f (h.load f view) hs view'

section Image

variable {E : Env} {f : ElfFile} {pd : Nat} {L L' : Loader} {view view' : View} {h : Phdr}
  {hs : List Phdr}

theorem Phdr.load_of_covers (view : View) {q : Nat} (hq : h.Covers q) : h.load f view q =
    some (h.writable, segmentPage f h.filePage h.readBytes (q - pgNo h.pVaddr)) := if_pos hq

theorem Phdr.load_of_not_covers {q : Nat} (hq : ¬ h.Covers q) : h.load f view q = view q :=
    if_neg hq

theorem Overlays.keeps (ho : Overlays f view hs view') {q : Nat} (hq : view q ≠ none) :
    view' q = view q := by
  induction hs generalizing view with
  | nil =>
    rw [show view' = view from ho]
  | cons h hs ih =>
    obtain ⟨-, hfree, -, ho⟩ := ho
    have hload : h.load f view q = view q := Phdr.load_of_not_covers fun hc => hq (hfree q hc)
    rw [ih ho (hload ▸ hq), hload]

/-- A page that is there is one of a segment, or was there. -/
theorem Overlays.only (ho : Overlays f view hs view') {q : Nat} (hq : view' q ≠ none) :
    view q ≠ none ∨ ∃ h ∈ hs, h.Covers q := by
  induction hs generalizing view with
  | nil =>
    rw [show view' = view from ho] at hq
    exact .inl hq
  | cons h hs ih =>
    obtain ⟨-, -, -, ho⟩ := ho
    by_cases hc : h.Covers q
    · exact .inr ⟨h, mem_cons_self, hc⟩
    · obtain hq | ⟨h', hh', hc'⟩ := ih ho
      · rw [Phdr.load_of_not_covers hc] at hq
        exact .inl hq
      · exact .inr ⟨h', mem_cons_of_mem _ hh', hc'⟩

theorem Overlays.free (ho : Overlays f view hs view') (hh : h ∈ hs) {q : Nat} (hc : h.Covers q) :
    view q = none := by
  induction hs generalizing view with
  | nil => cases hh
  | cons h' hs ih =>
    obtain ⟨-, hfree, -, ho⟩ := ho
    obtain rfl | hh := mem_cons.mp hh
    · exact hfree q hc
    · have hload := ih ho hh
      by_cases hc' : h'.Covers q
      · exact hfree q hc'
      · rwa [Phdr.load_of_not_covers hc'] at hload

theorem Overlays.mem (ho : Overlays f view hs view') (hh : h ∈ hs) : h.Fits f ∧
    (∀ t, t < h.readBytes → h.filePage + t < f.content.length) ∧ ∀ q, h.Covers q → view' q =
      some (h.writable, segmentPage f h.filePage h.readBytes (q - pgNo h.pVaddr)) := by
  induction hs generalizing view with
  | nil => cases hh
  | cons h' hs ih =>
    obtain ⟨hfits, -, hlt, ho⟩ := ho
    obtain rfl | hh := mem_cons.mp hh
    · refine ⟨hfits, hlt, fun q hq => ?_⟩
      have hload := Phdr.load_of_covers (f := f) view hq
      rw [ho.keeps (by rw [hload]; simp), hload]
    · exact ih ho hh

theorem Overlays.pairwise (ho : Overlays f view hs view') :
    hs.Pairwise fun h h' => ∀ q, ¬ (h.Covers q ∧ h'.Covers q) := by
  induction hs generalizing view with
  | nil => exact .nil
  | cons h hs ih =>
    obtain ⟨-, -, -, ho⟩ := ho
    refine .cons (fun h' hh' q hq => ?_) (ih ho)
    have hload := ho.free hh' hq.2
    rw [Phdr.load_of_covers view hq.1] at hload
    cases hload

/-- **The loop over the program headers**. -/
theorem loadHeaders_spec (hs : AddressSpace E pd L view) (count : Nat) (fileOfs : Int) :
    wp (loadHeaders E f count fileOfs) (fun r L' => r = true → (0 < count → 0 ≤ fileOfs) ∧
      ∃ view', Overlays f view (loadable (f.phdrsAt count fileOfs.toNat)) view' ∧
        AddressSpace E pd L' view') L := by
  induction count generalizing L view fileOfs with
  | zero => exact wp_pure fun _ => ⟨nofun, view, rfl, hs⟩
  | succ count ih =>
    rw [loadHeaders]
    by_cases hout : fileOfs < 0 ∨ (f.content.length : Int) < fileOfs
    · rw [if_pos hout]
      exact wp_pure nofun
    rw [if_neg hout]
    obtain ⟨ofs, rfl⟩ := Int.eq_ofNat_of_zero_le (a := fileOfs) (by omega)
    refine wp_call (fileSeek_eq (Int.natCast_nonneg ofs)) (wp_call rfl ?_)
    split
    · exact wp_pure nofun
    rename_i hlen
    have hlen := not_not.mp hlen
    generalize hbs : (f.content.drop _).take _ = bs at hlen ⊢
    obtain ⟨hbs, hleft⟩ := take_min_eq hbs hlen
    replace hbs : bs = (f.content.drop ofs).take phdrSize := hbs
    have hnext : toOff (u32 ((ofs : Int).toNat + phdrSize)) = (ofs + phdrSize : Nat) := by
      have hleft : phdrSize ≤ (f.content.drop ofs).length := hleft
      have hlt := f.length_lt
      rw [length_drop, phdrSize] at hleft
      rw [Int.toNat_natCast, u32, phdrSize, Nat.mod_eq_of_lt (by omega), toOff, if_pos (by omega)]
    have hphdr : Phdr.ofBytes bs = f.phdrAt ofs := by rw [hbs, ElfFile.phdrAt]
    rw [hnext, hphdr, Int.toNat_natCast, ElfFile.phdrsAt, loadable]
    by_cases hload : (f.phdrAt ofs).pType = ptLoad
    · rw [if_pos hload, filter_cons_of_pos (by simpa using hload)]
      refine wp_bind (loadHeader_spec (hs.congr rfl rfl rfl) (Phdr.words_ofBytes _)) fun r L1 hr =>
        ?_
      cases r with
      | false => exact wp_pure nofun
      | true =>
        obtain ⟨hfits, hfree, hlt, hs1⟩ := hr rfl
        refine wp_mono (ih hs1 _) fun r L2 hr hr' => ?_
        obtain ⟨-, view', ho, hs2⟩ := hr hr'
        exact ⟨fun _ => Int.natCast_nonneg ofs, view', ⟨hfits, hfree, hlt, ho⟩, hs2⟩
    · rw [if_neg hload, filter_cons_of_neg (by simpa using hload)]
      split
      · exact wp_pure nofun
      · refine wp_mono (ih (hs.congr ?_ ?_ ?_) _) fun r L2 hr hr' => ?_
        any_goals rfl
        obtain ⟨-, view', ho, hs2⟩ := hr hr'
        exact ⟨fun _ => Int.natCast_nonneg ofs, view', ho, hs2⟩

/-- The page of the stack. -/
def stackPage : Nat := pgNo (physBase - pgSize)

/-- **`setup_stack`**. -/
theorem setupStack_spec (hs : AddressSpace E pd L view) :
    wp (setupStack E) (fun r L' => r = true → view stackPage = none ∧ L'.esp = physBase ∧
      AddressSpace E pd L' (update view stackPage (some (true, fun _ => 0)))) L := by
  rw [setupStack]
  cases hpal : E.palloc L.pallocs L.paging.used with
  | none => exact wp_call (pallocGetPage_none hpal) (wp_pure nofun)
  | some k =>
    obtain ⟨hk, hnew, hram⟩ := E.palloc_spec _ _ _ hpal
    refine wp_call (pallocGetPage_some hpal) (wp_call rfl (wp_bind
      (installPage_spec (b := fun _ => 0) (hs.fill hnew rfl rfl fun q hq => ?_) hk hram
        (update_self ..) (fun i hi => ?_) (by decide) (by decide)) ?_))
    · dsimp only
      rw [update_of_ne hq]
    · dsimp only
      rw [update_self, length_replicate, if_pos (by omega), getD_eq_getElem?_getD,
        getElem?_replicate, if_pos (by omega)]
      rfl
    rintro r L' ⟨hused, -, hr⟩
    cases r with
    | false => exact wp_free hk hused fun _ => nofun
    | true =>
      obtain ⟨hfree, hspace⟩ := hr rfl
      exact wp_pure fun _ => ⟨hfree, rfl, hspace.congr rfl rfl rfl⟩

/-- The byte at a user address. -/
def Loader.userByte (L : Loader) (pd va : Nat) : Option Byte :=
  (frame (L.paging.pte pd va)).map fun k => L.bytes k (pgOfs va)

/-- The page `p` is mapped for the user, writable or not. -/
def Loader.MapsPage (L : Loader) (pd p : Nat) (w : Bool) : Prop :=
  frame (L.paging.pte pd (p * pgSize)) ≠ none ∧ L.paging.pte pd (p * pgSize) &&& pteU ≠ 0#32 ∧
    (L.paging.pte pd (p * pgSize) &&& pteW ≠ 0#32 ↔ w = true)

/-- **The image of the executable** in the address space of `pd`. -/
structure Image (f : ElfFile) (pd : Nat) (L : Loader) : Prop where
  /-- The bytes of a segment are those of the file. -/
  bytes : ∀ h ∈ f.segments, ∀ i, i < h.pFilesz → ∃ b, f.content[h.pOffset + i]? = some b ∧
    L.userByte pd (h.pVaddr + i) = some b
  /-- The bytes after them are zero. -/
  zeros : ∀ h ∈ f.segments, ∀ i, h.pFilesz ≤ i → i < h.pMemsz →
    L.userByte pd (h.pVaddr + i) = some 0
  /-- The pages of a segment are user pages, not page 0, writable if the header says so. -/
  pages : ∀ h ∈ f.segments, ∀ p, h.Covers p → 1 ≤ p ∧ p < pgNo physBase ∧
    L.MapsPage pd p h.writable
  /-- No page is one of two segments. -/
  apart : f.segments.Pairwise fun h h' => ∀ p, ¬ (h.Covers p ∧ h'.Covers p)
  /-- The page below `PHYS_BASE` is the stack, which no segment has. -/
  stack : L.MapsPage pd stackPage true ∧
    ∀ va, physBase - pgSize ≤ va → va < physBase → L.userByte pd va = some 0
  stack_apart : ∀ h ∈ f.segments, ¬ h.Covers stackPage
  /-- Nothing else is mapped. -/
  only : ∀ p, p < pgNo physBase → frame (L.paging.pte pd (p * pgSize)) ≠ none →
    p = stackPage ∨ ∃ h ∈ f.segments, h.Covers p

theorem AddressSpace.userByte (hs : AddressSpace E pd L view) {va : Nat} (hva : va < physBase)
    {w : Bool} {b : Nat → Byte} (hv : view (pgNo va) = some (w, b)) :
    L.userByte pd va = some (b (pgOfs va)) := by
  have hent := hs.entry va hva
  rw [hv] at hent
  obtain ⟨k, -, hto, -, -, -, hb⟩ := hent
  have hlt : pgOfs va < pgSize := Nat.mod_lt va (by decide)
  rw [Loader.userByte, hto.frame_eq, Option.map_some, hb _ hlt]

theorem page_lt {p : Nat} (hp : p < pgNo physBase) :
    p * pgSize < physBase ∧ pgNo (p * pgSize) = p := by
  simp only [pgNo, pgSize, physBase] at *
  omega

theorem AddressSpace.mapsPage (hs : AddressSpace E pd L view) {p : Nat} (hp : p < pgNo physBase)
    {w : Bool} {b : Nat → Byte} (hv : view p = some (w, b)) : L.MapsPage pd p w := by
  obtain ⟨hlt, hpg⟩ := page_lt hp
  have hent := hs.entry _ hlt
  rw [hpg, hv] at hent
  obtain ⟨k, -, hto, -, hw, hu, -⟩ := hent
  exact ⟨by rw [hto.frame_eq]; simp, hu, hw⟩

theorem Phdr.Fits.covers (hf : h.Fits f) {i : Nat} (hi : i < h.pMemsz) :
    h.Covers (pgNo (h.pVaddr + i)) ∧ h.pVaddr + i < physBase ∧
      (pgNo (h.pVaddr + i) - pgNo h.pVaddr) * pgSize + pgOfs (h.pVaddr + i) =
        pgOfs h.pVaddr + i := by
  obtain ⟨h1, h2, h3, h4, h5, h6⟩ := hf
  simp only [Phdr.Covers, Phdr.pageCnt, pgOfs, pgNo, pgSize, physBase] at *
  omega

theorem Phdr.Fits.filePage_add (hf : h.Fits f) (i : Nat) :
    h.filePage + (pgOfs h.pVaddr + i) = h.pOffset + i := by
  have hle : pgOfs h.pOffset ≤ h.pOffset := Nat.mod_le _ _
  rw [Phdr.filePage, ← hf.offset]
  omega

/-- An address space with the segments and the stack is the image. -/
theorem image_of_overlays (ho : Overlays f (fun _ => none) f.segments view)
    (hfree : view stackPage = none)
    (hs : AddressSpace E pd L (update view stackPage (some (true, fun _ => 0)))) :
    Image f pd L := by
  have hseg : ∀ h ∈ f.segments, ∀ q, h.Covers q →
      update view stackPage (some (true, fun _ => 0)) q =
        some (h.writable, segmentPage f h.filePage h.readBytes (q - pgNo h.pVaddr)) := by
    intro h hh q hq
    have hview := (ho.mem hh).2.2 q hq
    have hne : q ≠ stackPage := fun he => by
      rw [← he, hview] at hfree
      cases hfree
    rw [update_of_ne hne, hview]
  have hbyte : ∀ h ∈ f.segments, ∀ i, i < h.pMemsz → L.userByte pd (h.pVaddr + i) =
      some (if pgOfs h.pVaddr + i < h.readBytes then f.content.getD (h.pOffset + i) 0 else 0) := by
    intro h hh i hi
    have hfits := (ho.mem hh).1
    obtain ⟨hc, hlt, hofs⟩ := hfits.covers hi
    rw [hs.userByte hlt (hseg h hh _ hc), segmentPage, hofs, hfits.filePage_add]
  have hstack : update view stackPage (some (true, fun _ => 0)) stackPage =
    some (true, fun _ => 0) :=
    update_self ..
  refine ⟨fun h hh i hi => ?_, fun h hh i hi hi' => ?_, fun h hh p hp =>
    ?_, ho.pairwise, ⟨hs.mapsPage (by decide) hstack, fun va hva hva' => ?_⟩, fun h hh hc => ?_,
    fun p hp hmap => ?_⟩
  · obtain ⟨hfits, hlt, -⟩ := ho.mem hh
    have hrb : h.readBytes = pgOfs h.pVaddr + h.pFilesz := if_pos (Nat.zero_lt_of_lt hi)
    have hlen := hlt (pgOfs h.pVaddr + i) (by omega)
    rw [hfits.filePage_add] at hlen
    refine ⟨f.content[h.pOffset + i], getElem?_eq_getElem hlen, ?_⟩
    rw [hbyte h hh i (Nat.lt_of_lt_of_le hi hfits.filesz), if_pos (by omega),
      getD_eq_getElem _ _ hlen]
  · have hrb : h.readBytes ≤ pgOfs h.pVaddr + i := by
      rw [Phdr.readBytes]
      split <;> omega
    rw [hbyte h hh i hi', if_neg (by omega)]
  · have hfits := (ho.mem hh).1
    have hlast := hfits.arith.2.2.2.1
    have hfirst := hfits.first
    have hlt : p < pgNo physBase := Nat.lt_of_lt_of_le hp.2 hlast
    refine ⟨?_, hlt, hs.mapsPage hlt (hseg h hh p hp)⟩
    refine Nat.le_trans ?_ hp.1
    rw [pgNo, Nat.le_div_iff_mul_le (by decide), Nat.one_mul]
    exact hfirst
  · have hpg : pgNo va = stackPage := by
      simp only [stackPage, pgNo, pgSize, physBase] at *
      omega
    rw [hs.userByte hva' (by rw [hpg]; exact hstack)]
  · rw [(ho.mem hh).2.2 stackPage hc] at hfree
    cases hfree
  · obtain ⟨hlt, hpg⟩ := page_lt hp
    have hent := hs.entry _ hlt
    rw [hpg] at hent
    by_cases hstk : p = stackPage
    · exact .inl hstk
    rw [update_of_ne hstk] at hent
    by_cases hv : view p = none
    · rw [hv] at hent
      exact absurd (if_neg (not_not.mpr hent)) hmap
    · obtain hv | hv := ho.only hv
      · exact absurd rfl hv
      · exact .inr hv

end Image

/-! ## Loading -/

section Loading

variable {E : Env} {f : ElfFile} {pd : Nat} {L L' : Loader} {kernel : Nat → Option Nat}

theorem pagedirCreate_space (hinit : Directory L.paging E.init.pageDir kernel)
    (huser : ∀ d, d < pdNo physBase → kernel d = none) (hpd : L.paging.Available (some pd)) :
    ∃ M', pagedirCreate E.init (some pd) L.paging = some (some pd, M') ∧
      AddressSpace E pd { L with paging := M', pagedir := some pd } fun _ => none := by
  obtain ⟨M', hcreate⟩ : ∃ M', pagedirCreate E.init (some pd) L.paging = some (some pd, M') :=
    ⟨_, rfl⟩
  have hinv := (PagedirRuns.create hinit huser hpd hcreate).inv
  exact ⟨M', hcreate, hinv.dir, hinv.ne, rfl, fun va hva => hinv.maps va hva⟩

/-- The table of program headers is where `e_phoff` says, unless it is empty. -/
theorem loadable_toOff (h : 0 < f.ehdr.ePhnum → 0 ≤ toOff f.ehdr.ePhoff) :
    loadable (f.phdrsAt f.ehdr.ePhnum (toOff f.ehdr.ePhoff).toNat) = f.segments := by
  rw [ElfFile.segments]
  obtain hzero | hpos := Nat.eq_zero_or_pos f.ehdr.ePhnum
  · rw [hzero]
    rfl
  · have hoff := h hpos
    have hlt : f.ehdr.ePhoff < 2 ^ 32 := wordAt_lt _ 28
    rw [toOff] at hoff ⊢
    split at hoff
    · rw [if_pos ‹_›, Int.toNat_natCast]
    · omega

theorem loadPagedir_none (h : E.palloc L.pallocs L.paging.used = none) :
    loadPagedir E L = some (none, { L with pallocs := L.pallocs + 1, pagedir := none }) := by
  rw [loadPagedir,
    bind_eq (show nextPage E L = some (E.palloc L.pallocs L.paging.used, _) from rfl), h]
  rfl

theorem loadPagedir_some (h : E.palloc L.pallocs L.paging.used = some pd) {M' : Paging}
    (hcreate : pagedirCreate E.init (some pd) L.paging = some (some pd, M')) :
    loadPagedir E L = some (some pd,
      { L with pallocs := L.pallocs + 1, paging := M', pagedir := some pd }) := by
  rw [loadPagedir,
    bind_eq (show nextPage E L = some (E.palloc L.pallocs L.paging.used, _) from rfl), h]
  exact bind_eq (onPaging_eq (L := { L with pallocs := L.pallocs + 1 }) hcreate)

/-- The file is loaded into an empty address space. -/
theorem loadFile_spec (hspace : AddressSpace E pd L fun _ => none) (f : ElfFile) :
    wp (loadFile E f) (fun r L' => r = true → L'.pagedir = some pd ∧ Image f pd L' ∧
      L'.eip = f.ehdr.eEntry ∧ L'.esp = physBase) L := by
  rw [loadFile]
  refine wp_call rfl (wp_call rfl ?_)
  split
  · exact wp_pure nofun
  rename_i hok
  generalize hbs : (f.content.drop _).take _ = bs at hok ⊢
  obtain ⟨hlen, hvalid⟩ := not_or.mp hok
  obtain ⟨hbs, -⟩ := take_min_eq hbs (not_not.mp hlen)
  have hehdr : Ehdr.ofBytes bs = f.ehdr := by
    rw [hbs]
    rfl
  rw [hehdr]
  refine wp_bind (loadHeaders_spec (hspace.congr ?_ ?_ ?_) _ _) fun r L1 hr => ?_
  any_goals rfl
  cases r with
  | false => exact wp_pure nofun
  | true =>
    obtain ⟨hnonneg, view, ho, hs1⟩ := hr rfl
    refine wp_bind (setupStack_spec hs1) fun r L2 hr => ?_
    cases r with
    | false => exact wp_pure nofun
    | true =>
      obtain ⟨hfree, hesp, hs2⟩ := hr rfl
      rw [loadable_toOff hnonneg] at ho
      exact wp_pure fun _ =>
        ⟨hs2.current, image_of_overlays ho hfree (hs2.congr rfl rfl rfl), rfl, hesp⟩

/-- **`load` builds the right image and never panics**: whatever is in the file, and whatever page
allocations and buffers fail, it returns; if it returns true, the address space is the image of the
file. -/
theorem load_image (hinit : Directory L.paging E.init.pageDir kernel)
    (huser : ∀ d, d < pdNo physBase → kernel d = none) (file : Option ElfFile) :
    ∃ r L', load E file L = some (r, L') ∧
      (r = true → ∃ f pd, file = some f ∧ L'.pagedir = some pd ∧ Image f pd L' ∧
      L'.eip = f.ehdr.eEntry ∧ L'.esp = physBase) := by
  show wp (load E file) _ L
  rw [load]
  cases hpal : E.palloc L.pallocs L.paging.used with
  | none => exact wp_call (loadPagedir_none hpal) (wp_pure nofun)
  | some pd =>
    obtain ⟨hk, hnew, -⟩ := E.palloc_spec _ _ _ hpal
    obtain ⟨M', hcreate, hspace⟩ := pagedirCreate_space hinit huser (available_some hk hnew)
    refine wp_call (loadPagedir_some hpal hcreate) ?_
    cases file with
    | none => exact wp_pure nofun
    | some f =>
      have hloaded : AddressSpace E pd
          { L with pallocs := L.pallocs + 1, paging := M', pagedir := some pd } fun _ => none :=
        hspace.congr rfl rfl rfl
      exact wp_mono (loadFile_spec hloaded f) fun r L' hr hr' => ⟨f, pd, rfl, hr hr'⟩

end Loading

/-- Pages one after another from 0xc0300000 on. -/
def tinyPalloc (n : Nat) (used : Nat → Bool) : Option Nat :=
  if n < 16 ∧ used (0xc0300000 + n * 4096) = false then some (0xc0300000 + n * 4096) else none

theorem tinyPalloc_spec (n : Nat) (used : Nat → Bool) (page : Nat)
    (h : tinyPalloc n used = some page) :
    KernelPage page ∧ used page = false ∧ vtop page / pgSize < pagingInit.ramPages := by
  unfold tinyPalloc at h
  split at h
  · rename_i hn
    cases h
    refine ⟨⟨?_, ?_, ?_⟩, hn.2, ?_⟩
    · rw [pgOfs, pgSize]
      omega
    · rw [physBase]
      omega
    · omega
    · rw [vtop, physBase, pgSize]
      show _ < 1024
      omega
  · cases h

/-- Those pages, and no short reads. -/
def tinyEnv : Env where
  init := pagingInit
  palloc := tinyPalloc
  cut _ := pgSize
  palloc_spec := tinyPalloc_spec

/-- A header and one program header: 84 bytes at 0x8048000, writable, with zeros up to 5000. -/
def tinyElf : ElfFile where
  content := [0x7f, 0x45, 0x4c, 0x46, 1, 1, 1, 0, 0, 0, 0, 0, 0, 0, 0, 0, 2, 0, 3, 0, 1, 0, 0, 0,
    0, 0x80, 4, 8, 52, 0, 0, 0, 0, 0, 0, 0, 0, 0, 0, 0, 52, 0, 32, 0, 1, 0, 0, 0, 0, 0, 0, 0,
    1, 0, 0, 0, 0, 0, 0, 0, 0, 0x80, 4, 8, 0, 0, 0, 0, 84, 0, 0, 0, 0x88, 0x13, 0, 0, 6, 0, 0, 0,
    0, 0x10, 0, 0]
  length_lt := by decide

/-- Before it is loaded. -/
def tinyStart : Loader where
  paging := pagingStart
  bytes _ _ := 0xaa
  pagedir := none
  pos := 0
  eip := 0
  esp := 0
  pallocs := 0
  reads := 0

/-- A program that is loaded. -/
theorem load_image_tiny : ∃ L' pd, load tinyEnv (some tinyElf) tinyStart = some (true, L') ∧
    L'.pagedir = some pd ∧ Image tinyElf pd L' := by
  obtain ⟨r, L', hload, himage⟩ := load_image (E := tinyEnv) (L := tinyStart) directory_pagingStart
    (fun d hd => if_neg (Nat.ne_of_lt hd)) (some tinyElf)
  have hr : (load tinyEnv (some tinyElf) tinyStart).map Prod.fst = some true := by decide +kernel
  rw [hload] at hr
  cases hr
  obtain ⟨f, pd, hf, hpd, himage, -⟩ := himage rfl
  cases hf
  exact ⟨L', pd, hload, hpd, himage⟩

end SystemProg.Pintos.Elf
