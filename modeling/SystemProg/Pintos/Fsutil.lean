import SystemProg.Pintos.Runs
import SystemProg.Pintos.Ustar

/-!
# Archives on the scratch device

Model of `fsutil_append` and `fsutil_extract` (`filesys/fsutil.c`). The state is the file system,
the scratch device and the two `static` sector counters. `malloc` succeeds and a scratch device is
there.

An archive is what `fsutil_append` leaves on the scratch device: for each file a header and its
bytes, filled up with zeros to whole sectors (`member`), and two sectors of zeros at the end.

* `fsutilAppend_spec`, `appendAll_spec`: a call writes a member and the end of the archive, and a
  sequence of calls the members one after the other.
-/

namespace SystemProg.Pintos

open Data Text SystemProg.Seq List

/-! ## The functions -/

/-- The two devices and the variables. -/
structure Machine where
  fs : FileSys
  /-- The device with the role `BLOCK_SCRATCH`. -/
  scratch : Disk
  /-- `sector` in `fsutil_append`. -/
  appendSector : Nat
  /-- `sector` in `fsutil_extract`. -/
  extractSector : Nat

/-- A function of the file system. -/
def onFs {α : Type} (m : K α) : Panic Machine α := fun M =>
  (m M.fs).map fun r => (r.1, { M with fs := r.2 })

/-- `block_read` on the scratch device. -/
def scratchRead (sector : Nat) : Panic Machine (List Byte) := do
  let M ← get
  assert (sector < M.scratch.size)
  return slice M.scratch.byte (sectorSize * sector) sectorSize

/-- `block_write` on it. -/
def scratchWrite (sector : Nat) (buffer : List Byte) : Panic Machine Unit := do
  let M ← get
  assert (sector < M.scratch.size)
  set { M with scratch := M.scratch.patched (sectorSize * sector) buffer }

/-- `size > BLOCK_SECTOR_SIZE ? BLOCK_SECTOR_SIZE : size`. -/
def sectorChunk (size : Nat) : Nat := if sectorSize < size then sectorSize else size

/-- `block_write(dst, sector++, buffer)`. -/
def appendBlock (buffer : List Byte) : Panic Machine Unit := do
  let M ← get
  scratchWrite M.appendSector buffer
  modify fun M => { M with appendSector := M.appendSector + 1 }

/-- The loop of `fsutil_append`. A turn copies at least one byte. -/
def appendLoop : (turns : Nat) → (src : File) → (size : Nat) → Panic Machine File
  | 0, src, _ => return src
  | turns + 1, src, size => do
    if size = 0 then return src
    let M ← get
    assert (M.appendSector < M.scratch.size)
    let (buffer, src) ← onFs (fileRead src (sectorChunk size))
    assert (buffer.length = sectorChunk size)
    appendBlock (buffer ++ zeros (sectorSize - sectorChunk size))
    appendLoop turns src (size - sectorChunk size)

/-- `fsutil_append`. -/
def fsutilAppend (fileName : List Byte) : Panic Machine Unit := do
  match ← onFs (filesysOpen fileName) with
  | none => abort
  | some src =>
    let size ← onFs (fileLength src)
    match ustarMakeHeader fileName .regular size with
    | none => abort
    | some header =>
      appendBlock header
      let src ← appendLoop size src size
      let M ← get
      scratchWrite M.appendSector (zeros sectorSize)
      scratchWrite (M.appendSector + 1) (zeros sectorSize)
      onFs (fileClose src)

/-- `block_read(src, sector++, buffer)`. -/
def nextBlock : Panic Machine (List Byte) := do
  let M ← get
  let buffer ← scratchRead M.extractSector
  modify fun M => { M with extractSector := M.extractSector + 1 }
  return buffer

/-- The copying loop of `fsutil_extract`. -/
def extractLoop : (turns : Nat) → (dst : File) → (size : Nat) → Panic Machine File
  | 0, dst, _ => return dst
  | turns + 1, dst, size => do
    if size = 0 then return dst
    let data ← nextBlock
    let (n, dst) ← onFs (fileWrite dst (data.take (sectorChunk size)))
    assert (n = sectorChunk size)
    extractLoop turns dst (size - sectorChunk size)

/-- `fsutil_extract` for a regular file. -/
def extractFile (fileName : List Byte) (size : Nat) : Panic Machine Unit := do
  let ok ← onFs (filesysCreate fileName size)
  assert (ok = true)
  match ← onFs (filesysOpen fileName) with
  | none => abort
  | some dst =>
    let dst ← extractLoop size dst size
    onFs (fileClose dst)

/-- The loop of `fsutil_extract` over the members. A turn reads a sector, and to read past the end
of the device is a panic. -/
def extractAll : (turns : Nat) → Panic Machine Unit
  | 0 => abort
  | turns + 1 => do
    match ustarParseHeader (← nextBlock) with
    | .error _ => abort
    | .ok none => return ()
    | .ok (some ⟨_, .directory, _⟩) => extractAll turns
    | .ok (some ⟨fileName, .regular, size⟩) => do
      extractFile fileName size
      extractAll turns

/-- `fsutil_extract`. -/
def fsutilExtract : Panic Machine Unit := do
  let M ← get
  extractAll (M.scratch.size + 1)
  scratchWrite 0 (zeros sectorSize)
  scratchWrite 1 (zeros sectorSize)

/-! ## The files of a file system -/

/-- The name and the contents of the file that a slot of the root directory links. -/
def FileSys.fileIn (fs : FileSys) (k : Nat) : Option (List Byte × List Byte) :=
  let e := fs.slot .root k
  if e.inUse then some (cstr e.name, fs.disk.contents (fs.disk.inodeAt e.inodeSector)) else none

/-- The files in the root directory. -/
def FileSys.listing (fs : FileSys) : List (List Byte × List Byte) :=
  (List.range DirAt.root.slots).filterMap fs.fileIn

/-- The one file with the name has the contents. -/
def FileSys.Stores (fs : FileSys) (name contents : List Byte) : Prop :=
  (name, contents) ∈ fs.listing ∧ ∀ c, (name, c) ∈ fs.listing → c = contents

variable {fs fs' : FileSys} {H D : List Nat} {X Y : Set Nat} {M : Machine} {name c bs : List Byte}
  {i : Inode} {f : File} {k n turns sector : Nat} {file : List Byte × List Byte}
  {files : List (List Byte × List Byte)}

theorem FileSys.fileIn_of_inUse (hk : (fs.slot .root k).inUse = true) : fs.fileIn k =
    some
      (cstr (fs.slot .root k).name,
      fs.disk.contents (fs.disk.inodeAt (fs.slot .root k).inodeSector)) := if_pos hk

theorem FileSys.fileIn_of_free (hk : (fs.slot .root k).inUse = false) : fs.fileIn k = none :=
  if_neg (by rw [hk]; decide)

theorem FileSys.fileIn_of_disk (h : fs'.disk = fs.disk) : fs'.fileIn = fs.fileIn := by
  funext k
  rw [FileSys.fileIn, FileSys.slot_of_disk h, h, FileSys.fileIn]

theorem FileSys.stores_of_disk (h : fs'.disk = fs.disk) :
    fs'.Stores name c ↔ fs.Stores name c := by
  rw [FileSys.Stores, FileSys.listing, FileSys.fileIn_of_disk h, FileSys.Stores, FileSys.listing]

theorem FileSys.mem_listing_of_named (hk : fs.Named .root name k) :
    (name, fs.disk.contents (fs.disk.inodeAt (fs.slot .root k).inodeSector)) ∈ fs.listing := by
  refine mem_filterMap.mpr ⟨k, mem_range.mpr hk.lt, ?_⟩
  rw [FileSys.fileIn_of_inUse hk.inUse, hk.name]

theorem FileSys.exists_named (h : (name, c) ∈ fs.listing) : ∃ k, fs.Named .root name k := by
  obtain ⟨k, hk, heq⟩ := mem_filterMap.mp h
  cases huse : (fs.slot .root k).inUse with
  | false =>
    rw [FileSys.fileIn_of_free huse] at heq
    cases heq
  | true =>
    rw [FileSys.fileIn_of_inUse huse] at heq
    exact ⟨k, mem_range.mp hk, huse, congrArg Prod.fst (Option.some.inj heq)⟩

/-! ## Members of an archive -/

/-- Filled up with zeros to whole sectors. -/
def padded (c : List Byte) : List Byte :=
  c ++ zeros (sectorSize * bytesToSectors c.length - c.length)

/-- A file in an archive. -/
def member (file : List Byte × List Byte) : List Byte :=
  (ustarMakeHeader file.1 .regular file.2.length).getD [] ++ padded file.2

/-- The number of its sectors. -/
def memberSectors (file : List Byte × List Byte) : Nat := 1 + bytesToSectors file.2.length

/-- An archive, but for its end. -/
def archive (files : List (List Byte × List Byte)) : List Byte := files.flatMap member

/-- The number of its sectors. -/
def archiveSectors (files : List (List Byte × List Byte)) : Nat := (files.map memberSectors).sum

theorem length_padded (c : List Byte) :
    (padded c).length = sectorSize * bytesToSectors c.length := by
  rw [padded, length_append, length_zeros, bytesToSectors, sectorSize]
  omega

theorem sectorChunk_le (k : Nat) : sectorChunk k ≤ k ∧ sectorChunk k ≤ sectorSize := by
  unfold sectorChunk
  split <;> omega

theorem sectorChunk_pos (hk : k ≠ 0) : 0 < sectorChunk k := by
  unfold sectorChunk sectorSize
  split <;> omega

theorem bytesToSectors_chunk (hk : k ≠ 0) :
    bytesToSectors k = 1 + bytesToSectors (k - sectorChunk k) := by
  unfold sectorChunk bytesToSectors sectorSize
  split <;> omega

theorem padded_chunk (hc : c.length ≠ 0) : padded c =
    (c.take (sectorChunk c.length) ++ zeros (sectorSize - sectorChunk c.length)) ++
      padded (c.drop (sectorChunk c.length)) := by
  by_cases hlt : sectorSize < c.length
  · have hchunk : sectorChunk c.length = sectorSize := if_pos hlt
    have hpad : sectorSize * bytesToSectors c.length - c.length =
        sectorSize * bytesToSectors (c.length - sectorSize) - (c.length - sectorSize) := by
      unfold bytesToSectors sectorSize at *
      omega
    have hz : zeros 0 = [] := rfl
    rw [hchunk, Nat.sub_self, padded, padded, length_drop, hpad, hz, append_nil,
      ← append_assoc, take_append_drop]
  · have hchunk : sectorChunk c.length = c.length := if_neg hlt
    have hpad : sectorSize * bytesToSectors c.length = sectorSize := by
      unfold bytesToSectors sectorSize at *
      omega
    rw [hchunk, take_length, drop_length, padded, hpad]
    exact (append_nil _).symm

/-- The file can be a member. -/
structure Archivable (file : List Byte × List Byte) : Prop where
  nul : 0 ∉ file.1
  short : file.1.length ≤ 99
  stripped : stripAntisocial file.1 = file.1
  size : file.2.length < 2 ^ 31

theorem Archivable.header (h : Archivable file) :
    ∃ header, ustarMakeHeader file.1 .regular file.2.length = some header ∧ header.length =
      sectorSize ∧ member file = header ++ padded file.2 ∧
      ustarParseHeader header = .ok (some ⟨file.1, .regular, file.2.length⟩) := by
  obtain ⟨header, hmake, hlen, hparse⟩ :=
    parse_make .regular h.nul (by rw [h.stripped]; exact h.short) h.size
  rw [h.stripped, if_pos rfl] at hparse
  exact ⟨header, hmake, hlen, by rw [member, hmake]; rfl, hparse⟩

theorem Archivable.length_member (h : Archivable file) :
    (member file).length = sectorSize * memberSectors file := by
  obtain ⟨header, -, hlen, hmember, -⟩ := h.header
  rw [hmember, length_append, hlen, length_padded, memberSectors, Nat.mul_add, Nat.mul_one]

theorem length_archive (h : ∀ f ∈ files, Archivable f) :
    (archive files).length = sectorSize * archiveSectors files := by
  induction files with
  | nil => rfl
  | cons f files ih =>
    rw [archive, flatMap_cons, length_append, (h f mem_cons_self).length_member,
      archiveSectors, map_cons, sum_cons, Nat.mul_add]
    exact congrArg _ (ih fun g hg => h g (mem_cons_of_mem _ hg))

/-! ## `fsutil_append` -/

theorem onFs_eq {α : Type} {m : K α} {a : α} (h : m M.fs = some (a, fs')) :
    onFs m M = some (a, { M with fs := fs' }) := by
  rw [onFs, h]
  rfl

theorem wp_onFs {α : Type} {m : K α} {Q : α → Machine → Prop}
    (hm : wp m (fun a fs' => Q a { M with fs := fs' }) M.fs) : wp (onFs m) Q M := by
  obtain ⟨a, fs', hm, hQ⟩ := hm
  exact ⟨a, _, onFs_eq hm, hQ⟩

theorem scratchWrite_eq (h : sector < M.scratch.size) : scratchWrite sector bs M =
    some ((), { M with scratch := M.scratch.patched (sectorSize * sector) bs }) := by
  rw [scratchWrite, get_bind, bind_eq (assert_eq h)]
  rfl

/-- The state after sectors have been appended. -/
def Machine.appended (M : Machine) (bs : List Byte) (sectors : Nat) : Machine :=
  { M with
    scratch := M.scratch.patched (sectorSize * M.appendSector) bs
    appendSector := M.appendSector + sectors }

theorem Machine.appended_nil (M : Machine) : M.appended [] 0 = M := by
  rw [Machine.appended, Disk.patched, patch_nil]
  rfl

theorem Machine.appended_appended {cs : List Byte} (h : bs.length = sectorSize * k) :
    (M.appended bs k).appended cs n = M.appended (bs ++ cs) (k + n) := by
  simp only [Machine.appended, Disk.patched, patch_append, h, Nat.mul_add, Nat.add_assoc]

theorem appendBlock_eq (h : M.appendSector < M.scratch.size) :
    appendBlock bs M = some ((), M.appended bs 1) := by
  rw [appendBlock, get_bind, bind_eq (scratchWrite_eq h)]
  rfl

theorem fileRead_eq (hi : lookup Inode.ptr fs.openInodes f.inode = some i)
    (hfit : i.data.Fits fs.disk.size) (hc : (fs.disk.contents i.data).drop f.pos = c)
    (hn : n ≤ c.length) : fileRead f n fs = some ((c.take n, { f with pos := f.pos + n }), fs) := by
  rw [fileRead, bind_eq (inodeReadAt_eq hi hfit), hc]
  show some ((c.take n, { f with pos := f.pos + (c.take n).length }), fs) = _
  rw [length_take, Nat.min_eq_left hn]

/-- **The loop** appends what is left of the file. -/
theorem appendLoop_eq (hi : lookup Inode.ptr M.fs.openInodes f.inode = some i)
    (hfit : i.data.Fits M.fs.disk.size) (hc : (M.fs.disk.contents i.data).drop f.pos = c)
    (hturns : c.length ≤ turns)
    (hroom : M.appendSector + bytesToSectors c.length ≤ M.scratch.size) :
    appendLoop turns f c.length M = some ({ f with pos := f.pos + c.length },
      M.appended (padded c) (bytesToSectors c.length)) := by
  induction turns generalizing f c M with
  | zero =>
    obtain rfl := length_eq_zero_iff.mp (Nat.le_zero.mp hturns)
    exact congrArg (fun M' => some (f, M')) M.appended_nil.symm
  | succ turns ih =>
    rw [appendLoop]
    by_cases hlen : c.length = 0
    · obtain rfl := length_eq_zero_iff.mp hlen
      exact congrArg (fun M' => some (f, M')) M.appended_nil.symm
    have hpos := sectorChunk_pos hlen
    obtain ⟨hle, hle'⟩ := sectorChunk_le c.length
    have hsectors := bytesToSectors_chunk hlen
    obtain ⟨chunk, hchunk⟩ : ∃ chunk, chunk = sectorChunk c.length := ⟨_, rfl⟩
    have hstep := padded_chunk hlen
    rw [← hchunk] at hpos hle hle' hsectors hstep ⊢
    have htake : (c.take chunk).length = chunk := by rw [length_take, Nat.min_eq_left hle]
    have hdrop : (c.drop chunk).length = c.length - chunk := length_drop
    have hblock : (c.take chunk ++ zeros (sectorSize - chunk)).length = sectorSize * 1 := by
      rw [length_append, htake, length_zeros]
      omega
    rw [if_neg hlen, get_bind, bind_eq (assert_eq (by omega)),
      bind_eq (onFs_eq (fileRead_eq hi hfit hc hle))]
    dsimp only
    rw [bind_eq (assert_eq htake),
      bind_eq (appendBlock_eq (by show M.appendSector < M.scratch.size; omega)), ← hdrop]
    refine (ih (M := M.appended _ 1) (f := { f with pos := f.pos + chunk }) hi hfit ?_ ?_ ?_).trans
      ?_
    · rw [← hc, drop_drop]
      rfl
    · omega
    · show M.appendSector + 1 + _ ≤ M.scratch.size
      rw [hdrop]
      omega
    · rw [Machine.appended_appended hblock, ← hstep, hdrop, ← hsectors]
      simp only [Nat.add_assoc, Nat.add_sub_cancel' hle]

/-- **`fsutil_append`** writes the member at its sector, and the end of the archive after it. -/
theorem fsutilAppend_spec (h : Inv M.fs .root H D ∅) (hfile : M.fs.Stores file.1 file.2)
    (ha : Archivable file)
    (hroom : M.appendSector + memberSectors file + 2 ≤ M.scratch.size) :
    wp (fsutilAppend file.1) (fun _ M' => Inv M'.fs .root H D ∅ ∧ M'.fs.disk = M.fs.disk ∧
      M'.scratch = M.scratch.patched (sectorSize * M.appendSector)
        (member file ++ zeros (2 * sectorSize)) ∧
      M'.appendSector = M.appendSector + memberSectors file) M := by
  obtain ⟨header, hmake, hlen, hmember, -⟩ := ha.header
  have hlm := ha.length_member
  have hsectors : memberSectors file = 1 + bytesToSectors file.2.length := rfl
  rw [hsectors] at hroom hlm ⊢
  refine wp_bind
    (wp_onFs (Q := fun r M' => ∃ fs' k i, r = some ⟨i.ptr, 0, false⟩ ∧ M' = { M with fs := fs' } ∧
    fs'.disk = M.fs.disk ∧ fs'.disk.Links .root k i.sector ∧
    i ∈ fs'.openInodes ∧ fs'.disk.contents i.data = file.2 ∧ Inv fs' .root (i.ptr :: H) D ∅)
    (wp_mono (filesysOpen_spec h file.1) ?_)) ?_
  · rintro r fs' ⟨-, hdisk, -, ⟨-, hnone, -⟩ | ⟨k, i, rfl, hk, hi, his, h'⟩⟩
    · obtain ⟨k, hk⟩ := FileSys.exists_named hfile.1
      exact absurd hk (hnone k)
    · refine ⟨fs', k, i, rfl, rfl, hdisk, ?_, hi, ?_, h'⟩
      · rw [hdisk, his]
        exact hk.links
      · rw [h'.data i hi, his, hdisk]
        exact hfile.2 _ (FileSys.mem_listing_of_named hk)
  rintro _ _ ⟨fs', k, i, rfl, rfl, hdisk, hlink, hi, hc, h'⟩
  have hl := h'.table.lookup_eq hi
  have hlength : fileLength ⟨i.ptr, 0, false⟩ fs' = some (file.2.length, fs') := by
    rw [fileLength, bind_eq (inode_eq hl), ← hc, Disk.contents, length_slice]
    rfl
  refine wp_call (onFs_eq hlength) ?_
  rw [hmake]
  refine wp_call (appendBlock_eq (by show M.appendSector < M.scratch.size; omega)) ?_
  refine wp_call (appendLoop_eq (c := file.2) hl (h'.fits hi) hc le_rfl ?_) (wp_get ?_)
  · show M.appendSector + 1 + _ ≤ M.scratch.size
    omega
  rw [Machine.appended_appended (by rw [hlen, Nat.mul_one]), ← hmember]
  refine wp_call (scratchWrite_eq ?_) (wp_call (scratchWrite_eq ?_) ?_)
  · show M.appendSector + (1 + bytesToSectors file.2.length) < M.scratch.size
    omega
  · show M.appendSector + (1 + bytesToSectors file.2.length) + 1 < M.scratch.size
    omega
  -- the member, and the two sectors after it
  have hz : zeros (2 * sectorSize) = zeros sectorSize ++ zeros sectorSize := by
    rw [Nat.two_mul]
    exact replicate_append_replicate.symm
  simp only [Machine.appended, Disk.patched, hz, patch_append, hlm, length_zeros, Nat.mul_add,
    Nat.mul_one, Nat.add_assoc]
  refine wp_onFs (wp_mono (fileClose_linked h' hi rfl hlink rfl (h.table.denying _)) ?_)
  rintro _ fs2 ⟨h2, -, hdisk2, -⟩
  exact ⟨h2, hdisk2.trans hdisk, rfl, rfl⟩

/-! ## A sequence of calls -/

/-- **The members, one after the other.** -/
theorem appendAll_spec (h : Inv M.fs .root H D ∅) (ha : ∀ f ∈ files, Archivable f)
    (hfiles : ∀ f ∈ files, M.fs.Stores f.1 f.2)
    (hroom : M.appendSector + archiveSectors files + 2 ≤ M.scratch.size) :
    wp ((files.map Prod.fst).forM fsutilAppend) (fun _ M' =>
      M'.scratch.size = M.scratch.size ∧
      (files = [] → M'.scratch = M.scratch) ∧ (files ≠ [] → M'.scratch =
        M.scratch.patched (sectorSize * M.appendSector)
          (archive files ++ zeros (2 * sectorSize)))) M := by
  induction files generalizing M with
  | nil => exact wp_pure ⟨rfl, fun _ => rfl, fun hne => absurd rfl hne⟩
  | cons f files ih =>
    have hsum : archiveSectors (f :: files) = memberSectors f + archiveSectors files := rfl
    have hfl := (ha f mem_cons_self).length_member
    refine wp_bind (fsutilAppend_spec h (hfiles f mem_cons_self) (ha f mem_cons_self)
      (by omega)) ?_
    rintro _ M1 ⟨h1, hdisk1, hscratch1, hsector1⟩
    have hsize1 : M1.scratch.size = M.scratch.size := by rw [hscratch1]; rfl
    refine wp_mono (ih h1 (fun g hg => ha g (mem_cons_of_mem _ hg)) (fun g hg =>
      (FileSys.stores_of_disk hdisk1).mpr (hfiles g (mem_cons_of_mem _ hg))) (by omega)) ?_
    rintro _ M2 ⟨hsize2, hnil, hcons⟩
    refine ⟨hsize2.trans hsize1, fun he => absurd he (cons_ne_nil _ _), fun _ => ?_⟩
    by_cases he : files = []
    · rw [hnil he, hscratch1, he]
      simp only [archive, flatMap_cons, flatMap_nil, append_nil]
    · -- the next members start where the two sectors of zeros are
      rw [hcons he, hscratch1, hsector1]
      have hle :
          (zeros (2 * sectorSize)).length ≤ (archive files ++ zeros (2 * sectorSize)).length :=
        by rw [length_append]; omega
      have happ : archive (f :: files) = member f ++ archive files := rfl
      rw [happ, append_assoc]
      simp only [Disk.patched, patch_append _ _ (member f), hfl, Nat.mul_add, patch_patch hle]

end SystemProg.Pintos
