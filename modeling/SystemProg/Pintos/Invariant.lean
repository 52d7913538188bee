import SystemProg.Pintos.Layout
import SystemProg.Pintos.Table

/-!
# The invariant of the file system

`Inv` ties the table of open inodes to the layout of the device: the copy of an inode in memory is
the one on the device, an inode that has been removed is no longer linked, nobody denies writes to
the free map or to the directory, and `free_map_file` is open.

It holds between any two calls inside the file system, with the openers `H`, those of them that deny
writes `D`, and the sectors `Y` that a function at work has taken and not linked yet. The functions
on the free map and on inodes keep it (`Inv.take`, `Inv.give`, `Inv.create`, `inodeOpen_spec`,
`inodeClose_spec`).

`Quiet` is what they do not change: the sectors outside a set, and which inode an address is of.
-/

namespace SystemProg.Pintos

open Data Text SystemProg.Seq List

/-- The sectors of the open inodes. -/
def FileSys.openSectors (fs : FileSys) : Set Nat := {s | ∃ i ∈ fs.openInodes, i.sector = s}

/-- The invariant, with openers `H`, deniers `D` and spare sectors `Y`. -/
structure Inv (fs : FileSys) (r : DirAt) (H D : List Nat) (Y : Set Nat) : Prop where
  table : Table fs.openInodes fs.nextPtr H D
  layout : Layout fs.disk fs.freeMap r fs.openSectors Y
  data : ∀ i ∈ fs.openInodes, i.data = fs.disk.inodeAt i.sector
  special : ∀ i ∈ fs.openInodes, i.sector = freeMapSector ∨ i.sector = r.sector → i.denyWriteCnt =
    0 ∧ i.removed = false
  removed : ∀ i ∈ fs.openInodes, i.removed = true → ∀ k, ¬fs.disk.Links r k i.sector
  mapFile : ∃ f i, fs.freeMapFile = some f ∧ i ∈ fs.openInodes ∧ i.ptr = f.inode ∧ i.sector =
    freeMapSector

/-- The live inodes. -/
def FileSys.live (fs : FileSys) (r : DirAt) : Set Nat := fs.disk.live r fs.openSectors

variable {fs fs' fs'' : FileSys} {r : DirAt} {H D : List Nat} {X X' Y Y' : Set Nat} {i : Inode}
  {m m' : Bitmap} {d' : Disk} {cnt p s start len : Nat}

theorem FileSys.mem_openSectors (hi : i ∈ fs.openInodes) : i.sector ∈ fs.openSectors := ⟨i, hi, rfl⟩

theorem FileSys.mem_live (hi : i ∈ fs.openInodes) : i.sector ∈ fs.live r :=
  Layout.open_mem (fs.mem_openSectors hi)

namespace Inv

theorem mono (h : Inv fs r H D Y) (hY : Y' ⊆ Y) : Inv fs r H D Y' :=
  { h with layout := h.layout.mono subset_rfl hY }

theorem perm {H' D' : List Nat} (h : Inv fs r H D Y) (hH : H.Perm H') (hD : D.Perm D') :
    Inv fs r H' D' Y :=
  { h with table := h.table.perm hH hD }

theorem fits (h : Inv fs r H D Y) (hi : i ∈ fs.openInodes) : i.data.Fits fs.disk.size :=
  h.data i hi ▸ h.layout.fits _ (fs.mem_live hi)

theorem disk (h : Inv fs r H D Y) (hl : Layout d' m' r fs.openSectors Y')
    (ha : ∀ i ∈ fs.openInodes, d'.inodeAt i.sector = fs.disk.inodeAt i.sector)
    (hr : ∀ i ∈ fs.openInodes, i.removed = true → ∀ k, ¬d'.Links r k i.sector) :
    Inv { fs with disk := d', freeMap := m' } r H D Y' where
  table := h.table
  layout := hl
  data i hi := (h.data i hi).trans (ha i hi).symm
  special := h.special
  removed := hr
  mapFile := h.mapFile

end Inv

/-! ## What does not change -/

/-- At most the sectors `X` change, and an address that is open after was open before, for the same
sector, unless it is new. -/
structure Quiet (X : Set Nat) (fs fs' : FileSys) : Prop where
  disk : AgreeOff X fs.disk fs'.disk
  next : fs.nextPtr ≤ fs'.nextPtr
  kept : ∀ i' ∈ fs'.openInodes, i'.ptr < fs.nextPtr →
    ∃ i ∈ fs.openInodes, i.ptr = i'.ptr ∧ i.sector = i'.sector

namespace Quiet

theorem refl (fs : FileSys) : Quiet X fs fs :=
  ⟨⟨rfl, fun _ _ => rfl⟩, le_rfl, fun i hi _ => ⟨i, hi, rfl, rfl⟩⟩

theorem mono (h : Quiet X fs fs') (hX : X ⊆ X') : Quiet X' fs fs' :=
    ⟨h.disk.mono hX, h.next, h.kept⟩

theorem trans (h : Quiet X fs fs') (h' : Quiet X fs' fs'') : Quiet X fs fs'' where
  disk := Set.union_self X ▸ h.disk.trans h'.disk
  next := Nat.le_trans h.next h'.next
  kept i'' hi'' hlt := by
    obtain ⟨i', hi', hp', hs'⟩ := h'.kept i'' hi'' (Nat.lt_of_lt_of_le hlt h.next)
    obtain ⟨i, hi, hp, hs⟩ := h.kept i' hi' (hp' ▸ hlt)
    exact ⟨i, hi, hp.trans hp', hs.trans hs'⟩

theorem of_disk_eq (h : Quiet X fs fs') (hd : fs'.disk = fs.disk) : Quiet X' fs fs' :=
  ⟨hd ▸ ⟨rfl, fun _ _ => rfl⟩, h.next, h.kept⟩

theorem of_disk (h : AgreeOff X fs.disk d') : Quiet X fs { fs with disk := d', freeMap := m' } :=
  ⟨h, le_rfl, fun i hi _ => ⟨i, hi, rfl, rfl⟩⟩

theorem of_setInode {f : Inode → Inode} (hptr : ∀ i, (f i).ptr = i.ptr)
    (hsector : ∀ i, (f i).sector = i.sector) : Quiet X fs (fs.setInode p f) := by
  refine ⟨⟨rfl, fun _ _ => rfl⟩, le_rfl, fun j hj _ => ?_⟩
  rcases mem_update hj with ⟨i, hi, -, rfl⟩ | ⟨hj, -⟩
  · exact ⟨i, hi, (hptr i).symm, (hsector i).symm⟩
  · exact ⟨j, hj, rfl, rfl⟩

end Quiet

theorem Quiet.still {H' D' : List Nat} (hq : Quiet X fs fs') (h : Inv fs r H D Y)
    (h' : Inv fs' r H' D' Y') (hp : i.ptr ∈ H') (hi : i ∈ fs.openInodes) :
    ∃ i' ∈ fs'.openInodes, i'.ptr = i.ptr ∧ i'.sector = i.sector := by
  obtain ⟨i', hi', hip'⟩ := h'.table.opened _ hp
  obtain ⟨j, hj, hjp, hjs⟩ := hq.kept i' hi' (hip' ▸ h.table.fresh i hi)
  have hij : j = i := inj_on_of_nodup_map h.table.ptrs hj hi (hjp.trans hip')
  exact ⟨i', hi', hip', by rw [← hjs, hij]⟩

/-! ## The free map -/

/-- The state with another free map, in memory and in its file. -/
def FileSys.withMap (fs : FileSys) (m : Bitmap) : FileSys :=
  { fs with disk := fs.disk.written (fs.disk.inodeAt freeMapSector) 0 m.bytes, freeMap := m }

section WithMap

variable (fs m)

@[simp] theorem FileSys.freeMap_withMap : (fs.withMap m).freeMap = m := rfl

@[simp] theorem FileSys.freeMapFile_withMap : (fs.withMap m).freeMapFile = fs.freeMapFile := by
  rw [FileSys.withMap]

@[simp] theorem FileSys.openInodes_withMap : (fs.withMap m).openInodes = fs.openInodes := by
  rw [FileSys.withMap]

@[simp] theorem FileSys.size_withMap : (fs.withMap m).disk.size = fs.disk.size := by
  rw [FileSys.withMap, Disk.written, Disk.patched]

end WithMap

/-- `free_map_file` is open, on a file of the size of the free map. -/
structure MapFile (fs : FileSys) : Prop where
  file : ∃ f i, fs.freeMapFile = some f ∧ lookup Inode.ptr fs.openInodes f.inode = some i ∧ i.data =
    fs.disk.inodeAt freeMapSector ∧ i.denyWriteCnt = 0
  fits : (fs.disk.inodeAt freeMapSector).Fits fs.disk.size
  length : (fs.disk.inodeAt freeMapSector).length = byteCnt fs.freeMap.bitCnt

theorem Inv.file (h : Inv fs r H D Y) : MapFile fs := by
  obtain ⟨f, i, hf, hi, hp, hs⟩ := h.mapFile
  refine ⟨⟨f, i, hf, hp ▸ h.table.lookup_eq hi, hs ▸ h.data i hi, (h.special i hi (.inl hs)).1⟩,
    h.layout.fits _ Layout.map_mem, ?_⟩
  rw [h.layout.mapLength, h.layout.bitCnt]

theorem bitmapWrite_eq {f : File} (hi : lookup Inode.ptr fs.openInodes f.inode = some i)
    (hdeny : i.denyWriteCnt = 0) (hfit : i.data.Fits fs.disk.size)
    (hlen : i.data.length = byteCnt fs.freeMap.bitCnt) : bitmapWrite f fs =
      some (true, { fs with disk := fs.disk.written i.data 0 fs.freeMap.bytes }) := by
  rw [bitmapWrite, get_bind, fileWriteAt, bind_eq (inodeWriteAt_eq hi hfit hdeny), pure_eq,
    fs.freeMap.length_bytes, Nat.sub_zero, hlen, Nat.min_self, decide_eq_true rfl]

theorem MapFile.write (h : MapFile fs) (hm : m.bitCnt = fs.freeMap.bitCnt) :
    ∃ f, fs.freeMapFile = some f ∧
    bitmapWrite f { fs with freeMap := m } = some (true, fs.withMap m) := by
  obtain ⟨f, i, hf, hi, hdata, hdeny⟩ := h.file
  refine ⟨f, hf, ?_⟩
  have hw : bitmapWrite f { fs with freeMap := m } = _ :=
    bitmapWrite_eq hi hdeny (hdata ▸ h.fits) (by rw [hdata, h.length, hm])
  rw [hw, hdata]
  rfl

theorem freeMapAllocate_none (hs : fs.freeMap.scan cnt false = none) :
    freeMapAllocate cnt fs = some (none, fs) := by
  rw [freeMapAllocate, get_bind, hs]
  rfl

/-- **`free_map_allocate`** marks what the scan finds. -/
theorem freeMapAllocate_some (h : MapFile fs) (hs : fs.freeMap.scan cnt false = some s) :
    freeMapAllocate cnt fs = some (some s, fs.withMap (fs.freeMap.setMultiple s cnt true)) := by
  obtain ⟨f, hf, hw⟩ := h.write (m := fs.freeMap.setMultiple s cnt true) Bitmap.bitCnt_setMultiple
  rw [freeMapAllocate, get_bind, hs]
  show (set _ >>= fun _ => _ : K (Option Nat)) fs = _
  rw [hf] at hw
  rw [bind_eq set_eq, hf]
  exact (bind_eq hw).trans rfl

/-- **`free_map_release`** of marked sectors: its assertion holds. -/
theorem freeMapRelease_eq (h : MapFile fs) (hin : fs.freeMap.InRange s cnt)
    (hused : Set.Ico s (s + cnt) ⊆ fs.freeMap.used) :
    freeMapRelease s cnt fs = some ((), fs.withMap (fs.freeMap.setMultiple s cnt false)) := by
  obtain ⟨f, hf, hw⟩ := h.write (m := fs.freeMap.setMultiple s cnt false) Bitmap.bitCnt_setMultiple
  have hall : fs.freeMap.all s cnt = true :=
    Bitmap.all_eq_true.mpr fun x h1 h2 => (hused ⟨h1, h2⟩).2
  rw [hf] at hw
  rw [freeMapRelease, get_bind, bind_eq (assert_eq hin), bind_eq (assert_eq hall), bind_eq set_eq,
    hf]
  exact (bind_eq hw).trans rfl

namespace Inv

/-- Another free map that covers the live inodes. -/
theorem withMap (h : Inv fs r H D Y)
    (hs : Sound (fs.disk.written (fs.disk.inodeAt freeMapSector) 0 m.bytes) m (fs.live r) Y') :
    Inv (fs.withMap m) r H D Y' := by
  have ha := agreeOff_written fs.disk (fs.disk.inodeAt freeMapSector) 0 m.bytes
  refine h.disk (h.layout.remap hs)
    (fun i hi => ha.inodeAt (h.layout.not_mem_extent (fs.mem_live hi) Layout.map_mem)) ?_
  intro i hi hrem k
  rw [h.layout.links_iff ha (h.layout.not_mem_extent Layout.dir_mem Layout.map_mem)
    (h.layout.extent_disjoint Layout.dir_mem Layout.map_mem h.layout.dirSector)]
  exact h.removed i hi hrem k

theorem take (h : Inv fs r H D Y) (hs : fs.freeMap.scan cnt false = some s) :
    Inv (fs.withMap (fs.freeMap.setMultiple s cnt true)) r H D (Y ∪ Set.Ico s (s + cnt)) :=
  h.withMap (h.layout.take hs)

theorem give (h : Inv fs r H D Y) (hin : fs.freeMap.InRange s cnt) (hY : Set.Ico s (s + cnt) ⊆ Y) :
    Inv (fs.withMap (fs.freeMap.setMultiple s cnt false)) r H D (Y \ Set.Ico s (s + cnt)) :=
  h.withMap (h.layout.give hin hY)

end Inv

theorem Quiet.withMap (fs : FileSys) (m : Bitmap) :
    Quiet (fs.disk.inodeAt freeMapSector).extent fs (fs.withMap m) :=
  .of_disk (agreeOff_written _ _ _ _)

/-! ## `inode_create` -/

/-- A device after `inode_create`. -/
def Disk.create (d : Disk) (s : Nat) (x : InodeDisk) : Disk :=
  (d.patched (sectorSize * s) x.encode).patched (sectorSize * x.start)
    (List.replicate (sectorSize * bytesToSectors x.length) 0)

section Create

variable {d : Disk} {x : InodeDisk}

theorem agreeOff_create : AgreeOff (insert s x.extent) d (d.create s x) := by
  have h1 : AgreeOff {s} d (d.patched (sectorSize * s) x.encode) := agreeOff_patched fun b h1 h2 =>
    by
    rw [x.length_encode] at h2
    unfold sectorSize at *
    rw [Set.mem_singleton_iff]
    omega
  refine h1.trans (agreeOff_patched fun b h1 h2 => ?_)
  rw [length_replicate] at h2
  unfold InodeDisk.extent sectorSize at *
  rw [Set.mem_Ico]
  omega

theorem inodeAt_create (hs : s ∉ x.extent) (hstart : x.start < 2 ^ 32) (hlen : x.length < 2 ^ 32) :
    (d.create s x).inodeAt s = x := by
  have h2 : AgreeOff x.extent (d.patched (sectorSize * s) x.encode) (d.create s x) :=
    agreeOff_patched fun b h1 h2 => by
      rw [length_replicate] at h2
      unfold InodeDisk.extent sectorSize at *
      rw [Set.mem_Ico]
      omega
  have h1 : (d.patched (sectorSize * s) x.encode).inodeAt s = InodeDisk.decode x.encode := by
    have := slice_patch_self d.byte (sectorSize * s) x.encode
    rw [x.length_encode] at this
    exact congrArg InodeDisk.decode this
  rw [h2.inodeAt hs, h1, x.decode_encode hstart hlen]

theorem contents_create (d : Disk) (s : Nat) (x : InodeDisk) :
    (d.create s x).contents x = List.replicate x.length 0 := by
  have hle : x.length ≤ sectorSize * bytesToSectors x.length := by
    unfold bytesToSectors sectorSize
    omega
  have hself :=
    slice_patch_self (d.patched (sectorSize * s) x.encode).byte (sectorSize * x.start)
    (List.replicate (sectorSize * bytesToSectors x.length) 0)
  rw [length_replicate] at hself
  have htake :=
    take_slice (d.create s x).byte (sectorSize * x.start) (sectorSize * bytesToSectors x.length)
    x.length
  rw [Nat.min_eq_left hle] at htake
  rw [Disk.contents, ← htake]
  show List.take _ (slice (patch _ _ _) _ _) = _
  rw [hself, take_replicate, Nat.min_eq_left hle]

end Create

theorem writeZeros_eq (h : start + cnt ≤ fs.disk.size) : writeZeros start cnt fs =
    some ((), fs.patched (sectorSize * start) (List.replicate (sectorSize * cnt) 0)) := by
  induction cnt with
  | zero => rw [writeZeros, pure_eq, Nat.mul_zero, replicate_zero, FileSys.patched_nil]
  | succ cnt ih =>
    have hlt :
      start + cnt <
      (fs.patched (sectorSize * start) (List.replicate (sectorSize * cnt) 0)).disk.size := by
      show start + cnt < fs.disk.size
      omega
    rw [writeZeros, bind_eq (ih (by omega)), blockWrite_eq hlt, Nat.mul_add, FileSys.patched_patched
      (length_replicate), replicate_append_replicate, ← Nat.mul_succ]

theorem inodeCreate_none (h : fs.freeMap.scan (bytesToSectors len) false = none) :
    inodeCreate s len fs = some (false, fs) := by
  rw [inodeCreate, bind_eq (freeMapAllocate_none h)]
  rfl

theorem inodeCreate_some (h : freeMapAllocate (bytesToSectors len) fs = some (some start, fs'))
    (hs : s < fs'.disk.size) (hfit : start + bytesToSectors len ≤ fs'.disk.size) :
    inodeCreate s len fs = some (true, { fs' with disk := fs'.disk.create s ⟨start, len⟩ }) := by
  rw [inodeCreate, bind_eq h]
  show (blockWrite s _ >>= fun _ => _ : K Bool) fs' = _
  have hfit' : start + bytesToSectors len ≤
      (fs'.patched (sectorSize * s) (InodeDisk.encode ⟨start, len⟩)).disk.size := hfit
  rw [bind_eq (blockWrite_eq hs), bind_eq (writeZeros_eq hfit')]
  rfl

theorem Inv.create {x : InodeDisk} (h : Inv fs r H D Y) (hx : insert s x.extent ⊆ Y) :
    Inv { fs with disk := fs.disk.create s x } r H D Y := by
  have ha := agreeOff_create (d := fs.disk) (s := s) (x := x)
  refine h.disk (h.layout.scribble ha hx)
    (fun i hi => ha.inodeAt fun hs => h.layout.not_mem_spare (fs.mem_live hi) (hx hs)) ?_
  intro i hi hrem k
  rw [h.layout.links_iff ha (fun hs => h.layout.not_mem_spare Layout.dir_mem (hx hs))
    ((h.layout.extent_disjoint_spare Layout.dir_mem).mono_right hx)]
  exact h.removed i hi hrem k

/-! ## Opening and closing -/

namespace Inv

theorem lt_size (h : Inv fs r H D Y) (hs : s ∈ fs.live r) : s < fs.disk.size :=
  h.layout.bitCnt ▸ (h.layout.allotted.inside s hs (.inl rfl)).1

/-- The inode at an address changes, but not whose it is. -/
theorem setInode {f : Inode → Inode} {H' D' : List Nat} (h : Inv fs r H D Y)
    (ht : Table (fs.setInode p f).openInodes fs.nextPtr H' D') (hptr : ∀ i, (f i).ptr = i.ptr)
    (hsector : ∀ i, (f i).sector = i.sector) (hdata : ∀ i, (f i).data = i.data)
    (hspecial : ∀ i ∈ fs.openInodes, i.ptr = p → i.sector = freeMapSector ∨ i.sector = r.sector →
      (f i).denyWriteCnt = 0 ∧ (f i).removed = false)
    (hremoved : ∀ i ∈ fs.openInodes, i.ptr = p → (f i).removed = true →
      ∀ k, ¬fs.disk.Links r k i.sector) : Inv (fs.setInode p f) r H' D' Y := by
  have hopen : (fs.setInode p f).openSectors ⊆ fs.openSectors := by
    rintro s ⟨j, hj, rfl⟩
    rcases mem_update hj with ⟨i, hi, -, rfl⟩ | ⟨hj, -⟩
    · exact ⟨i, hi, (hsector i).symm⟩
    · exact ⟨j, hj, rfl⟩
  refine ⟨ht, h.layout.mono hopen subset_rfl, ?_, ?_, ?_, ?_⟩
  · intro j hj
    rcases mem_update hj with ⟨i, hi, -, rfl⟩ | ⟨hj, -⟩
    · rw [hdata, hsector]
      exact h.data i hi
    · exact h.data j hj
  · intro j hj hs
    rcases mem_update hj with ⟨i, hi, hp, rfl⟩ | ⟨hj, -⟩
    · rw [hsector] at hs
      exact hspecial i hi hp hs
    · exact h.special j hj hs
  · intro j hj hrem
    rcases mem_update hj with ⟨i, hi, hp, rfl⟩ | ⟨hj, -⟩
    · rw [hsector]
      exact hremoved i hi hp hrem
    · exact h.removed j hj hrem
  · obtain ⟨g, i, hg, hi, hp, hs⟩ := h.mapFile
    refine ⟨g, if i.ptr = p then f i else i, hg, mem_map_of_mem hi, ?_, ?_⟩
    · split
      · rw [hptr, hp]
      · exact hp
    · split
      · rw [hsector, hs]
      · exact hs

/-- Only counters of the inode at an address change. -/
theorem recount {f : Inode → Inode} {H' D' : List Nat} (h : Inv fs r H D Y)
    (ht : Table (fs.setInode p f).openInodes fs.nextPtr H' D') (hptr : ∀ i, (f i).ptr = i.ptr)
    (hsector : ∀ i, (f i).sector = i.sector) (hdata : ∀ i, (f i).data = i.data)
    (hremoved : ∀ i, (f i).removed = i.removed)
    (hdeny : ∀ i ∈ fs.openInodes, i.ptr = p → i.sector = freeMapSector ∨ i.sector = r.sector →
      (f i).denyWriteCnt = i.denyWriteCnt) : Inv (fs.setInode p f) r H' D' Y := by
  refine h.setInode ht hptr hsector hdata (fun i hi hp hs => ?_) fun i hi _ hrem => ?_
  · rw [hdeny i hi hp hs, hremoved]
    exact h.special i hi hs
  · exact h.removed i hi (hremoved i ▸ hrem)

end Inv

/-- `inode_remove` of an inode that is no longer linked. -/
theorem Inv.markRemoved (h : Inv fs r H D Y) (hi : i ∈ fs.openInodes)
    (hmap : i.sector ≠ freeMapSector)
    (hdir : i.sector ≠ r.sector) (hlink : ∀ k, ¬fs.disk.Links r k i.sector) :
    Inv (fs.setInode i.ptr fun i => { i with removed := true }) r H D Y := by
  have hone (j) (hj : j ∈ fs.openInodes) (hjp : j.ptr = i.ptr) : j = i :=
    inj_on_of_nodup_map h.table.ptrs hj hi hjp
  refine h.setInode (h.table.touch (fun _ => rfl) (fun _ => rfl) (fun _ => rfl) fun _ => rfl)
    (fun _ => rfl) (fun _ => rfl) (fun _ => rfl) (fun j hj hjp hsp => ?_) fun j hj hjp _ => ?_
  · rw [hone j hj hjp] at hsp
    exact absurd hsp (not_or.mpr ⟨hmap, hdir⟩)
  · rw [hone j hj hjp]
    exact hlink

/-- **`inode_open`** of a live inode. -/
theorem inodeOpen_spec (h : Inv fs r H D Y) (hs : s ∈ fs.live r) :
    wp (inodeOpen s) (fun p fs' => Inv fs' r (p :: H) D Y ∧ Quiet ∅ fs fs' ∧ fs'.disk = fs.disk ∧
      fs'.freeMap = fs.freeMap ∧ ∃ i ∈ fs'.openInodes, i.ptr = p ∧ i.sector = s) fs := by
  cases hl : lookup Inode.sector fs.openInodes s with
  | some i =>
    obtain ⟨hi, rfl⟩ := mem_of_lookup hl
    refine wp_of_eq (inodeOpen_old hl (h.table.lookup_eq hi)) ⟨?_, ?_, rfl, rfl, ?_⟩
    · exact h.recount (h.table.reopen (h.table.held i hi)) (fun _ => rfl) (fun _ => rfl) (fun _ =>
      rfl)
        (fun _ => rfl) fun _ _ _ _ => rfl
    · exact .of_setInode (fun _ => rfl) fun _ => rfl
    · exact ⟨_, mem_update_self hi, rfl, rfl⟩
  | none =>
    have hne : ∀ i ∈ fs.openInodes, i.sector ≠ s := by simpa [Data.lookup] using hl
    refine wp_of_eq (inodeOpen_new hl (h.lt_size hs)) ⟨⟨h.table.insert hne, ?_, ?_, ?_, ?_, ?_⟩, ?_,
      rfl, rfl, ?_⟩
    · refine (h.layout.grow hs).mono ?_ subset_rfl
      rintro t ⟨i, hi, rfl⟩
      rcases mem_cons.mp hi with rfl | hi
      · exact .inl rfl
      · exact .inr ⟨i, hi, rfl⟩
    · exact forall_mem_cons.mpr ⟨rfl, h.data⟩
    · exact forall_mem_cons.mpr ⟨fun _ => ⟨rfl, rfl⟩, h.special⟩
    · exact forall_mem_cons.mpr ⟨fun hc => absurd hc Bool.false_ne_true, h.removed⟩
    · obtain ⟨f, i, hf, hi, hp⟩ := h.mapFile
      exact ⟨f, i, hf, mem_cons_of_mem _ hi, hp⟩
    · refine ⟨⟨rfl, fun _ _ => rfl⟩, Nat.le_succ _, fun i hi hlt => ?_⟩
      rcases mem_cons.mp hi with rfl | hi
      · exact absurd hlt (Nat.lt_irrefl _)
      · exact ⟨i, hi, rfl, rfl⟩
    · exact ⟨_, mem_cons_self, rfl, rfl⟩

namespace Inv

theorem last (h : Inv fs r (p :: H) D Y) (hi : lookup Inode.ptr fs.openInodes p = some i)
    (hcnt : i.openCnt = 1) (hD : D.count p ≤ H.count p) (hmap : i.sector ≠ freeMapSector)
    (hl : Layout fs.disk fs.freeMap r (fs.openSectors \ {i.sector}) Y') :
    Inv { fs with openInodes := remove Inode.ptr fs.openInodes p } r H D Y' := by
  obtain ⟨hmem, rfl⟩ := mem_of_lookup hi
  refine ⟨h.table.last hi hcnt hD, hl.mono ?_ subset_rfl, ?_, ?_, ?_, ?_⟩
  · rintro s ⟨j, hj, rfl⟩
    obtain ⟨hj, hne⟩ := mem_remove.mp hj
    exact ⟨⟨j, hj, rfl⟩, fun he =>
      hne (congrArg Inode.ptr (inj_on_of_nodup_map h.table.sectors hj hmem he))⟩
  · exact fun j hj => h.data j (mem_remove.mp hj).1
  · exact fun j hj => h.special j (mem_remove.mp hj).1
  · exact fun j hj => h.removed j (mem_remove.mp hj).1
  · obtain ⟨f, j, hf, hj, hp, hs⟩ := h.mapFile
    refine ⟨f, j, hf, mem_remove.mpr ⟨hj, fun he => hmap ?_⟩, hp, hs⟩
    rw [← hs, inj_on_of_nodup_map h.table.ptrs hj hmem he]

end Inv

theorem Quiet.of_remove : Quiet X fs { fs with openInodes := remove Inode.ptr fs.openInodes p } :=
  ⟨⟨rfl, fun _ _ => rfl⟩, le_rfl, fun j hj _ => ⟨j, (mem_remove.mp hj).1, rfl, rfl⟩⟩

theorem release_spec (h : Inv fs r H D Y) (hin : s + cnt ≤ fs.disk.size)
    (hY : Set.Ico s (s + cnt) ⊆ Y) :
    wp (freeMapRelease s cnt) (fun _ fs' => Inv fs' r H D (Y \ Set.Ico s (s + cnt)) ∧
      Quiet (fs.disk.inodeAt freeMapSector).extent fs fs' ∧
      fs'.disk.inodeAt freeMapSector = fs.disk.inodeAt freeMapSector ∧
      fs'.freeMap = fs.freeMap.setMultiple s cnt false) fs := by
  have hin' : fs.freeMap.InRange s cnt := by
    rw [Bitmap.InRange, h.layout.bitCnt]
    omega
  refine wp_of_eq (freeMapRelease_eq h.file hin' (hY.trans h.layout.allotted.spare_used))
    ⟨h.give hin' hY, .withMap fs _, ?_, rfl⟩
  exact (agreeOff_written _ _ _ _).inodeAt (h.layout.apart _ Layout.map_mem)

/-- **`inode_close`.** Only the last close of a removed inode touches the device. -/
theorem inodeClose_spec (h : Inv fs r (p :: H) D Y) (hi : lookup Inode.ptr fs.openInodes p = some i)
    (hmap : i.sector ≠ freeMapSector) (hD : D.count p ≤ H.count p) :
    wp (inodeClose p) (fun _ fs' => Inv fs' r H D Y ∧ Quiet (fs.disk.inodeAt freeMapSector).extent
      fs fs' ∧
      (i.removed = false → fs'.disk = fs.disk ∧ fs'.freeMap = fs.freeMap)) fs := by
  obtain ⟨hmem, rfl⟩ := mem_of_lookup hi
  by_cases hcnt : i.openCnt = 1
  swap
  · refine wp_of_eq (inodeClose_eq hi hcnt) ⟨?_, .of_setInode (fun _ => rfl) fun _ => rfl, fun _ =>
    ⟨rfl, rfl⟩⟩
    exact h.recount (h.table.close hi hcnt hD) (fun _ => rfl) (fun _ => rfl) (fun _ => rfl)
      (fun _ => rfl)
      fun _ _ _ _ => rfl
  cases hrem : i.removed with
  | false =>
    refine wp_of_eq (inodeClose_last hi hcnt hrem) ⟨?_, .of_remove, fun _ => ⟨rfl, rfl⟩⟩
    exact h.last hi hcnt hD hmap (h.layout.mono Set.sdiff_subset subset_rfl)
  | true =>
    have hlive := fs.mem_live (r := r) hmem
    have hdir : i.sector ≠ r.sector := fun he =>
      absurd (hrem ▸ (h.special i hmem (.inr he)).2) (by decide)
    -- its sectors are spare now, and go back one range after the other
    have h1 := h.last hi hcnt hD hmap
      (h.layout.drop (fs.mem_openSectors hmem) hmap hdir (h.removed i hmem hrem))
    have hdata := h.data i hmem
    have hfit := h.fits hmem
    have hapart := h.layout.apart _ hlive
    rw [← hdata] at hapart
    have hown : fs.disk.own i.sector = insert i.sector i.data.extent := by rw [Disk.own, hdata]
    have hsector : Set.Ico i.sector (i.sector + 1) = {i.sector} := by
      ext x
      rw [Set.mem_Ico, Set.mem_singleton_iff]
      omega
    rw [inodeClose]
    refine wp_call (inode_eq hi) ?_
    rw [if_pos hcnt]
    refine wp_modify ?_
    rw [hrem, if_pos rfl]
    refine wp_bind (release_spec h1 (h.lt_size hlive) ?_) ?_
    · rw [hsector, hown]
      exact Set.singleton_subset_iff.mpr (.inr (.inl rfl))
    rintro _ fs2 ⟨h2, hq2, hmap2, -⟩
    refine wp_mono (release_spec h2 ?_ ?_) ?_
    · rw [hq2.disk.size]
      exact hfit
    · rw [hsector]
      exact fun x hx => ⟨.inr (hown ▸ .inr hx), fun he => hapart (he ▸ hx)⟩
    rintro _ fs3 ⟨h3, hq3, -⟩
    refine ⟨?_, ?_, fun hc => ?_⟩
    · refine h3.mono fun x hx => ⟨⟨.inl hx, ?_⟩, ?_⟩
      · rw [hsector]
        exact fun he => h.layout.not_mem_spare hlive (he ▸ hx)
      · exact fun hc => Set.disjoint_left.mp (h.layout.extent_disjoint_spare hlive) (hdata ▸ hc) hx
    · exact Quiet.of_remove.trans (hq2.trans (hmap2 ▸ hq3))
    · exact absurd hc (by decide)

end SystemProg.Pintos
