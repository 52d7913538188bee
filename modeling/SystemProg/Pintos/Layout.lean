import SystemProg.Data.Allot
import SystemProg.Pintos.Inode

/-!
# Who owns which sector

An inode owns the sector it is in and the sectors of its data. On a device with a directory the
*live* inodes are those of the free map and of the directory, those linked in the directory and
those that are open. `Sound` says of a set of inodes that they share no sector, that all their
sectors are on the device and marked in the free map, and that the free map is saved in its file;
`Layout`, that the live inodes are such a set and each is linked once. Some sectors may be *spare*:
marked, owned by no live inode, and at the disposal of the function at work.

What the functions of the file system do to a device is one of a few moves, each of which keeps a
layout:

* `scribble`, a write to spare sectors;
* `write`, a write to the data of a file;
* `take`, `give`, another free map, in memory and in its file;
* `link`, `unlink`, an entry of the directory;
* `grow`, `mono`, `drop`, inodes that are opened and closed.
-/

namespace SystemProg.Pintos

open Data Text SystemProg.Seq List

/-- The sectors of the data of an inode. -/
def InodeDisk.extent (x : InodeDisk) : Set Nat :=
    Set.Ico x.start (x.start + bytesToSectors x.length)

/-- The sectors of the inode in a sector. -/
def Disk.own (d : Disk) (sector : Nat) : Set Nat := insert sector (d.inodeAt sector).extent

variable {d d' d'' : Disk} {X X' : Set Nat} {x : InodeDisk} {a j k s t offset : Nat}
  {bs : List Byte}

/-- A byte of the data is in a sector of the data. -/
theorem div_mem_extent {b : Nat} (h1 : sectorSize * x.start ≤ b)
    (h2 : b < sectorSize * x.start + x.length) : b / sectorSize ∈ x.extent := by
  unfold InodeDisk.extent bytesToSectors sectorSize at *
  rw [Set.mem_Ico]
  omega

/-! ## Devices that differ in some sectors -/

/-- The devices agree but for the sectors `X`. -/
structure AgreeOff (X : Set Nat) (d d' : Disk) : Prop where
  size : d'.size = d.size
  byte : ∀ a, a / sectorSize ∉ X → d'.byte a = d.byte a

theorem agreeOff_patched (h : ∀ b, a ≤ b → b < a + bs.length → b / sectorSize ∈ X) :
    AgreeOff X d (d.patched a bs) where
  size := rfl
  byte b hb := patch_of_not_mem (by
    by_contra hc
    exact hb (h b (by omega) (by omega)))

theorem agreeOff_written (d : Disk) (x : InodeDisk) (offset : Nat) (bs : List Byte) :
    AgreeOff x.extent d (d.written x offset bs) := by
  refine agreeOff_patched fun b h1 h2 => div_mem_extent (by omega) ?_
  have := length_take_le (x.length - offset) bs
  rw [length_take] at h2
  omega

namespace AgreeOff

theorem trans (h : AgreeOff X d d') (h' : AgreeOff X' d' d'') : AgreeOff (X ∪ X') d d'' where
  size := h'.size.trans h.size
  byte a ha := (h'.byte a fun hx => ha (.inr hx)).trans (h.byte a fun hx => ha (.inl hx))

theorem mono (h : AgreeOff X d d') (hX : X ⊆ X') : AgreeOff X' d d' where
  size := h.size
  byte a ha := h.byte a fun hx => ha (hX hx)

theorem inodeAt (h : AgreeOff X d d') (hs : s ∉ X) : d'.inodeAt s = d.inodeAt s := by
  refine congrArg InodeDisk.decode (slice_congr fun b h1 h2 => h.byte b fun hb => hs ?_)
  have : b / sectorSize = s := by
    unfold sectorSize at *
    omega
  exact this ▸ hb

theorem slice (h : AgreeOff X d d') (hx : Disjoint x.extent X) (hle : offset + k ≤ x.length) :
    slice d'.byte (sectorSize * x.start + offset) k = slice d.byte (sectorSize * x.start + offset)
      k :=
  slice_congr fun b h1 h2 => h.byte b
    (Set.disjoint_left.mp hx (div_mem_extent (by omega) (by omega)))

theorem contents (h : AgreeOff X d d') (hx : Disjoint x.extent X) : d'.contents x = d.contents x :=
  h.slice hx (by omega : 0 + x.length ≤ x.length)

end AgreeOff

/-! ## An inode as an array of bytes -/

variable {fs : FileSys} {p : Nat} {i : Inode}

/-- Where the data of `q` is apart from what changed, it reads as before. -/
theorem inodeReadAt_of_agreeOff {fs' : FileSys} {q n : Nat} {j : Inode}
    (ha : AgreeOff X fs.disk fs'.disk)
    (hopen : fs'.openInodes = fs.openInodes) (hj : lookup Inode.ptr fs.openInodes q = some j)
    (hfit : j.data.Fits fs.disk.size) (hx : Disjoint j.data.extent X) :
    inodeReadAt q n offset fs' = some (((fs.disk.contents j.data).drop offset).take n, fs') := by
  rw [← hopen] at hj
  rw [inodeReadAt_eq hj (ha.size ▸ hfit), ha.contents hx]

/-- **An inode is a flat array of bytes.** A write of `buffer` at `offset` moves as many bytes as
there are between `offset` and the end of the inode, none if writes are denied, and every read sees
the bytes replaced; the data of an inode in other sectors reads as before. -/
theorem inode_is_flat_array (hi : lookup Inode.ptr fs.openInodes p = some i)
    (hfit : i.data.Fits fs.disk.size) (buffer : List Byte) (offset : Nat) :
    ∃ bytes k fs', bytes.length = i.data.length ∧ k =
      (if i.denyWriteCnt = 0 then min buffer.length (i.data.length - offset) else 0) ∧
      (∀ n o, inodeReadAt p n o fs = some ((bytes.drop o).take n, fs)) ∧
      inodeWriteAt p buffer offset fs = some (k, fs') ∧ fs'.openInodes = fs.openInodes ∧
      (∀ n o, inodeReadAt p n o fs' =
        some (((splice bytes offset (buffer.take k)).drop o).take n, fs')) ∧
      ∀ q j, lookup Inode.ptr fs.openInodes q = some j → j.data.Fits fs.disk.size →
        Disjoint j.data.extent i.data.extent → ∀ n o, ∃ bs,
          inodeReadAt q n o fs = some (bs, fs) ∧ inodeReadAt q n o fs' = some (bs, fs') := by
  by_cases hdeny : i.denyWriteCnt = 0
  · obtain ⟨fs', hfs'⟩ : ∃ fs', fs' = { fs with disk := fs.disk.written i.data offset buffer } :=
      ⟨_, rfl⟩
    have hwrite : inodeWriteAt p buffer offset fs = _ := inodeWriteAt_eq hi hfit hdeny
    have ha := agreeOff_written fs.disk i.data offset buffer
    have hnew := contents_written fs.disk i.data offset buffer
    have hopen : fs'.openInodes = fs.openInodes := by rw [hfs']
    have hdisk : fs'.disk = fs.disk.written i.data offset buffer := by rw [hfs']
    rw [← hfs'] at hwrite
    rw [← hdisk] at ha hnew
    refine ⟨fs.disk.contents i.data, _, fs', length_slice _ _ _, (if_pos hdeny).symm,
      fun n o => inodeReadAt_eq hi hfit, hwrite, hopen, fun n o => ?_, ?_⟩
    · rw [inodeReadAt_eq (hopen ▸ hi) (ha.size ▸ hfit), hnew, Nat.min_comm, ← take_eq_take_min]
    · intro q j hj hjfit hdisj n o
      exact ⟨_, inodeReadAt_eq hj hjfit, inodeReadAt_of_agreeOff ha hopen hj hjfit hdisj⟩
  · refine ⟨fs.disk.contents i.data, _, fs, length_slice _ _ _, (if_neg hdeny).symm,
      fun n o => inodeReadAt_eq hi hfit, inodeWriteAt_denied hi hdeny, rfl, fun n o => ?_, ?_⟩
    · rw [inodeReadAt_eq hi hfit, take_zero, splice_nil]
    · intro q j hj hjfit _ n o
      exact ⟨_, inodeReadAt_eq hj hjfit, inodeReadAt_eq hj hjfit⟩

/-- An inode of three sectors on a device of eight, and one next to it. -/
def flatSample : FileSys where
  disk := ⟨8, fun a => UInt8.ofNat a⟩
  freeMap := Bitmap.create 8 fun _ => false
  freeMapFile := none
  openInodes := [⟨0, 1, 1, 0, false, ⟨2, 1100⟩⟩, ⟨1, 6, 1, 0, false, ⟨5, 512⟩⟩]
  nextPtr := 2

theorem inode_is_flat_array_across : ∃ fs', inodeWriteAt 0 (List.replicate 1000 7) 500 flatSample =
    some (600, fs') ∧ fs'.openInodes = flatSample.openInodes := by
  have hi : lookup Inode.ptr flatSample.openInodes 0 = some ⟨0, 1, 1, 0, false, ⟨2, 1100⟩⟩ := rfl
  have hfit : InodeDisk.Fits ⟨2, 1100⟩ flatSample.disk.size := Nat.le_of_ble_eq_true rfl
  obtain ⟨_, k, fs', -, hk, -, h, hopen, -⟩ :=
    inode_is_flat_array hi hfit (List.replicate 1000 7) 500
  have hk : k = 600 := by
    rw [hk, if_pos rfl, length_replicate]
    rfl
  exact ⟨fs', hk ▸ h, hopen⟩

/-! ## Directories -/

/-- A directory: the sector of its inode, and the number of its slots. -/
structure DirAt where
  sector : Nat
  slots : Nat

/-- The root directory. -/
def DirAt.root : DirAt := ⟨rootDirSector, 16⟩

/-- Entry `k` of a directory with the inode `x`. -/
def Disk.slot (d : Disk) (x : InodeDisk) (k : Nat) : DirEntry :=
  DirEntry.decode (slice d.byte (sectorSize * x.start + entrySize * k) entrySize)

/-- Slot `k` of the directory links the inode in sector `s`. -/
@[mk_iff]
structure Disk.Links (d : Disk) (r : DirAt) (k s : Nat) : Prop where
  lt : k < r.slots
  inUse : (d.slot (d.inodeAt r.sector) k).inUse = true
  sector : (d.slot (d.inodeAt r.sector) k).inodeSector = s

theorem DirEntry.length_encode {e : DirEntry} (hn : e.name.length = nameMax + 1) :
    e.encode.length = entrySize := by
  rw [encode, length_append, length_append, length_toLE, hn]
  rfl

theorem DirEntry.decode_encode {e : DirEntry} (hs : e.inodeSector < 2 ^ 32)
    (hn : e.name.length = nameMax + 1) : DirEntry.decode e.encode = e := by
  have h1 : e.encode.take 4 = toLE 4 e.inodeSector := by
    rw [encode, append_assoc, take_left' (length_toLE 4 _)]
  have h2 : (e.encode.drop 4).take (nameMax + 1) = e.name := by
    rw [encode, append_assoc, drop_left' (length_toLE 4 _), take_left' hn]
  have h3 : e.encode.getD 19 0 = if e.inUse then 1 else 0 := by
    have hlen : (toLE 4 e.inodeSector ++ e.name).length = 19 := by
      rw [length_append, length_toLE, hn]
      rfl
    rw [encode, getD_append_right _ _ _ _ (by omega), hlen]
    rfl
  rw [decode, h1, h2, h3, fromLE_toLE (by simpa using hs)]
  cases e with
  | mk sector name inUse => cases inUse <;> rfl

theorem AgreeOff.slot (h : AgreeOff X d d') (hx : Disjoint x.extent X)
    (hk : entrySize * (k + 1) ≤ x.length) : d'.slot x k = d.slot x k :=
  congrArg DirEntry.decode (h.slice hx (by rw [Nat.mul_add] at hk; omega))

/-- **Writing an entry** changes that entry. -/
theorem slot_written {e : DirEntry} (hs : e.inodeSector < 2 ^ 32) (hn : e.name.length = nameMax + 1)
    (hk : entrySize * (k + 1) ≤ x.length) (j : Nat) :
    (d.written x (entrySize * k) e.encode).slot x j = if j = k then e else d.slot x j := by
  have hlen := DirEntry.length_encode hn
  have htake : e.encode.take (x.length - entrySize * k) = e.encode :=
    take_of_length_le (by rw [hlen]; rw [Nat.mul_add] at hk; omega)
  rw [Disk.written, htake]
  by_cases hj : j = k
  · subst hj
    rw [if_pos rfl, Disk.slot, Disk.patched, ← hlen, slice_patch_self, DirEntry.decode_encode hs hn]
  · rw [if_neg hj]
    refine congrArg DirEntry.decode (slice_patch_of_disjoint ?_)
    rw [hlen]
    unfold entrySize
    omega

/-! ## Inodes that share no sector -/

/-- **No sector is owned twice** by the inodes `L`, and the free map marks theirs and the spare ones
`Y`. -/
structure Sound (d : Disk) (m : Bitmap) (L Y : Set Nat) : Prop where
  bitCnt : m.bitCnt = d.size
  small : d.size < 2 ^ 21
  mapLength : (d.inodeAt freeMapSector).length = byteCnt d.size
  mapLive : freeMapSector ∈ L
  fits : ∀ s ∈ L, (d.inodeAt s).Fits d.size
  apart : ∀ s ∈ L, s ∉ (d.inodeAt s).extent
  allotted : Allotment L d.own m.used Y
  saved : m.HeldIn (d.contents (d.inodeAt freeMapSector))

namespace Sound

variable {m m' : Bitmap} {L L' Y Y' : Set Nat} {cnt : Nat}

theorem not_mem_extent (h : Sound d m L Y) (hs : s ∈ L) (ht : t ∈ L) :
    s ∉ (d.inodeAt t).extent := by
  by_cases hst : s = t
  · exact hst ▸ h.apart s hs
  · exact fun hx => Set.disjoint_left.mp (h.allotted.disjoint hs ht hst) (.inl rfl) (.inr hx)

theorem extent_disjoint (h : Sound d m L Y) (hs : s ∈ L) (ht : t ∈ L) (hne : s ≠ t) :
    Disjoint (d.inodeAt s).extent (d.inodeAt t).extent :=
  (h.allotted.disjoint hs ht hne).mono (Set.subset_insert _ _) (Set.subset_insert _ _)

theorem not_mem_spare (h : Sound d m L Y) (hs : s ∈ L) : s ∉ Y :=
  Set.disjoint_left.mp (h.allotted.spare_disjoint s hs) (.inl rfl)

theorem extent_disjoint_spare (h : Sound d m L Y) (hs : s ∈ L) : Disjoint (d.inodeAt s).extent Y :=
  (h.allotted.spare_disjoint s hs).mono_left (Set.subset_insert _ _)

theorem mono (h : Sound d m L Y) (hL : L' ⊆ L) (hmap : freeMapSector ∈ L') (hY : Y' ⊆ Y) :
    Sound d m L' Y' :=
  { h with
    mapLive := hmap
    fits := fun s hs => h.fits s (hL hs)
    apart := fun s hs => h.apart s (hL hs)
    allotted := h.allotted.mono hL hY }

/-- A device with the same inodes, and any free map that covers them. -/
theorem transfer (h : Sound d m L Y) (ha : AgreeOff X d d') (hX : ∀ s ∈ L, s ∉ X)
    (hm : m'.bitCnt = m.bitCnt) (hall : Allotment L d.own m'.used Y')
    (hsaved : m'.HeldIn (d'.contents (d.inodeAt freeMapSector))) : Sound d' m' L Y' := by
  have hinode (s) (hs : s ∈ L) : d'.inodeAt s = d.inodeAt s := ha.inodeAt (hX s hs)
  refine ⟨?_, ?_, ?_, h.mapLive, ?_, ?_, ?_, ?_⟩
  · rw [hm, h.bitCnt, ha.size]
  · rw [ha.size]
    exact h.small
  · rw [hinode _ h.mapLive, h.mapLength, ha.size]
  · intro s hs
    rw [hinode s hs, ha.size]
    exact h.fits s hs
  · intro s hs
    rw [hinode s hs]
    exact h.apart s hs
  · exact hall.congr fun s hs => by rw [Disk.own, hinode s hs, Disk.own]
  · rw [hinode _ h.mapLive]
    exact hsaved

theorem scribble (h : Sound d m L Y) (ha : AgreeOff X d d') (hX : X ⊆ Y) : Sound d' m L Y := by
  refine h.transfer ha (fun s hs hx => h.not_mem_spare hs (hX hx)) rfl h.allotted ?_
  rw [ha.contents ((h.extent_disjoint_spare h.mapLive).mono_right hX)]
  exact h.saved

theorem write (h : Sound d m L Y) (ht : t ∈ L) (hmap : t ≠ freeMapSector)
    (ha : AgreeOff (d.inodeAt t).extent d d') : Sound d' m L Y := by
  refine h.transfer ha (fun s hs => h.not_mem_extent hs ht) rfl h.allotted ?_
  rw [ha.contents (h.extent_disjoint h.mapLive ht (Ne.symm hmap))]
  exact h.saved

theorem remap (h : Sound d m L Y) (hm : m'.bitCnt = m.bitCnt)
    (hall : Allotment L d.own m'.used Y') :
    Sound (d.written (d.inodeAt freeMapSector) 0 m'.bytes) m' L Y' := by
  refine h.transfer (agreeOff_written d _ 0 m'.bytes) (fun s hs => h.not_mem_extent hs h.mapLive)
    hm hall ?_
  have hlen : m'.bytes.length = (d.inodeAt freeMapSector).length := by
    rw [m'.length_bytes, h.mapLength, hm, h.bitCnt]
  rw [contents_written_all d hlen]
  exact m'.heldIn_bytes

theorem take (h : Sound d m L Y) (hscan : m.scan cnt false = some s) :
    Sound (d.written (d.inodeAt freeMapSector) 0 (m.setMultiple s cnt true).bytes)
      (m.setMultiple s cnt true) L (Y ∪ Set.Ico s (s + cnt)) := by
  refine h.remap Bitmap.bitCnt_setMultiple ?_
  rw [Bitmap.used_mark (Bitmap.scan_eq_some hscan).1]
  exact h.allotted.take (Bitmap.disjoint_used_of_scan hscan)

theorem give (h : Sound d m L Y) (hin : m.InRange s cnt) (hY : Set.Ico s (s + cnt) ⊆ Y) :
    Sound (d.written (d.inodeAt freeMapSector) 0 (m.setMultiple s cnt false).bytes)
      (m.setMultiple s cnt false) L (Y \ Set.Ico s (s + cnt)) := by
  refine h.remap Bitmap.bitCnt_setMultiple ?_
  rw [Bitmap.used_reset hin]
  exact h.allotted.give hY

theorem adopt (h : Sound d m L Y) (hfit : (d.inodeAt s).Fits d.size)
    (hapart : s ∉ (d.inodeAt s).extent)
    (hY : d.own s ⊆ Y) : Sound d m (insert s L) (Y \ d.own s) :=
  { h with
    mapLive := .inr h.mapLive
    fits := Set.forall_mem_insert.mpr ⟨hfit, h.fits⟩
    apart := Set.forall_mem_insert.mpr ⟨hapart, h.apart⟩
    allotted := h.allotted.adopt hY }

theorem abandon (h : Sound d m L Y) (hs : s ∈ L) (hmap : s ≠ freeMapSector) :
    Sound d m (L \ {s}) (Y ∪ d.own s) :=
  { h with
    mapLive := ⟨h.mapLive, Ne.symm hmap⟩
    fits := fun t ht => h.fits t ht.1
    apart := fun t ht => h.apart t ht.1
    allotted := h.allotted.abandon hs }

end Sound

/-! ## Layouts -/

/-- The sectors of the live inodes; `O` are those of the open ones. -/
def Disk.live (d : Disk) (r : DirAt) (O : Set Nat) : Set Nat :=
  {s | s = freeMapSector ∨ s = r.sector ∨ (∃ k, d.Links r k s) ∨ s ∈ O}

/-- The sectors that hold the free map and the directory. -/
def Disk.meta (d : Disk) (r : DirAt) : Set Nat :=
  (d.inodeAt freeMapSector).extent ∪ (d.inodeAt r.sector).extent

/-- The live inodes share no sector, and each is linked at most once. -/
structure Layout (d : Disk) (m : Bitmap) (r : DirAt) (O Y : Set Nat) : Prop extends
    Sound d m (d.live r O) Y where
  dirLength : (d.inodeAt r.sector).length = entrySize * r.slots
  dirSector : r.sector ≠ freeMapSector
  slots : ∀ j k s, d.Links r j s → d.Links r k s → j = k
  files : ∀ k s, d.Links r k s → s ≠ freeMapSector ∧ s ≠ r.sector

namespace Layout

variable {m m' : Bitmap} {r : DirAt} {O O' Y Y' : Set Nat} {cnt : Nat}

theorem map_mem : freeMapSector ∈ d.live r O := .inl rfl

theorem dir_mem : r.sector ∈ d.live r O := .inr (.inl rfl)

theorem link_mem (h : d.Links r k s) : s ∈ d.live r O := .inr (.inr (.inl ⟨k, h⟩))

theorem open_mem (h : s ∈ O) : s ∈ d.live r O := .inr (.inr (.inr h))

/-! ### A device that changes -/

theorem links_iff (h : Layout d m r O Y) (ha : AgreeOff X d d') (hr : r.sector ∉ X)
    (hdir : Disjoint (d.inodeAt r.sector).extent X) : d'.Links r k s ↔ d.Links r k s := by
  have hslot (hk : k < r.slots) :
    d'.slot (d'.inodeAt r.sector) k = d.slot (d.inodeAt r.sector) k := by
    rw [ha.inodeAt hr]
    exact ha.slot hdir (by rw [h.dirLength]; exact Nat.mul_le_mul_left _ hk)
  rw [Disk.links_iff, Disk.links_iff]
  exact and_congr_right fun hk => by rw [hslot hk]

theorem transfer (h : Layout d m r O Y) (ha : AgreeOff X d d') (hr : r.sector ∉ X)
    (hdir : Disjoint (d.inodeAt r.sector).extent X) (hs : Sound d' m' (d.live r O) Y') :
    Layout d' m' r O Y' := by
  have hlinks (k s) := h.links_iff (k := k) (s := s) ha hr hdir
  have hlive : d'.live r O = d.live r O := by
    ext s
    simp only [Disk.live, Set.mem_ofPred_eq, hlinks]
  refine ⟨hlive ▸ hs, ?_, h.dirSector, ?_, ?_⟩
  · rw [ha.inodeAt hr, h.dirLength]
  · exact fun j k s hj hk => h.slots j k s ((hlinks j s).mp hj) ((hlinks k s).mp hk)
  · exact fun k s hk => h.files k s ((hlinks k s).mp hk)

theorem scribble (h : Layout d m r O Y) (ha : AgreeOff X d d') (hX : X ⊆ Y) : Layout d' m r O Y :=
  h.transfer ha (fun hx => h.not_mem_spare dir_mem (hX hx))
    ((h.extent_disjoint_spare dir_mem).mono_right hX) (h.toSound.scribble ha hX)

theorem write (h : Layout d m r O Y) (ht : t ∈ d.live r O) (hmap : t ≠ freeMapSector)
    (hdir : t ≠ r.sector) (ha : AgreeOff (d.inodeAt t).extent d d') : Layout d' m r O Y :=
  h.transfer ha (h.not_mem_extent dir_mem ht) (h.extent_disjoint dir_mem ht (Ne.symm hdir))
    (h.toSound.write ht hmap ha)

theorem remap (h : Layout d m r O Y)
    (hs : Sound (d.written (d.inodeAt freeMapSector) 0 m'.bytes) m' (d.live r O) Y') :
    Layout (d.written (d.inodeAt freeMapSector) 0 m'.bytes) m' r O Y' :=
  h.transfer (agreeOff_written d _ 0 m'.bytes) (h.not_mem_extent dir_mem map_mem)
    (h.extent_disjoint dir_mem map_mem h.dirSector) hs

/-! ### Inodes that are opened and closed -/

theorem mono (h : Layout d m r O Y) (hO : O' ⊆ O) (hY : Y' ⊆ Y) : Layout d m r O' Y' :=
  { h with
    toSound :=
      h.toSound.mono (fun _ => Or.imp_right (Or.imp_right (Or.imp_right (hO ·)))) map_mem hY }

theorem grow (h : Layout d m r O Y) (hs : s ∈ d.live r O) : Layout d m r (insert s O) Y := by
  refine { h with toSound := h.toSound.mono ?_ map_mem subset_rfl }
  rintro t (ht | ht | ht | rfl | ht)
  · exact .inl ht
  · exact .inr (.inl ht)
  · exact .inr (.inr (.inl ht))
  · exact hs
  · exact open_mem ht

/-- An inode that only its being open kept live is closed: its sectors are spare. -/
theorem drop (h : Layout d m r O Y) (hs : s ∈ O) (hmap : s ≠ freeMapSector) (hdir : s ≠ r.sector)
    (hlink : ∀ k, ¬d.Links r k s) : Layout d m r (O \ {s}) (Y ∪ d.own s) := by
  refine { h with toSound := (h.toSound.abandon (open_mem hs) hmap).mono ?_ map_mem subset_rfl }
  rintro t (rfl | rfl | ⟨k, hk⟩ | ht)
  · exact ⟨map_mem, Ne.symm hmap⟩
  · exact ⟨dir_mem, Ne.symm hdir⟩
  · exact ⟨link_mem hk, fun he => hlink k (he ▸ hk)⟩
  · exact ⟨open_mem ht.1, ht.2⟩

/-! ### An entry of the directory -/

section Entry

variable {e : DirEntry} (h : Layout d m r O Y) (hk : k < r.slots) (hs : e.inodeSector < 2 ^ 32)
  (hn : e.name.length = nameMax + 1)

include h hk hs hn

theorem slot_entry (j : Nat) :
    (d.written (d.inodeAt r.sector) (entrySize * k) e.encode).slot (d.inodeAt r.sector) j =
      if j = k then e else d.slot (d.inodeAt r.sector) j :=
  slot_written hs hn (by rw [h.dirLength]; exact Nat.mul_le_mul_left _ hk) j

theorem links_entry : (d.written (d.inodeAt r.sector) (entrySize * k) e.encode).Links r j s ↔
    if j = k then e.inUse = true ∧ e.inodeSector = s else d.Links r j s := by
  have hi : (d.written (d.inodeAt r.sector) (entrySize * k) e.encode).inodeAt r.sector =
      d.inodeAt r.sector := (agreeOff_written d _ _ _).inodeAt (h.apart _ dir_mem)
  rw [Disk.links_iff, hi, h.slot_entry hk hs hn]
  by_cases hj : j = k
  · rw [if_pos hj, if_pos hj]
    exact and_iff_right (hj ▸ hk)
  · rw [if_neg hj, if_neg hj, Disk.links_iff]

/-- The inodes `L` hold what is live after the entry is written. -/
theorem entry {L : Set Nat}
    (hlive : (d.written (d.inodeAt r.sector) (entrySize * k) e.encode).live r O ⊆ L)
    (hL : Sound d m L Y')
    (hfile : e.inUse = true → e.inodeSector ≠ freeMapSector ∧ e.inodeSector ≠ r.sector ∧
      ∀ j, ¬d.Links r j e.inodeSector) :
    Layout (d.written (d.inodeAt r.sector) (entrySize * k) e.encode) m r O Y' := by
  have ha := agreeOff_written d (d.inodeAt r.sector) (entrySize * k) e.encode
  have hdir : r.sector ∈ L := hlive dir_mem
  have hlinks (j t) := h.links_entry (j := j) (s := t) hk hs hn
  refine ⟨(hL.write hdir h.dirSector ha).mono hlive map_mem subset_rfl, ?_, h.dirSector, ?_, ?_⟩
  · rw [ha.inodeAt (hL.apart _ hdir)]
    exact h.dirLength
  · intro i j t hi hj
    rw [hlinks] at hi hj
    by_cases hik : i = k <;> by_cases hjk : j = k
    · rw [hik, hjk]
    · rw [if_pos hik] at hi
      rw [if_neg hjk] at hj
      exact absurd hj (hi.2 ▸ (hfile hi.1).2.2 j)
    · rw [if_neg hik] at hi
      rw [if_pos hjk] at hj
      exact absurd hi (hj.2 ▸ (hfile hj.1).2.2 i)
    · rw [if_neg hik] at hi
      rw [if_neg hjk] at hj
      exact h.slots i j t hi hj
  · intro j t hj
    rw [hlinks] at hj
    by_cases hjk : j = k
    · rw [if_pos hjk] at hj
      exact hj.2 ▸ ⟨(hfile hj.1).1, (hfile hj.1).2.1⟩
    · rw [if_neg hjk] at hj
      exact h.files j t hj

/-- **A new inode is linked**; its sectors were spare. -/
theorem link (hmap : e.inodeSector ≠ freeMapSector) (hdir : e.inodeSector ≠ r.sector)
    (hfit : (d.inodeAt e.inodeSector).Fits d.size)
    (hapart : e.inodeSector ∉ (d.inodeAt e.inodeSector).extent) (hY : d.own e.inodeSector ⊆ Y) :
    Layout (d.written (d.inodeAt r.sector) (entrySize * k) e.encode) m r O
      (Y \ d.own e.inodeSector) := by
  refine h.entry hk hs hn ?_ (h.toSound.adopt hfit hapart hY) fun _ =>
    ⟨hmap, hdir, fun j hj => h.not_mem_spare (link_mem hj) (hY (.inl rfl))⟩
  rintro t (ht | ht | ⟨j, hj⟩ | ht)
  · exact .inr (.inl ht)
  · exact .inr (.inr (.inl ht))
  · rw [h.links_entry hk hs hn] at hj
    by_cases hjk : j = k
    · rw [if_pos hjk] at hj
      exact .inl hj.2.symm
    · rw [if_neg hjk] at hj
      exact .inr (link_mem hj)
  · exact .inr (open_mem ht)

/-- **An entry is erased.** -/
theorem unlink (huse : e.inUse = false) :
    Layout (d.written (d.inodeAt r.sector) (entrySize * k) e.encode) m r O Y := by
  refine h.entry hk hs hn ?_ h.toSound fun hc => absurd (huse ▸ hc) (by decide)
  rintro t (ht | ht | ⟨j, hj⟩ | ht)
  · exact .inl ht
  · exact .inr (.inl ht)
  · rw [h.links_entry hk hs hn] at hj
    by_cases hjk : j = k
    · rw [if_pos hjk] at hj
      exact absurd (huse ▸ hj.1) (by decide)
    · rw [if_neg hjk] at hj
      exact link_mem hj
  · exact open_mem ht

end Entry

end Layout

end SystemProg.Pintos
