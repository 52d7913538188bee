import SystemProg.Pintos.Fsutil

/-!
# Extracting an archive

`fsutil_extract` on a freshly formatted file system. `Populated` says where it stands between two
members: the sectors in use are the first ones, and the files are those of the members read so far.
The members still to be read are ahead on the scratch device (`Disk.Ahead`).

* `archive_round_trip`: what `fsutil_append` put on the scratch device is extracted.
-/

namespace SystemProg.Pintos

open Data Text SystemProg.Seq List

variable {fs fs' : FileSys} {d d' target : Disk} {H D : List Nat} {X Y : Set Nat} {M : Machine}
  {name c bs rest done : List Byte} {i : Inode} {f : File} {j k n q size sector turns : Nat}
  {file : List Byte × List Byte} {files todo : List (List Byte × List Byte)}

/-! ## The scratch device -/

/-- The device holds `bs` from a sector on. -/
structure Disk.Ahead (d : Disk) (sector : Nat) (bs : List Byte) : Prop where
  fits : sectorSize * sector + bs.length ≤ sectorSize * d.size
  holds : slice d.byte (sectorSize * sector) bs.length = bs

namespace Disk.Ahead

theorem skip (h : d.Ahead sector (bs ++ rest)) (hk : bs.length = sectorSize * k) :
    slice d.byte (sectorSize * sector) (sectorSize * k) = bs ∧ d.Ahead (sector + k) rest := by
  have hholds := h.holds
  have hfits := h.fits
  rw [length_append, hk] at hholds hfits
  rw [slice_add] at hholds
  obtain ⟨h1, h2⟩ := append_inj hholds (by rw [length_slice, hk])
  refine ⟨h1, ?_, ?_⟩
  · rw [Nat.mul_add]
    omega
  · rw [Nat.mul_add]
    exact h2

theorem lt (h : d.Ahead sector bs) (hlen : sectorSize ≤ bs.length) : sector < d.size := by
  have := h.fits
  unfold sectorSize at *
  omega

end Disk.Ahead

theorem nextBlock_eq (h : M.scratch.Ahead M.extractSector (bs ++ rest))
    (hlen : bs.length = sectorSize) :
    nextBlock M = some (bs, { M with extractSector := M.extractSector + 1 }) ∧
      M.scratch.Ahead (M.extractSector + 1) rest := by
  obtain ⟨hread, hrest⟩ := h.skip (k := 1) (by rw [hlen, Nat.mul_one])
  rw [Nat.mul_one] at hread
  have hlt := h.lt (by rw [length_append]; omega)
  refine ⟨?_, hrest⟩
  rw [nextBlock, get_bind, scratchRead]
  have hblock : scratchRead M.extractSector M = some (bs, M) := by
    rw [scratchRead, get_bind, bind_eq (assert_eq hlt), hread]
    rfl
  exact (bind_eq hblock).trans rfl

/-! ## Copying a file -/

theorem fileWrite_eq (hi : lookup Inode.ptr fs.openInodes f.inode = some i)
    (hfit : i.data.Fits fs.disk.size) (hdeny : i.denyWriteCnt = 0)
    (hlen : bs.length ≤ i.data.length - f.pos) : fileWrite f bs fs =
      some ((bs.length, { f with pos := f.pos + bs.length }),
        { fs with disk := fs.disk.written i.data f.pos bs }) := by
  rw [fileWrite, bind_eq (inodeWriteAt_eq hi hfit hdeny), Nat.min_eq_left hlen]
  rfl

theorem contents_written_zeros {x : InodeDisk} (bs : List Byte)
    (hc : d.contents x = done ++ zeros n)
    (hlen : bs.length ≤ n) :
    (d.written x done.length bs).contents x = done ++ bs ++ zeros (n - bs.length) := by
  have hx : x.length = done.length + n := by
    have := congrArg List.length hc
    rwa [Disk.contents, length_slice, length_append, length_zeros] at this
  rw [contents_written, hc, take_of_length_le (by omega), splice, take_left,
    ← drop_drop, drop_left, zeros, drop_replicate]
  rfl

/-- **The loop** writes the data over the zeros. -/
theorem extractLoop_spec (hi : lookup Inode.ptr M.fs.openInodes f.inode = some i)
    (hfit : i.data.Fits M.fs.disk.size) (hdeny : i.denyWriteCnt = 0)
    (hc : M.fs.disk.contents i.data = done ++ zeros c.length) (hpos : f.pos = done.length)
    (hahead : M.scratch.Ahead M.extractSector (padded c ++ rest)) (hturns : c.length ≤ turns) :
    ∃ d', extractLoop turns f c.length M = some ({ f with pos := f.pos + c.length },
        { M with
          fs := { M.fs with disk := d' }
          extractSector := M.extractSector + bytesToSectors c.length }) ∧
      AgreeOff i.data.extent M.fs.disk d' ∧ d'.contents i.data = done ++ c := by
  induction turns generalizing f c M done with
  | zero =>
    obtain rfl := length_eq_zero_iff.mp (Nat.le_zero.mp hturns)
    exact ⟨M.fs.disk, rfl, ⟨rfl, fun _ _ => rfl⟩, hc⟩
  | succ turns ih =>
    rw [extractLoop]
    by_cases hlen : c.length = 0
    · obtain rfl := length_eq_zero_iff.mp hlen
      exact ⟨M.fs.disk, rfl, ⟨rfl, fun _ _ => rfl⟩, hc⟩
    have hchunk0 := sectorChunk_pos hlen
    obtain ⟨hle, hle'⟩ := sectorChunk_le c.length
    have hsectors := bytesToSectors_chunk hlen
    have hstep := padded_chunk hlen
    obtain ⟨chunk, hchunk⟩ : ∃ chunk, chunk = sectorChunk c.length := ⟨_, rfl⟩
    rw [← hchunk] at hchunk0 hle hle' hsectors hstep ⊢
    have htake : (c.take chunk).length = chunk := by rw [length_take, Nat.min_eq_left hle]
    have hdrop : (c.drop chunk).length = c.length - chunk := length_drop
    have hblock : (c.take chunk ++ zeros (sectorSize - chunk)).length = sectorSize := by
      rw [length_append, htake, length_zeros]
      omega
    rw [hstep, append_assoc] at hahead
    obtain ⟨hnext, hahead'⟩ := nextBlock_eq hahead hblock
    have hx : i.data.length = done.length + c.length := by
      have := congrArg List.length hc
      rwa [Disk.contents, length_slice, length_append, length_zeros] at this
    have hwrite : fileWrite f (c.take chunk) M.fs = _ :=
      fileWrite_eq hi hfit hdeny (by rw [htake, hpos, hx]; omega)
    have hnew := contents_written_zeros (c.take chunk) hc (by omega)
    have ha := agreeOff_written M.fs.disk i.data f.pos (c.take chunk)
    rw [← hpos, htake, ← hdrop] at hnew
    obtain ⟨d1, hd1⟩ : ∃ d1, d1 = M.fs.disk.written i.data f.pos (c.take chunk) := ⟨_, rfl⟩
    rw [← hd1] at hnew ha hwrite
    rw [if_neg hlen, bind_eq hnext, take_left' htake,
      bind_eq (onFs_eq (M := { M with extractSector := M.extractSector + 1 }) hwrite)]
    dsimp only
    rw [bind_eq (assert_eq htake), htake, ← hdrop]
    obtain ⟨d', hloop, ha', hc'⟩ := ih
      (M := { M with
        fs := { M.fs with disk := d1 }
        extractSector := M.extractSector + 1 })
      (f := { f with pos := f.pos + chunk })
      hi (ha.size ▸ hfit) hnew (by rw [length_append, htake, hpos]) hahead' (by omega)
    refine ⟨d', ?_, by simpa only [Set.union_self] using ha.trans ha', ?_⟩
    · rw [hloop, hdrop, hsectors]
      simp only [Nat.add_assoc, Nat.add_sub_cancel' hle]
    · rw [hc', append_assoc, take_append_drop]

/-! ## The listing -/

/-- A slot that has not changed, of a file that has not been written. -/
theorem FileSys.fileIn_of_agreeOff (ha : AgreeOff X fs.disk fs'.disk)
    (hslot : fs'.slot .root k = fs.slot .root k)
    (hX : (fs.slot .root k).inUse = true → (fs.slot .root k).inodeSector ∉ X ∧
      Disjoint (fs.disk.inodeAt (fs.slot .root k).inodeSector).extent X) :
    fs'.fileIn k = fs.fileIn k := by
  cases huse : (fs.slot .root k).inUse with
  | false => rw [FileSys.fileIn_of_free huse, FileSys.fileIn_of_free (hslot ▸ huse)]
  | true =>
    obtain ⟨hs, hext⟩ := hX huse
    rw [FileSys.fileIn_of_inUse huse, FileSys.fileIn_of_inUse (hslot ▸ huse), hslot, ha.inodeAt hs,
      ha.contents hext]

theorem FileSys.exists_free (h : fs.listing.length < DirAt.root.slots) :
    ∃ k, k < DirAt.root.slots ∧ (fs.slot .root k).inUse = false := by
  by_contra hc
  have hall : fs.listing.length = (List.range DirAt.root.slots).length := by
    refine filterMap_length_eq_length.mpr fun k hk => ?_
    have huse : (fs.slot .root k).inUse = true := by
      cases huse : (fs.slot .root k).inUse with
      | true => rfl
      | false => exact absurd ⟨k, mem_range.mp hk, huse⟩ hc
    rw [FileSys.fileIn_of_inUse huse]
    rfl
  rw [length_range] at hall
  omega

theorem FileSys.stores_of_listing (h : fs.listing = files) (hnodup : (files.map Prod.fst).Nodup)
    (f : List Byte × List Byte) (hf : f ∈ files) : fs.Stores f.1 f.2 := by
  refine ⟨h ▸ hf, fun c hc => ?_⟩
  have hc : (f.1, c) ∈ files := h ▸ hc
  exact congrArg Prod.snd (inj_on_of_nodup_map hnodup hc hf rfl)

theorem Inv.length_lt (h : Inv fs .root H D Y) (hc : (name, c) ∈ fs.listing) :
    c.length < 2 ^ 31 := by
  obtain ⟨k, hk, heq⟩ := mem_filterMap.mp hc
  cases huse : (fs.slot .root k).inUse with
  | false =>
    rw [FileSys.fileIn_of_free huse] at heq
    cases heq
  | true =>
    rw [FileSys.fileIn_of_inUse huse] at heq
    have hlink : fs.disk.Links .root k (fs.slot .root k).inodeSector :=
      ⟨mem_range.mp hk, huse, rfl⟩
    have hfit := h.layout.fits _ (Layout.link_mem hlink)
    have hsmall := h.layout.small
    have hlen := congrArg (fun p => p.2.length) (Option.some.inj heq)
    simp only [Disk.contents, length_slice] at hlen
    unfold InodeDisk.Fits bytesToSectors sectorSize at hfit
    omega

/-! ## A file is extracted -/

/-- The sectors of a new file come right after those in use. -/
theorem used_takes {m : Bitmap} {s start : Nat} (hu : m.used = Set.Iio n)
    (htakes : Takes m size s start) (hle : n + 1 + bytesToSectors size ≤ m.bitCnt) :
    ((m.setMultiple s 1 true).setMultiple start (bytesToSectors size) true).used =
      Set.Iio (n + 1 + bytesToSectors size) := by
  obtain rfl := Bitmap.eq_of_scan_initial hu (by decide) htakes.1
  have hu1 := Bitmap.used_initial 1 hu (by omega)
  have hcnt : (m.setMultiple s 1 true).bitCnt = m.bitCnt := Bitmap.bitCnt_setMultiple
  cases hs : bytesToSectors size with
  | zero =>
    have hin := (Bitmap.scan_eq_some htakes.2).1
    rw [hs] at hin
    rw [Bitmap.used_mark hin, Nat.add_zero, Nat.add_zero, Set.Ico_self, Set.union_empty, hu1]
  | succ k =>
    have h2 := htakes.2
    rw [hs] at h2 hle
    obtain rfl := Bitmap.eq_of_scan_initial hu1 (Nat.succ_pos k) h2
    exact Bitmap.used_initial _ hu1 (by omega)

theorem exists_takes {m : Bitmap} (hu : m.used = Set.Iio n)
    (hle : n + 1 + bytesToSectors size ≤ m.bitCnt) : ∃ s start, Takes m size s start := by
  have hu1 := Bitmap.used_initial 1 hu (by omega)
  have hcnt : (m.setMultiple n 1 true).bitCnt = m.bitCnt := Bitmap.bitCnt_setMultiple
  refine ⟨n, ?_⟩
  cases hs : bytesToSectors size with
  | zero =>
    exact ⟨0, Bitmap.scan_initial hu (by decide) (by omega), by rw [hs]; exact Bitmap.scan_zero _⟩
  | succ k =>
    exact ⟨n + 1, Bitmap.scan_initial hu (by decide) (by omega),
      Bitmap.scan_initial hu1 (by omega) (by omega)⟩

/-- The file system between two members. -/
structure Populated (fs : FileSys) (n : Nat) (files : List (List Byte × List Byte)) : Prop where
  inv : ∃ q, Inv fs .root [q] [] ∅
  used : fs.freeMap.used = Set.Iio n
  files : fs.listing.Perm files

/-- A file of zeros has been created in the slot `k`, and opened. -/
structure Begun (fs fs' : FileSys) (q n : Nat) (name : List Byte) (size k : Nat) (i : Inode) :
    Prop where
  inv : Inv fs' .root [i.ptr, q] [] ∅
  mem : i ∈ fs'.openInodes
  contents : fs'.disk.contents i.data = zeros size
  used : fs'.freeMap.used = Set.Iio (n + 1 + bytesToSectors size)
  size : fs'.disk.size = fs.disk.size
  lt : k < DirAt.root.slots
  free : fs.fileIn k = none
  named : fs'.Named .root name k
  sector : i.sector = (fs'.slot .root k).inodeSector
  others : ∀ j, j < DirAt.root.slots → j ≠ k → fs'.fileIn j = fs.fileIn j

/-- **`filesys_create` and `filesys_open`.** -/
theorem create_open_spec (h : Inv fs .root [q] [] ∅) (hu : fs.freeMap.used = Set.Iio n)
    (hname : name ≠ [] ∧ name.length ≤ nameMax ∧ 0 ∉ name)
    (hnew : ∀ c, (name, c) ∉ fs.listing) (hcnt : fs.listing.length < DirAt.root.slots)
    (hsize : size < 2 ^ 31) (hroom : n + 1 + bytesToSectors size ≤ fs.disk.size) :
    ∃ fs1 fs2 k i, filesysCreate name size fs = some (true, fs1) ∧ filesysOpen name fs1 =
      some (some ⟨i.ptr, 0, false⟩, fs2) ∧ Begun fs fs2 q n name size k i := by
  obtain ⟨ok, fs1, hcreate, h1, hq1, hcreated⟩ := filesysCreate_spec h hsize name
  have hnamed (j) : ¬fs.Named .root name j := fun hj => hnew _ (FileSys.mem_listing_of_named hj)
  have hbits := h.layout.bitCnt
  cases hcreated with
  | noRoom hno =>
    obtain ⟨s, start, htakes⟩ := exists_takes hu (hbits ▸ hroom)
    exact absurd htakes (hno s start)
  | rejected _ hreason =>
    exfalso
    rcases hreason with hr | hr | ⟨j, hj⟩ | hfull
    · exact hname.1 hr
    · omega
    · exact hnamed j hj
    · obtain ⟨k, hk, hfree⟩ := FileSys.exists_free hcnt
      exact absurd (hfull k hk) (by rw [hfree]; decide)
  | @added _ s start k e htakes _ hk hfree he hcstr hmap hslots hinode hzeros =>
    have hslot : fs1.slot .root k = e := by rw [hslots k hk, if_pos rfl]
    have hnamed1 : fs1.Named .root name k :=
      ⟨hk, by rw [hslot, he.2], by rw [hslot, hcstr hname.2.2]⟩
    obtain ⟨_, fs2, hopen, -, hdisk, hfm, ⟨-, hnone, -⟩ | ⟨j, i, rfl, hj, hi, his, h2⟩⟩ :=
      filesysOpen_spec h1 name
    · exact absurd hnamed1 (hnone k)
    -- the other slots do not have the name
    obtain rfl : j = k := by
      by_contra hne
      refine hnamed j ⟨hj.lt, ?_, ?_⟩
      · rw [← hj.inUse, hslots j hj.lt, if_neg hne]
      · rw [← hj.name, hslots j hj.lt, if_neg hne]
    rw [hslot, he.1] at his
    have hdata : i.data = ⟨start, size⟩ := by rw [h2.data i hi, his, hdisk, hinode]
    have hslot2 := FileSys.slot_of_disk (r := .root) hdisk
    refine ⟨fs1, fs2, j, i, hcreate, hopen, h2, hi, ?_, ?_, ?_, hk, FileSys.fileIn_of_free hfree,
      ?_, ?_, fun l hl hne => ?_⟩
    · rw [hdata, hdisk]
      exact hzeros
    · rw [hfm, hmap, used_takes hu htakes (hbits ▸ hroom)]
    · rw [hdisk, hq1.disk.size]
    · exact (FileSys.named_congr fun _ _ => by rw [hslot2]).mpr hnamed1
    · rw [his, hslot2, hslot, he.1]
    · rw [FileSys.fileIn_of_disk hdisk]
      refine FileSys.fileIn_of_agreeOff hq1.disk (by rw [hslots l hl, if_neg hne]) fun huse => ?_
      have hlink : fs.disk.Links .root l (fs.slot .root l).inodeSector := ⟨hl, huse, rfl⟩
      obtain ⟨hmap', hdir'⟩ := h.layout.files l _ hlink
      exact h.apart_wild (Layout.link_mem hlink) hmap' hdir'

theorem Begun.copied (hb : Begun fs fs' q n name size k i) (ha : AgreeOff i.data.extent fs'.disk d')
    (hc : d'.contents i.data = c) :
    Inv { fs' with disk := d' } .root [i.ptr, q] [] ∅ ∧ d'.Links .root k i.sector ∧
      (FileSys.listing { fs' with disk := d' }).Perm ((name, c) :: fs.listing) := by
  have hlink : fs'.disk.Links .root k i.sector := hb.sector ▸ hb.named.links
  obtain ⟨hmap, hdir⟩ := hb.inv.layout.files k _ hlink
  have hlive := fs'.mem_live (r := .root) hb.mem
  have hdata := hb.inv.data i hb.mem
  have ha' := ha
  rw [hdata] at ha'
  have hslot (j) (hj : j < DirAt.root.slots) :
      FileSys.slot { fs' with disk := d' } .root j = fs'.slot .root j :=
    slot_of_agreeOff hb.inv ha' (hb.inv.layout.not_mem_extent Layout.dir_mem hlive)
      (hb.inv.layout.extent_disjoint Layout.dir_mem hlive (Ne.symm hdir)) hj
  refine ⟨hb.inv.writeData hb.mem hmap hdir ha, ?_, ?_⟩
  · rw [hb.inv.layout.links_iff ha' (hb.inv.layout.not_mem_extent Layout.dir_mem hlive)
      (hb.inv.layout.extent_disjoint Layout.dir_mem hlive (Ne.symm hdir))]
    exact hlink
  · refine filterMap_insert nodup_range (mem_range.mpr hb.lt) hb.free ?_ fun j hj hne =>
      ?_
    · have huse : (FileSys.slot { fs' with disk := d' } .root k).inUse = true := by
        rw [hslot k hb.lt, hb.named.inUse]
      rw [FileSys.fileIn_of_inUse huse, hslot k hb.lt, hb.named.name, ← hb.sector, ha.inodeAt
        (hdata ▸ hb.inv.layout.apart _ hlive), ← hdata, hc]
    · have hj := mem_range.mp hj
      rw [← hb.others j hj hne]
      refine FileSys.fileIn_of_agreeOff ha' (hslot j hj) fun huse => ?_
      have hlinkj : fs'.disk.Links .root j (fs'.slot .root j).inodeSector := ⟨hj, huse, rfl⟩
      have hnej : (fs'.slot .root j).inodeSector ≠ i.sector := fun he =>
        hne (hb.inv.layout.slots j k _ hlinkj (he ▸ hlink))
      exact ⟨hb.inv.layout.not_mem_extent (Layout.link_mem hlinkj) hlive,
        hb.inv.layout.extent_disjoint (Layout.link_mem hlinkj) hlive hnej⟩

/-- **A member is extracted.** -/
theorem extractFile_spec (h : Populated M.fs n files) (ha : Archivable file)
    (hname : file.1 ≠ [] ∧ file.1.length ≤ nameMax) (hnew : file.1 ∉ files.map Prod.fst)
    (hcnt : files.length < DirAt.root.slots) (hroom : n + memberSectors file ≤ M.fs.disk.size)
    (hahead : M.scratch.Ahead M.extractSector (padded file.2 ++ rest)) :
    wp (extractFile file.1 file.2.length) (fun _ M' =>
      Populated M'.fs (n + memberSectors file) (file :: files) ∧
      M'.fs.disk.size = M.fs.disk.size ∧ M'.scratch = M.scratch ∧
      M'.extractSector = M.extractSector + bytesToSectors file.2.length) M := by
  obtain ⟨q, hinv⟩ := h.inv
  have hsectors : n + memberSectors file = n + 1 + bytesToSectors file.2.length :=
    (Nat.add_assoc _ _ _).symm
  have hnew' (c) : (file.1, c) ∉ M.fs.listing := fun hc =>
    hnew (mem_map.mpr ⟨_, h.files.mem_iff.mp hc, rfl⟩)
  obtain ⟨fs1, fs2, k, i, hcreate, hopen, hb⟩ := create_open_spec hinv h.used
    ⟨hname.1, hname.2, ha.nul⟩ hnew' (h.files.length_eq ▸ hcnt) ha.size (hsectors ▸ hroom)
  have hdeny : i.denyWriteCnt = 0 := by rw [hb.inv.table.denyCnt i hb.mem]; rfl
  have hl := hb.inv.table.lookup_eq hb.mem
  obtain ⟨d', hloop, hagree, hc⟩ := extractLoop_spec (M := { M with fs := fs2 })
    (f := ⟨i.ptr, 0, false⟩) (c := file.2) hl (hb.inv.fits hb.mem) hdeny
    (show _ = [] ++ zeros file.2.length from hb.contents) rfl hahead le_rfl
  obtain ⟨hinv', hlink, hlisting⟩ := hb.copied hagree hc
  refine wp_call (onFs_eq hcreate) (wp_assert rfl (wp_call (onFs_eq hopen) (wp_call hloop ?_)))
  refine wp_onFs (wp_mono (fileClose_linked hinv' hb.mem rfl hlink rfl (Nat.zero_le _)) ?_)
  rintro _ fs3 ⟨h3, -, hdisk3, hfm3⟩
  refine ⟨⟨⟨q, h3⟩, ?_, ?_⟩, ?_, rfl, rfl⟩
  · rw [hsectors, ← hb.used]
    exact congrArg Bitmap.used hfm3
  · rw [FileSys.listing, FileSys.fileIn_of_disk hdisk3]
    exact hlisting.trans (h.files.cons _)
  · rw [← hb.size, ← hagree.size]
    exact congrArg Disk.size hdisk3

/-! ## The whole archive -/

theorem parse_zeros : ustarParseHeader (zeros sectorSize) = .ok none := by
  rw [ustarParseHeader, if_pos]
  exact List.all_eq_true.mpr fun b hb => decide_eq_true (eq_of_mem_replicate hb)

/-- **The members are extracted** one after the other, up to the end of the archive. -/
theorem extractAll_spec (h : Populated M.fs n files) (ha : ∀ f ∈ todo, Archivable f)
    (hname : ∀ f ∈ todo, f.1 ≠ [] ∧ f.1.length ≤ nameMax)
    (hnodup : ((todo ++ files).map Prod.fst).Nodup)
    (hcnt : todo.length + files.length ≤ DirAt.root.slots)
    (hroom : n + archiveSectors todo ≤ M.fs.disk.size)
    (hahead : M.scratch.Ahead M.extractSector (archive todo ++ zeros sectorSize))
    (hturns : todo.length < turns) :
    wp (extractAll turns) (fun _ M' => M'.fs.listing.Perm (todo ++ files) ∧
      M'.scratch = M.scratch ∧ M'.extractSector = M.extractSector + archiveSectors todo + 1) M := by
  induction todo generalizing M n files turns with
  | nil =>
    obtain ⟨turns, rfl⟩ : ∃ t, turns = t + 1 := ⟨turns - 1, by omega⟩
    have hlast : M.scratch.Ahead M.extractSector (zeros sectorSize ++ []) := by
      simpa [archive] using hahead
    obtain ⟨hnext, -⟩ := nextBlock_eq hlast (length_zeros _)
    rw [extractAll]
    refine wp_call hnext ?_
    rw [parse_zeros]
    exact wp_pure ⟨h.files, rfl, rfl⟩
  | cons f todo ih =>
    obtain ⟨turns, rfl⟩ : ∃ t, turns = t + 1 := ⟨turns - 1, by omega⟩
    have haf := ha f mem_cons_self
    obtain ⟨header, -, hlen, hmember, hparse⟩ := haf.header
    have hsum : archiveSectors (f :: todo) = memberSectors f + archiveSectors todo := rfl
    have happ : archive (f :: todo) ++ zeros sectorSize =
        header ++ (padded f.2 ++ (archive todo ++ zeros sectorSize)) := by
      have : archive (f :: todo) = member f ++ archive todo := rfl
      rw [this, hmember]
      simp only [append_assoc]
    rw [happ] at hahead
    obtain ⟨hnext, hahead1⟩ := nextBlock_eq hahead hlen
    obtain ⟨-, hahead2⟩ := hahead1.skip (length_padded f.2)
    rw [cons_append, map_cons, nodup_cons] at hnodup
    rw [extractAll]
    refine wp_call hnext ?_
    rw [hparse]
    refine wp_bind (extractFile_spec (M := { M with extractSector := M.extractSector + 1 }) h haf
      (hname f mem_cons_self) ?_ ?_ ?_ hahead1) ?_
    · exact fun hm => hnodup.1 (by rw [map_append]; exact mem_append_right _ hm)
    · rw [length_cons] at hcnt
      omega
    · show n + memberSectors f ≤ M.fs.disk.size
      omega
    rintro _ M1 ⟨h1, hsize1, hscratch1, hsector1⟩
    have hperm : (todo ++ f :: files).Perm (f :: (todo ++ files)) := perm_middle
    refine wp_mono (ih h1 (fun g hg => ha g (mem_cons_of_mem _ hg)) (fun g hg =>
      hname g (mem_cons_of_mem _ hg)) ?_ ?_ ?_ ?_ ?_) ?_
    · exact ((hperm.map _).nodup_iff).mpr (nodup_cons.mpr hnodup)
    · rw [length_cons] at hcnt ⊢
      omega
    · rw [hsize1]
      show _ ≤ M.fs.disk.size
      omega
    · rw [hscratch1, hsector1]
      exact hahead2
    · rw [length_cons] at hturns
      omega
    · rintro _ M2 ⟨hfiles, hscratch2, hsector2⟩
      refine ⟨hfiles.trans hperm, hscratch2.trans hscratch1, ?_⟩
      rw [hsector2, hsector1, hsum, memberSectors]
      show M.extractSector + 1 + _ + _ + 1 = _
      omega

theorem length_le_archiveSectors (files : List (List Byte × List Byte)) :
    files.length ≤ archiveSectors files := by
  induction files with
  | nil => exact Nat.le_refl 0
  | cons f files ih =>
    have hsum : archiveSectors (f :: files) = memberSectors f + archiveSectors files := rfl
    rw [length_cons, hsum, memberSectors]
    omega

/-- **`fsutil_extract`** on a freshly formatted file system. -/
theorem fsutilExtract_spec (hinv : Inv M.fs .root [q] [] ∅) (hform : Formatted target M.fs)
    (ha : ∀ f ∈ files, Archivable f) (hname : ∀ f ∈ files, f.1 ≠ [] ∧ f.1.length ≤ nameMax)
    (hnodup : (files.map Prod.fst).Nodup) (hcnt : files.length ≤ DirAt.root.slots)
    (hroom : 3 + mapSectors target + archiveSectors files ≤ target.size)
    (hahead : M.scratch.Ahead M.extractSector (archive files ++ zeros sectorSize))
    (htwo : archiveSectors files + 2 ≤ M.scratch.size) :
    wp fsutilExtract (fun _ M' => M'.fs.listing.Perm files ∧ M'.extractSector =
      M.extractSector + archiveSectors files + 1) M := by
  have hempty : M.fs.listing = [] :=
    filterMap_eq_nil_iff.mpr fun k hk =>
      FileSys.fileIn_of_free (hform.empty k (mem_range.mp hk))
  have hpop : Populated M.fs (3 + mapSectors target) [] := ⟨⟨q, hinv⟩, hform.used, by rw [hempty]⟩
  have hlen := length_le_archiveSectors files
  rw [← hform.size] at hroom
  refine wp_get (wp_bind (extractAll_spec hpop ha hname
    (by rwa [append_nil]) (by simpa using hcnt) hroom hahead (by omega)) ?_)
  rintro _ M' ⟨hfiles, hscratch, hsector⟩
  refine wp_call (scratchWrite_eq (by rw [hscratch]; omega))
    (wp_of_eq (scratchWrite_eq (by show 1 < M'.scratch.size; rw [hscratch]; omega)) ⟨?_, hsector⟩)
  rwa [append_nil] at hfiles

/-- **An archive holds the files it was made of.** `fsutil_append` on each of the files of a file
system in use, from the first sector of the scratch device on, and then `fsutil_extract` on a
freshly formatted device: its files are those, with their contents, and it stops at the first
sector after the members. If there are no files, the scratch device has to start with the end of
an archive. -/
theorem archive_round_trip {S : State} (hS : Reachable S) (files : List (List Byte × List Byte))
    (hcnt : files.length ≤ 16) (hnodup : (files.map Prod.fst).Nodup)
    (hname : ∀ f ∈ files, 1 ≤ f.1.length ∧ f.1.length ≤ 14 ∧ 0 ∉ f.1 ∧ stripAntisocial f.1 = f.1)
    (hfiles : ∀ f ∈ files, S.fs.Stores f.1 f.2) (scratch : Disk)
    (hempty : files = [] → slice scratch.byte 0 sectorSize = zeros sectorSize)
    (hscratch : archiveSectors files + 2 ≤ scratch.size) (target : Disk)
    (hsmall : target.size < 2 ^ 21)
    (htarget : 3 + mapSectors target + archiveSectors files ≤ target.size) (junk : Nat → Bool) :
    ∃ M fs M', (files.map Prod.fst).forM fsutilAppend ⟨S.fs, scratch, 0, 0⟩ = some ((), M) ∧
      filesysInit true target junk = some fs ∧
      fsutilExtract ⟨fs, M.scratch, 0, 0⟩ = some ((), M') ∧ M'.fs.listing.Perm files ∧
      M'.extractSector = archiveSectors files + 1 := by
  obtain ⟨q, hinv⟩ := hS.sane.inv
  have ha (f) (hf : f ∈ files) : Archivable f := by
    obtain ⟨-, hshort, hnul, hstrip⟩ := hname f hf
    exact ⟨hnul, by omega, hstrip, hinv.length_lt (hfiles f hf).1⟩
  have hlen := length_archive ha
  obtain ⟨_, M, happend, hsize, hnil, hcons⟩ := appendAll_spec (M := ⟨S.fs, scratch, 0, 0⟩) hinv ha
    hfiles (by show 0 + archiveSectors files + 2 ≤ scratch.size; omega)
  have hsize : M.scratch.size = scratch.size := hsize
  obtain ⟨fs, p, hinit, hinv', hform⟩ := filesysInit_spec hsmall (by omega) junk
  have hfits : sectorSize * 0 + (archive files ++ zeros sectorSize).length ≤
      sectorSize * M.scratch.size := by
    rw [hsize, length_append, hlen, length_zeros, ← Nat.mul_succ, Nat.mul_zero, Nat.zero_add]
    exact Nat.mul_le_mul_left _ (by omega)
  have hahead : M.scratch.Ahead 0 (archive files ++ zeros sectorSize) := by
    refine ⟨hfits, ?_⟩
    by_cases he : files = []
    · have hz : archive files ++ zeros sectorSize = zeros sectorSize := by rw [he]; rfl
      rw [hnil he, hz, length_zeros, Nat.mul_zero]
      exact hempty he
    · -- of the two sectors of zeros, the first one
      have hz : archive files ++ zeros (2 * sectorSize) =
          (archive files ++ zeros sectorSize) ++ zeros sectorSize := by
        rw [Nat.two_mul, append_assoc]
        exact congrArg _ replicate_append_replicate.symm
      rw [hcons he, hz]
      simp only [Disk.patched, patch_append _ _ (_ ++ _)]
      rw [slice_patch_of_disjoint (.inl le_rfl), slice_patch_self]
  have hne (f) (hf : f ∈ files) : f.1 ≠ [] := ne_nil_of_length_pos (hname f hf).1
  obtain ⟨_, M', hextract, hlist, hsector⟩ := fsutilExtract_spec (M := ⟨fs, M.scratch, 0, 0⟩) hinv'
    hform ha (fun f hf => ⟨hne f hf, (hname f hf).2.1⟩) hnodup hcnt htarget hahead
    (by show _ ≤ M.scratch.size; omega)
  exact ⟨M, fs, M', happend, hinit, hextract, hlist, by rw [hsector, Nat.zero_add]⟩

/-- Two files, one of them empty, over a scratch device full of other bytes. -/
theorem archive_round_trip_two : ∃ S M fs M', Reachable S ∧
    [str "ab", str "c"].forM fsutilAppend ⟨S.fs, ⟨5, fun _ => 255⟩, 0, 0⟩ = some ((), M) ∧
    filesysInit true smallDisk (fun _ => true) = some fs ∧
    fsutilExtract ⟨fs, M.scratch, 0, 0⟩ = some ((), M') ∧
    M'.fs.listing.Perm [(str "ab", [1, 2, 3]), (str "c", [])] ∧ M'.extractSector = 4 := by
  obtain ⟨S, hS, hp⟩ := reachable_of_bootAll smallDisk (fun _ => false)
    [.create (str "ab") 3, .create (str "c") 0, .open (str "ab"), .write 0 [1, 2, 3], .close 0]
    (fun S => S.fs.listing == [(str "ab", [1, 2, 3]), (str "c", [])]) (by decide)
      (by decide +kernel)
  rw [beq_iff_eq] at hp
  obtain ⟨M, fs, M', h⟩ :=
    archive_round_trip hS [(str "ab", [1, 2, 3]), (str "c", [])] (by decide) (by decide) (by decide)
    (FileSys.stores_of_listing hp (by decide)) ⟨5, fun _ => 255⟩ (by simp)
    (by decide) smallDisk (by decide) (by decide) fun _ => true
  exact ⟨S, M, fs, M', hS, h⟩

end SystemProg.Pintos
