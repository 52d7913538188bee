import SystemProg.Pintos.Invariant

/-!
# Formatting

`filesys_init(true)` on any device leaves the invariant, with an empty root directory and no inode
open but that of the free map (`format_spec`), if it does not panic for lack of sectors. The free
map is written to its file before the root directory exists, and read back at the end.
-/

namespace SystemProg.Pintos

open Data Text SystemProg.Seq List

variable {fs fs' : FileSys} {d : Disk} {m : Bitmap} {L O Y : Set Nat} {s n len start : Nat}
  {x : InodeDisk}
  {disk : Disk} {junk : Nat → Bool}

/-! ## A new directory -/

theorem slot_zeros (hzeros : d.contents x = List.replicate x.length 0) {k : Nat}
    (hk : entrySize * (k + 1) ≤ x.length) : (d.slot x k).inUse = false := by
  have hle : entrySize * k + entrySize ≤ x.length := by rwa [← Nat.mul_succ]
  have hslice : slice d.byte (sectorSize * x.start + entrySize * k) entrySize =
      ((d.contents x).drop (entrySize * k)).take entrySize := by
    rw [Disk.contents, drop_slice, take_slice, Nat.min_eq_left (by omega)]
  rw [Disk.slot, hslice, hzeros, drop_replicate, take_replicate, Nat.min_eq_left
    (by omega)]
  rfl

/-- An inode of zeros in spare sectors is a directory. -/
theorem Sound.newDir (h : Sound d m L Y) (hO : O ⊆ L) (hx : d.inodeAt s = x)
    (hlen : x.length = entrySize * n) (hfit : x.Fits d.size) (hapart : s ∉ x.extent)
    (hY : insert s x.extent ⊆ Y) (hzeros : d.contents x = List.replicate x.length 0) :
    Layout d m ⟨s, n⟩ O (Y \ d.own s) := by
  subst hx
  have hnone (k t) : ¬d.Links ⟨s, n⟩ k t := fun hk => by
    have := slot_zeros hzeros (by rw [hlen]; exact Nat.mul_le_mul_left _ hk.lt)
    rw [hk.inUse] at this
    cases this
  refine ⟨(h.adopt hfit hapart hY).mono ?_ (.inl rfl) subset_rfl, hlen, ?_, ?_, ?_⟩
  · rintro t (rfl | rfl | ⟨k, hk⟩ | ht)
    · exact .inr h.mapLive
    · exact .inl rfl
    · exact absurd hk (hnone k t)
    · exact .inr (hO ht)
  · exact fun he => h.not_mem_spare h.mapLive (he ▸ hY (.inl rfl))
  · exact fun j _ t hj => absurd hj (hnone j t)
  · exact fun k t hk => absurd hk (hnone k t)

/-! ## Inversions -/

/-- A creation that did not fail found room, and wrote a sector of the device. -/
theorem of_inodeCreate (h : inodeCreate s len fs = some (true, fs')) :
    ∃ start fs1, freeMapAllocate (bytesToSectors len) fs = some (some start, fs1) ∧
    s < fs1.disk.size := by
  obtain ⟨a, fs1, halloc, h⟩ := of_bind_eq h
  cases a with
  | none => cases h
  | some start =>
    obtain ⟨_, fs2, hwrite, -⟩ := of_bind_eq h
    rw [blockWrite, get_bind] at hwrite
    obtain ⟨_, _, hassert, -⟩ := of_bind_eq hwrite
    exact ⟨start, fs1, halloc, (of_assert_eq hassert).1⟩

/-- Before there is a file for it, the free map is in memory only. -/
theorem freeMapAllocate_boot (hf : fs.freeMapFile = none)
    (hs : fs.freeMap.scan n false = some start) : freeMapAllocate n fs =
      some (some start, { fs with freeMap := fs.freeMap.setMultiple start n true }) := by
  rw [freeMapAllocate, get_bind, hs]
  show (set _ >>= fun _ => _ : K (Option Nat)) fs = _
  rw [bind_eq set_eq, hf]
  rfl

/-- `free_map_file` on the inode of the free map, which is not open yet. -/
theorem openFreeMapFile_eq (hopen : fs.openInodes = []) (hlt : freeMapSector < fs.disk.size) :
    openFreeMapFile fs = some (⟨fs.nextPtr, 0, false⟩, { fs with
      freeMapFile := some ⟨fs.nextPtr, 0, false⟩
      openInodes := [⟨fs.nextPtr, freeMapSector, 1, 0, false, fs.disk.inodeAt freeMapSector⟩]
      nextPtr := fs.nextPtr + 1 }) := by
  have hnone : lookup Inode.sector fs.openInodes freeMapSector = none := by rw [hopen]; rfl
  rw [openFreeMapFile, bind_eq (inodeOpen_new hnone hlt), hopen]
  rfl

/-! ## The steps of a format -/

section Boot

variable (disk junk)

/-- The free map of a new device marks its first two sectors. -/
theorem used_boot (h : 1 < disk.size) : (FileSys.boot disk junk).freeMap.used = {0, 1} := by
  ext y
  show y < disk.size ∧ (((Bitmap.create disk.size junk).set 0 true).set 1 true).test y = true ↔ _
  rw [Bitmap.test_set (by exact h), Bitmap.test_set (by exact Nat.lt_of_succ_lt h)]
  simp only [Set.mem_insert_iff, Set.mem_singleton_iff]
  by_cases h1 : y = 1
  · rw [if_pos h1]
    exact ⟨fun _ => .inr h1, fun _ => ⟨by omega, rfl⟩⟩
  by_cases h0 : y = 0
  · rw [if_neg h1, if_pos h0]
    exact ⟨fun _ => .inl h0, fun _ => ⟨by omega, rfl⟩⟩
  · rw [if_neg h1, if_neg h0]
    refine ⟨fun hy => ?_, fun hy => absurd hy (not_or.mpr ⟨h0, h1⟩)⟩
    rw [Bitmap.test_create hy.1] at hy
    exact absurd hy.2 (by decide)

end Boot

/-- The state after `free_map_create`: the free map is in its file, and sector 1 is spare. -/
structure MapMade (disk : Disk) (fs : FileSys) : Prop where
  sound : Sound fs.disk fs.freeMap {freeMapSector} {rootDirSector}
  size : fs.disk.size = disk.size
  file : fs.freeMapFile = some ⟨0, 0, false⟩
  opened : fs.openInodes = [⟨0, freeMapSector, 1, 0, false, fs.disk.inodeAt freeMapSector⟩]
  next : fs.nextPtr = 1
  used : fs.freeMap.used = Set.Iio (2 + bytesToSectors (byteCnt disk.size))

theorem MapMade.mapFile (h : MapMade disk fs) : MapFile fs where
  file :=
    ⟨_, ⟨0, freeMapSector, 1, 0, false, fs.disk.inodeAt freeMapSector⟩, h.file,
    by rw [h.opened]; exact lookup_cons_self, rfl, rfl⟩
  fits := h.sound.fits _ rfl
  length := by rw [h.sound.mapLength, h.sound.bitCnt]

/-- The inode of the free map, once its file is written. -/
theorem sound_boot {x : InodeDisk} (hsmall : disk.size < 2 ^ 21) (hroot : 1 < disk.size)
    (hscan : (FileSys.boot disk junk).freeMap.scan (bytesToSectors x.length) false = some x.start)
    (hm : m = (FileSys.boot disk junk).freeMap.setMultiple x.start (bytesToSectors x.length) true)
    (hlen : x.length = byteCnt disk.size) (hx : d.inodeAt freeMapSector = x)
      (hsize : d.size = disk.size)
    (hsaved : d.contents x = m.bytes) : Sound d m {freeMapSector} {rootDirSector} := by
  subst hm
  obtain ⟨hin, -⟩ := Bitmap.scan_eq_some hscan
  have hfree := Bitmap.disjoint_used_of_scan hscan
  rw [used_boot disk junk hroot] at hfree
  have hapart : freeMapSector ∉ x.extent := fun h => Set.disjoint_left.mp hfree h (.inl rfl)
  have hspare : rootDirSector ∉ x.extent := fun h => Set.disjoint_left.mp hfree h (.inr rfl)
  have hown : d.own freeMapSector = insert freeMapSector x.extent := by rw [Disk.own, hx]
  refine ⟨Bitmap.bitCnt_setMultiple.trans hsize.symm, hsize ▸ hsmall, by rw [hx, hlen, hsize], rfl,
    ?_, ?_, ?_,
    by rw [hx, hsaved]; exact Bitmap.heldIn_bytes _⟩
  · rintro _ rfl
    rw [hx, InodeDisk.Fits, hsize]
    exact hin.2
  · rintro _ rfl
    rw [hx]
    exact hapart
  · rw [Bitmap.used_mark hin, used_boot disk junk hroot]
    -- all are spare at first, and then those of the inode its own
    have hall := ((Allotment.nobody d.own {0, 1}).take hfree).adopt (i := freeMapSector) (by
      rw [hown]
      exact Set.insert_subset (.inl (.inl rfl)) Set.subset_union_right)
    refine hall.mono (Set.singleton_subset_iff.mpr (.inl rfl)) ?_
    rw [Set.singleton_subset_iff, hown]
    exact ⟨.inl (.inr rfl), fun h => h.elim (by decide) hspare⟩

/-- The sectors of the file of the free map. -/
def mapSectors (disk : Disk) : Nat := bytesToSectors (byteCnt disk.size)

theorem mapSectors_pos (h : 0 < disk.size) : 0 < mapSectors disk := by
  unfold mapSectors bytesToSectors sectorSize byteCnt elemCnt elemBits
  omega

theorem used_boot_initial (h : 1 < disk.size) :
    (FileSys.boot disk junk).freeMap.used = Set.Iio 2 := by
  rw [used_boot disk junk h]
  ext y
  simp only [Set.mem_insert_iff, Set.mem_singleton_iff, Set.mem_Iio]
  omega

/-- **`free_map_create`**, where there is room. -/
theorem freeMapCreate_spec (hsmall : disk.size < 2 ^ 21) (hfit : 2 + mapSectors disk ≤ disk.size)
    (junk : Nat → Bool) :
    wp freeMapCreate (fun _ => MapMade disk) (FileSys.boot disk junk) := by
  obtain ⟨x, hx⟩ : ∃ x : InodeDisk, x = ⟨2, byteCnt disk.size⟩ := ⟨_, rfl⟩
  have hstart : x.start = 2 := by rw [hx]
  have hlen : x.length = byteCnt disk.size := by rw [hx]
  have hroot : 1 < disk.size := by omega
  have hscan : (FileSys.boot disk junk).freeMap.scan (bytesToSectors x.length) false =
    some x.start := by
    rw [hstart, hlen]
    exact Bitmap.scan_initial (used_boot_initial hroot) (mapSectors_pos (by omega)) hfit
  have hapart : freeMapSector ∉ x.extent := fun h => by
    have := h.1
    rw [hstart] at this
    exact absurd this (by decide)
  have hxlen : x.length < 2 ^ 32 := by
    rw [hlen]
    unfold byteCnt elemCnt elemBits
    omega
  -- the states after each call
  obtain ⟨m1, hm1⟩ : ∃ m1, m1 =
      (FileSys.boot disk junk).freeMap.setMultiple x.start (bytesToSectors x.length) true := ⟨_,
        rfl⟩
  obtain ⟨d1, hd1⟩ : ∃ d1, d1 = disk.create freeMapSector x := ⟨_, rfl⟩
  have hinode1 : d1.inodeAt freeMapSector = x := by
    rw [hd1]
    exact inodeAt_create hapart (by rw [hstart]; decide) hxlen
  have hsize1 : d1.size = disk.size := by rw [hd1]; rfl
  have hcreate : inodeCreate freeMapSector (byteCnt disk.size) (FileSys.boot disk junk) =
      some (true, ⟨d1, m1, none, [], 0⟩) := by
    have halloc : freeMapAllocate _ (FileSys.boot disk junk) = _ := freeMapAllocate_boot rfl hscan
    rw [hlen] at halloc
    rw [inodeCreate_some halloc (by exact Nat.lt_of_succ_lt hroot) (by rw [hstart]; exact hfit),
      hd1, hm1, hx]
    rfl
  have hopen : openFreeMapFile ⟨d1, m1, none, [], 0⟩ = _ := openFreeMapFile_eq rfl
    (by rw [hsize1]; exact Nat.lt_of_succ_lt hroot)
  have hbits : m1.bitCnt = disk.size := by rw [hm1, Bitmap.bitCnt_setMultiple]; rfl
  rw [freeMapCreate]
  refine wp_get (wp_call hcreate (wp_assert rfl (wp_call hopen ?_)))
  have hwrite : bitmapWrite ⟨0, 0, false⟩ ⟨d1, m1, some ⟨0, 0, false⟩,
      [⟨0, freeMapSector, 1, 0, false, d1.inodeAt freeMapSector⟩], 1⟩ = _ :=
        bitmapWrite_eq lookup_cons_self rfl
    (by rw [hinode1, InodeDisk.Fits, hstart, hsize1, hlen]; exact hfit)
      (by rw [hinode1, hlen, hbits])
  refine wp_call hwrite (wp_of_eq (assert_eq rfl) ?_)
  have ha := agreeOff_written d1 (d1.inodeAt freeMapSector) 0 m1.bytes
  have hinode2 : (d1.written (d1.inodeAt freeMapSector) 0 m1.bytes).inodeAt freeMapSector = x := by
    rw [ha.inodeAt (hinode1 ▸ hapart), hinode1]
  refine ⟨?_, ha.size.trans hsize1, rfl, by rw [hinode2, hinode1], rfl, ?_⟩
  · have hsaved : (d1.written (d1.inodeAt freeMapSector) 0 m1.bytes).contents x = m1.bytes := by
      rw [hinode1]
      exact contents_written_all d1 (by rw [m1.length_bytes, hbits, hlen])
    exact sound_boot hsmall hroot hscan hm1 hlen hinode2 (ha.size.trans hsize1) hsaved
  · show m1.used = _
    rw [hm1, hstart, hlen]
    exact Bitmap.used_initial _ (used_boot_initial hroot) hfit

/-! ## Reading the free map back -/

theorem Sound.reread {c : Bitmap} (h : Sound d m L Y) (hc : c.bitCnt = d.size) :
    Sound d (c.ofBytes (d.contents (d.inodeAt freeMapSector))) L Y :=
  { h with
    bitCnt := hc
    allotted := Bitmap.used_ofBytes h.saved (hc.trans h.bitCnt.symm) ▸ h.allotted
    saved := Bitmap.heldIn_ofBytes h.saved (hc.trans h.bitCnt.symm) }

/-- **`free_map_open`**: on a device with a layout and no open inode, the invariant holds, and the
free map is the one that was saved. -/
theorem freeMapOpen_spec {r : DirAt} (h : Layout fs.disk m r ∅ Y)
    (hc : fs.freeMap.bitCnt = fs.disk.size)
    (hopen : fs.openInodes = []) :
    wp freeMapOpen (fun _ fs' => Inv fs' r [fs.nextPtr] [] Y ∧ fs'.disk = fs.disk ∧ fs'.freeMap =
      fs.freeMap.ofBytes (fs.disk.contents (fs.disk.inodeAt freeMapSector))) fs := by
  have hmap : freeMapSector ∈ m.used := h.allotted.inside _ Layout.map_mem (.inl rfl)
  have hlt : freeMapSector < fs.disk.size := h.bitCnt ▸ hmap.1
  have hlen :
    (fs.disk.contents (fs.disk.inodeAt freeMapSector)).length = byteCnt fs.freeMap.bitCnt := by
    rw [hc, ← h.mapLength]
    exact length_slice _ _ _
  obtain ⟨fs1, hfs1⟩ : ∃ fs1 : FileSys, fs1 = { fs with
      freeMapFile := some ⟨fs.nextPtr, 0, false⟩
      openInodes := [⟨fs.nextPtr, freeMapSector, 1, 0, false, fs.disk.inodeAt freeMapSector⟩]
      nextPtr := fs.nextPtr + 1 } := ⟨_, rfl⟩
  have hdisk1 : fs1.disk = fs.disk := by rw [hfs1]
  have hmap1 : fs1.freeMap = fs.freeMap := by rw [hfs1]
  have hopenEq := openFreeMapFile_eq hopen hlt
  rw [← hfs1] at hopenEq
  -- the whole file is read
  have hread : bitmapRead ⟨fs.nextPtr, 0, false⟩ fs1 = some (true, { fs1 with
      freeMap := fs.freeMap.ofBytes (fs.disk.contents (fs.disk.inodeAt freeMapSector)) }) := by
    have hi : lookup Inode.ptr fs1.openInodes fs.nextPtr =
        some ⟨fs.nextPtr, freeMapSector, 1, 0, false, fs.disk.inodeAt freeMapSector⟩ := by
      rw [hfs1]
      exact lookup_cons_self
    have hat : inodeReadAt fs.nextPtr (byteCnt fs.freeMap.bitCnt) 0 fs1 = _ := inodeReadAt_eq hi
      (by rw [hdisk1]; exact h.fits _ Layout.map_mem)
    rw [hdisk1, drop_zero, ← hlen, take_length] at hat
    rw [bitmapRead, get_bind, if_neg (by rw [hmap1, hc]; omega), hmap1, fileReadAt, ← hlen]
    refine (bind_eq hat).trans ?_
    rw [bind_eq modify_eq, pure_eq, decide_eq_true rfl, hmap1]
  refine wp_call hopenEq (wp_call hread (wp_of_eq (assert_eq rfl) ⟨⟨?_, ?_, ?_, ?_, ?_, ?_⟩, hdisk1,
    rfl⟩))
  all_goals subst hfs1
  · refine ⟨nodup_singleton _, nodup_singleton _, ?_, ?_, ?_, ?_, ?_, fun p =>
    Nat.zero_le _⟩
    · exact forall_mem_singleton.mpr (Nat.lt_succ_self _)
    · exact forall_mem_singleton.mpr (by simp)
    · exact forall_mem_singleton.mpr rfl
    · exact forall_mem_singleton.mpr mem_cons_self
    · exact forall_mem_singleton.mpr ⟨_, mem_cons_self, rfl⟩
  · refine { h with toSound := (h.toSound.reread hc).mono ?_ (.inl rfl) subset_rfl }
    rintro s (hs | hs | hs | ⟨i, hi, rfl⟩)
    · exact .inl hs
    · exact .inr (.inl hs)
    · exact .inr (.inr (.inl hs))
    · rw [mem_singleton.mp hi]
      exact .inl rfl
  · exact forall_mem_singleton.mpr rfl
  · exact forall_mem_singleton.mpr fun _ => ⟨rfl, rfl⟩
  · exact forall_mem_singleton.mpr fun hc => absurd hc Bool.false_ne_true
  · exact ⟨_, _, rfl, mem_cons_self, rfl, rfl⟩

/-! ## `filesys_init` -/

/-- What `do_format` leaves. -/
structure Formatted (disk : Disk) (fs : FileSys) : Prop where
  layout : Layout fs.disk fs.freeMap .root ∅ ∅
  size : fs.disk.size = disk.size
  used : fs.freeMap.used = Set.Iio (3 + mapSectors disk)
  empty : ∀ k, k < DirAt.root.slots → (fs.disk.slot (fs.disk.inodeAt rootDirSector) k).inUse = false

theorem dirCreate_spec (h : MapMade disk fs) (hfit : 3 + mapSectors disk ≤ disk.size) :
    wp (dirCreate rootDirSector 16) (fun ok fs' => ok = true ∧ Formatted disk fs' ∧
      fs'.freeMapFile = fs.freeMapFile ∧ fs'.openInodes = fs.openInodes) fs := by
  obtain ⟨x, hx⟩ : ∃ x : InodeDisk, x = ⟨2 + mapSectors disk, 16 * entrySize⟩ := ⟨_, rfl⟩
  have hstart : x.start = 2 + mapSectors disk := by rw [hx]
  have hlen : x.length = 16 * entrySize := by rw [hx]
  have hcnt : bytesToSectors x.length = 1 := by
    rw [hlen]
    decide
  have hused : fs.freeMap.used = Set.Iio x.start := hstart ▸ h.used
  have hbits : x.start + bytesToSectors x.length ≤ fs.freeMap.bitCnt := by
    rw [h.sound.bitCnt, h.size, hcnt, hstart]
    omega
  have hscan : fs.freeMap.scan (bytesToSectors x.length) false = some x.start :=
    Bitmap.scan_initial hused (by rw [hcnt]; decide) hbits
  -- the free map
  obtain ⟨fs1, hfs1⟩ :
    ∃ fs1, fs1 = fs.withMap (fs.freeMap.setMultiple x.start (bytesToSectors x.length) true) :=
    ⟨_, rfl⟩
  have halloc := freeMapAllocate_some h.mapFile hscan
  have hsound : Sound fs1.disk fs1.freeMap {freeMapSector} ({rootDirSector} ∪ x.extent) := by
    rw [hfs1]
    exact h.sound.take hscan
  have hused1 : fs1.freeMap.used = Set.Iio (x.start + bytesToSectors x.length) := by
    rw [hfs1]
    exact Bitmap.used_initial _ hused hbits
  have hsize : fs1.disk.size = disk.size := by rw [hfs1, FileSys.size_withMap, h.size]
  have hsmall := hsound.small
  rw [← hfs1, hlen] at halloc
  -- the inode
  have hapart : rootDirSector ∉ x.extent := fun hc => by
    have h2 : x.start ≤ 1 := hc.1
    omega
  have hsub : insert rootDirSector x.extent ⊆ {rootDirSector} ∪ x.extent :=
    Set.insert_subset (.inl rfl) Set.subset_union_right
  have hinode : (fs1.disk.create rootDirSector x).inodeAt rootDirSector = x :=
    inodeAt_create hapart (by omega) (by rw [hlen]; decide)
  have hzeros := contents_create fs1.disk rootDirSector x
  have hfit1 : x.Fits fs1.disk.size := by
    rw [InodeDisk.Fits, hcnt, hsize]
    omega
  have hcreate :=
    inodeCreate_some halloc (s := rootDirSector) (by rw [hsize]; exact (by omega : 1 < disk.size))
    (by rwa [InodeDisk.Fits, hlen] at hfit1)
  rw [← hlen] at hcreate
  have hdir : dirCreate rootDirSector 16 fs = inodeCreate rootDirSector x.length fs := by
    rw [hlen, dirCreate]
  refine wp_of_eq (hdir.trans hcreate) ⟨rfl, ⟨?_, agreeOff_create.size.trans hsize, ?_, fun k hk =>
    ?_⟩, ?_, ?_⟩
  · exact ((hsound.scribble agreeOff_create hsub).newDir (Set.empty_subset _) hinode hlen hfit1
      hapart hsub
      hzeros).mono subset_rfl (Set.empty_subset _)
  · rw [hused1, hstart, hcnt]
    congr 1
    omega
  · rw [hinode]
    exact slot_zeros hzeros (hlen ▸ Nat.mul_le_mul_left entrySize hk)
  · rw [hfs1, FileSys.freeMapFile_withMap]
  · rw [hfs1, FileSys.openInodes_withMap]

/-- **`do_format`**, where there is room. -/
theorem doFormat_spec (hsmall : disk.size < 2 ^ 21) (hfit : 3 + mapSectors disk ≤ disk.size)
    (junk : Nat → Bool) :
    wp doFormat (fun _ fs => Formatted disk fs ∧ fs.openInodes = []) (FileSys.boot disk junk) := by
  refine wp_bind (freeMapCreate_spec hsmall (by omega) junk) fun _ fs1 h1 => ?_
  refine wp_bind (dirCreate_spec h1 hfit) fun ok fs2 ⟨hok, h2, hfile, hopen⟩ => wp_assert hok ?_
  rw [h1.file] at hfile
  rw [h1.opened] at hopen
  have hi : lookup Inode.ptr fs2.openInodes 0 =
      some ⟨0, freeMapSector, 1, 0, false, fs1.disk.inodeAt freeMapSector⟩ := by
    rw [hopen]
    exact lookup_cons_self
  refine wp_get ?_
  rw [hfile]
  refine wp_of_eq ((inodeClose_last hi rfl rfl : inodeClose 0 fs2 = _))
    ⟨⟨h2.layout, h2.size, h2.used, h2.empty⟩, ?_⟩
  show remove Inode.ptr fs2.openInodes 0 = []
  rw [hopen]
  rfl

theorem scan_of_allocate (h : freeMapAllocate n fs = some (some s, fs')) :
    ∃ t, fs.freeMap.scan n false = some t := by
  cases hscan : fs.freeMap.scan n false with
  | none =>
    rw [freeMapAllocate_none hscan] at h
    cases h
  | some t => exact ⟨t, rfl⟩

/-- The file of the free map was made, so there was room for it. -/
theorem room_of_create (h : inodeCreate freeMapSector (byteCnt disk.size) (FileSys.boot disk junk) =
    some (true, fs)) : 2 + mapSectors disk ≤ disk.size := by
  obtain ⟨start, fs0, halloc, hlt⟩ := of_inodeCreate h
  obtain ⟨t, hscan⟩ := scan_of_allocate halloc
  obtain ⟨⟨-, hin⟩, hfree⟩ := Bitmap.scan_eq_some hscan
  have hin : t + mapSectors disk ≤ disk.size := hin
  have hboot := halloc.symm.trans (freeMapAllocate_boot rfl hscan)
  have hsize : fs0.disk.size = disk.size := by
    rw [Option.some.injEq, Prod.mk.injEq] at hboot
    rw [hboot.2]
    rfl
  rw [hsize] at hlt
  have hpos := mapSectors_pos hlt
  -- sector 0 is marked, so the device has another
  have ht : t ≠ 0 := by
    rintro rfl
    have h0 : (FileSys.boot disk junk).freeMap.test 0 = false :=
      hfree 0 (Nat.le_refl 0) (by rw [Nat.zero_add]; exact hpos)
    have h1 : (FileSys.boot disk junk).freeMap.test 0 = true := by
      show (((Bitmap.create disk.size junk).set 0 true).set 1 true).test 0 = true
      rw [Bitmap.test_set_of_ne (by decide), Bitmap.test_set (by exact hlt), if_pos rfl]
    rw [h1] at h0
    cases h0
  obtain rfl := Bitmap.eq_of_scan_initial (used_boot_initial (by omega)) hpos hscan
  exact hin

theorem room_of_init (hsmall : disk.size < 2 ^ 21) (h : filesysInit true disk junk = some fs) :
    3 + mapSectors disk ≤ disk.size := by
  obtain ⟨⟨_, fs'⟩, hrun, rfl⟩ := Option.map_eq_some_iff.mp h
  obtain ⟨_, fs5, hformat, -⟩ := of_bind_eq (m := doFormat) hrun
  obtain ⟨_, fs3, hmap, hrest⟩ := of_bind_eq hformat
  have hmap' := hmap
  rw [freeMapCreate, get_bind] at hmap
  obtain ⟨ok, fs1, hcreate, h1⟩ := of_bind_eq hmap
  obtain ⟨_, _, hassert, -⟩ := of_bind_eq h1
  obtain ⟨rfl, -⟩ := of_assert_eq hassert
  -- the file of the free map
  have h2 : 2 + mapSectors disk ≤ disk.size := room_of_create hcreate
  obtain ⟨u, fs3', heq, hmade⟩ := freeMapCreate_spec hsmall h2 junk
  obtain ⟨-, rfl⟩ := Prod.mk.inj (Option.some.inj (hmap'.symm.trans heq))
  obtain ⟨ok, fs4, hdir, h4⟩ := of_bind_eq hrest
  obtain ⟨_, _, hassert, -⟩ := of_bind_eq h4
  obtain ⟨rfl, -⟩ := of_assert_eq hassert
  obtain ⟨start, fs6, halloc, -⟩ := of_inodeCreate hdir
  obtain ⟨t, hscan⟩ := scan_of_allocate halloc
  obtain ⟨⟨-, hin⟩, -⟩ := Bitmap.scan_eq_some hscan
  obtain rfl := Bitmap.eq_of_scan_initial hmade.used (by decide) hscan
  have hcnt : bytesToSectors (16 * entrySize) = 1 := by decide
  rw [hmade.sound.bitCnt, hmade.size, hcnt] at hin
  rw [mapSectors]
  omega

/-- **`filesys_init(true)`** leaves the invariant, and an empty root directory. -/
theorem filesysInit_spec (hsmall : disk.size < 2 ^ 21) (hfit : 3 + mapSectors disk ≤ disk.size)
    (junk : Nat → Bool) :
    ∃ fs p, filesysInit true disk junk = some fs ∧ Inv fs .root [p] [] ∅ ∧ Formatted disk fs := by
  obtain ⟨_, fs1, hformat, h1, hopen⟩ := doFormat_spec hsmall hfit junk
  obtain ⟨_, fs2, hmount, hinv, hdisk, hmap⟩ := freeMapOpen_spec h1.layout h1.layout.bitCnt hopen
  refine ⟨fs2, fs1.nextPtr, ?_, hinv, ?_⟩
  · have hrun : (doFormat >>= fun _ => freeMapOpen : K Unit) (FileSys.boot disk junk) = _ :=
      (bind_eq hformat).trans hmount
    exact congrArg (Option.map Prod.snd) hrun
  · refine ⟨hinv.layout.mono (Set.empty_subset _) subset_rfl, hdisk ▸ h1.size, ?_, hdisk ▸ h1.empty⟩
    rw [hmap, Bitmap.used_ofBytes h1.layout.saved rfl, h1.used]

theorem inv_of_init (hsmall : disk.size < 2 ^ 21) (h : filesysInit true disk junk = some fs) :
    (∃ p, Inv fs .root [p] [] ∅) ∧ Formatted disk fs := by
  obtain ⟨fs', p, heq, hinv, hform⟩ := filesysInit_spec hsmall (room_of_init hsmall h) junk
  obtain rfl := Option.some.inj (h.symm.trans heq)
  exact ⟨⟨p, hinv⟩, hform⟩

end SystemProg.Pintos
