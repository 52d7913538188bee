import SystemProg.Pintos.Directory

/-!
# Creating, opening and removing files

The functions of `filesys.c` on a directory, over the invariant: `filesys_create` (`createIn_spec`,
with what it leaves behind in each case), `filesys_open` and `filesys_remove`. All they write is the
free map, the directory and sectors that were free, so no file changes.
-/

namespace SystemProg.Pintos

open Data Text SystemProg.Seq List

variable {fs fs' : FileSys} {r : DirAt} {H D : List Nat} {Y : Set Nat} {dir : Dir}
  {s start size k : Nat}
  {name : List Byte} {e : DirEntry} {x : InodeDisk}

/-! ## A new inode -/

/-- The inode `x` is in sector `s`, all its sectors are spare, and it reads as zeros. -/
structure Fresh (fs : FileSys) (Y : Set Nat) (s : Nat) (x : InodeDisk) : Prop where
  inode : fs.disk.inodeAt s = x
  apart : s ∉ x.extent
  fits : x.Fits fs.disk.size
  spare : insert s x.extent ⊆ Y
  zeros : fs.disk.contents x = List.replicate x.length 0

/-- **`inode_create`** in a spare sector takes what a scan finds, or changes nothing. -/
theorem inodeCreate_spec (h : Inv fs r H D Y) (hs : s ∈ Y) (hsize : size < 2 ^ 31) :
    (fs.freeMap.scan (bytesToSectors size) false = none ∧
      inodeCreate s size fs = some (false, fs)) ∨
    (∃ start fs', fs.freeMap.scan (bytesToSectors size) false = some start ∧
      inodeCreate s size fs = some (true, fs') ∧
      fs'.freeMap = fs.freeMap.setMultiple start (bytesToSectors size) true ∧
      Inv fs' r H D (Y ∪ InodeDisk.extent ⟨start, size⟩) ∧
      Fresh fs' (Y ∪ InodeDisk.extent ⟨start, size⟩) s ⟨start, size⟩ ∧
      Quiet ((fs.disk.inodeAt freeMapSector).extent ∪ insert s (InodeDisk.extent ⟨start, size⟩))
        fs fs') := by
  cases hscan : fs.freeMap.scan (bytesToSectors size) false with
  | none => exact .inl ⟨rfl, inodeCreate_none hscan⟩
  | some start =>
    obtain ⟨hin, -⟩ := Bitmap.scan_eq_some hscan
    have hused : s ∈ fs.freeMap.used := h.layout.allotted.spare_used hs
    have hapart : s ∉ InodeDisk.extent ⟨start, size⟩ := fun hx =>
      Set.disjoint_left.mp (Bitmap.disjoint_used_of_scan hscan) hx hused
    have hfit : start + bytesToSectors size ≤ fs.disk.size := h.layout.bitCnt ▸ hin.2
    have hstart : start < 2 ^ 32 := by
      have := h.layout.small
      omega
    obtain ⟨fs1, hfs1⟩ :
      ∃ fs1, fs1 = fs.withMap (fs.freeMap.setMultiple start (bytesToSectors size) true) :=
      ⟨_, rfl⟩
    have halloc := freeMapAllocate_some h.file hscan
    have h1 := h.take hscan
    have hq1 := Quiet.withMap fs (fs.freeMap.setMultiple start (bytesToSectors size) true)
    rw [← hfs1] at halloc h1 hq1
    have hlt : s < fs1.disk.size := by rw [hq1.disk.size, ← h.layout.bitCnt]; exact hused.1
    have hfit1 : start + bytesToSectors size ≤ fs1.disk.size := hq1.disk.size ▸ hfit
    have hsub :
      insert s (InodeDisk.extent ⟨start, size⟩) ⊆ Y ∪ Set.Ico start (start + bytesToSectors size) :=
      Set.insert_subset (.inl hs) Set.subset_union_right
    refine .inr ⟨start, _, rfl, inodeCreate_some halloc hlt hfit1, ?_, h1.create hsub,
      ⟨inodeAt_create hapart hstart (Nat.lt_trans hsize (by decide)), hapart, hfit1, hsub,
        contents_create _ _ _⟩, ?_⟩
    · rw [hfs1]
      rfl
    · exact (hq1.mono Set.subset_union_left).trans
        ((Quiet.of_disk agreeOff_create).mono Set.subset_union_right)

theorem Inv.link (h : Inv fs r H D Y) (hf : Fresh fs Y s x) (hk : k < r.slots)
    (hs : e.inodeSector = s)
    (hn : e.name.length = nameMax + 1) : Inv (fs.withEntry r k e) r H D (Y \ fs.disk.own s) := by
  have hspare : s ∈ Y := hf.spare (.inl rfl)
  have hne (t) (ht : t ∈ fs.live r) : s ≠ t := fun he => h.layout.not_mem_spare ht (he ▸ hspare)
  have hlt : e.inodeSector < 2 ^ 32 := by
    have := (h.layout.allotted.spare_used hspare).1
    have := h.layout.bitCnt
    have := h.layout.small
    omega
  subst hs
  refine h.entry hk hlt hn (h.layout.link hk hlt hn (hne _ Layout.map_mem) (hne _ Layout.dir_mem)
    ?_ ?_ ?_) ?_
  · exact hf.inode ▸ hf.fits
  · exact hf.inode ▸ hf.apart
  · rw [Disk.own, hf.inode]
    exact hf.spare
  · exact fun _ i hi he => absurd he.symm (hne _ (fs.mem_live hi))

/-! ## `filesys_create` -/

/-- The sectors that a new file of `size` bytes would take. -/
def Takes (m : Bitmap) (size s start : Nat) : Prop :=
  m.scan 1 false = some s ∧ (m.setMultiple s 1 true).scan (bytesToSectors size) false = some start

theorem Takes.inRange {m : Bitmap} (h : Takes m size s start) :
    m.InRange start (bytesToSectors size) := by
  have := (Bitmap.scan_eq_some h.2).1
  rwa [Bitmap.InRange, Bitmap.bitCnt_setMultiple] at this

theorem Takes.not_mem_used {m : Bitmap} (h : Takes m size s start) {x : Nat}
    (hx : x ∈ Set.Ico start (start + bytesToSectors size)) : x ∉ m.used := fun hu => by
  refine Set.disjoint_left.mp (Bitmap.disjoint_used_of_scan h.2) hx ?_
  rw [Bitmap.used_mark (Bitmap.scan_eq_some h.1).1]
  exact .inl hu

/-- The contents of the directory. -/
def FileSys.dirBytes (fs : FileSys) (r : DirAt) : List Byte :=
  fs.disk.contents (fs.disk.inodeAt r.sector)

/-- What `filesys_create` returns and leaves behind. -/
inductive Created (fs : FileSys) (r : DirAt) (name : List Byte) (size : Nat) : Bool → FileSys → Prop
  /-- No room for the file. -/
  | noRoom {fs' : FileSys} (hroom : ∀ s start, ¬Takes fs.freeMap size s start)
      (hmap : fs'.freeMap = fs.freeMap) (hdir : fs'.dirBytes r = fs.dirBytes r) :
      Created fs r name size false fs'
  /-- Room for the file but not for its name: the sectors of its data stay marked. -/
  | rejected {fs' : FileSys} {s start : Nat} (htakes : Takes fs.freeMap size s start)
      (hreason : fs.Rejects r name)
      (hmap : fs'.freeMap = fs.freeMap.setMultiple start (bytesToSectors size) true)
      (hdir : fs'.dirBytes r = fs.dirBytes r) : Created fs r name size false fs'
  | added {fs' : FileSys} {s start k : Nat} {e : DirEntry} (htakes : Takes fs.freeMap size s start)
      (hname : name ≠ [] ∧ name.length ≤ nameMax ∧ ∀ j, ¬fs.Named r name j) (hk : k < r.slots)
      (hfree : (fs.slot r k).inUse = false) (he : e.inodeSector = s ∧ e.inUse = true)
      (hcstr : 0 ∉ name → cstr e.name = name)
      (hmap : fs'.freeMap =
        (fs.freeMap.setMultiple s 1 true).setMultiple start (bytesToSectors size) true)
      (hslots : ∀ j, j < r.slots → fs'.slot r j = if j = k then e else fs.slot r j)
      (hinode : fs'.disk.inodeAt s = ⟨start, size⟩)
      (hzeros : fs'.disk.contents ⟨start, size⟩ = List.replicate size 0) :
        Created fs r name size true fs'

/-- The sectors that `filesys_create` may write, but for the directory. -/
def FileSys.scratch (fs : FileSys) : Set Nat :=
  (fs.disk.inodeAt freeMapSector).extent ∪ fs.freeMap.usedᶜ

/-- A live inode is not written there, nor is the data of one that is not the free map. -/
theorem Inv.not_mem_scratch (h : Inv fs r H D Y) (hs : s ∈ fs.live r) : s ∉ fs.scratch := by
  rintro (hx | hx)
  · exact h.layout.not_mem_extent hs Layout.map_mem hx
  · exact hx (h.layout.allotted.inside s hs (.inl rfl))

theorem Inv.disjoint_scratch (h : Inv fs r H D Y) (hs : s ∈ fs.live r) (hne : s ≠ freeMapSector) :
    Disjoint (fs.disk.inodeAt s).extent fs.scratch := by
  refine Set.disjoint_union_right.mpr ⟨h.layout.extent_disjoint hs Layout.map_mem hne, ?_⟩
  exact Set.disjoint_left.mpr fun x hx hc => hc (h.layout.allotted.inside s hs (.inr hx))

theorem Quiet.slot (h : Inv fs r H D Y) (hq : Quiet fs.scratch fs fs') (j : Nat)
    (hj : j < r.slots) : fs'.slot r j = fs.slot r j :=
  slot_of_agreeOff h hq.disk (h.not_mem_scratch Layout.dir_mem)
    (h.disjoint_scratch Layout.dir_mem h.layout.dirSector) hj

theorem Quiet.dirBytes (h : Inv fs r H D Y) (hq : Quiet fs.scratch fs fs') :
    fs'.dirBytes r = fs.dirBytes r := by
  rw [FileSys.dirBytes, FileSys.dirBytes, hq.disk.inodeAt (h.not_mem_scratch Layout.dir_mem)]
  exact hq.disk.contents (h.disjoint_scratch Layout.dir_mem h.layout.dirSector)

/-- The inode sector of a file that could not be made goes back. -/
theorem cleanup_spec (h : Inv fs r H D Y) (hs : s ∈ Y) (hne : s ≠ 0) :
    wp (do
      if !false && s ≠ 0 then freeMapRelease s 1
      return false) (fun ok fs' => ok = false ∧ Inv fs' r H D ∅ ∧
        Quiet (fs.disk.inodeAt freeMapSector).extent fs fs' ∧
        fs'.freeMap = fs.freeMap.setMultiple s 1 false) fs := by
  have hlt := (h.layout.allotted.spare_used hs).1
  rw [h.layout.bitCnt] at hlt
  have hY : Set.Ico s (s + 1) ⊆ Y := fun x hx => by
    rw [Set.mem_Ico] at hx
    obtain rfl : x = s := by omega
    exact hs
  rw [if_pos (by simpa using hne)]
  refine wp_bind (release_spec h hlt hY) fun _ fs' ⟨h', hq, _, hmap⟩ => wp_pure ⟨rfl, ?_, hq, hmap⟩
  exact h'.mono (Set.empty_subset _)

theorem alloc_spec (h : Inv fs r H D Y) (hscan : fs.freeMap.scan 1 false = some s) :
    ∃ fs1, freeMapAllocate 1 fs = some (some s, fs1) ∧ fs1.freeMap =
      fs.freeMap.setMultiple s 1 true ∧
      Inv fs1 r H D (insert s Y) ∧ Quiet fs.scratch fs fs1 ∧ s ∉ fs.freeMap.used := by
  have hsector : Set.Ico s (s + 1) = {s} := by
    ext x
    rw [Set.mem_Ico, Set.mem_singleton_iff]
    omega
  have h1 := h.take hscan
  rw [hsector, Set.union_singleton] at h1
  refine ⟨fs.withMap (fs.freeMap.setMultiple s 1 true), freeMapAllocate_some h.file hscan, rfl, h1,
    (Quiet.withMap fs _).mono Set.subset_union_left, fun hu => ?_⟩
  exact Set.disjoint_left.mp (Bitmap.disjoint_used_of_scan hscan) (hsector ▸ rfl) hu

theorem allocCreate_spec {fs1 : FileSys} (h : Inv fs r H D Y)
    (hscan : fs.freeMap.scan 1 false = some s)
    (hmap1 : fs1.freeMap = fs.freeMap.setMultiple s 1 true) (h1 : Inv fs1 r H D (insert s Y))
    (hq1 : Quiet fs.scratch fs fs1) (hs : s ∉ fs.freeMap.used) (hsize : size < 2 ^ 31) :
    ((∀ t start, ¬Takes fs.freeMap size t start) ∧ inodeCreate s size fs1 = some (false, fs1)) ∨
    ∃ start fs2, Takes fs.freeMap size s start ∧ inodeCreate s size fs1 = some (true, fs2) ∧
      fs2.freeMap = (fs.freeMap.setMultiple s 1 true).setMultiple start (bytesToSectors size) true ∧
      Inv fs2 r H D (insert s Y ∪ InodeDisk.extent ⟨start, size⟩) ∧
      Fresh fs2 (insert s Y ∪ InodeDisk.extent ⟨start, size⟩) s ⟨start, size⟩ ∧
      insert s (InodeDisk.extent ⟨start, size⟩) ⊆ fs.freeMap.usedᶜ ∧ Quiet fs.scratch fs fs2 := by
  have hinode1 : fs1.disk.inodeAt freeMapSector = fs.disk.inodeAt freeMapSector :=
    hq1.disk.inodeAt (h.not_mem_scratch Layout.map_mem)
  rcases inodeCreate_spec h1 (.inl rfl) hsize with
    ⟨hnone, hcreate⟩ | ⟨start, fs2, hscan2, hcreate, hmap2, h2, hfresh, hq2⟩
  · refine .inl ⟨?_, hcreate⟩
    rintro t start ⟨ht, hstart⟩
    obtain rfl : t = s := Option.some.inj (ht.symm.trans hscan)
    rw [← hmap1, hnone] at hstart
    cases hstart
  · rw [hmap1] at hscan2 hmap2
    rw [hinode1] at hq2
    have htakes : Takes fs.freeMap size s start := ⟨hscan, hscan2⟩
    have hnew : insert s (InodeDisk.extent ⟨start, size⟩) ⊆ fs.freeMap.usedᶜ :=
      Set.insert_subset hs fun x hx => htakes.not_mem_used hx
    refine .inr ⟨start, fs2, htakes, hcreate, hmap2, h2, hfresh, hnew, hq1.trans (hq2.mono ?_)⟩
    exact Set.union_subset Set.subset_union_left (hnew.trans Set.subset_union_right)

/-- **`filesys_create`** on an open directory. -/
theorem createIn_spec (h : Inv fs r H D ∅) (hd : fs.IsDir r dir) (hp : dir.inode ∈ H)
    (hsize : size < 2 ^ 31) (name : List Byte) :
    wp (createIn dir name size) (fun ok fs' => Inv fs' r H D ∅ ∧
      Quiet (fs.scratch ∪ (fs.disk.inodeAt r.sector).extent) fs fs' ∧ Created fs r name size ok fs')
        fs := by
  unfold createIn
  cases hscan : fs.freeMap.scan 1 false with
  | none =>
    refine wp_call (freeMapAllocate_none hscan) (wp_pure ⟨h, .refl fs, .noRoom ?_ rfl rfl⟩)
    intro s start ht
    exact absurd (hscan.symm.trans ht.1) (by simp)
  | some s =>
    obtain ⟨fs1, halloc, hmap1, h1, hq1, hs⟩ := alloc_spec h hscan
    have hne : s ≠ 0 := fun he => hs (he ▸ h.layout.allotted.inside _ Layout.map_mem (.inl rfl))
    -- what is done to the free map at the end
    have hclean {fs2 fs' : FileSys} (hq2 : Quiet fs.scratch fs fs2)
        (hq' : Quiet (fs2.disk.inodeAt freeMapSector).extent fs2 fs') :
          Quiet fs.scratch fs fs' := by
      rw [hq2.disk.inodeAt (h.not_mem_scratch Layout.map_mem)] at hq'
      exact hq2.trans (hq'.mono Set.subset_union_left)
    refine wp_call halloc ?_
    rcases allocCreate_spec h hscan hmap1 h1 hq1 hs hsize with
      ⟨hroom, hcreate⟩ | ⟨start, fs2, htakes, hcreate, hmap2, h2, hfresh, -, hq2⟩
    · -- no room for the data
      have hmake : makeFile dir name s size fs1 = some (false, fs1) := (bind_eq hcreate).trans rfl
      refine wp_call hmake (wp_mono (cleanup_spec h1 (.inl rfl) hne) ?_)
      rintro _ fs' ⟨rfl, h', hq', hmap'⟩
      have hq := hclean hq1 hq'
      refine ⟨h', hq.mono Set.subset_union_left, .noRoom hroom ?_ (hq.dirBytes h)⟩
      rw [hmap', hmap1, Bitmap.reset_mark hscan]
    have hdir2 : fs2.disk.inodeAt r.sector = fs.disk.inodeAt r.sector :=
      hq2.disk.inodeAt (h.not_mem_scratch Layout.dir_mem)
    have hd2 : fs2.IsDir r dir := hq2.isDir h h2 hp hd
    rcases dirAdd_spec h2 hd2 name s with
      ⟨k, e, hname, hlen, hnew, hk, hkfree, hes, heu, hen, hcstr, hadd⟩ | ⟨hreason, hadd⟩
    · -- linked
      have hmake : makeFile dir name s size fs1 = some (true, fs2.withEntry r k e) :=
        (bind_eq hcreate).trans hadd
      have h3 := h2.link hfresh hk hes hen
      have hlt : e.inodeSector < 2 ^ 32 := by
        have := (h1.layout.allotted.spare_used (.inl rfl) : s ∈ fs1.freeMap.used).1
        have := h1.layout.bitCnt
        have := h1.layout.small
        omega
      have hq3 := Quiet.withEntry fs2 r k e
      rw [hdir2] at hq3
      refine wp_call hmake (wp_pure ⟨h3.mono (Set.empty_subset _), ?_, ?_⟩)
      · exact (hq2.mono Set.subset_union_left).trans (hq3.mono Set.subset_union_right)
      · -- the directory is apart from the new inode
        have hdir :
          Disjoint (fs2.disk.inodeAt r.sector).extent (insert s (InodeDisk.extent ⟨start, size⟩)) :=
          (h2.layout.extent_disjoint_spare Layout.dir_mem).mono_right hfresh.spare
        have ha := agreeOff_written fs2.disk (fs2.disk.inodeAt r.sector) (entrySize * k) e.encode
        refine .added htakes ⟨hname, hlen, fun j hj => ?_⟩ hk ?_ ⟨hes, heu⟩ hcstr hmap2 (fun j hj =>
          ?_) ?_ ?_
        · exact hnew j ((FileSys.named_congr (hq2.slot h)).mpr hj)
        · rw [← hq2.slot h k hk, hkfree]
        · rw [slot_withEntry h2 hk hlt hen, hq2.slot h j hj]
        · exact (ha.inodeAt fun hx => Set.disjoint_left.mp hdir hx (.inl rfl)).trans hfresh.inode
        · exact (ha.contents (hdir.symm.mono_left (Set.subset_insert _ _))).trans hfresh.zeros
    · -- not linked
      have hmake : makeFile dir name s size fs1 = some (false, fs2) := (bind_eq hcreate).trans hadd
      refine wp_call hmake (wp_mono (cleanup_spec h2 (.inl (.inl rfl)) hne) ?_)
      rintro _ fs' ⟨rfl, h', hq', hmap'⟩
      have hq := hclean hq2 hq'
      refine ⟨h', hq.mono Set.subset_union_left, .rejected htakes ?_ ?_ (hq.dirBytes h)⟩
      · exact (FileSys.rejects_congr (hq2.slot h)).mp hreason
      · rw [hmap', hmap2, Bitmap.reset_mark_mark hscan htakes.2]

/-! ## The root directory -/

theorem dirOpenRoot_spec (h : Inv fs .root H D Y) :
    wp dirOpenRoot (fun dir fs' => Inv fs' .root (dir.inode :: H) D Y ∧ Quiet ∅ fs fs' ∧ fs'.disk =
      fs.disk ∧ fs'.freeMap = fs.freeMap ∧ fs'.IsDir .root dir) fs :=
  wp_bind (inodeOpen_spec h Layout.dir_mem) fun _ _ ⟨h', hq, hd, hm, hi⟩ =>
    wp_pure ⟨h', hq, hd, hm, hi⟩

theorem dirClose_spec (h : Inv fs r (dir.inode :: H) D Y) (hd : fs.IsDir r dir) :
    wp (dirClose dir) (fun _ fs' => Inv fs' r H D Y ∧ Quiet ∅ fs fs' ∧ fs'.disk = fs.disk ∧
      fs'.freeMap = fs.freeMap) fs := by
  obtain ⟨i, hmem, hi, hs, -, -, -, hdeny, hrem⟩ := dir_inode h hd
  have hD : D.count dir.inode = 0 := by
    rw [← (mem_of_lookup hi).2, ← h.table.denyCnt i hmem, hdeny]
  refine wp_mono (inodeClose_spec h hi (hs ▸ h.layout.dirSector) (hD ▸ Nat.zero_le _)) ?_
  rintro _ fs' ⟨h', hq, hkeep⟩
  exact ⟨h', hq.of_disk_eq (hkeep hrem).1, hkeep hrem⟩

theorem Created.congr {fs1 fs2 : FileSys} {ok : Bool} (h : Created fs1 r name size ok fs2)
    (hd : fs1.disk = fs.disk) (hm : fs1.freeMap = fs.freeMap) (hd' : fs'.disk = fs2.disk)
    (hm' : fs'.freeMap = fs2.freeMap) : Created fs r name size ok fs' := by
  have hslot : fs1.slot r = fs.slot r := FileSys.slot_of_disk hd
  have hslot' : fs'.slot r = fs2.slot r := FileSys.slot_of_disk hd'
  have hbytes : fs1.dirBytes r = fs.dirBytes r := by rw [FileSys.dirBytes, hd, FileSys.dirBytes]
  have hbytes' : fs'.dirBytes r = fs2.dirBytes r := by rw [FileSys.dirBytes, hd', FileSys.dirBytes]
  have hnamed (j) : fs1.Named r name j ↔ fs.Named r name j := FileSys.named_congr fun _ _ =>
    by rw [hslot]
  cases h with
  | noRoom hroom hmap hdir =>
    exact .noRoom (hm ▸ hroom) (by rw [hm', hmap, hm]) (by rwa [hbytes', ← hbytes])
  | rejected htakes hreason hmap hdir =>
    refine .rejected (hm ▸ htakes) ?_ (by rw [hm', hmap, hm]) (by rwa [hbytes', ← hbytes])
    exact (FileSys.rejects_congr fun _ _ => by rw [hslot]).mp hreason
  | added htakes hname hk hfree he hcstr hmap hslots hinode hzeros =>
    refine .added (hm ▸ htakes) ⟨hname.1, hname.2.1, fun j hj => hname.2.2 j ((hnamed j).mpr hj)⟩ hk
      (hslot ▸ hfree) he hcstr (by rw [hm', hmap, hm]) (by rwa [hslot', ← hslot]) (by rwa [hd'])
        (by rwa [hd'])

/-- **`filesys_create`.** -/
theorem filesysCreate_spec (h : Inv fs .root H D ∅) (hsize : size < 2 ^ 31) (name : List Byte) :
    wp (filesysCreate name size) (fun ok fs' => Inv fs' .root H D ∅ ∧
      Quiet (fs.scratch ∪ (fs.disk.inodeAt rootDirSector).extent) fs fs' ∧
      Created fs .root name size ok fs') fs := by
  refine wp_bind (dirOpenRoot_spec h) fun dir fs1 ⟨h1, hq1, hd1, hm1, hdir1⟩ => ?_
  refine wp_bind (createIn_spec h1 hdir1 mem_cons_self hsize name) fun ok fs2 ⟨h2, hq2, hc2⟩ =>
    ?_
  refine wp_bind (dirClose_spec h2 (hq2.isDir h1 h2 mem_cons_self hdir1))
    fun _ fs3 ⟨h3, hq3, hd3, hm3⟩ => wp_pure ⟨h3, ?_, hc2.congr hd1 hm1 hd3 hm3⟩
  rw [FileSys.scratch, hd1, hm1] at hq2
  exact (hq1.mono (Set.empty_subset _)).trans (hq2.trans (hq3.mono (Set.empty_subset _)))

/-- **`filesys_open`** opens the inode linked under the name. -/
theorem filesysOpen_spec (h : Inv fs .root H D Y) (name : List Byte) :
    wp (filesysOpen name) (fun f fs' => Quiet ∅ fs fs' ∧ fs'.disk = fs.disk ∧ fs'.freeMap =
      fs.freeMap ∧
      ((f = none ∧ (∀ k, ¬fs.Named .root name k) ∧ Inv fs' .root H D Y) ∨
        ∃ k i, f = some ⟨i.ptr, 0, false⟩ ∧ fs.Named .root name k ∧ i ∈ fs'.openInodes ∧ i.sector =
          (fs.slot .root k).inodeSector ∧ Inv fs' .root (i.ptr :: H) D Y)) fs := by
  refine wp_bind (dirOpenRoot_spec h) fun dir fs1 ⟨h1, hq1, hd1, hm1, hdir1⟩ => ?_
  have hslot1 : fs1.slot .root = fs.slot .root := FileSys.slot_of_disk hd1
  have hnamed (k) : fs1.Named .root name k ↔ fs.Named .root name k :=
    FileSys.named_congr fun _ _ => by rw [hslot1]
  rcases dirFind_spec h1 hdir1 name with ⟨k, hk, heq⟩ | ⟨hnone, heq⟩
  · -- linked: opened, and then the directory is closed
    have hlive : (fs1.slot .root k).inodeSector ∈ fs1.live .root := Layout.link_mem hk.links
    have hlookup : wp (dirLookup dir name) (fun p fs2 => ∃ i ∈ fs2.openInodes, p = some i.ptr ∧
        i.sector = (fs1.slot .root k).inodeSector ∧ Inv fs2 .root (i.ptr :: dir.inode :: H) D Y ∧
        Quiet ∅ fs1 fs2 ∧ fs2.disk = fs1.disk ∧ fs2.freeMap = fs1.freeMap) fs1 := by
      refine wp_call heq (wp_bind (inodeOpen_spec h1 hlive) ?_)
      rintro _ fs2 ⟨h2, hq2, hd2, hm2, i, hi, rfl, his⟩
      exact wp_pure ⟨i, hi, rfl, his, h2, hq2, hd2, hm2⟩
    refine wp_bind hlookup ?_
    rintro _ fs2 ⟨i, hi, rfl, his, h2, hq2, hd2, hm2⟩
    have hdir2 : fs2.IsDir .root dir :=
      hq2.isDir h1 h2 (mem_cons_of_mem _ mem_cons_self) hdir1
    refine wp_bind (dirClose_spec (h2.perm (.swap _ _ _) (.refl _)) hdir2)
      fun _ fs3 ⟨h3, hq3, hd3, hm3⟩ =>
      wp_pure ⟨hq1.trans (hq2.trans hq3), by rw [hd3, hd2, hd1], by rw [hm3, hm2, hm1], .inr ?_⟩
    -- the inode is still open
    obtain ⟨i', hi', hp', hs'⟩ := hq3.still h2 h3 mem_cons_self hi
    refine ⟨k, i', by rw [hp']; rfl, (hnamed k).mp hk, hi', ?_, hp' ▸ h3⟩
    rw [hs', his, hslot1]
  · have hlookup : dirLookup dir name fs1 = some (none, fs1) := (bind_eq heq).trans rfl
    refine wp_call hlookup (wp_bind (dirClose_spec h1 hdir1) fun _ fs3 ⟨h3, hq3, hd3, hm3⟩ =>
      wp_pure
      ⟨hq1.trans hq3, by rw [hd3, hd1], by rw [hm3, hm1], .inl ⟨rfl, fun k hk => ?_, h3⟩⟩)
    exact hnone k ((hnamed k).mpr hk)

/-- **`filesys_remove`** unlinks the name. -/
theorem filesysRemove_spec (h : Inv fs .root H D Y) (name : List Byte) :
    wp (filesysRemove name) (fun ok fs' => Inv fs' .root H D Y ∧ Quiet (fs.disk.meta .root) fs fs' ∧
      (ok = true → ∃ k, fs.Named .root name k ∧ ∀ j, j < DirAt.root.slots →
        fs'.slot .root j = if j = k then (fs.slot .root k).erased else fs.slot .root j) ∧
      (ok = false → (∀ k, ¬fs.Named .root name k) ∧ fs'.disk = fs.disk ∧ fs'.freeMap = fs.freeMap))
        fs := by
  refine wp_bind (dirOpenRoot_spec h) fun dir fs1 ⟨h1, hq1, hd1, hm1, hdir1⟩ => ?_
  have hslot1 : fs1.slot .root = fs.slot .root := FileSys.slot_of_disk hd1
  have hnamed (k) : fs1.Named .root name k ↔ fs.Named .root name k :=
    FileSys.named_congr fun _ _ => by rw [hslot1]
  refine wp_bind (dirRemove_spec h1 hdir1 mem_cons_self name)
    fun ok fs2 ⟨h2, hq2, hyes, hno⟩ => ?_
  rw [hd1] at hq2
  refine wp_bind (dirClose_spec h2 (hq2.isDir h1 h2 mem_cons_self hdir1))
    fun _ fs3 ⟨h3, hq3, hd3, hm3⟩ => wp_pure ⟨h3, ?_, fun hok => ?_, fun hok => ?_⟩
  · exact (hq1.mono (Set.empty_subset _)).trans (hq2.trans (hq3.mono (Set.empty_subset _)))
  · obtain ⟨k, hk, hslots⟩ := hyes hok
    refine ⟨k, (hnamed k).mp hk, fun j hj => ?_⟩
    rw [FileSys.slot_of_disk hd3, hslots j hj, hslot1]
  · obtain ⟨hnone, rfl⟩ := hno hok
    exact ⟨fun k hk => hnone k ((hnamed k).mpr hk), hd3.trans hd1, hm3.trans hm1⟩

/-! ## Open files -/

/-- The inode at an address is that of a file, neither of the free map nor of the directory. -/
def FileSys.IsFile (fs : FileSys) (r : DirAt) (p : Nat) : Prop :=
  ∃ i ∈ fs.openInodes, i.ptr = p ∧ i.sector ≠ freeMapSector ∧ i.sector ≠ r.sector

variable {f : File} {X : Set Nat}

theorem Quiet.isFile {H' D' : List Nat} {Y' : Set Nat} {p : Nat} (hq : Quiet X fs fs')
    (h : Inv fs r H D Y)
    (h' : Inv fs' r H' D' Y') (hp : p ∈ H') (hf : fs.IsFile r p) : fs'.IsFile r p := by
  obtain ⟨i, hi, rfl, hmap, hdir⟩ := hf
  obtain ⟨i', hi', hip', his'⟩ := hq.still h h' hp hi
  exact ⟨i', hi', hip', his' ▸ hmap, his' ▸ hdir⟩

theorem fileReopen_spec (h : Inv fs r H D Y) (hp : f.inode ∈ H) :
    wp (fileReopen f) (fun f' fs' => f' = some ⟨f.inode, 0, false⟩ ∧ Inv fs' r (f.inode :: H) D Y ∧
      Quiet ∅ fs fs' ∧ fs'.disk = fs.disk) fs := by
  obtain ⟨i, -, -, hl⟩ := h.table.lookup_of_held hp
  refine wp_call (modifyInode_eq hl) (wp_pure ⟨rfl, ?_, .of_setInode (fun _ => rfl) fun _ => rfl,
    rfl⟩)
  exact h.recount (h.table.reopen hp) (fun _ => rfl) (fun _ => rfl) (fun _ => rfl) (fun _ => rfl)
    fun _ _ _ _ => rfl

theorem fileDenyWrite_spec (h : Inv fs r H D Y) (hf : fs.IsFile r f.inode)
    (hdeny : f.denyWrite = false)
    (hlt : D.count f.inode < H.count f.inode) :
    wp (fileDenyWrite f) (fun f' fs' => f' = { f with denyWrite := true } ∧
      Inv fs' r H (f.inode :: D) Y ∧ Quiet ∅ fs fs' ∧ fs'.disk = fs.disk) fs := by
  obtain ⟨i, hi, hip, hmap, hdir⟩ := hf
  have hl := h.table.lookup_eq hi
  have hle : i.denyWriteCnt + 1 ≤ i.openCnt := by
    rw [h.table.denyCnt i hi, h.table.openCnt i hi, hip]
    exact hlt
  rw [hip] at hl
  rw [fileDenyWrite, if_neg (by rw [hdeny]; decide)]
  refine wp_call (inodeDenyWrite_eq hl hle)
    (wp_pure ⟨rfl, ?_, .of_setInode (fun _ => rfl) fun _ => rfl, rfl⟩)
  refine h.recount (h.table.deny hlt) (fun _ => rfl) (fun _ => rfl) (fun _ => rfl) (fun _ => rfl) ?_
  intro j hj hjp hs
  obtain rfl : j = i := inj_on_of_nodup_map h.table.ptrs hj hi (hjp.trans hip.symm)
  exact absurd hs (not_or.mpr ⟨hmap, hdir⟩)

theorem fileAllowWrite_spec (h : Inv fs r H (f.inode :: D) Y) (hf : fs.IsFile r f.inode)
    (hdeny : f.denyWrite = true) :
    wp (fileAllowWrite f) (fun f' fs' => f' = { f with denyWrite := false } ∧ Inv fs' r H D Y ∧
      Quiet ∅ fs fs' ∧ fs'.disk = fs.disk) fs := by
  obtain ⟨i, hi, hip, hmap, hdir⟩ := hf
  have hl := h.table.lookup_eq hi
  have hcnt := h.table.denyCnt i hi
  have hle := h.table.denying i.ptr
  rw [← hcnt, ← h.table.openCnt i hi] at hle
  rw [hip, count_cons_self] at hcnt
  rw [hip] at hl
  rw [fileAllowWrite, if_pos hdeny]
  refine wp_call (inodeAllowWrite_eq hl (by omega) hle)
    (wp_pure ⟨rfl, ?_, .of_setInode (fun _ => rfl) fun _ => rfl, rfl⟩)
  refine h.recount h.table.allow (fun _ => rfl) (fun _ => rfl) (fun _ => rfl) (fun _ => rfl) ?_
  intro j hj hjp hs
  obtain rfl : j = i := inj_on_of_nodup_map h.table.ptrs hj hi (hjp.trans hip.symm)
  exact absurd hs (not_or.mpr ⟨hmap, hdir⟩)

/-- The list of deniers with one more, if the file is one. -/
def File.denier (f : File) (D : List Nat) : List Nat := if f.denyWrite then f.inode :: D else D

/-- **`file_close`.** -/
theorem fileClose_spec (h : Inv fs r (f.inode :: H) (f.denier D) Y) (hf : fs.IsFile r f.inode)
    (hle : D.count f.inode ≤ H.count f.inode) :
    wp (fileClose f) (fun _ fs' => Inv fs' r H D Y ∧ Quiet (fs.disk.inodeAt freeMapSector).extent fs
      fs') fs := by
  have hallow :
    wp (fileAllowWrite f) (fun f' fs' => f'.inode = f.inode ∧ Inv fs' r (f.inode :: H) D Y ∧
      Quiet ∅ fs fs' ∧ fs'.disk = fs.disk) fs := by
    cases hdeny : f.denyWrite with
    | true =>
      rw [File.denier, if_pos hdeny] at h
      refine wp_mono (fileAllowWrite_spec h hf hdeny) ?_
      rintro _ fs' ⟨rfl, h', hq, hd⟩
      exact ⟨rfl, h', hq, hd⟩
    | false =>
      rw [File.denier, if_neg (by rw [hdeny]; decide)] at h
      rw [fileAllowWrite, if_neg (by rw [hdeny]; decide)]
      exact wp_pure ⟨rfl, h, .refl fs, rfl⟩
  refine wp_bind hallow fun f' fs1 ⟨hinode, h1, hq1, hd1⟩ => ?_
  obtain ⟨i, hi, hip, hmap, -⟩ := hq1.isFile h h1 mem_cons_self hf
  rw [hinode]
  refine wp_mono (inodeClose_spec h1 (hip ▸ h1.table.lookup_eq hi) hmap hle)
    fun _ fs2 ⟨h2, hq2, _⟩ =>
    ⟨h2, ?_⟩
  rw [hd1] at hq2
  exact (hq1.mono (Set.empty_subset _)).trans hq2

/-- `file_close` of a file that is still linked leaves the device. -/
theorem fileClose_linked {i : Inode} (h : Inv fs r (f.inode :: H) D Y) (hi : i ∈ fs.openInodes)
    (hp : i.ptr = f.inode) (hlink : fs.disk.Links r k i.sector) (hdeny : f.denyWrite = false)
    (hle : D.count f.inode ≤ H.count f.inode) :
    wp (fileClose f) (fun _ fs' => Inv fs' r H D Y ∧ Quiet ∅ fs fs' ∧ fs'.disk = fs.disk ∧
      fs'.freeMap = fs.freeMap) fs := by
  have hrem : i.removed = false := by
    cases hr : i.removed with
    | false => rfl
    | true => exact absurd hlink (h.removed i hi hr k)
  have hallow : fileAllowWrite f fs = some (f, fs) := by
    rw [fileAllowWrite, if_neg (by rw [hdeny]; decide)]
    rfl
  refine wp_call hallow (wp_mono (inodeClose_spec h (hp ▸ h.table.lookup_eq hi)
    (h.layout.files k _ hlink).1 hle) ?_)
  rintro _ fs' ⟨h', hq, hkeep⟩
  exact ⟨h', hq.of_disk_eq (hkeep hrem).1, hkeep hrem⟩

/-- Another device, that differs in the data of an open file. -/
theorem Inv.writeData {i : Inode} {d' : Disk} (h : Inv fs r H D Y) (hi : i ∈ fs.openInodes)
    (hmap : i.sector ≠ freeMapSector) (hdir : i.sector ≠ r.sector)
    (ha : AgreeOff i.data.extent fs.disk d') : Inv { fs with disk := d' } r H D Y := by
  have hlive := fs.mem_live (r := r) hi
  rw [h.data i hi] at ha
  refine h.disk (h.layout.write hlive hmap hdir ha)
    (fun j hj => ha.inodeAt (h.layout.not_mem_extent (fs.mem_live hj) hlive)) ?_
  intro j hj hrem k
  rw [h.layout.links_iff ha (h.layout.not_mem_extent Layout.dir_mem hlive)
    (h.layout.extent_disjoint Layout.dir_mem hlive (Ne.symm hdir))]
  exact h.removed j hj hrem k

/-- **`file_write`** writes to the data of the file only. -/
theorem inodeWriteAt_spec {p : Nat} {buffer : List Byte} {offset : Nat} (h : Inv fs r H D Y)
    (hf : fs.IsFile r p) : wp (inodeWriteAt p buffer offset) (fun _ fs' => Inv fs' r H D Y ∧
      ∃ i ∈ fs.openInodes, i.ptr = p ∧ Quiet i.data.extent fs fs') fs := by
  obtain ⟨i, hi, rfl, hmap, hdir⟩ := hf
  have hl := h.table.lookup_eq hi
  by_cases hdeny : i.denyWriteCnt = 0
  · have ha := agreeOff_written fs.disk i.data offset buffer
    exact wp_of_eq (inodeWriteAt_eq hl (h.fits hi) hdeny)
      ⟨h.writeData hi hmap hdir ha, i, hi, rfl, .of_disk ha⟩
  · exact wp_of_eq (inodeWriteAt_denied hl hdeny) ⟨h, i, hi, rfl, .refl fs⟩

end SystemProg.Pintos
