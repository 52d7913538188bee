import SystemProg.Pintos.Runs

/-!
# What holds in every reachable state

* `no_sector_owned_twice`: the live inodes share no sector, no valid call panics, and an open file
  keeps its contents until it is written.
* `free_map_survives_reboot`: the file of the free map holds it between any two calls.
* `failed_create_leaves_no_trace_iff`: a create that fails leaves no trace only if it took no sector
  for data. Where the name is refused after the data was allocated, the data stays allocated.
-/

namespace SystemProg.Pintos

open Data Text SystemProg.Seq Option

variable {S : State} {fs fs' : FileSys} {p size : Nat} {x : Handle} {l : List Handle}
  {H D : List Nat}
  {name : List Byte}

/-! ## No sector is owned twice -/

/-- The live inodes and their data are on the device, marked in the free map, and share no sector.
-/
structure Partitioned (fs : FileSys) : Prop where
  apart : ∀ s ∈ fs.live .root, s ∉ (fs.disk.inodeAt s).extent
  disjoint : (fs.live .root).PairwiseDisjoint fs.disk.own
  used : ∀ s ∈ fs.live .root, fs.disk.own s ⊆ fs.freeMap.used
  within : ∀ s ∈ fs.live .root, ∀ x ∈ fs.disk.own s, x < fs.disk.size

theorem Inv.partitioned {Y : Set Nat} (h : Inv fs .root H D Y) : Partitioned fs where
  apart := h.layout.apart
  disjoint := h.layout.allotted.disjoint
  used := h.layout.allotted.inside
  within s hs _ hx := h.layout.bitCnt ▸ (h.layout.allotted.inside s hs hx).1

/-- A file can be read, and written where no opener denies it. -/
structure Accessible (S : State) (f : File) : Prop where
  read : ∀ size, ∃ bs, S.fs.contentsOf f.inode = some bs ∧ fileRead f size S.fs =
    some (((bs.drop f.pos).take size, { f with pos := f.pos + ((bs.drop f.pos).take size).length }),
      S.fs)
  write : (∀ x ∈ S.files, x.file.inode = f.inode → x.file.denyWrite = false) →
    ∀ buffer, ∃ bs fs', S.fs.contentsOf f.inode = some bs ∧ fileWrite f buffer S.fs =
      some ((min buffer.length (bs.length - f.pos),
        { f with pos := f.pos + min buffer.length (bs.length - f.pos) }), fs') ∧
      fs'.contentsOf f.inode = some (splice bs f.pos (buffer.take (bs.length - f.pos)))

theorem count_deniers_eq_zero (hl : ∀ x ∈ l, x.file.inode = p → x.file.denyWrite = false) :
    (deniers l).count p = 0 := by
  induction l with
  | nil => rfl
  | cons x l ih =>
    obtain ⟨hx, hl⟩ := List.forall_mem_cons.mp hl
    rw [deniers, File.denier]
    split
    · rename_i hdeny
      rw [List.count_cons_of_ne (fun he => by simp [hx he] at hdeny), ih hl]
    · exact ih hl

theorem Sane.accessible (hS : Sane S) (hx : x ∈ S.files) : Accessible S x.file := by
  obtain ⟨q, hinv⟩ := hS.inv
  obtain ⟨i, hi, hip, -⟩ := hS.file x hx
  have hl : lookup Inode.ptr S.fs.openInodes x.file.inode = some i := hip ▸ hinv.table.lookup_eq hi
  have hbs : S.fs.contentsOf x.file.inode = some (S.fs.disk.contents i.data) := by
    rw [FileSys.contentsOf, hl, map_some]
  refine ⟨fun size => ⟨_, hbs, bind_eq (inodeReadAt_eq hl (hinv.fits hi))⟩, fun hdeny buffer => ?_⟩
  have hcnt : i.denyWriteCnt = 0 := by
    rw [hinv.table.denyCnt i hi, hip]
    exact count_deniers_eq_zero hdeny
  have hlen : (S.fs.disk.contents i.data).length = i.data.length := length_slice _ _ _
  refine ⟨_, { S.fs with disk := S.fs.disk.written i.data x.file.pos buffer }, hbs, ?_, ?_⟩
  · rw [hlen]
    exact bind_eq (inodeWriteAt_eq hl (hinv.fits hi) hcnt)
  · rw [FileSys.contentsOf, hl, map_some, contents_written, hlen]

/-- **No sector is ever owned twice.** In every state that a formatted file system can come to, the
inodes of the free map and of the root directory, those linked in it and those that are open share
no sector, and all their sectors are on the device and marked; no valid call panics; and an open
file, removed or not, can be read and written, with contents that no call changes but a write to it.
-/
theorem no_sector_owned_twice (hS : Reachable S) : Partitioned S.fs ∧
    (∀ c : Call, c.Valid S → ∃ S', c.step S = some S') ∧
    ∀ x ∈ S.files, Accessible S x.file ∧
      ∀ S', RunSparing x.file.inode S S' → ∀ y ∈ S'.files, y.file.inode = x.file.inode →
        Accessible S' y.file ∧ S'.fs.contentsOf y.file.inode = S.fs.contentsOf x.file.inode := by
  have hsane := hS.sane
  obtain ⟨q, hinv⟩ := hsane.inv
  refine ⟨hinv.partitioned, fun c hc => ?_, fun x hx => ⟨hsane.accessible hx, fun S' hr y hy he =>
    ?_⟩⟩
  · obtain ⟨S', hs, -⟩ := exists_step hsane hc
    exact ⟨S', hs⟩
  · obtain ⟨hsane', hsp⟩ := hr.kept hsane
    refine ⟨hsane'.accessible hy, ?_⟩
    obtain ⟨i, hi, hip, -⟩ := hsane.file x hx
    rw [he]
    exact (hsp.same (hip ▸ hinv.table.fresh i hi) (he ▸ hsane'.file y hy)).2

/-- A file is made, opened and removed; it can still be read and written while another is made. -/
theorem no_sector_owned_twice_removed : ∃ S x, Reachable S ∧ S.files = [x] ∧
    (∃ i ∈ S.fs.openInodes, i.removed = true) ∧ Partitioned S.fs ∧ Accessible S x.file := by
  obtain ⟨S, hS, hp⟩ := reachable_of_bootAll smallDisk (fun _ => false)
    [.create [97] 5, .open [97], .remove [97], .create [98] 3, .write 0 [1, 2]]
    (fun S => S.files.length == 1 && S.fs.openInodes.any (·.removed)) (by decide)
      (by decide +kernel)
  rw [Bool.and_eq_true, beq_iff_eq, List.any_eq_true] at hp
  obtain ⟨x, hx⟩ := List.length_eq_one_iff.mp hp.1
  have h := no_sector_owned_twice hS
  exact ⟨S, x, hS, hx, hp.2, h.1, (h.2.2 x (hx ▸ List.mem_singleton_self x)).1⟩

/-! ## The free map and its file -/

/-- **The free map survives a reboot.** Between any two calls its file holds it, bit by bit, and at
the next boot the same sectors are marked. -/
theorem free_map_survives_reboot (hS : Reachable S) :
    S.fs.freeMap.HeldIn (S.fs.disk.contents (S.fs.disk.inodeAt freeMapSector)) ∧
    ∀ junk, ∃ fs', filesysInit false S.fs.disk junk = some fs' ∧ fs'.freeMap.used =
      S.fs.freeMap.used := by
  obtain ⟨q, hinv⟩ := hS.sane.inv
  refine ⟨hinv.layout.saved, fun junk => ?_⟩
  obtain ⟨fs', -, heq, -, hused⟩ := filesysInit_mount hinv junk
  exact ⟨fs', heq, hused⟩

/-- After files have come and gone. -/
theorem free_map_survives_reboot_used :
    ∃ S fs', Reachable S ∧ 5 ∈ S.fs.freeMap.used ∧ 6 ∉ S.fs.freeMap.used ∧
    filesysInit false S.fs.disk (fun _ => true) = some fs' ∧
    fs'.freeMap.used = S.fs.freeMap.used := by
  obtain ⟨S, hS, hp⟩ := reachable_of_bootAll smallDisk (fun _ => true)
    [.create [97] 5, .create [98] 5, .remove [98]]
    (fun S => S.fs.freeMap.test 5 && !S.fs.freeMap.test 6 && S.fs.freeMap.bitCnt == 8) (by decide)
    (by decide +kernel)
  rw [Bool.and_eq_true, Bool.and_eq_true, Bool.not_eq_true', beq_iff_eq] at hp
  obtain ⟨⟨h5, h6⟩, hcnt⟩ := hp
  obtain ⟨fs', hboot, hused⟩ := (free_map_survives_reboot hS).2 fun _ => true
  refine ⟨S, fs', hS, ⟨by omega, h5⟩, fun hc => ?_, hboot, hused⟩
  exact absurd (h6.symm.trans hc.2) (by decide)

/-! ## A create that fails -/

/-- What the free map would be if it were read from its file. -/
def FileSys.savedMap (fs : FileSys) : Bitmap :=
  fs.freeMap.ofBytes (fs.disk.contents (fs.disk.inodeAt freeMapSector))

/-- The free map, in memory and in its file, and the root directory are the same. -/
structure NoTrace (fs fs' : FileSys) : Prop where
  map : fs'.freeMap = fs.freeMap
  saved : fs'.savedMap.used = fs.savedMap.used
  dir : fs'.dirBytes .root = fs.dirBytes .root

/-- In memory and in the file are the same sectors marked. -/
theorem Inv.used_savedMap {Y : Set Nat} (h : Inv fs .root H D Y) :
    fs.savedMap.used = fs.freeMap.used :=
  Bitmap.used_ofBytes h.layout.saved rfl

/-- **A create that fails leaves no trace** only if it was for a file without data, or there was no
room for the file. Otherwise the name was refused after the sectors of the data were taken, and they
stay marked: what is given back is the sector of the inode. -/
theorem failed_create_leaves_no_trace_iff (hS : Reachable S) (hsize : size < 2 ^ 31)
    (hfail : filesysCreate name size S.fs = some (false, fs')) :
    NoTrace S.fs fs' ↔ size = 0 ∨ ∀ s start, ¬Takes S.fs.freeMap size s start := by
  obtain ⟨q, hinv⟩ := hS.sane.inv
  obtain ⟨ok, fs1, hrun, hinv', -, hc⟩ := filesysCreate_spec hinv hsize name
  obtain ⟨rfl, rfl⟩ := Prod.mk.inj (some.inj (hrun.symm.trans hfail))
  have hsaved (hmap : fs1.freeMap = S.fs.freeMap) : fs1.savedMap.used = S.fs.savedMap.used := by
    rw [hinv'.used_savedMap, hinv.used_savedMap, hmap]
  cases hc with
  | noRoom hroom hmap hdir => exact ⟨fun _ => .inr hroom, fun _ => ⟨hmap, hsaved hmap, hdir⟩⟩
  | @rejected _ s start htakes hreason hmap hdir =>
    constructor
    · intro h
      by_contra hc
      -- the first sector of the data was free, and is marked
      have hpos : 0 < bytesToSectors size := by
        unfold bytesToSectors sectorSize
        omega
      have hstart : start ∈ Set.Ico start (start + bytesToSectors size) := ⟨le_rfl, by omega⟩
      refine htakes.not_mem_used hstart ?_
      rw [← h.map, hmap, Bitmap.used_mark htakes.inRange]
      exact .inr hstart
    · rintro (rfl | hroom)
      · exact ⟨hmap, hsaved hmap, hdir⟩
      · exact absurd htakes (hroom s start)

/-- A file of the same name is there: of the two sectors that were taken, the one of the data is
lost. -/
theorem failed_create_leaks : ∃ S fs', Reachable S ∧ filesysCreate [97] 5 S.fs = some (false, fs') ∧
    ¬NoTrace S.fs fs' := by
  obtain ⟨S, hS, hp⟩ := reachable_of_bootAll smallDisk (fun _ => false) [.create [97] 5]
    (fun S => !S.fs.freeMap.test 7 && (filesysCreate [97] 5 S.fs).any fun r =>
      !r.1 && r.2.freeMap.test 7)
    (by decide) (by decide +kernel)
  rw [Bool.and_eq_true, Bool.not_eq_true', any_eq_true] at hp
  obtain ⟨hfree, ⟨ok, fs'⟩, hrun, hr⟩ := hp
  rw [Bool.and_eq_true, Bool.not_eq_true'] at hr
  obtain ⟨rfl, hmarked⟩ := hr
  refine ⟨S, fs', hS, hrun, fun h => ?_⟩
  have hmarked : fs'.freeMap.test 7 = true := hmarked
  rw [h.map, hfree] at hmarked
  cases hmarked

/-- The condition holds where the device is full. -/
theorem failed_create_leaves_no_trace_full :
    ∃ S fs', Reachable S ∧ filesysCreate [98] 5 S.fs = some (false, fs') ∧ NoTrace S.fs fs' := by
  obtain ⟨S, hS, hp⟩ := reachable_of_bootAll smallDisk (fun _ => false) [.create [97] 1025]
    (fun S => (filesysCreate [98] 5 S.fs).any (fun r => !r.1) && S.fs.freeMap.scan 1 false == none)
    (by decide) (by decide +kernel)
  rw [Bool.and_eq_true, any_eq_true, beq_iff_eq] at hp
  obtain ⟨⟨⟨ok, fs'⟩, hrun, hok⟩, hfull⟩ := hp
  obtain rfl : ok = false := by simpa using hok
  refine ⟨S, fs', hS, hrun, (failed_create_leaves_no_trace_iff hS (by decide) hrun).mpr (.inr ?_)⟩
  intro s start ht
  exact absurd (hfull.symm.trans ht.1) (by simp)

end SystemProg.Pintos
