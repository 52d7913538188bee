import SystemProg.Pintos.Files
import SystemProg.Pintos.Format

/-!
# Runs of the file system

The file system as its callers see it: a formatted device, the files they hold, and the calls of
`filesys.c` and `file.c` in any order (`Call.step`, `Reachable`). A call is valid if the file it
names is open and the size it asks for is an `off_t`.

* `Sane` is the invariant of a reachable state: that of the file system, with the files in hand as
  the openers. Every valid call returns and keeps it (`step_spec`).
* `Spares` is what a call does to a file that it does not write: nothing (`Quiet.spares`).
-/

namespace SystemProg.Pintos

open Data Text SystemProg.Seq List Option

/-! ## States and calls -/

/-- A file in the hands of a caller. -/
structure Handle where
  id : Nat
  file : File

/-- The file system and its callers. -/
structure State where
  fs : FileSys
  files : List Handle
  nextId : Nat

/-- A call; files are named by their handles. -/
inductive Call where
  | create (name : List Byte) (initialSize : Nat)
  | open (name : List Byte)
  | remove (name : List Byte)
  | reopen (h : Nat)
  | close (h : Nat)
  | read (h size : Nat)
  | write (h : Nat) (buffer : List Byte)
  | seek (h newPos : Nat)
  | denyWrite (h : Nat)
  | allowWrite (h : Nat)

/-- A function of the file system. -/
def inFs {α : Type} (m : K α) : Panic State α := fun S =>
  (m S.fs).map fun r => (r.1, { S with fs := r.2 })

/-- The file of a handle; it is wild if there is none. -/
def theFile (h : Nat) : Panic State File := fun S =>
  (lookup Handle.id S.files h).map fun f => (f.file, S)

/-- The caller keeps a file that was opened. -/
def State.add (S : State) : Option File → State
  | none => S
  | some f => { S with files := ⟨S.nextId, f⟩ :: S.files, nextId := S.nextId + 1 }

/-- A caller's file changes. -/
def State.setFile (S : State) (h : Nat) (f : File) : State :=
  { S with files := update Handle.id S.files h fun x => ⟨x.id, f⟩ }

/-- A caller gives a file up. -/
def State.dropFile (S : State) (h : Nat) : State := { S with files := remove Handle.id S.files h }

/-- The call. -/
def Call.run : Call → Panic State Unit
  | create name initialSize => do
    let _ ← inFs (filesysCreate name initialSize)
  | .open name => do
    let f ← inFs (filesysOpen name)
    modify (·.add f)
  | .remove name => do
    let _ ← inFs (filesysRemove name)
  | reopen h => do
    let f ← theFile h
    let f' ← inFs (fileReopen f)
    modify (·.add f')
  | close h => do
    let f ← theFile h
    inFs (fileClose f)
    modify (·.dropFile h)
  | read h size => do
    let f ← theFile h
    let (_, f') ← inFs (fileRead f size)
    modify (·.setFile h f')
  | write h buffer => do
    let f ← theFile h
    let (_, f') ← inFs (fileWrite f buffer)
    modify (·.setFile h f')
  | seek h newPos => do
    let f ← theFile h
    modify (·.setFile h (fileSeek f newPos))
  | denyWrite h => do
    let f ← theFile h
    let f' ← inFs (fileDenyWrite f)
    modify (·.setFile h f')
  | allowWrite h => do
    let f ← theFile h
    let f' ← inFs (fileAllowWrite f)
    modify (·.setFile h f')

/-- The state after a call; `none` if the kernel panics. -/
def Call.step (c : Call) (S : State) : Option State := (c.run S).map Prod.snd

/-- The handle a call names. -/
def Call.handle : Call → Option Nat
  | create _ _ | .open _ | .remove _ => none
  | reopen h | close h | read h _ | write h _ | seek h _ | denyWrite h | allowWrite h => some h

/-- The size a call asks for. -/
def Call.size : Call → Nat
  | create _ initialSize => initialSize
  | _ => 0

/-- The call names an open file, and a size that is an `off_t`. -/
def Call.Valid (S : State) (c : Call) : Prop :=
  (∀ h ∈ c.handle, h ∈ S.files.map Handle.id) ∧ c.size < 2 ^ 31

instance (S : State) (c : Call) : Decidable (c.Valid S) :=
    inferInstanceAs (Decidable ((∀ h ∈ c.handle, h ∈ S.files.map Handle.id) ∧ c.size < 2 ^ 31))

/-- What a device can come to after it is formatted, also over reboots. A device of 2^21 sectors or
more is not registered. -/
inductive Reachable : State → Prop
  | init {disk : Disk} {junk : Nat → Bool} {fs : FileSys} (hsmall : disk.size < 2 ^ 21)
      (h : filesysInit true disk junk = some fs) : Reachable ⟨fs, [], 0⟩
  | reboot {S : State} {junk : Nat → Bool} {fs : FileSys} (h : Reachable S)
      (hboot : filesysInit false S.fs.disk junk = some fs) : Reachable ⟨fs, [], 0⟩
  | step {S S' : State} {c : Call} (h : Reachable S) (hc : c.Valid S) (hs : c.step S = some S') :
      Reachable S'

/-! ## The invariant of a run -/

/-- The addresses of the inodes of the files. -/
def openers (l : List Handle) : List Nat := l.map fun h => h.file.inode

/-- Those of the files that deny writes. -/
def deniers : List Handle → List Nat
  | [] => []
  | h :: l => h.file.denier (deniers l)

/-- No two files have the same handle. -/
structure Handles (S : State) : Prop where
  ids : (S.files.map Handle.id).Nodup
  fresh : ∀ h ∈ S.files, h.id < S.nextId

/-- The invariant of a run. -/
structure Sane (S : State) : Prop extends Handles S where
  inv : ∃ q, Inv S.fs .root (q :: openers S.files) (deniers S.files) ∅
  file : ∀ h ∈ S.files, S.fs.IsFile .root h.file.inode

/-- The contents of the inode at an address. -/
def FileSys.contentsOf (fs : FileSys) (p : Nat) : Option (List Byte) :=
  (lookup Inode.ptr fs.openInodes p).map fun i => fs.disk.contents i.data

/-- The inode at the address `p` was there before, with the same contents, unless it is new. -/
structure Spares (p : Nat) (fs fs' : FileSys) : Prop where
  next : fs.nextPtr ≤ fs'.nextPtr
  same : p < fs.nextPtr → fs'.IsFile .root p →
    fs.IsFile .root p ∧ fs'.contentsOf p = fs.contentsOf p

variable {S S' : State} {c : Call} {fs fs' fs'' : FileSys} {h k n p size : Nat} {f f' : File}
  {x : Handle}
  {l m : List Handle} {H D H' D' : List Nat} {X : Set Nat} {name : List Byte} {disk : Disk}

theorem Spares.refl (fs : FileSys) (p : Nat) : Spares p fs fs := ⟨le_rfl, fun _ h => ⟨h,
    rfl⟩⟩

theorem Spares.trans (h : Spares p fs fs') (h' : Spares p fs' fs'') : Spares p fs fs'' where
  next := Nat.le_trans h.next h'.next
  same hp hf := by
    obtain ⟨hf', he'⟩ := h'.same (Nat.lt_of_lt_of_le hp h.next) hf
    obtain ⟨hf, he⟩ := h.same hp hf'
    exact ⟨hf, he'.trans he⟩

/-- A file that is not in the sectors `X` is spared. -/
theorem Quiet.spares (hq : Quiet X fs fs') (h : Inv fs .root H D ∅) (h' : Inv fs' .root H' D' ∅)
    (hX : ∀ i ∈ fs.openInodes, i.ptr = p → i.sector ≠ freeMapSector → i.sector ≠ rootDirSector →
      i.sector ∉ X ∧ Disjoint (fs.disk.inodeAt i.sector).extent X) : Spares p fs fs' where
  next := hq.next
  same hp hf := by
    obtain ⟨i', hi', rfl, hmap, hdir⟩ := hf
    obtain ⟨i, hi, hip, his⟩ := hq.kept i' hi' hp
    obtain ⟨hsec, hext⟩ := hX i hi hip (his ▸ hmap) (his ▸ hdir)
    refine ⟨⟨i, hi, hip, his ▸ hmap, his ▸ hdir⟩, ?_⟩
    have hl := h.table.lookup_eq hi
    rw [hip] at hl
    rw [FileSys.contentsOf, FileSys.contentsOf, h'.table.lookup_eq hi', hl, map_some, map_some,
      h'.data i' hi', h.data i hi, ← his, hq.disk.inodeAt hsec, hq.disk.contents hext]

/-- What the functions of `filesys.c` write. -/
def FileSys.wild (fs : FileSys) : Set Nat := fs.scratch ∪ (fs.disk.inodeAt rootDirSector).extent

theorem Inv.apart_wild {Y : Set Nat} {s : Nat} (h : Inv fs .root H D Y) (hs : s ∈ fs.live .root)
    (hmap : s ≠ freeMapSector) (hdir : s ≠ rootDirSector) :
    s ∉ fs.wild ∧ Disjoint (fs.disk.inodeAt s).extent fs.wild := by
  refine ⟨?_, Set.disjoint_union_right.mpr ⟨h.disjoint_scratch hs hmap, ?_⟩⟩
  · rintro (hx | hx)
    · exact h.not_mem_scratch hs hx
    · exact h.layout.not_mem_extent hs Layout.dir_mem hx
  · exact h.layout.extent_disjoint hs Layout.dir_mem hdir

theorem Quiet.spares_wild (hq : Quiet fs.wild fs fs') (h : Inv fs .root H D ∅)
    (h' : Inv fs' .root H' D' ∅) (p : Nat) : Spares p fs fs' :=
  hq.spares h h' fun _ hi _ hmap hdir => h.apart_wild (fs.mem_live hi) hmap hdir

theorem FileSys.map_subset_wild : (fs.disk.inodeAt freeMapSector).extent ⊆ fs.wild :=
  fun _ hx => .inl (.inl hx)

theorem FileSys.meta_subset_wild : fs.disk.meta .root ⊆ fs.wild := by
  rintro x (hx | hx)
  · exact .inl (.inl hx)
  · exact .inr hx

/-! ## The files in hand -/

theorem mem_openers (hx : x ∈ l) : x.file.inode ∈ openers l := mem_map.mpr ⟨x, hx, rfl⟩

theorem openers_perm (hp : l.Perm m) : (openers l).Perm (openers m) := hp.map _

theorem deniers_perm (hp : l.Perm m) : (deniers l).Perm (deniers m) := by
  induction hp with
  | nil => exact .refl _
  | cons x _ ih =>
    simp only [deniers, File.denier]
    split
    · exact ih.cons _
    · exact ih
  | swap x y l =>
    simp only [deniers, File.denier]
    split <;> split <;> first | exact .refl _ | exact .swap _ _ _
  | trans _ _ ih1 ih2 => exact ih1.trans ih2

theorem count_deniers_le (l : List Handle) (p : Nat) :
    (deniers l).count p ≤ (openers l).count p := by
  induction l with
  | nil => exact Nat.le_refl 0
  | cons x l ih =>
    simp only [deniers, File.denier, openers, map_cons, count_cons]
    rw [openers] at ih
    split
    · rw [count_cons]
      omega
    · omega

theorem wp_inFs {α : Type} {m : K α} {Q : α → State → Prop}
    (hm : wp m (fun a fs' => Q a { S with fs := fs' }) S.fs) : wp (inFs m) Q S := by
  obtain ⟨a, fs', hm, hQ⟩ := hm
  refine ⟨a, { S with fs := fs' }, ?_, hQ⟩
  rw [inFs, hm]
  rfl

/-- The file of a handle stands in front of the others. -/
structure Has (S : State) (h : Nat) (f : File) (l : List Handle) : Prop where
  lookup : lookup Handle.id S.files h = some ⟨h, f⟩
  rest : Data.remove Handle.id S.files h = l
  split : S.files.Perm (⟨h, f⟩ :: l)
  update : ∀ f', (Data.update Handle.id S.files h fun x => ⟨x.id, f'⟩).Perm (⟨h, f'⟩ :: l)

theorem Has.theFile_eq (hf : Has S h f l) : theFile h S = some (f, S) := by
  rw [theFile, hf.lookup]
  rfl

namespace Handles

variable (hS : Handles S)

include hS

theorem has (hx : x ∈ S.files) (hid : x.id = h) : ∃ f l, Has S h f l := by
  subst hid
  have hl := lookup_of_mem hS.ids hx
  obtain ⟨a, b, heq, hrem, hupd⟩ := split_of_lookup hS.ids hl
  refine ⟨x.file, a ++ b, hl, hrem, ?_, fun f' => ?_⟩
  · rw [heq]
    exact perm_middle
  · rw [hupd]
    exact perm_middle

theorem add : Handles (State.add { S with fs := fs' } (some f)) where
  ids := nodup_cons.mpr ⟨fun hm => by
    obtain ⟨x, hx, he⟩ := mem_map.mp hm
    exact absurd (hS.fresh x hx) (by simp [he]), hS.ids⟩
  fresh := forall_mem_cons.mpr ⟨Nat.lt_succ_self _, fun x hx =>
    Nat.lt_succ_of_lt (hS.fresh x hx)⟩

theorem setFile : Handles (State.setFile { S with fs := fs' } h f') := by
  have hids :
    (update Handle.id S.files h fun x => ⟨x.id, f'⟩).map Handle.id = S.files.map Handle.id :=
    map_update fun _ => rfl
  refine ⟨hids ▸ hS.ids, fun x hx => ?_⟩
  obtain ⟨y, hy, hid⟩ := mem_map.mp (hids ▸ mem_map_of_mem hx)
  exact hid ▸ hS.fresh y hy

theorem dropFile : Handles (State.dropFile { S with fs := fs' } h) := by
  have hsub : (remove Handle.id S.files h).Sublist S.files := remove_sublist
  exact ⟨(hsub.map _).nodup hS.ids, fun x hx => hS.fresh x (hsub.subset hx)⟩

end Handles

namespace Sane

theorem isFile (hS : Sane S) (hf : Has S h f l) : S.fs.IsFile .root f.inode :=
  hS.file _ (mem_of_lookup hf.lookup).1

theorem inv_has (hS : Sane S) (hf : Has S h f l) :
    ∃ q, Inv S.fs .root (f.inode :: q :: openers l) (f.denier (deniers l)) ∅ := by
  obtain ⟨q, hinv⟩ := hS.inv
  refine ⟨q, hinv.perm ?_ (deniers_perm hf.split)⟩
  exact ((openers_perm hf.split).cons q).trans (.swap _ _ _)

theorem keep (hS : Sane S) {q : Nat} (hinv : Inv S.fs .root (q :: openers S.files) (deniers S.files)
    ∅)
    (hinv' : Inv fs' .root (q :: openers S.files) (deniers S.files) ∅) (hq : Quiet X S.fs fs') :
    Sane { S with fs := fs' } where
  toHandles := ⟨hS.ids, hS.fresh⟩
  inv := ⟨q, hinv'⟩
  file x hx := hq.isFile hinv hinv' (.tail _ (mem_openers hx)) (hS.file x hx)

theorem add (hS : Sane S) {q : Nat} (hinv : Inv S.fs .root (q :: openers S.files) (deniers S.files)
    ∅)
    (hinv' : Inv fs' .root (p :: q :: openers S.files) (deniers S.files) ∅) (hq : Quiet X S.fs fs')
    (hp : fs'.IsFile .root p) : Sane (State.add { S with fs := fs' } (some ⟨p, 0, false⟩)) where
  toHandles := hS.toHandles.add
  inv := ⟨q, hinv'.perm (.swap _ _ _) (.refl _)⟩
  file := forall_mem_cons.mpr ⟨hp, fun x hx =>
    hq.isFile hinv hinv' (.tail _ (.tail _ (mem_openers hx))) (hS.file x hx)⟩

theorem setFile (hS : Sane S) (hf : Has S h f l) {q : Nat}
    (hinv : Inv S.fs .root (f.inode :: q :: openers l) (f.denier (deniers l)) ∅)
    (hinv' : Inv fs' .root (f.inode :: q :: openers l) (f'.denier (deniers l)) ∅)
      (hq : Quiet X S.fs fs')
    (he : f'.inode = f.inode) : Sane (State.setFile { S with fs := fs' } h f') := by
  refine ⟨hS.toHandles.setFile, ⟨q, ?_⟩, ?_⟩
  · refine hinv'.perm ?_ (deniers_perm (hf.update f').symm)
    refine (List.Perm.swap _ _ _).trans (.cons q ?_)
    rw [← he]
    exact (openers_perm (hf.update f')).symm
  · intro x hx
    rcases mem_update hx with ⟨y, hy, hid, rfl⟩ | ⟨hx, -⟩
    · show fs'.IsFile .root f'.inode
      rw [he]
      exact hq.isFile hinv hinv' mem_cons_self (hS.isFile hf)
    · refine hq.isFile hinv hinv' ?_ (hS.file x hx)
      rcases mem_cons.mp (hf.split.mem_iff.mp hx) with rfl | hx
      · exact mem_cons_self
      · exact .tail _ (.tail _ (mem_openers hx))

theorem dropFile (hS : Sane S) (hf : Has S h f l) {q : Nat}
    (hinv : Inv S.fs .root (f.inode :: q :: openers l) (f.denier (deniers l)) ∅)
    (hinv' : Inv fs' .root (q :: openers l) (deniers l) ∅) (hq : Quiet X S.fs fs') :
    Sane (State.dropFile { S with fs := fs' } h) := by
  have hsub : (remove Handle.id S.files h).Sublist S.files := remove_sublist
  refine ⟨hS.toHandles.dropFile, ⟨q, ?_⟩, fun x hx => ?_⟩
  · show Inv fs' .root (q :: openers (remove Handle.id S.files h))
      (deniers (remove Handle.id S.files h)) ∅
    rw [hf.rest]
    exact hinv'
  · have hx' : x ∈ l := hf.rest ▸ hx
    exact hq.isFile hinv hinv' (.tail _ (mem_openers hx')) (hS.file x (hsub.subset hx))

end Sane

/-! ## A step -/

/-- The call writes to the file whose inode is at the address `p`. -/
def Call.Writes (S : State) (p : Nat) : Call → Prop
  | write h _ => ∃ x ∈ S.files, x.id = h ∧ x.file.inode = p
  | _ => False

/-- What a call leaves. -/
structure Kept (S : State) (c : Call) (S' : State) : Prop where
  sane : Sane S'
  spares : ∀ p, ¬c.Writes S p → Spares p S.fs S'.fs

theorem create_kept (hS : Sane S) (hsize : size < 2 ^ 31) :
    wp (Call.create name size).run (fun _ S' => Kept S (.create name size) S') S := by
  obtain ⟨q, hinv⟩ := hS.inv
  refine wp_bind (wp_inFs (Q := fun _ S' => Kept S (.create name size) S') (wp_mono
    (filesysCreate_spec hinv hsize name) ?_)) fun _ _ hk => wp_pure hk
  rintro ok fs' ⟨hinv', hq, -⟩
  exact ⟨hS.keep hinv hinv' hq, fun p _ => hq.spares_wild hinv hinv' p⟩

theorem remove_kept (hS : Sane S) :
    wp (Call.remove name).run (fun _ S' => Kept S (.remove name) S') S := by
  obtain ⟨q, hinv⟩ := hS.inv
  refine wp_bind (wp_inFs (Q := fun _ S' => Kept S (.remove name) S') (wp_mono
    (filesysRemove_spec hinv name) ?_)) fun _ _ hk => wp_pure hk
  rintro ok fs' ⟨hinv', hq, -⟩
  exact ⟨hS.keep hinv hinv' hq, fun p _ =>
    (hq.mono FileSys.meta_subset_wild).spares_wild hinv hinv' p⟩

theorem open_kept (hS : Sane S) :
    wp (Call.open name).run (fun _ S' => Kept S (.open name) S') S := by
  obtain ⟨q, hinv⟩ := hS.inv
  refine wp_bind (wp_inFs (Q := fun f S' => Kept S (.open name) (S'.add f)) (wp_mono
    (filesysOpen_spec hinv name) ?_)) fun _ _ hk => wp_of_eq modify_eq hk
  rintro f fs' ⟨hq, hd, -, ⟨rfl, -, hinv'⟩ | ⟨k, i, rfl, hk, hi, his, hinv'⟩⟩
  · exact ⟨hS.keep hinv hinv' hq, fun p _ =>
    (hq.mono (Set.empty_subset _)).spares_wild hinv hinv' p⟩
  · refine ⟨hS.add hinv hinv' hq ⟨i, hi, rfl, ?_, ?_⟩,
      fun p _ => (hq.mono (Set.empty_subset _)).spares_wild hinv hinv' p⟩
    · exact his ▸ (hinv.layout.files _ _ hk.links).1
    · exact his ▸ (hinv.layout.files _ _ hk.links).2

theorem reopen_kept (hS : Sane S) (hf : Has S h f l) :
    wp (Call.reopen h).run (fun _ S' => Kept S (.reopen h) S') S := by
  obtain ⟨q, hinv⟩ := hS.inv
  have hp : f.inode ∈ q :: openers S.files := .tail _ (mem_openers (mem_of_lookup hf.lookup).1)
  refine wp_call hf.theFile_eq
    (wp_bind (wp_inFs (Q := fun f S' => Kept S (.reopen h) (S'.add f)) (wp_mono
    (fileReopen_spec hinv hp) ?_)) fun _ _ hk => wp_of_eq modify_eq hk)
  rintro _ fs' ⟨rfl, hinv', hq, -⟩
  exact ⟨hS.add hinv hinv' hq (hq.isFile hinv hinv' mem_cons_self (hS.isFile hf)),
    fun p _ => (hq.mono (Set.empty_subset _)).spares_wild hinv hinv' p⟩

theorem close_kept (hS : Sane S) (hf : Has S h f l) :
    wp (Call.close h).run (fun _ S' => Kept S (.close h) S') S := by
  obtain ⟨q, hinv⟩ := hS.inv_has hf
  have hle : (deniers l).count f.inode ≤ (q :: openers l).count f.inode :=
    Nat.le_trans (count_deniers_le l _) count_le_count_cons
  refine wp_call hf.theFile_eq
    (wp_bind (wp_inFs (Q := fun _ S' => Kept S (.close h) (S'.dropFile h)) (wp_mono
    (fileClose_spec hinv (hS.isFile hf) hle) ?_)) fun _ _ hk => wp_of_eq modify_eq hk)
  rintro _ fs' ⟨hinv', hq⟩
  exact ⟨hS.dropFile hf hinv hinv' hq,
    fun p _ => (hq.mono FileSys.map_subset_wild).spares_wild hinv hinv' p⟩

/-- A call that changes the file in hand and nothing on the device. -/
theorem setFile_kept (hS : Sane S) (hf : Has S h f l) {m : K File}
    (hm : ∀ q, Inv S.fs .root (f.inode :: q :: openers l) (f.denier (deniers l)) ∅ →
      wp m (fun f' fs' => f'.inode = f.inode ∧
        Inv fs' .root (f.inode :: q :: openers l) (f'.denier (deniers l)) ∅ ∧ Quiet ∅ S.fs fs')
          S.fs) :
    wp (do
      let f' ← inFs m
      modify (State.setFile · h f')) (fun _ S' => Kept S c S') S := by
  obtain ⟨q, hinv⟩ := hS.inv_has hf
  refine wp_bind (wp_inFs (Q := fun f' S' => Kept S c (S'.setFile h f')) (wp_mono (hm q hinv) ?_))
    fun _ _ hk => wp_of_eq modify_eq hk
  rintro f' fs' ⟨he, hinv', hq⟩
  exact ⟨hS.setFile hf hinv hinv' hq he,
    fun p _ => (hq.mono (Set.empty_subset _)).spares_wild hinv hinv' p⟩

theorem denyWrite_kept (hS : Sane S) (hf : Has S h f l) :
    wp (Call.denyWrite h).run (fun _ S' => Kept S (.denyWrite h) S') S := by
  refine wp_call hf.theFile_eq (setFile_kept hS hf fun q hinv => ?_)
  cases hdeny : f.denyWrite with
  | true =>
    rw [fileDenyWrite, if_pos hdeny]
    exact wp_pure ⟨rfl, hinv, .refl _⟩
  | false =>
    rw [File.denier, if_neg (by rw [hdeny]; decide)] at hinv
    have hlt : (deniers l).count f.inode < (f.inode :: q :: openers l).count f.inode := by
      rw [count_cons_self]
      exact Nat.lt_succ_of_le (Nat.le_trans (count_deniers_le l _) count_le_count_cons)
    refine wp_mono (fileDenyWrite_spec hinv (hS.isFile hf) hdeny hlt) ?_
    rintro _ fs' ⟨rfl, hinv', hq, -⟩
    exact ⟨rfl, hinv', hq⟩

theorem allowWrite_kept (hS : Sane S) (hf : Has S h f l) :
    wp (Call.allowWrite h).run (fun _ S' => Kept S (.allowWrite h) S') S := by
  refine wp_call hf.theFile_eq (setFile_kept hS hf fun q hinv => ?_)
  cases hdeny : f.denyWrite with
  | true =>
    rw [File.denier, if_pos hdeny] at hinv
    refine wp_mono (fileAllowWrite_spec hinv (hS.isFile hf) hdeny) ?_
    rintro _ fs' ⟨rfl, hinv', hq, -⟩
    exact ⟨rfl, hinv', hq⟩
  | false =>
    rw [fileAllowWrite, if_neg (by rw [hdeny]; decide)]
    exact wp_pure ⟨rfl, hinv, .refl _⟩

theorem read_kept (hS : Sane S) (hf : Has S h f l) :
    wp (Call.read h size).run (fun _ S' => Kept S (.read h size) S') S := by
  refine wp_call hf.theFile_eq ?_
  obtain ⟨q, hinv⟩ := hS.inv_has hf
  obtain ⟨i, hi, hip, -⟩ := hS.isFile hf
  have hread : fileRead f size S.fs = _ :=
    bind_eq (inodeReadAt_eq (hip ▸ hinv.table.lookup_eq hi) (hinv.fits hi))
  refine wp_bind (wp_inFs (Q := fun r S' => Kept S (.read h size) (S'.setFile h r.2))
    (wp_of_eq hread ?_)) fun _ _ hk => wp_of_eq modify_eq hk
  exact ⟨hS.setFile hf hinv hinv (.refl (X := ∅) _) rfl, fun p _ => .refl _ p⟩

theorem seek_kept (hS : Sane S) (hf : Has S h f l) :
    wp (Call.seek h n).run (fun _ S' => Kept S (.seek h n) S') S := by
  obtain ⟨q, hinv⟩ := hS.inv_has hf
  refine wp_call hf.theFile_eq (wp_of_eq modify_eq ⟨?_, fun p _ => .refl _ p⟩)
  exact hS.setFile hf hinv hinv (.refl (X := ∅) _) rfl

theorem write_kept (hS : Sane S) (hf : Has S h f l) {buffer : List Byte} :
    wp (Call.write h buffer).run (fun _ S' => Kept S (.write h buffer) S') S := by
  refine wp_call hf.theFile_eq ?_
  obtain ⟨q, hinv⟩ := hS.inv_has hf
  have hwrite :
    wp (fileWrite f buffer) (fun r fs' => r.2.inode = f.inode ∧ r.2.denyWrite = f.denyWrite ∧
      Inv fs' .root (f.inode :: q :: openers l) (f.denier (deniers l)) ∅ ∧
      ∃ i ∈ S.fs.openInodes, i.ptr = f.inode ∧ Quiet i.data.extent S.fs fs') S.fs :=
    wp_bind (inodeWriteAt_spec hinv (hS.isFile hf)) fun n fs' ⟨hinv', hw⟩ =>
      wp_pure ⟨rfl, rfl, hinv', hw⟩
  refine wp_bind (wp_inFs (Q := fun r S' => Kept S (.write h buffer) (S'.setFile h r.2))
    (wp_mono hwrite ?_)) fun _ _ hk => wp_of_eq modify_eq hk
  rintro ⟨n, f'⟩ fs' ⟨hinode, hdeny, hinv', i, hi, hip, hq⟩
  have hden : f'.denier (deniers l) = f.denier (deniers l) := by
    rw [File.denier, File.denier, hinode, hdeny]
  refine ⟨hS.setFile hf hinv (hden ▸ hinv') hq hinode, fun p hp =>
    hq.spares hinv hinv' fun j hj hjp hmap _ => ?_⟩
  -- another file is in other sectors
  have hij : j.sector ≠ i.sector := by
    intro he
    obtain rfl := inj_on_of_nodup_map hinv.table.sectors hj hi he
    exact hp ⟨_, (mem_of_lookup hf.lookup).1, rfl, hip ▸ hjp⟩
  have hlivej := S.fs.mem_live (r := .root) hj
  have hlivei := S.fs.mem_live (r := .root) hi
  rw [hinv.data i hi]
  exact ⟨hinv.layout.not_mem_extent hlivej hlivei, hinv.layout.extent_disjoint hlivej hlivei hij⟩

/-- **Every valid call returns**, keeps the invariant, and changes no file that it does not write.
-/
theorem step_spec (hS : Sane S) (hc : c.Valid S) : wp c.run (fun _ S' => Kept S c S') S := by
  have hhas {h : Nat} (hh : c.handle = some h) : ∃ f l, Has S h f l := by
    obtain ⟨x, hx, hid⟩ := mem_map.mp (hc.1 h hh)
    exact hS.has hx hid
  cases c with
  | create name size => exact create_kept hS hc.2
  | «open» name => exact open_kept hS
  | remove name => exact remove_kept hS
  | reopen h =>
    obtain ⟨f, l, hf⟩ := hhas rfl
    exact reopen_kept hS hf
  | close h =>
    obtain ⟨f, l, hf⟩ := hhas rfl
    exact close_kept hS hf
  | read h size =>
    obtain ⟨f, l, hf⟩ := hhas rfl
    exact read_kept hS hf
  | write h buffer =>
    obtain ⟨f, l, hf⟩ := hhas rfl
    exact write_kept hS hf
  | seek h newPos =>
    obtain ⟨f, l, hf⟩ := hhas rfl
    exact seek_kept hS hf
  | denyWrite h =>
    obtain ⟨f, l, hf⟩ := hhas rfl
    exact denyWrite_kept hS hf
  | allowWrite h =>
    obtain ⟨f, l, hf⟩ := hhas rfl
    exact allowWrite_kept hS hf

theorem exists_step (hS : Sane S) (hc : c.Valid S) : ∃ S', c.step S = some S' ∧ Kept S c S' := by
  obtain ⟨_, S', hrun, hk⟩ := step_spec hS hc
  refine ⟨S', ?_, hk⟩
  rw [Call.step, hrun]
  rfl

theorem kept_of_step (hS : Sane S) (hc : c.Valid S) (hs : c.step S = some S') : Kept S c S' := by
  obtain ⟨S'', hs', hk⟩ := exists_step hS hc
  exact some.inj (hs'.symm.trans hs) ▸ hk

/-! ## Runs -/

theorem sane_init {junk : Nat → Bool} (hsmall : disk.size < 2 ^ 21)
    (h : filesysInit true disk junk = some fs) : Sane ⟨fs, [], 0⟩ where
  toHandles := ⟨nodup_nil, by simp⟩
  inv := (inv_of_init hsmall h).1
  file := by simp

/-- **`filesys_init(false)`** finds the free map that was saved. -/
theorem filesysInit_mount {Y : Set Nat} (h : Inv fs .root H D Y) (junk : Nat → Bool) :
    ∃ fs' p, filesysInit false fs.disk junk = some fs' ∧ Inv fs' .root [p] [] ∅ ∧ fs'.freeMap.used =
      fs.freeMap.used := by
  have hlayout : Layout fs.disk fs.freeMap .root ∅ ∅ :=
    h.layout.mono (Set.empty_subset _) (Set.empty_subset _)
  obtain ⟨u, fs', hopen, hinv, -, hmap⟩ := (freeMapOpen_spec hlayout rfl rfl :
    wp freeMapOpen _ (FileSys.boot fs.disk junk))
  refine ⟨fs', _, ?_, hinv, ?_⟩
  · exact congrArg (Option.map Prod.snd) hopen
  · rw [hmap]
    exact Bitmap.used_ofBytes h.layout.saved h.layout.bitCnt.symm

/-- **Every reachable state is sane.** -/
theorem Reachable.sane (h : Reachable S) : Sane S := by
  induction h with
  | init hsmall h => exact sane_init hsmall h
  | @reboot S junk fs _ hboot ih =>
    obtain ⟨q, hinv⟩ := ih.inv
    obtain ⟨fs', p, heq, hinv', -⟩ := filesysInit_mount hinv junk
    obtain rfl := some.inj (heq.symm.trans hboot)
    exact ⟨⟨nodup_nil, by simp⟩, ⟨p, hinv'⟩, by simp⟩
  | step _ hc hs ih => exact (kept_of_step ih hc hs).sane

/-- The state after a format and a list of calls. -/
def bootAll (disk : Disk) (junk : Nat → Bool) (cs : List Call) : Option State :=
  (filesysInit true disk junk).bind fun fs => runAll (fun S c => c.Valid S) Call.step cs ⟨fs, [], 0⟩

theorem reachable_of_bootAll (disk : Disk) (junk : Nat → Bool) (cs : List Call) (p : State → Bool)
    (hsmall : disk.size < 2 ^ 21) (h : (bootAll disk junk cs).map p = some true) :
    ∃ S, Reachable S ∧ p S = true := by
  obtain ⟨S, hS, hp⟩ := map_eq_some_iff.mp h
  obtain ⟨fs, hfs, hr⟩ := bind_eq_some_iff.mp hS
  exact ⟨S, of_runAll (fun _ _ _ h hc hs => .step h hc hs) (.init hsmall hfs) hr, hp⟩

/-- A device of eight sectors. -/
def smallDisk : Disk := ⟨8, fun _ => 0⟩

/-- Valid calls, none of which writes to the file with its inode at `p`. -/
inductive RunSparing (p : Nat) : State → State → Prop
  | refl (S : State) : RunSparing p S S
  | step {S S' S'' : State} {c : Call} (h : RunSparing p S S') (hc : c.Valid S')
      (hw : ¬c.Writes S' p)
      (hs : c.step S' = some S'') : RunSparing p S S''

/-- A run keeps the invariant, and the contents of a file that it does not write. -/
theorem RunSparing.kept (hr : RunSparing p S S') (hS : Sane S) : Sane S' ∧ Spares p S.fs S'.fs := by
  induction hr with
  | refl => exact ⟨hS, .refl _ p⟩
  | step _ hc hw hs ih =>
    obtain ⟨hS', hsp⟩ := ih
    have hk := kept_of_step hS' hc hs
    exact ⟨hk.sane, hsp.trans (hk.spares p hw)⟩

end SystemProg.Pintos
