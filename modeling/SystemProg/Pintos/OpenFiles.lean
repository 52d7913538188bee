import SystemProg.Pintos.Runs

/-!
# Open files and the table of open inodes

`file_open` on `inode_open`, `file_reopen`, `file_deny_write`, `file_allow_write` and `file_close`,
in any order, on any sectors of any device, from an empty `open_inodes` (`TableReachable`); `malloc`
and `calloc` may fail in any call. The two counters of an inode count its files and those of them
that deny writes (`open_inode_table`), so that the assertions on them hold, and an inode is in the
table while it has a file.
-/

namespace SystemProg.Pintos

open Data Text SystemProg.Seq List

/-- `inode_open`, `malloc` succeeding or not. -/
def inodeOpenIf (malloc : Bool) (sector : Nat) : K (Option Nat) := do
  let fs ← get
  if lookup Inode.sector fs.openInodes sector = none ∧ malloc = false then return none
  some <$> inodeOpen sector

/-- `file_open`, `calloc` succeeding or not. -/
def fileOpenIf (calloc : Bool) : Option Nat → K (Option File)
  | none => return none
  | some p => do
    if calloc then return fileOpen (some p)
    inodeClose p
    return none

/-- `file_reopen`, likewise. -/
def fileReopenIf (calloc : Bool) (file : File) : K (Option File) := do
  inodeReopen file.inode
  fileOpenIf calloc (some file.inode)

/-- A call, with the outcomes of its allocations. -/
inductive TableCall where
  | open (sector : Nat) (malloc calloc : Bool)
  | reopen (h : Nat) (calloc : Bool)
  | denyWrite (h : Nat)
  | allowWrite (h : Nat)
  | close (h : Nat)
  deriving DecidableEq

/-- The call itself, and what becomes of the files. -/
def TableCall.run : TableCall → Panic State Unit
  | .open sector malloc calloc => do
    let f ← inFs (inodeOpenIf malloc sector >>= fileOpenIf calloc)
    modify (·.add f)
  | reopen h calloc => do
    let f ← theFile h
    let f' ← inFs (fileReopenIf calloc f)
    modify (·.add f')
  | denyWrite h => do
    let f ← theFile h
    let f' ← inFs (fileDenyWrite f)
    modify (·.setFile h f')
  | allowWrite h => do
    let f ← theFile h
    let f' ← inFs (fileAllowWrite f)
    modify (·.setFile h f')
  | close h => do
    let f ← theFile h
    inFs (fileClose f)
    modify (·.dropFile h)

/-- The state after a call; `none` if the kernel panics. -/
def TableCall.step (c : TableCall) (S : State) : Option State := (c.run S).map Prod.snd

/-- The call names an open file, or a sector of the device. -/
def TableCall.Valid (S : State) : TableCall → Prop
  | .open sector _ _ => sector < S.fs.disk.size
  | reopen h _ | denyWrite h | allowWrite h | close h => h ∈ S.files.map Handle.id

instance (S : State) : (c : TableCall) → Decidable (c.Valid S)
  | .open sector _ _ => inferInstanceAs (Decidable (sector < S.fs.disk.size))
  | .reopen h _ => inferInstanceAs (Decidable (h ∈ S.files.map Handle.id))
  | .denyWrite h => inferInstanceAs (Decidable (h ∈ S.files.map Handle.id))
  | .allowWrite h => inferInstanceAs (Decidable (h ∈ S.files.map Handle.id))
  | .close h => inferInstanceAs (Decidable (h ∈ S.files.map Handle.id))

/-- The states that calls lead to from an empty table. -/
inductive TableReachable : State → Prop
  | init (fs : FileSys) (h : fs.openInodes = []) : TableReachable ⟨fs, [], 0⟩
  | step {S S' : State} {c : TableCall} (h : TableReachable S) (hc : c.Valid S)
      (hs : c.step S = some S') : TableReachable S'

/-! ## The invariant -/

/-- The table counts the openers and the deniers, and nothing is removed. -/
structure Opened (fs : FileSys) (H D : List Nat) : Prop where
  table : Table fs.openInodes fs.nextPtr H D
  removed : ∀ i ∈ fs.openInodes, i.removed = false

/-- The table counts the open files, and those that deny writes. -/
structure TableSane (S : State) : Prop extends Handles S where
  opened : Opened S.fs (openers S.files) (deniers S.files)

variable {S S' : State} {c : TableCall} {fs fs' : FileSys} {h p s : Nat} {f f' : File} {i : Inode}
  {x : Handle}
  {l : List Handle} {H D H' D' : List Nat} {g : Inode → Inode}

namespace Opened

theorem perm (ho : Opened fs H D) (hH : H.Perm H') (hD : D.Perm D') : Opened fs H' D' :=
  ⟨ho.table.perm hH hD, ho.removed⟩

theorem setInode (ho : Opened fs H D) (ht : Table (fs.setInode p g).openInodes fs.nextPtr H' D')
    (hg : ∀ i, (g i).removed = i.removed) : Opened (fs.setInode p g) H' D' := by
  refine ⟨ht, fun j hj => ?_⟩
  rcases mem_update hj with ⟨i, hi, -, rfl⟩ | ⟨hj, -⟩
  · rw [hg, ho.removed i hi]
  · exact ho.removed j hj

theorem inodeOpen (ho : Opened fs H D) (hs : s < fs.disk.size) :
    wp (inodeOpen s) (fun p fs' => Opened fs' (p :: H) D ∧ Quiet ∅ fs fs') fs := by
  cases hl : lookup Inode.sector fs.openInodes s with
  | some i =>
    obtain ⟨hi, -⟩ := mem_of_lookup hl
    refine wp_of_eq (inodeOpen_old hl (ho.table.lookup_eq hi))
      ⟨ho.setInode (ho.table.reopen (ho.table.held i hi)) fun _ => rfl, ?_⟩
    exact .of_setInode (fun _ => rfl) fun _ => rfl
  | none =>
    have hne : ∀ i ∈ fs.openInodes, i.sector ≠ s := by simpa [Data.lookup] using hl
    refine wp_of_eq (inodeOpen_new hl hs) ⟨⟨ho.table.insert hne, ?_⟩, ⟨rfl, fun _ _ => rfl⟩,
      Nat.le_succ _, ?_⟩
    · exact forall_mem_cons.mpr ⟨rfl, ho.removed⟩
    · intro i hi hlt
      rcases mem_cons.mp hi with rfl | hi
      · exact absurd hlt (Nat.lt_irrefl _)
      · exact ⟨i, hi, rfl, rfl⟩

theorem inodeClose (ho : Opened fs (p :: H) D) (hD : D.count p ≤ H.count p) :
    wp (inodeClose p) (fun _ fs' => Opened fs' H D ∧ Quiet ∅ fs fs') fs := by
  obtain ⟨i, hi, -, hl⟩ := ho.table.lookup_of_held mem_cons_self
  by_cases hcnt : i.openCnt = 1
  · refine wp_of_eq (inodeClose_last hl hcnt (ho.removed i hi))
      ⟨⟨ho.table.last hl hcnt hD, ?_⟩, .of_remove⟩
    exact fun j hj => ho.removed j (mem_remove.mp hj).1
  · refine wp_of_eq (inodeClose_eq hl hcnt) ⟨?_, .of_setInode (fun _ => rfl) fun _ => rfl⟩
    exact ho.setInode (ho.table.close hl hcnt hD) fun _ => rfl

/-- What `file_open` returns, and what the table counts then. -/
def Adds (p : Nat) (H D : List Nat) (f : Option File) (fs : FileSys) : Prop :=
  f = some ⟨p, 0, false⟩ ∧ Opened fs (p :: H) D ∨ f = none ∧ Opened fs H D

theorem fileOpenIf (ho : Opened fs (p :: H) D) (hD : D.count p ≤ H.count p) (ok : Bool) :
    wp (fileOpenIf ok (some p)) (fun f fs' => Adds p H D f fs' ∧ Quiet ∅ fs fs') fs := by
  cases ok with
  | true => exact wp_pure ⟨.inl ⟨rfl, ho⟩, .refl fs⟩
  | false => exact wp_bind (ho.inodeClose hD) fun _ fs' h => wp_pure ⟨.inr ⟨rfl, h.1⟩, h.2⟩

theorem inodeOpenIf (ho : Opened fs H D) (hs : s < fs.disk.size) (hD : ∀ p, D.count p ≤ H.count p)
    (malloc calloc : Bool) : wp (inodeOpenIf malloc s >>= Pintos.fileOpenIf calloc)
      (fun f fs' => (∃ p, Adds p H D f fs') ∧ Quiet ∅ fs fs') fs := by
  rw [Pintos.inodeOpenIf, bind_assoc]
  refine wp_get ?_
  split
  · exact wp_pure ⟨⟨0, .inr ⟨rfl, ho⟩⟩, .refl fs⟩
  · rw [map_eq_pure_bind, bind_assoc]
    refine wp_bind (ho.inodeOpen hs) fun p fs1 ⟨ho1, hq1⟩ => ?_
    exact wp_mono (ho1.fileOpenIf (hD p) calloc) fun f fs2 h => ⟨⟨p, h.1⟩, hq1.trans h.2⟩

theorem fileReopenIf (ho : Opened fs H D) (hp : f.inode ∈ H) (hD : ∀ p, D.count p ≤ H.count p)
    (ok : Bool) : wp (fileReopenIf ok f)
      (fun f' fs' => Adds f.inode H D f' fs' ∧ Quiet ∅ fs fs') fs := by
  obtain ⟨i, -, -, hl⟩ := ho.table.lookup_of_held hp
  refine wp_call (modifyInode_eq hl) ?_
  have ho1 := ho.setInode (ho.table.reopen hp) fun _ => rfl
  refine wp_mono (ho1.fileOpenIf (hD _) ok) fun f' fs' h => ⟨h.1, Quiet.trans ?_ h.2⟩
  exact .of_setInode (fun _ => rfl) fun _ => rfl

theorem fileDenyWrite (ho : Opened fs H (f.denier D)) (hlt : D.count f.inode < H.count f.inode) :
    wp (fileDenyWrite f) (fun f' fs' => f' = { f with denyWrite := true } ∧
      Opened fs' H (f.inode :: D) ∧
      Quiet ∅ fs fs') fs := by
  cases hdeny : f.denyWrite with
  | true =>
    rw [File.denier, if_pos hdeny] at ho
    rw [Pintos.fileDenyWrite, if_pos hdeny]
    refine wp_pure ⟨?_, ho, .refl fs⟩
    rw [← hdeny]
  | false =>
    rw [File.denier, if_neg (by rw [hdeny]; decide)] at ho
    have hp : f.inode ∈ H := count_pos_iff.mp (by omega)
    obtain ⟨i, hi, hip, hl⟩ := ho.table.lookup_of_held hp
    have hle : i.denyWriteCnt + 1 ≤ i.openCnt := by
      rw [ho.table.denyCnt i hi, ho.table.openCnt i hi, hip]
      exact hlt
    rw [Pintos.fileDenyWrite, if_neg (by rw [hdeny]; decide)]
    refine wp_call (inodeDenyWrite_eq hl hle)
      (wp_pure ⟨rfl, ?_, .of_setInode (fun _ => rfl) fun _ => rfl⟩)
    exact ho.setInode (ho.table.deny hlt) fun _ => rfl

theorem fileAllowWrite (ho : Opened fs H (f.denier D)) (hp : f.inode ∈ H) :
    wp (fileAllowWrite f) (fun f' fs' => f' = { f with denyWrite := false } ∧ Opened fs' H D ∧
      Quiet ∅ fs fs') fs := by
  cases hdeny : f.denyWrite with
  | true =>
    rw [File.denier, if_pos hdeny] at ho
    obtain ⟨i, hi, hip, hl⟩ := ho.table.lookup_of_held hp
    have hcnt := ho.table.denyCnt i hi
    have hle := ho.table.denying i.ptr
    rw [← hcnt, ← ho.table.openCnt i hi] at hle
    rw [hip, count_cons_self] at hcnt
    rw [Pintos.fileAllowWrite, if_pos hdeny]
    refine wp_call (inodeAllowWrite_eq hl (by omega) hle)
      (wp_pure ⟨rfl, ?_, .of_setInode (fun _ => rfl) fun _ => rfl⟩)
    exact ho.setInode ho.table.allow fun _ => rfl
  | false =>
    rw [File.denier, if_neg (by rw [hdeny]; decide)] at ho
    rw [Pintos.fileAllowWrite, if_neg (by rw [hdeny]; decide)]
    refine wp_pure ⟨?_, ho, .refl fs⟩
    rw [← hdeny]

theorem fileClose (ho : Opened fs (f.inode :: H) (f.denier D))
    (hD : D.count f.inode ≤ H.count f.inode) :
    wp (fileClose f) (fun _ fs' => Opened fs' H D ∧ Quiet ∅ fs fs') fs := by
  refine wp_bind (ho.fileAllowWrite mem_cons_self) ?_
  rintro _ fs1 ⟨rfl, ho1, hq1⟩
  exact wp_mono (ho1.inodeClose hD) fun _ fs2 ⟨ho2, hq2⟩ => ⟨ho2, hq1.trans hq2⟩

end Opened

/-! ## A step -/

/-- What a call leaves: the files but the one that is closed, on the inodes they were on. -/
structure TableKept (S : State) (c : TableCall) (S' : State) : Prop where
  sane : TableSane S'
  quiet : Quiet ∅ S.fs S'.fs
  files : ∀ p ∈ openers S.files, p ∈ openers S'.files ↔ ∃ x ∈ S.files, x.file.inode = p ∧
    c ≠ .close x.id

theorem mem_openers_iff : p ∈ openers l ↔ ∃ x ∈ l, x.file.inode = p := mem_map

theorem files_of_subset (hc : ∀ h, c ≠ .close h) (hsub : openers S.files ⊆ openers S'.files) :
    ∀ p ∈ openers S.files, p ∈ openers S'.files ↔ ∃ x ∈ S.files, x.file.inode = p ∧
      c ≠ .close x.id := by
  intro p hp
  refine ⟨fun _ => ?_, fun _ => hsub hp⟩
  obtain ⟨x, hx, he⟩ := mem_openers_iff.mp hp
  exact ⟨x, hx, he, hc x.id⟩

namespace TableSane

theorem has (hS : TableSane S) (hh : h ∈ S.files.map Handle.id) : ∃ f l, Has S h f l := by
  obtain ⟨x, hx, hid⟩ := mem_map.mp hh
  exact hS.toHandles.has hx hid

theorem opened_has (hS : TableSane S) (hf : Has S h f l) :
    Opened S.fs (f.inode :: openers l) (f.denier (deniers l)) :=
  hS.opened.perm (openers_perm hf.split) (deniers_perm hf.split)

theorem add (hS : TableSane S) {f : Option File}
    (ha : Opened.Adds p (openers S.files) (deniers S.files) f fs') (hq : Quiet ∅ S.fs fs')
    (hc : ∀ h, c ≠ .close h) : TableKept S c (State.add { S with fs := fs' } f) := by
  rcases ha with ⟨rfl, ho⟩ | ⟨rfl, ho⟩
  · exact ⟨⟨hS.toHandles.add, ho⟩, hq, files_of_subset hc (subset_cons_self _ _)⟩
  · exact ⟨⟨⟨hS.ids, hS.fresh⟩, ho⟩, hq, files_of_subset hc (List.Subset.refl _)⟩

theorem open_kept (hS : TableSane S) (hs : s < S.fs.disk.size) (malloc calloc : Bool) :
    wp (TableCall.open s malloc calloc).run (fun _ S' => TableKept S (.open s malloc calloc) S')
      S := by
  refine wp_bind (wp_inFs (Q := fun f S' => TableKept S (.open s malloc calloc) (S'.add f))
    (wp_mono (hS.opened.inodeOpenIf hs (count_deniers_le _) malloc calloc) ?_))
    fun _ _ hk => wp_of_eq modify_eq hk
  rintro f fs' ⟨⟨p, ha⟩, hq⟩
  exact hS.add ha hq fun _ => by simp

theorem reopen_kept (hS : TableSane S) (hf : Has S h f l) (ok : Bool) :
    wp (TableCall.reopen h ok).run (fun _ S' => TableKept S (.reopen h ok) S') S := by
  refine wp_call hf.theFile_eq
    (wp_bind (wp_inFs (Q := fun f' S' => TableKept S (.reopen h ok) (S'.add f'))
    (wp_mono (hS.opened.fileReopenIf (mem_openers (mem_of_lookup hf.lookup).1)
      (count_deniers_le _) ok) ?_)) fun _ _ hk => wp_of_eq modify_eq hk)
  rintro f' fs' ⟨ha, hq⟩
  exact hS.add ha hq fun _ => by simp

theorem setFile (hS : TableSane S) (hf : Has S h f l)
    (ho : Opened fs' (f.inode :: openers l) (f'.denier (deniers l)))
    (hq : Quiet ∅ S.fs fs') (he : f'.inode = f.inode) (hc : ∀ h, c ≠ .close h) :
    TableKept S c (State.setFile { S with fs := fs' } h f') := by
  have hopeners : (f.inode :: openers l).Perm
      (openers (update Handle.id S.files h fun x => ⟨x.id, f'⟩)) := by
    rw [← he]
    exact (openers_perm (hf.update f')).symm
  refine ⟨⟨hS.toHandles.setFile, ho.perm hopeners (deniers_perm (hf.update f').symm)⟩, hq,
    files_of_subset hc fun p hp => ?_⟩
  exact hopeners.mem_iff.mp ((openers_perm hf.split).mem_iff.mp hp)

theorem denyWrite_kept (hS : TableSane S) (hf : Has S h f l) :
    wp (TableCall.denyWrite h).run (fun _ S' => TableKept S (.denyWrite h) S') S := by
  have hlt : (deniers l).count f.inode < (f.inode :: openers l).count f.inode := by
    rw [count_cons_self]
    exact Nat.lt_succ_of_le (count_deniers_le l _)
  refine wp_call hf.theFile_eq
    (wp_bind (wp_inFs (Q := fun f' S' => TableKept S (.denyWrite h) (S'.setFile h f'))
    (wp_mono ((hS.opened_has hf).fileDenyWrite hlt) ?_)) fun _ _ hk => wp_of_eq modify_eq hk)
  rintro _ fs' ⟨rfl, ho, hq⟩
  exact hS.setFile hf ho hq rfl fun _ => by simp

theorem allowWrite_kept (hS : TableSane S) (hf : Has S h f l) :
    wp (TableCall.allowWrite h).run (fun _ S' => TableKept S (.allowWrite h) S') S := by
  refine wp_call hf.theFile_eq
    (wp_bind (wp_inFs (Q := fun f' S' => TableKept S (.allowWrite h) (S'.setFile h f'))
    (wp_mono ((hS.opened_has hf).fileAllowWrite mem_cons_self) ?_)) fun _ _ hk =>
      wp_of_eq modify_eq hk)
  rintro _ fs' ⟨rfl, ho, hq⟩
  exact hS.setFile hf ho hq rfl fun _ => by simp

theorem close_kept (hS : TableSane S) (hf : Has S h f l) :
    wp (TableCall.close h).run (fun _ S' => TableKept S (.close h) S') S := by
  refine wp_call hf.theFile_eq
    (wp_bind (wp_inFs (Q := fun _ S' => TableKept S (.close h) (S'.dropFile h))
    (wp_mono ((hS.opened_has hf).fileClose (count_deniers_le l _)) ?_)) fun _ _ hk =>
      wp_of_eq modify_eq hk)
  rintro _ fs' ⟨ho, hq⟩
  have hfiles : (State.dropFile { S with fs := fs' } h).files = remove Handle.id S.files h := rfl
  refine ⟨⟨hS.toHandles.dropFile, ?_⟩, hq, fun p _ => ?_⟩
  · rw [hfiles, hf.rest]
    exact ho
  · rw [hfiles, mem_openers_iff]
    refine exists_congr fun x => ?_
    rw [mem_remove, and_assoc, and_comm (a := x.id ≠ h)]
    refine and_congr_right fun _ => and_congr_right fun _ => not_congr ?_
    rw [TableCall.close.injEq, eq_comm]

/-- **Every valid call returns**, and keeps the counts. -/
theorem step_spec (hS : TableSane S) (hc : c.Valid S) :
    wp c.run (fun _ S' => TableKept S c S') S := by
  cases c with
  | «open» s malloc calloc => exact hS.open_kept hc malloc calloc
  | reopen h ok =>
    obtain ⟨f, l, hf⟩ := hS.has hc
    exact hS.reopen_kept hf ok
  | denyWrite h =>
    obtain ⟨f, l, hf⟩ := hS.has hc
    exact hS.denyWrite_kept hf
  | allowWrite h =>
    obtain ⟨f, l, hf⟩ := hS.has hc
    exact hS.allowWrite_kept hf
  | close h =>
    obtain ⟨f, l, hf⟩ := hS.has hc
    exact hS.close_kept hf

theorem exists_step (hS : TableSane S) (hc : c.Valid S) :
    ∃ S', c.step S = some S' ∧ TableKept S c S' := by
  obtain ⟨_, S', hrun, hk⟩ := hS.step_spec hc
  refine ⟨S', ?_, hk⟩
  rw [TableCall.step, hrun]
  rfl

end TableSane

/-- **Every reachable state is sane.** -/
theorem TableReachable.sane (h : TableReachable S) : TableSane S := by
  induction h with
  | init fs h =>
    refine ⟨⟨nodup_nil, by simp⟩, ⟨?_, by simp [h]⟩⟩
    rw [h]
    exact ⟨nodup_nil, nodup_nil, by simp, by simp [Tallies], by simp [Tallies], by simp,
      fun p hp => absurd hp (by simp [openers]), fun p => by simp [deniers]⟩
  | step _ hc hs ih =>
    obtain ⟨S'', hs', hk⟩ := ih.exists_step hc
    exact Option.some.inj (hs'.symm.trans hs) ▸ hk.sane

/-! ## The counters -/

theorem count_openers (l : List Handle) (p : Nat) :
    (openers l).count p = l.countP fun x => x.file.inode == p := by
  rw [openers, List.count, countP_map]
  rfl

theorem count_deniers (l : List Handle) (p : Nat) :
    (deniers l).count p = l.countP fun x => x.file.inode == p && x.file.denyWrite := by
  induction l with
  | nil => rfl
  | cons x l ih =>
    rw [deniers, File.denier, countP_cons]
    cases x.file.denyWrite with
    | true => rw [if_pos rfl, count_cons, ih, Bool.and_true]
    | false =>
        rw [if_neg Bool.false_ne_true, ih, Bool.and_false, if_neg Bool.false_ne_true, Nat.add_zero]

/-- What the table of open inodes says of the open files. -/
structure TableOk (S : State) : Prop where
  sectors : (S.fs.openInodes.map Inode.sector).Nodup
  openCnt : ∀ i ∈ S.fs.openInodes, 1 ≤ i.openCnt ∧
    i.openCnt = S.files.countP fun x => x.file.inode == i.ptr
  denyCnt : ∀ i ∈ S.fs.openInodes,
    i.denyWriteCnt = S.files.countP fun x => x.file.inode == i.ptr && x.file.denyWrite
  /-- Every file has its inode in the table. -/
  files : ∀ x ∈ S.files, ∃ i ∈ S.fs.openInodes, i.ptr = x.file.inode
  /-- A write is refused while a file of the inode denies writes, and only then. -/
  refused : ∀ i ∈ S.fs.openInodes, (∃ x ∈ S.files, x.file.inode = i.ptr ∧ x.file.denyWrite = true) →
    ∀ buffer offset, inodeWriteAt i.ptr buffer offset S.fs = some (0, S.fs)
  accepted : ∀ i ∈ S.fs.openInodes,
    (∀ x ∈ S.files, x.file.inode = i.ptr → x.file.denyWrite = false) →
    i.data.Fits S.fs.disk.size → ∀ buffer offset, inodeWriteAt i.ptr buffer offset S.fs =
      some (min buffer.length (i.data.length - offset),
        { S.fs with disk := S.fs.disk.written i.data offset buffer })
  /-- No assertion fails, and an inode leaves the table when its last file is closed. -/
  calls : ∀ c : TableCall, c.Valid S → ∃ S', c.step S = some S' ∧ ∀ i ∈ S.fs.openInodes,
    ((∃ i' ∈ S'.fs.openInodes, i'.ptr = i.ptr) ↔ ∃ x ∈ S.files, x.file.inode = i.ptr ∧
      c ≠ .close x.id) ∧
    ∀ i' ∈ S'.fs.openInodes, i'.ptr = i.ptr → i'.sector = i.sector

/-- **The table of open inodes** agrees with the files that are open, after any calls. -/
theorem open_inode_table (h : TableReachable S) : TableOk S := by
  have hS := h.sane
  have ht := hS.opened.table
  have hdeny (i) (hi : i ∈ S.fs.openInodes) := (ht.denyCnt i hi).trans (count_deniers S.files i.ptr)
  refine ⟨ht.sectors, fun i hi => ?_, hdeny, fun x hx => ht.opened _ (mem_openers hx),
    fun i hi hx buffer offset => ?_, fun i hi hx hfit buffer offset => ?_, fun c hc => ?_⟩
  · have hcnt := ht.openCnt i hi
    have hpos := count_pos_iff.mpr (ht.held i hi)
    exact ⟨by omega, hcnt.trans (count_openers S.files i.ptr)⟩
  · refine inodeWriteAt_denied (ht.lookup_eq hi) ?_
    rw [hdeny i hi, ← Nat.pos_iff_ne_zero, countP_pos_iff]
    simpa using hx
  · refine inodeWriteAt_eq (ht.lookup_eq hi) hfit ?_
    rw [hdeny i hi, countP_eq_zero]
    simpa using hx
  · obtain ⟨S', hs, hk⟩ := hS.exists_step hc
    refine ⟨S', hs, fun i hi => ?_⟩
    constructor
    · rw [← hk.files i.ptr (ht.held i hi)]
      constructor
      · rintro ⟨i', hi', he⟩
        exact he ▸ hk.sane.opened.table.held i' hi'
      · exact hk.sane.opened.table.opened i.ptr
    · intro i' hi' he
      -- an address is of one inode for good
      obtain ⟨j, hj, hjp, hjs⟩ := hk.quiet.kept i' hi' (he ▸ ht.fresh i hi)
      obtain rfl := inj_on_of_nodup_map ht.ptrs hj hi (hjp.trans he)
      exact hjs.symm

/-- Two openers of one sector, one of which denies writes, and two calls whose allocation fails. -/
theorem open_inode_table_shared :
    ∃ S, TableReachable S ∧ (∃ i ∈ S.fs.openInodes, i.openCnt = 2 ∧ i.denyWriteCnt = 1) ∧
    TableOk S := by
  have hrun : ((runAll (fun S c => c.Valid S) TableCall.step
      [.open 3 true true, .open 3 true true, .reopen 0 false, .open 4 false true, .denyWrite 1]
      ⟨.boot smallDisk fun _ => false, [], 0⟩).map fun S =>
        S.fs.openInodes.any fun i => i.openCnt == 2 && i.denyWriteCnt == 1) =
          some true := by decide +kernel
  obtain ⟨S, hS, hp⟩ := Option.map_eq_some_iff.mp hrun
  have hr : TableReachable S := of_runAll (fun _ _ _ h hc hs => .step h hc hs) (.init _ rfl) hS
  exact ⟨S, hr, by simpa using hp, open_inode_table hr⟩

end SystemProg.Pintos
