import SystemProg.Data.Tally
import SystemProg.Pintos.Inode

/-!
# The table of open inodes

`H` lists the openers of inodes, each by the address of its inode, and `D` those of them that deny
writes. `Table` says that no sector has two inodes, that `open_cnt` and `deny_write_cnt` count the
openers and the deniers, and that an inode is in the table exactly while it has an opener.
-/

namespace SystemProg.Pintos

open Data Text SystemProg.Seq List

/-- The open inodes, with openers `H` and deniers `D`. -/
structure Table (l : List Inode) (next : Nat) (H D : List Nat) : Prop where
  ptrs : (l.map Inode.ptr).Nodup
  sectors : (l.map Inode.sector).Nodup
  fresh : ∀ i ∈ l, i.ptr < next
  openCnt : Tallies Inode.ptr Inode.openCnt l H
  denyCnt : Tallies Inode.ptr Inode.denyWriteCnt l D
  held : ∀ i ∈ l, i.ptr ∈ H
  opened : ∀ p ∈ H, ∃ i ∈ l, i.ptr = p
  denying : ∀ p, D.count p ≤ H.count p

namespace Table

variable {l : List Inode} {next p s : Nat} {H H' D D' : List Nat} {i : Inode} {x : InodeDisk}
  {f : Inode → Inode}

theorem lookup_eq (h : Table l next H D) (hi : i ∈ l) : lookup Inode.ptr l i.ptr = some i :=
  lookup_of_mem h.ptrs hi

theorem lookup_of_held (h : Table l next H D) (hp : p ∈ H) :
    ∃ i ∈ l, i.ptr = p ∧ lookup Inode.ptr l p = some i := by
  obtain ⟨i, hi, rfl⟩ := h.opened p hp
  exact ⟨i, hi, rfl, h.lookup_eq hi⟩

theorem perm (h : Table l next H D) (hH : H.Perm H') (hD : D.Perm D') : Table l next H' D' where
  ptrs := h.ptrs
  sectors := h.sectors
  fresh := h.fresh
  openCnt := h.openCnt.perm hH
  denyCnt := h.denyCnt.perm hD
  held i hi := hH.mem_iff.mp (h.held i hi)
  opened p hp := h.opened p (hH.mem_iff.mpr hp)
  denying p := by
    rw [← hH.count_eq, ← hD.count_eq]
    exact h.denying p

theorem update (h : Table l next H D) (hptr : ∀ i, (f i).ptr = i.ptr)
    (hsector : ∀ i, (f i).sector = i.sector)
    (hopen : Tallies Inode.ptr Inode.openCnt (update Inode.ptr l p f) H')
    (hdeny : Tallies Inode.ptr Inode.denyWriteCnt (Data.update Inode.ptr l p f) D')
    (hH : ∀ q, q ∈ H' ↔ q ∈ H) (hle : ∀ q, D'.count q ≤ H'.count q) :
    Table (Data.update Inode.ptr l p f) next H' D' := by
  have hmem {j : Inode} (hj : j ∈ Data.update Inode.ptr l p f) : ∃ i ∈ l, i.ptr = j.ptr := by
    rcases mem_update hj with ⟨i, hi, -, rfl⟩ | ⟨hj, -⟩
    · exact ⟨i, hi, (hptr i).symm⟩
    · exact ⟨j, hj, rfl⟩
  refine ⟨?_, ?_, ?_, hopen, hdeny, ?_, ?_, hle⟩
  · rw [map_update hptr]
    exact h.ptrs
  · rw [map_update hsector]
    exact h.sectors
  · intro j hj
    obtain ⟨i, hi, he⟩ := hmem hj
    exact he ▸ h.fresh i hi
  · intro j hj
    obtain ⟨i, hi, he⟩ := hmem hj
    exact he ▸ (hH _).mpr (h.held i hi)
  · intro q hq
    obtain ⟨i, hi, rfl⟩ := h.opened q ((hH q).mp hq)
    have : i.ptr ∈ (Data.update Inode.ptr l p f).map Inode.ptr := by
      rw [map_update hptr]
      exact mem_map_of_mem hi
    exact mem_map.mp this

theorem touch (h : Table l next H D) (hptr : ∀ i, (f i).ptr = i.ptr)
    (hsector : ∀ i, (f i).sector = i.sector)
    (hopen : ∀ i, (f i).openCnt = i.openCnt) (hdeny : ∀ i, (f i).denyWriteCnt = i.denyWriteCnt) :
    Table (Data.update Inode.ptr l p f) next H D :=
  h.update hptr hsector (h.openCnt.keep hptr hopen) (h.denyCnt.keep hptr hdeny) (fun _ => Iff.rfl)
    h.denying

theorem reopen (h : Table l next H D) (hp : p ∈ H) :
    Table (Data.update Inode.ptr l p fun i => { i with openCnt := i.openCnt + 1 }) next (p :: H)
      D := by
  refine h.update (fun _ => rfl) (fun _ => rfl) (h.openCnt.acquire (fun _ => rfl) fun _ => rfl)
    (h.denyCnt.keep (fun _ => rfl) fun _ => rfl) (fun q => ?_) fun q =>
      Nat.le_trans (h.denying q) count_le_count_cons
  rw [mem_cons, or_iff_right_iff_imp]
  exact fun he => he ▸ hp

theorem insert (h : Table l next H D) (hs : ∀ i ∈ l, i.sector ≠ s) :
    Table (⟨next, s, 1, 0, false, x⟩ :: l) (next + 1) (next :: H) D := by
  have hne (i) (hi : i ∈ l) : i.ptr ≠ next := Nat.ne_of_lt (h.fresh i hi)
  have hH : next ∉ H := fun hn => by
    obtain ⟨i, hi, he⟩ := h.opened next hn
    exact hne i hi he
  have hD : D.count next = 0 := Nat.le_zero.mp (count_eq_zero.mpr hH ▸ h.denying next)
  refine ⟨?_, ?_, ?_, ?_, ?_, ?_, ?_, ?_⟩
  · refine nodup_cons.mpr ⟨fun hm => ?_, h.ptrs⟩
    obtain ⟨i, hi, he⟩ := mem_map.mp hm
    exact hne i hi he
  · refine nodup_cons.mpr ⟨fun hm => ?_, h.sectors⟩
    obtain ⟨i, hi, he⟩ := mem_map.mp hm
    exact hs i hi he
  · exact forall_mem_cons.mpr ⟨Nat.lt_succ_self _, fun i hi =>
    Nat.lt_succ_of_lt (h.fresh i hi)⟩
  · refine h.openCnt.cons ?_ fun i hi => count_cons_of_ne (Ne.symm (hne i hi))
    show 1 = (next :: H).count next
    rw [count_cons_self, count_eq_zero.mpr hH]
  · exact h.denyCnt.cons hD.symm fun _ _ => rfl
  · exact forall_mem_cons.mpr ⟨mem_cons_self, fun i hi =>
    mem_cons_of_mem _ (h.held i hi)⟩
  · refine forall_mem_cons.mpr ⟨⟨_, mem_cons_self, rfl⟩, fun p hp => ?_⟩
    obtain ⟨i, hi, he⟩ := h.opened p hp
    exact ⟨i, mem_cons_of_mem _ hi, he⟩
  · exact fun q => Nat.le_trans (h.denying q) count_le_count_cons

theorem denying_of_close (h : Table l next (p :: H) D) (hD : D.count p ≤ H.count p) (q : Nat) :
    D.count q ≤ H.count q := by
  by_cases hq : q = p
  · exact hq ▸ hD
  · have := h.denying q
    rwa [count_cons_of_ne (Ne.symm hq)] at this

theorem close (h : Table l next (p :: H) D) (hi : lookup Inode.ptr l p = some i)
    (hcnt : i.openCnt ≠ 1)
    (hD : D.count p ≤ H.count p) :
    Table (Data.update Inode.ptr l p fun i => { i with openCnt := i.openCnt - 1 }) next H D := by
  obtain ⟨hmem, rfl⟩ := mem_of_lookup hi
  have hp : i.ptr ∈ H := by
    have := h.openCnt i hmem
    rw [count_cons_self] at this
    exact count_pos_iff.mp (by omega)
  refine h.update (fun _ => rfl) (fun _ => rfl) (h.openCnt.release (fun _ => rfl) fun _ => rfl)
    (h.denyCnt.keep (fun _ => rfl) fun _ => rfl) (fun q => ?_) (h.denying_of_close hD)
  rw [mem_cons, iff_or_self]
  exact fun he => he ▸ hp

theorem last (h : Table l next (p :: H) D) (hi : lookup Inode.ptr l p = some i)
    (hcnt : i.openCnt = 1)
    (hD : D.count p ≤ H.count p) : Table (remove Inode.ptr l p) next H D := by
  obtain ⟨hmem, rfl⟩ := mem_of_lookup hi
  have hp : i.ptr ∉ H := by
    have := h.openCnt i hmem
    rw [count_cons_self] at this
    exact count_eq_zero.mp (by omega)
  have hsub : (remove Inode.ptr l i.ptr).Sublist l := remove_sublist
  refine ⟨h.ptrs.sublist (hsub.map _), h.sectors.sublist (hsub.map _),
    fun j hj => h.fresh j (hsub.mem hj), h.openCnt.remove fun q hq => ?_,
    h.denyCnt.remove fun _ _ => rfl, fun j hj => ?_, fun q hq => ?_, h.denying_of_close hD⟩
  · exact (count_cons_of_ne (Ne.symm hq)).symm
  · obtain ⟨hj, hne⟩ := mem_remove.mp hj
    exact (mem_cons.mp (h.held j hj)).resolve_left hne
  · obtain ⟨j, hj, rfl⟩ := h.opened q (mem_cons_of_mem _ hq)
    exact ⟨j, mem_remove.mpr ⟨hj, fun he => hp (he ▸ hq)⟩, rfl⟩

/-- `inode_deny_write`, by an opener that does not deny writes yet. -/
theorem deny (h : Table l next H D) (hp : D.count p < H.count p) :
    Table (Data.update Inode.ptr l p fun i => { i with denyWriteCnt := i.denyWriteCnt + 1 }) next H
      (p :: D) := by
  refine h.update (fun _ => rfl) (fun _ => rfl) (h.openCnt.keep (fun _ => rfl) fun _ => rfl)
    (h.denyCnt.acquire (fun _ => rfl) fun _ => rfl) (fun _ => Iff.rfl) fun q => ?_
  by_cases hq : q = p
  · rw [hq, count_cons_self]
    exact hp
  · rw [count_cons_of_ne (Ne.symm hq)]
    exact h.denying q

/-- `inode_allow_write`, by an opener that denies writes. -/
theorem allow (h : Table l next H (p :: D)) :
    Table (Data.update Inode.ptr l p fun i => { i with denyWriteCnt := i.denyWriteCnt - 1 })
      next H D :=
  h.update (fun _ => rfl) (fun _ => rfl) (h.openCnt.keep (fun _ => rfl) fun _ => rfl)
    (h.denyCnt.release (fun _ => rfl) fun _ => rfl) (fun _ => Iff.rfl) fun q =>
      Nat.le_trans count_le_count_cons (h.denying q)

end Table

/-! ## The functions on the table -/

variable {fs : FileSys} {p s : Nat} {i : Inode} {f : Inode → Inode}

/-- The state with another inode in place of `*p`. -/
def FileSys.setInode (fs : FileSys) (p : Nat) (f : Inode → Inode) : FileSys :=
  { fs with openInodes := update Inode.ptr fs.openInodes p f }

theorem modifyInode_eq (hi : lookup Inode.ptr fs.openInodes p = some i) :
    modifyInode p f fs = some ((), fs.setInode p f) :=
  bind_eq (inode_eq hi)

theorem inodeOpen_old (hs : lookup Inode.sector fs.openInodes s = some i)
    (hi : lookup Inode.ptr fs.openInodes i.ptr = some i) : inodeOpen s fs =
      some (i.ptr, fs.setInode i.ptr fun i => { i with openCnt := i.openCnt + 1 }) := by
  rw [inodeOpen, get_bind, hs]
  exact bind_eq (modifyInode_eq hi)

theorem inodeOpen_new (hs : lookup Inode.sector fs.openInodes s = none) (hlt : s < fs.disk.size) :
    inodeOpen s fs = some (fs.nextPtr, { fs with
      openInodes := ⟨fs.nextPtr, s, 1, 0, false, fs.disk.inodeAt s⟩ :: fs.openInodes
      nextPtr := fs.nextPtr + 1 }) := by
  rw [inodeOpen, get_bind, hs]
  exact bind_eq (blockRead_eq hlt)

theorem inodeDenyWrite_eq (hi : lookup Inode.ptr fs.openInodes p = some i)
    (hle : i.denyWriteCnt + 1 ≤ i.openCnt) : inodeDenyWrite p fs =
      some ((), fs.setInode p fun i => { i with denyWriteCnt := i.denyWriteCnt + 1 }) := by
  rw [inodeDenyWrite, bind_eq (modifyInode_eq hi)]
  have hi' :
    lookup Inode.ptr
    (fs.setInode p fun i => { i with denyWriteCnt := i.denyWriteCnt + 1 }).openInodes
      p = some _ := lookup_update (fun _ => rfl) hi
  rw [bind_eq (inode_eq hi')]
  exact assert_eq hle

theorem inodeAllowWrite_eq (hi : lookup Inode.ptr fs.openInodes p = some i)
    (hpos : 0 < i.denyWriteCnt) (hle : i.denyWriteCnt ≤ i.openCnt) : inodeAllowWrite p fs =
      some ((), fs.setInode p fun i => { i with denyWriteCnt := i.denyWriteCnt - 1 }) := by
  rw [inodeAllowWrite, bind_eq (inode_eq hi), bind_eq (assert_eq hpos), bind_eq (assert_eq hle),
    modifyInode_eq hi]

theorem inodeClose_eq (hi : lookup Inode.ptr fs.openInodes p = some i) (hcnt : i.openCnt ≠ 1) :
    inodeClose p fs = some ((), fs.setInode p fun i => { i with openCnt := i.openCnt - 1 }) := by
  rw [inodeClose, bind_eq (inode_eq hi), if_neg hcnt, modifyInode_eq hi]

/-- The last `inode_close` of an inode that has not been removed. -/
theorem inodeClose_last (hi : lookup Inode.ptr fs.openInodes p = some i) (hcnt : i.openCnt = 1)
    (hrem : i.removed = false) : inodeClose p fs =
      some ((), { fs with openInodes := remove Inode.ptr fs.openInodes p }) := by
  rw [inodeClose, bind_eq (inode_eq hi), if_pos hcnt, bind_eq modify_eq, hrem]
  rfl

end SystemProg.Pintos
