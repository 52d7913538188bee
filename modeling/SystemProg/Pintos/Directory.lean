import SystemProg.Pintos.Invariant

/-!
# Directories

A directory is a file of slots of 20 bytes. The loops of `lookup`, `dir_add` and `dir_readdir` are
one scan that stops at the first slot with a property or at the end of the file
(`scanEntries_spec`). `dir_add` takes the first free slot (`dirAdd_spec`), `dir_remove` erases the
slot with the name and removes the inode (`dirRemove_spec`).
-/

namespace SystemProg.Pintos

open Data Text SystemProg.Seq List

/-- Slot `k` of a directory. -/
def FileSys.slot (fs : FileSys) (r : DirAt) (k : Nat) : DirEntry :=
  fs.disk.slot (fs.disk.inodeAt r.sector) k

theorem FileSys.slot_of_disk {fs fs' : FileSys} {r : DirAt} (h : fs'.disk = fs.disk) :
    fs'.slot r = fs.slot r := by
  funext k
  rw [FileSys.slot, h, FileSys.slot]

/-- `dir` is open, on the directory `r`. -/
def FileSys.IsDir (fs : FileSys) (r : DirAt) (dir : Dir) : Prop :=
  ∃ i ∈ fs.openInodes, i.ptr = dir.inode ∧ i.sector = r.sector

variable {fs fs' : FileSys} {r : DirAt} {H D : List Nat} {Y : Set Nat} {dir : Dir}
  {j k s turns : Nat}
  {q : DirEntry → Bool} {name : List Byte} {e : DirEntry}

theorem length_name_slot (d : Disk) (x : InodeDisk) (k : Nat) :
    (d.slot x k).name.length = nameMax + 1 := by
  rw [Disk.slot, DirEntry.decode, length_take, length_drop, length_slice]
  rfl

section Scan

variable (h : Inv fs r H D Y) (hd : fs.IsDir r dir)

include h hd

theorem dir_inode : ∃ i ∈ fs.openInodes, lookup Inode.ptr fs.openInodes dir.inode = some i ∧
    i.sector = r.sector ∧ i.data = fs.disk.inodeAt r.sector ∧ i.data.length = entrySize * r.slots ∧
    i.data.Fits fs.disk.size ∧ i.denyWriteCnt = 0 ∧ i.removed = false := by
  obtain ⟨i, hi, hp, hs⟩ := hd
  have hdata : i.data = fs.disk.inodeAt r.sector := hs ▸ h.data i hi
  exact ⟨i, hi, hp ▸ h.table.lookup_eq hi, hs, hdata, hdata ▸ h.layout.dirLength, h.fits hi,
    h.special i hi (.inr hs)⟩

theorem read_slot (hk : k < r.slots) : ∃ bs, inodeReadAt dir.inode entrySize (entrySize * k) fs =
    some (bs, fs) ∧ bs.length = entrySize ∧ DirEntry.decode bs = fs.slot r k := by
  obtain ⟨i, -, hi, -, hdata, hlen, hfit, -⟩ := dir_inode h hd
  refine ⟨_, inodeReadAt_eq hi hfit, ?_⟩
  have hle : entrySize * k + entrySize ≤ i.data.length := by
    rw [hlen, ← Nat.mul_succ]
    exact Nat.mul_le_mul_left _ hk
  rw [Disk.contents, drop_slice, take_slice, Nat.min_eq_left (by omega), length_slice]
  exact ⟨rfl, by rw [hdata]; rfl⟩

theorem read_end : inodeReadAt dir.inode entrySize (entrySize * r.slots) fs = some ([], fs) := by
  obtain ⟨i, -, hi, -, -, hlen, hfit, -⟩ := dir_inode h hd
  rw [inodeReadAt_eq hi hfit, Disk.contents, drop_slice, ← hlen, Nat.sub_self]
  rfl

/-- **A scan from slot `k`** ends at the first slot with `q` or at the end of the file. -/
theorem scanEntries_spec (hk : k ≤ r.slots) (ht : r.slots - k < turns) :
    (∃ j, k ≤ j ∧ j < r.slots ∧ q (fs.slot r j) = true ∧
      (∀ l, k ≤ l → l < j → q (fs.slot r l) = false) ∧
      scanEntries dir q turns (entrySize * k) e fs =
        some ((true, fs.slot r j, entrySize * j), fs)) ∨
    ((∀ l, k ≤ l → l < r.slots → q (fs.slot r l) = false) ∧
      ∃ e', scanEntries dir q turns (entrySize * k) e fs =
        some ((false, e', entrySize * r.slots), fs)) := by
  induction turns generalizing k e with
  | zero => exact absurd ht (Nat.not_lt_zero _)
  | succ turns ih =>
    unfold scanEntries
    rcases Nat.eq_or_lt_of_le hk with rfl | hlt
    · refine .inr ⟨fun l h1 h2 => absurd h2 (Nat.not_lt.mpr h1), e, ?_⟩
      rw [bind_eq (read_end h hd), if_pos (by decide)]
      rfl
    obtain ⟨bs, hread, hlen, hdec⟩ := read_slot h hd hlt
    rw [bind_eq hread, if_neg (not_not.mpr hlen), hdec]
    by_cases hq : q (fs.slot r k) = true
    · refine .inl ⟨k, Nat.le_refl k, hlt, hq, fun l h1 h2 => absurd h2 (Nat.not_lt.mpr h1), ?_⟩
      rw [if_pos hq]
      rfl
    · rw [if_neg hq, ← Nat.mul_succ]
      -- what holds from the next slot on holds from this one on
      have hfirst (P : Nat → Prop) (hP : ∀ l, k + 1 ≤ l → P l → q (fs.slot r l) = false) (l : Nat)
          (h1 : k ≤ l) (h2 : P l) : q (fs.slot r l) = false := by
        rcases Nat.eq_or_lt_of_le h1 with rfl | h1
        · exact Bool.eq_false_iff.mpr hq
        · exact hP l h1 h2
      rcases ih (k := k + 1) (e := fs.slot r k) hlt (by omega) with ⟨j, h1, h2, h3, h4, h5⟩ |
        ⟨h1, e', h2⟩
      · exact .inl ⟨j, by omega, h2, h3, hfirst (· < j) h4, h5⟩
      · exact .inr ⟨hfirst (· < r.slots) h1, e', h2⟩

theorem forEntries_spec (q : DirEntry → Bool) :
    (∃ j, j < r.slots ∧ q (fs.slot r j) = true ∧ (∀ l, l < j → q (fs.slot r l) = false) ∧
      forEntries dir q fs = some ((true, fs.slot r j, entrySize * j), fs)) ∨
    ((∀ l, l < r.slots → q (fs.slot r l) = false) ∧
      ∃ e', forEntries dir q fs = some ((false, e', entrySize * r.slots), fs)) := by
  obtain ⟨i, -, hi, -, -, hlen, -⟩ := dir_inode h hd
  have hturns : i.data.length / entrySize + 1 = r.slots + 1 := by
    rw [hlen, Nat.mul_div_cancel_left _ (by decide)]
  have hfor : forEntries dir q fs =
      scanEntries dir q (r.slots + 1) (entrySize * 0) DirEntry.blank fs := by
    rw [forEntries, bind_eq (inode_eq hi), hturns]
    rfl
  rw [hfor]
  rcases scanEntries_spec h hd (q := q) (e := DirEntry.blank) (Nat.zero_le r.slots)
    (by omega : r.slots - 0 < r.slots + 1) with ⟨j, -, h2, h3, h4, h5⟩ | ⟨h1, h2⟩
  · exact .inl ⟨j, h2, h3, fun l => h4 l (Nat.zero_le l), h5⟩
  · exact .inr ⟨fun l => h1 l (Nat.zero_le l), h2⟩

end Scan

/-! ## `lookup` -/

/-- Slot `k` of the directory has the name. -/
@[mk_iff]
structure FileSys.Named (fs : FileSys) (r : DirAt) (name : List Byte) (k : Nat) : Prop where
  lt : k < r.slots
  inUse : (fs.slot r k).inUse = true
  name : cstr (fs.slot r k).name = name

theorem FileSys.Named.links (hn : fs.Named r name k) :
    fs.disk.Links r k (fs.slot r k).inodeSector :=
  ⟨hn.lt, hn.inUse, rfl⟩

theorem FileSys.named_congr (hslots : ∀ j, j < r.slots → fs'.slot r j = fs.slot r j) :
    fs'.Named r name k ↔ fs.Named r name k := by
  rw [FileSys.named_iff, FileSys.named_iff]
  exact and_congr_right fun hk => by rw [hslots k hk]

/-- **`lookup`** finds a slot with the name if there is one. -/
theorem dirFind_spec (h : Inv fs r H D Y) (hd : fs.IsDir r dir) (name : List Byte) :
    (∃ k, fs.Named r name k ∧ dirFind dir name fs = some (some (fs.slot r k, entrySize * k), fs)) ∨
    ((∀ k, ¬fs.Named r name k) ∧ dirFind dir name fs = some (none, fs)) := by
  rcases forEntries_spec h hd fun e => e.inUse && cstr e.name = name with
    ⟨j, hj, hq, -, heq⟩ | ⟨hnone, e', heq⟩
  · rw [Bool.and_eq_true, decide_eq_true_eq] at hq
    refine .inl ⟨j, ⟨hj, hq.1, hq.2⟩, ?_⟩
    rw [dirFind, bind_eq heq]
    rfl
  · refine .inr ⟨fun k hk => ?_, ?_⟩
    · have := hnone k hk.lt
      rw [hk.inUse, hk.name, decide_eq_true rfl] at this
      exact absurd this (by decide)
    · rw [dirFind, bind_eq heq]
      rfl

/-! ## `dir_add` -/

/-- The state after an entry has been written to slot `k`. -/
def FileSys.withEntry (fs : FileSys) (r : DirAt) (k : Nat) (e : DirEntry) : FileSys :=
  { fs with disk := fs.disk.written (fs.disk.inodeAt r.sector) (entrySize * k) e.encode }

theorem write_slot (h : Inv fs r H D Y) (hd : fs.IsDir r dir) (hk : k < r.slots)
    (hn : e.name.length = nameMax + 1) : inodeWriteAt dir.inode e.encode (entrySize * k) fs =
      some (entrySize, fs.withEntry r k e) := by
  obtain ⟨i, -, hi, -, hdata, hlen, hfit, hdeny, -⟩ := dir_inode h hd
  have hle : entrySize * k + entrySize ≤ i.data.length := by
    rw [hlen, ← Nat.mul_succ]
    exact Nat.mul_le_mul_left _ hk
  rw [inodeWriteAt_eq hi hfit hdeny, DirEntry.length_encode hn, Nat.min_eq_left (by omega), hdata,
    FileSys.withEntry]

theorem length_strlcpy {dst src : List Byte} {size : Nat} (hdst : dst.length = size)
    (hsrc : src.length < size) : (strlcpy dst src size).length = size := by
  have htake : src.take (size - 1) = src := take_of_length_le (by omega)
  rw [strlcpy, htake, length_splice, hdst]
  simp only [length_append, length_singleton]
  omega

theorem cstr_strlcpy {dst src : List Byte} {size : Nat} (hsrc : src.length < size)
    (hnul : 0 ∉ src) : cstr (strlcpy dst src size) = src := by
  have htake : src.take (size - 1) = src := take_of_length_le (by omega)
  rw [strlcpy, htake, splice, take_zero, nil_append, append_assoc]
  exact cstr_append_nul hnul _

/-- The reasons for which `dir_add` fails. -/
def FileSys.Rejects (fs : FileSys) (r : DirAt) (name : List Byte) : Prop :=
  name = [] ∨ nameMax < name.length ∨ (∃ j, fs.Named r name j) ∨
    ∀ j, j < r.slots → (fs.slot r j).inUse = true

theorem FileSys.rejects_congr (hslots : ∀ j, j < r.slots → fs'.slot r j = fs.slot r j) :
    fs'.Rejects r name ↔ fs.Rejects r name := by
  simp only [FileSys.Rejects, FileSys.named_congr hslots]
  refine or_congr_right (or_congr_right (or_congr_right ?_))
  exact forall₂_congr fun j hj => by rw [hslots j hj]

/-- **`dir_add`** writes the first free slot, if the name is valid and new and a slot is free. -/
theorem dirAdd_spec (h : Inv fs r H D Y) (hd : fs.IsDir r dir) (name : List Byte) (s : Nat) :
    (∃ k e, name ≠ [] ∧ name.length ≤ nameMax ∧ (∀ j, ¬fs.Named r name j) ∧ k < r.slots ∧
      (fs.slot r k).inUse = false ∧ e.inodeSector = s ∧ e.inUse = true ∧
        e.name.length = nameMax + 1 ∧
      (0 ∉ name → cstr e.name = name) ∧ dirAdd dir name s fs = some (true, fs.withEntry r k e)) ∨
    (fs.Rejects r name ∧ dirAdd dir name s fs = some (false, fs)) := by
  unfold dirAdd
  by_cases hname : name = [] ∨ nameMax < name.length
  · refine .inr ⟨hname.imp_right .inl, ?_⟩
    rw [if_pos hname]
    rfl
  rw [if_neg hname]
  obtain ⟨hne, hlen⟩ := not_or.mp hname
  rcases dirFind_spec h hd name with ⟨k, hk, heq⟩ | ⟨hnone, heq⟩
  · refine .inr ⟨.inr (.inr (.inl ⟨k, hk⟩)), ?_⟩
    rw [bind_eq heq]
    rfl
  rw [bind_eq heq, if_neg (by decide)]
  rcases forEntries_spec h hd fun e => !e.inUse with ⟨k, hk, hq, -, heq⟩ | ⟨hfull, e', heq⟩
  · have hlen' := length_name_slot fs.disk (fs.disk.inodeAt r.sector) k
    let e : DirEntry := ⟨s, strlcpy (fs.slot r k).name name (nameMax + 1), true⟩
    have hn : e.name.length = nameMax + 1 := length_strlcpy hlen' (by omega)
    refine .inl ⟨k, e, hne, Nat.not_lt.mp hlen, hnone, hk, by simpa using hq, rfl, rfl, hn,
      fun hnul => cstr_strlcpy (by omega) hnul, ?_⟩
    rw [bind_eq heq]
    exact (bind_eq (write_slot h hd hk hn)).trans rfl
  · refine .inr ⟨.inr (.inr (.inr fun j hj => by simpa using hfull j hj)), ?_⟩
    obtain ⟨i, -, hi, -, -, hilen, hfit, hdeny, -⟩ := dir_inode h hd
    rw [bind_eq heq]
    refine (bind_eq (inodeWriteAt_eq hi hfit hdeny)).trans ?_
    rw [hilen, Nat.sub_self, Nat.min_zero, pure_eq, Disk.written, hilen, Nat.sub_self, take_zero]
    exact congrArg (fun fs => some (false, fs)) (FileSys.patched_nil fs _)

/-! ## An entry written -/

section Entry

variable (h : Inv fs r H D Y) (hk : k < r.slots) (hs : e.inodeSector < 2 ^ 32)
  (hn : e.name.length = nameMax + 1)

include h hk hs hn

theorem slot_withEntry (j : Nat) :
    (fs.withEntry r k e).slot r j = if j = k then e else fs.slot r j := by
  have hi : (fs.withEntry r k e).disk.inodeAt r.sector = fs.disk.inodeAt r.sector :=
    (agreeOff_written _ _ _ _).inodeAt (h.layout.apart _ Layout.dir_mem)
  rw [FileSys.slot, hi]
  exact h.layout.slot_entry hk hs hn j

/-- The invariant after an entry has been written; what is removed must not be linked. -/
theorem Inv.entry {Y' : Set Nat}
    (hl : Layout (fs.withEntry r k e).disk fs.freeMap r fs.openSectors Y')
    (hr : e.inUse = true → ∀ i ∈ fs.openInodes, i.sector = e.inodeSector → i.removed = false) :
    Inv (fs.withEntry r k e) r H D Y' := by
  have ha := agreeOff_written fs.disk (fs.disk.inodeAt r.sector) (entrySize * k) e.encode
  refine h.disk hl
    (fun i hi => ha.inodeAt (h.layout.not_mem_extent (fs.mem_live hi) Layout.dir_mem)) ?_
  intro i hi hrem j hj
  rw [h.layout.links_entry hk hs hn] at hj
  by_cases hjk : j = k
  · rw [if_pos hjk] at hj
    exact absurd (hrem ▸ hr hj.1 i hi hj.2.symm) (by decide)
  · rw [if_neg hjk] at hj
    exact h.removed i hi hrem j hj

end Entry

section Frame

variable {X : Set Nat}

/-- What stays outside the directory does not change its slots. -/
theorem slot_of_agreeOff (h : Inv fs r H D Y) (ha : AgreeOff X fs.disk fs'.disk) (hr : r.sector ∉ X)
    (hdir : Disjoint (fs.disk.inodeAt r.sector).extent X) (hj : j < r.slots) :
    fs'.slot r j = fs.slot r j := by
  rw [FileSys.slot, ha.inodeAt hr]
  exact ha.slot hdir (by rw [h.layout.dirLength]; exact Nat.mul_le_mul_left _ hj)

/-- An open directory stays open while it has an opener. -/
theorem Quiet.isDir {H' D' : List Nat} {Y' : Set Nat} (hq : Quiet X fs fs') (h : Inv fs r H D Y)
    (h' : Inv fs' r H' D' Y') (hp : dir.inode ∈ H') (hd : fs.IsDir r dir) : fs'.IsDir r dir := by
  obtain ⟨i, hi, hip, his⟩ := hd
  obtain ⟨i', hi', hip', his'⟩ := hq.still h h' (hip ▸ hp) hi
  exact ⟨i', hi', hip'.trans hip, his'.trans his⟩

end Frame

theorem Quiet.withEntry (fs : FileSys) (r : DirAt) (k : Nat) (e : DirEntry) :
    Quiet (fs.disk.inodeAt r.sector).extent fs (fs.withEntry r k e) :=
  .of_disk (agreeOff_written _ _ _ _)

/-! ## `dir_remove` -/

section Erase

variable (h : Inv fs r H D Y) (hk : fs.disk.Links r k s) (hs : e.inodeSector < 2 ^ 32)
  (hn : e.name.length = nameMax + 1) (huse : e.inUse = false)

include h hk hs hn huse

theorem Inv.erase : Inv (fs.withEntry r k e) r H D Y :=
  h.entry hk.lt hs hn (h.layout.unlink hk.lt hs hn huse) fun hc =>
    absurd (huse ▸ hc) Bool.false_ne_true

theorem not_links_erase (j : Nat) : ¬(fs.withEntry r k e).disk.Links r j s := by
  intro hj
  rw [FileSys.withEntry, h.layout.links_entry hk.lt hs hn] at hj
  by_cases hjk : j = k
  · rw [if_pos hjk] at hj
    exact absurd (huse ▸ hj.1) Bool.false_ne_true
  · rw [if_neg hjk] at hj
    exact hjk (h.layout.slots j k _ hj hk)

end Erase

/-- **`dir_remove`** erases the slot with the name; the inode goes when it is closed. -/
theorem dirRemove_spec (h : Inv fs r H D Y) (hd : fs.IsDir r dir) (hp : dir.inode ∈ H)
    (name : List Byte) :
    wp (dirRemove dir name) (fun ok fs' => Inv fs' r H D Y ∧ Quiet (fs.disk.meta r) fs fs' ∧
      (ok = true → ∃ k, fs.Named r name k ∧ ∀ j, j < r.slots →
        fs'.slot r j = if j = k then (fs.slot r k).erased else fs.slot r j) ∧
      (ok = false → (∀ k, ¬fs.Named r name k) ∧ fs' = fs)) fs := by
  unfold dirRemove
  rcases dirFind_spec h hd name with ⟨k, hk, heq⟩ | ⟨hnone, heq⟩
  swap
  · exact wp_call heq (wp_pure ⟨h, .refl fs, fun hc => absurd hc (by decide), fun _ => ⟨hnone,
    rfl⟩⟩)
  refine wp_call heq ?_
  -- the inode of the slot is opened
  have hlive : (fs.slot r k).inodeSector ∈ fs.live r := Layout.link_mem hk.links
  have hfiles := h.layout.files k _ hk.links
  have hs : (fs.slot r k).inodeSector < 2 ^ 32 := by
    have := h.lt_size hlive
    have := h.layout.small
    omega
  refine wp_bind (inodeOpen_spec h hlive) fun p fs1 ⟨h1, hq1, hdisk1, _, i, hi, hip, his⟩ => ?_
  have hd1 : fs1.IsDir r dir := hq1.isDir h h1 (mem_cons_of_mem _ hp) hd
  have hslot1 : fs1.slot r = fs.slot r := FileSys.slot_of_disk hdisk1
  have hlinks1 : fs1.disk.Links r k i.sector := hdisk1 ▸ his ▸ hk.links
  -- the slot is erased, the inode removed
  obtain ⟨e, he⟩ : ∃ e, e = (fs.slot r k).erased := ⟨_, rfl⟩
  have hn : e.name.length = nameMax + 1 := by
    rw [he]
    exact length_name_slot _ _ _
  have huse : e.inUse = false := by rw [he, DirEntry.erased]
  have hse : e.inodeSector = i.sector := by rw [he, DirEntry.erased, his]
  rw [← his] at hs hfiles
  rw [← he]
  refine wp_call (write_slot h1 hd1 hk.lt hn) ?_
  rw [if_pos rfl]
  have h2 : Inv (fs1.withEntry r k e) r (p :: H) D Y := h1.erase hlinks1 (hse ▸ hs) hn huse
  have h3 := h2.markRemoved hi hfiles.1 hfiles.2 (not_links_erase h1 hlinks1 (hse ▸ hs) hn huse)
  have hi2 : lookup Inode.ptr (fs1.withEntry r k e).openInodes i.ptr = some i :=
    h1.table.lookup_eq hi
  subst hip
  refine wp_call (modifyInode_eq hi2) ?_
  obtain ⟨fs3, hfs3⟩ : ∃ fs3, fs3 = (fs1.withEntry r k e).setInode i.ptr fun i =>
    { i with removed := true } :=
    ⟨_, rfl⟩
  have hi3 : lookup Inode.ptr fs3.openInodes i.ptr = some { i with removed := true } := by
    rw [hfs3]
    exact lookup_update (fun _ => rfl) hi2
  have hq3 : Quiet (fs.disk.meta r) (fs1.withEntry r k e) fs3 := by
    rw [hfs3]
    exact .of_setInode (fun _ => rfl) fun _ => rfl
  have hdisk3 : fs3.disk = (fs1.withEntry r k e).disk := by rw [hfs3]; rfl
  rw [← hfs3] at h3 ⊢
  -- and closed
  refine wp_bind (inodeClose_spec h3 hi3 hfiles.1 (h.table.denying _)) fun _ fs4 ⟨h4, hq4, _⟩ =>
    wp_pure ⟨h4, ?_, fun _ => ⟨k, hk, fun j hj => ?_⟩, fun hc => absurd hc (by decide)⟩
  · have hmap : fs3.disk.inodeAt freeMapSector = fs.disk.inodeAt freeMapSector := by
      rw [hdisk3, ← hdisk1]
      exact (agreeOff_written _ _ _ _).inodeAt
        (h1.layout.not_mem_extent Layout.map_mem Layout.dir_mem)
    have hq2 := Quiet.withEntry fs1 r k e
    rw [hdisk1] at hq2
    rw [hmap] at hq4
    refine (hq1.mono (Set.empty_subset _)).trans ((hq2.mono Set.subset_union_right).trans ?_)
    exact hq3.trans (hq4.mono Set.subset_union_left)
  · rw [slot_of_agreeOff h3 hq4.disk (h3.layout.not_mem_extent Layout.dir_mem Layout.map_mem)
      (h3.layout.extent_disjoint Layout.dir_mem Layout.map_mem h.layout.dirSector) hj,
      FileSys.slot_of_disk hdisk3, slot_withEntry h1 hk.lt (hse ▸ hs) hn j, hslot1, he]

end SystemProg.Pintos
