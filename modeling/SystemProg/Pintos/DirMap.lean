import SystemProg.Pintos.Runs

/-!
# A directory is a finite map

The functions of `directory.c` on one open directory, in any order (`DirRuns`). The directory is the
root, or one made with any capacity on a file system in use; the sectors given to `dir_add` are
those of inodes that `inode_create` has made and that have not been given to it before.

A log keeps the names that were added, each with its sector, and those that were removed; `current`
is the map it stands for. `Holds` says that the slots in use hold that map, each name in one slot.
-/

namespace SystemProg.Pintos

open Data Text SystemProg.Seq List
open Option (some.inj bind_eq_bind)

/-! ## Runs -/

/-- A change of the directory. -/
inductive DirEvent where
  | added (name : List Byte) (sector : Nat)
  | removed (name : List Byte)

/-- The sector a name was last added with, unless it has been removed since. The last event is in
front. -/
def current : List DirEvent → List Byte → Option Nat
  | [], _ => none
  | .added n s :: log, name => if name = n then some s else current log name
  | .removed n :: log, name => if name = n then none else current log name

/-- A run's state. -/
structure DirState where
  fs : FileSys
  dir : Dir
  /-- Inodes that have been created and not been passed to `dir_add`. -/
  fresh : List Nat
  /-- Inodes that `dir_lookup` has opened. -/
  held : List Nat
  log : List DirEvent

/-- The events of a call that returned `ok`. -/
def DirState.record (S : DirState) (ok : Bool) (e : DirEvent) : List DirEvent :=
  if ok then e :: S.log else S.log

/-- Calls on one open directory. -/
inductive DirRuns : DirAt → DirState → Prop
  | root {S : State} {p : Nat} {fs : FileSys} (hS : Reachable S)
      (hopen : inodeOpen rootDirSector S.fs = some (p, fs))
      (hempty : ∀ k, k < DirAt.root.slots → (S.fs.slot .root k).inUse = false) :
      DirRuns .root ⟨fs, dirOpen p, [], [], []⟩
  | made {S : State} {s p entryCnt : Nat} {fs1 fs2 fs3 : FileSys} (hS : Reachable S)
      (halloc : freeMapAllocate 1 S.fs = some (some s, fs1))
      (hmade : dirCreate s entryCnt fs1 = some (true, fs2))
        (hopen : inodeOpen s fs2 = some (p, fs3)) :
      DirRuns ⟨s, entryCnt⟩ ⟨fs3, dirOpen p, [], [], []⟩
  | create {r : DirAt} {S : DirState} {s length : Nat} {fs1 fs2 : FileSys} (h : DirRuns r S)
      (hlen : length < 2 ^ 31) (halloc : freeMapAllocate 1 S.fs = some (some s, fs1))
      (hmade : inodeCreate s length fs1 = some (true, fs2)) :
      DirRuns r { S with fs := fs2, fresh := s :: S.fresh }
  | add {r : DirAt} {S : DirState} {name : List Byte} {s : Nat} {ok : Bool} {fs' : FileSys}
      (h : DirRuns r S) (hnul : 0 ∉ name) (hs : s ∈ S.fresh)
      (hadd : dirAdd S.dir name s S.fs = some (ok, fs')) :
      DirRuns r { S with fs := fs', fresh := S.fresh.erase s, log := S.record ok (.added name s) }
  | remove {r : DirAt} {S : DirState} {name : List Byte} {ok : Bool} {fs' : FileSys}
      (h : DirRuns r S)
      (hremove : dirRemove S.dir name S.fs = some (ok, fs')) :
      DirRuns r { S with fs := fs', log := S.record ok (.removed name) }
  | lookup {r : DirAt} {S : DirState} {name : List Byte} {p : Option Nat} {fs' : FileSys}
      (h : DirRuns r S) (hlookup : dirLookup S.dir name S.fs = some (p, fs')) :
      DirRuns r { S with fs := fs', held := p.toList ++ S.held }
  | close {r : DirAt} {S : DirState} {p : Nat} {u : Unit} {fs' : FileSys} (h : DirRuns r S)
      (hp : p ∈ S.held) (hclose : inodeClose p S.fs = some (u, fs')) :
      DirRuns r { S with fs := fs', held := S.held.erase p }
  | readdir {r : DirAt} {S : DirState} {name : Option (List Byte)} {dir : Dir} {fs' : FileSys}
      (h : DirRuns r S) (hread : dirReaddir S.dir S.fs = some ((name, dir), fs')) :
      DirRuns r { S with fs := fs', dir := dir }

/-! ## The slots hold the map -/

variable {fs fs' : FileSys} {r : DirAt} {H D : List Nat} {Y Y' : Set Nat} {dir : Dir}
  {s t j k n turns : Nat}
  {name : List Byte} {e : DirEntry} {x : InodeDisk} {log : List DirEvent} {l : List Nat}

/-- The slots hold the map of the log. -/
structure Holds (fs : FileSys) (r : DirAt) (log : List DirEvent) : Prop where
  valid : ∀ name k, fs.Named r name k → name ≠ [] ∧ name.length ≤ nameMax
  unique : ∀ name j k, fs.Named r name j → fs.Named r name k → j = k
  current : ∀ name s, current log name = some s ↔
    ∃ k, fs.Named r name k ∧ (fs.slot r k).inodeSector = s

namespace Holds

theorem empty (hempty : ∀ k, k < r.slots → (fs.slot r k).inUse = false) : Holds fs r [] := by
  have hnone (name k) : ¬fs.Named r name k := fun hk => by
    have := hempty k hk.lt
    rw [hk.inUse] at this
    cases this
  refine ⟨fun name k hk => absurd hk (hnone name k), fun name j _ hj => absurd hj (hnone name j),
    ?_⟩
  intro name s
  refine ⟨fun h => absurd h (by simp [Pintos.current]), ?_⟩
  rintro ⟨k, hk, -⟩
  exact absurd hk (hnone name k)

theorem keep (h : Holds fs r log) (hslots : ∀ j, j < r.slots → fs'.slot r j = fs.slot r j) :
    Holds fs' r log := by
  have hnamed (name k) : fs'.Named r name k ↔ fs.Named r name k := FileSys.named_congr hslots
  refine ⟨fun name k hk => h.valid name k ((hnamed name k).mp hk), fun name j k hj hk =>
    h.unique name j k ((hnamed name j).mp hj) ((hnamed name k).mp hk), fun name s => ?_⟩
  rw [h.current]
  refine exists_congr fun k => ?_
  rw [hnamed]
  exact and_congr_right fun hk => by rw [hslots k hk.lt]

theorem current_eq_none (h : Holds fs r log) :
    Pintos.current log name = none ↔ ∀ k, ¬fs.Named r name k := by
  constructor
  · intro hc k hk
    have := (h.current name _).mpr ⟨k, hk, rfl⟩
    rw [hc] at this
    cases this
  · intro hnone
    cases hc : Pintos.current log name with
    | none => rfl
    | some s =>
      obtain ⟨k, hk, -⟩ := (h.current name s).mp hc
      exact absurd hk (hnone k)

theorem named_update (hslots : ∀ j, j < r.slots → fs'.slot r j = if j = k then e else fs.slot r j)
    (hk : k < r.slots) : fs'.Named r name j ↔
      if j = k then e.inUse = true ∧ cstr e.name = name else fs.Named r name j := by
  rw [FileSys.named_iff, FileSys.named_iff]
  by_cases hj : j = k
  · subst hj
    rw [if_pos rfl, hslots j hk, if_pos rfl, and_iff_right hk]
  · rw [if_neg hj]
    refine and_congr_right fun hlt => ?_
    rw [hslots j hlt, if_neg hj]

theorem add (h : Holds fs r log) (hname : name ≠ [] ∧ name.length ≤ nameMax)
    (hnew : ∀ j, ¬fs.Named r name j) (hk : k < r.slots) (hfree : (fs.slot r k).inUse = false)
    (huse : e.inUse = true) (hcstr : cstr e.name = name) (hs : e.inodeSector = s)
    (hslots : ∀ j, j < r.slots → fs'.slot r j = if j = k then e else fs.slot r j) :
    Holds fs' r (.added name s :: log) := by
  have hnamed (m j) : fs'.Named r m j ↔
      if j = k then e.inUse = true ∧ cstr e.name = m else fs.Named r m j := named_update hslots hk
  have hkn (m) : ¬fs.Named r m k := fun hm => by
    have := hm.inUse
    rw [hfree] at this
    cases this
  refine ⟨fun m j hj => ?_, fun m i j hi hj => ?_, fun m t => ?_⟩
  · rw [hnamed] at hj
    by_cases hjk : j = k
    · rw [if_pos hjk] at hj
      exact hj.2 ▸ hcstr ▸ hname
    · rw [if_neg hjk] at hj
      exact h.valid m j hj
  · rw [hnamed] at hi hj
    by_cases hik : i = k <;> by_cases hjk : j = k
    · rw [hik, hjk]
    · rw [if_pos hik] at hi
      rw [if_neg hjk, ← hi.2, hcstr] at hj
      exact absurd hj (hnew j)
    · rw [if_pos hjk] at hj
      rw [if_neg hik, ← hj.2, hcstr] at hi
      exact absurd hi (hnew i)
    · rw [if_neg hik] at hi
      rw [if_neg hjk] at hj
      exact h.unique m i j hi hj
  · rw [Pintos.current]
    by_cases hm : m = name
    · subst hm
      rw [if_pos rfl, Option.some.injEq]
      refine ⟨fun hst => ⟨k, ?_, ?_⟩, ?_⟩
      · rw [hnamed, if_pos rfl]
        exact ⟨huse, hcstr⟩
      · rw [hslots k hk, if_pos rfl, hs, hst]
      · rintro ⟨j, hj, hjs⟩
        rw [hnamed] at hj
        by_cases hjk : j = k
        · rw [hjk, hslots k hk, if_pos rfl, hs] at hjs
          exact hjs
        · rw [if_neg hjk] at hj
          exact absurd hj (hnew j)
    · rw [if_neg hm, h.current]
      refine exists_congr fun j => ?_
      rw [hnamed]
      by_cases hjk : j = k
      · subst hjk
        rw [if_pos rfl]
        exact ⟨fun hj => absurd hj.1 (hkn m), fun hj => absurd (hj.1.2.symm.trans hcstr) hm⟩
      · rw [if_neg hjk]
        exact and_congr_right fun hj => by rw [hslots j hj.lt, if_neg hjk]

theorem remove (h : Holds fs r log) (hk : fs.Named r name k) (huse : e.inUse = false)
    (hslots : ∀ j, j < r.slots → fs'.slot r j = if j = k then e else fs.slot r j) :
    Holds fs' r (.removed name :: log) := by
  have hnamed (m j) : fs'.Named r m j ↔ j ≠ k ∧ fs.Named r m j := by
    rw [named_update hslots hk.lt]
    by_cases hjk : j = k
    · rw [if_pos hjk, huse]
      exact ⟨fun hj => absurd hj.1 (by decide), fun hj => absurd hjk hj.1⟩
    · rw [if_neg hjk, and_iff_right hjk]
  refine ⟨fun m j hj => h.valid m j ((hnamed m j).mp hj).2, fun m i j hi hj =>
    h.unique m i j ((hnamed m i).mp hi).2 ((hnamed m j).mp hj).2, fun m t => ?_⟩
  rw [Pintos.current]
  by_cases hm : m = name
  · subst hm
    rw [if_pos rfl]
    refine ⟨fun hc => absurd hc (by simp), ?_⟩
    rintro ⟨j, hj, -⟩
    obtain ⟨hjk, hj⟩ := (hnamed m j).mp hj
    exact absurd (h.unique m j k hj hk) hjk
  · rw [if_neg hm, h.current]
    refine exists_congr fun j => ?_
    rw [hnamed]
    constructor
    · rintro ⟨hj, hjs⟩
      have hjk : j ≠ k := fun he => hm (hj.name.symm.trans (he ▸ hk.name))
      exact ⟨⟨hjk, hj⟩, by rw [hslots j hj.lt, if_neg hjk, hjs]⟩
    · rintro ⟨⟨hjk, hj⟩, hjs⟩
      exact ⟨hj, by rwa [hslots j hj.lt, if_neg hjk] at hjs⟩

end Holds

/-! ## Inodes that are not linked yet -/

/-- What the functions on a directory write. -/
def FileSys.wildAt (fs : FileSys) (r : DirAt) : Set Nat :=
  fs.scratch ∪ (fs.disk.inodeAt r.sector).extent

theorem Inv.spare_disjoint_wildAt (h : Inv fs r H D Y) : Disjoint Y (fs.wildAt r) := by
  refine Set.disjoint_union_right.mpr ⟨Set.disjoint_union_right.mpr ⟨?_, ?_⟩, ?_⟩
  · exact (h.layout.extent_disjoint_spare Layout.map_mem).symm
  · exact Set.disjoint_left.mpr fun y hy hc => hc (h.layout.allotted.spare_used hy)
  · exact (h.layout.extent_disjoint_spare Layout.dir_mem).symm

theorem Fresh.keep {X : Set Nat} (hf : Fresh fs Y s x) (ha : AgreeOff X fs.disk fs'.disk)
    (hX : Disjoint (insert s x.extent) X) (hY : insert s x.extent ⊆ Y') : Fresh fs' Y' s x where
  inode := (ha.inodeAt (Set.disjoint_left.mp hX (.inl rfl))).trans hf.inode
  apart := hf.apart
  fits := ha.size ▸ hf.fits
  spare := hY
  zeros := (ha.contents (hX.mono_left (Set.subset_insert _ _))).trans hf.zeros

/-- The inodes in the sectors `l` are fresh, and share no sector. -/
structure Pool (fs : FileSys) (Y : Set Nat) (l : List Nat) : Prop where
  fresh : ∀ s ∈ l, ∃ x, Fresh fs Y s x
  apart : l.Pairwise fun s t => Disjoint (fs.disk.own s) (fs.disk.own t)

namespace Pool

theorem own_eq (hf : Fresh fs Y s x) : fs.disk.own s = insert s x.extent := by
  rw [Disk.own, hf.inode]

theorem keep {X : Set Nat} (hp : Pool fs Y l) (hY : Y ⊆ Y') (ha : AgreeOff X fs.disk fs'.disk)
    (hX : Disjoint Y X) : Pool fs' Y' l := by
  have hfresh (s) (hs : s ∈ l) : ∃ x, Fresh fs' Y' s x ∧ fs'.disk.own s = fs.disk.own s := by
    obtain ⟨x, hf⟩ := hp.fresh s hs
    have hf' := hf.keep ha (hX.mono_left hf.spare) (hf.spare.trans hY)
    exact ⟨x, hf', by rw [own_eq hf, own_eq hf']⟩
  refine ⟨fun s hs => (hfresh s hs).imp fun _ => And.left, hp.apart.imp_of_mem fun hs ht hd => ?_⟩
  obtain ⟨_, -, hos⟩ := hfresh _ hs
  obtain ⟨_, -, hot⟩ := hfresh _ ht
  rwa [hos, hot]

theorem cons (hp : Pool fs Y l) (hf : Fresh fs Y s x)
    (hd : ∀ t ∈ l, Disjoint (fs.disk.own s) (fs.disk.own t)) :
    Pool fs Y (s :: l) where
  fresh := forall_mem_cons.mpr ⟨⟨x, hf⟩, hp.fresh⟩
  apart := pairwise_cons.mpr ⟨hd, hp.apart⟩

theorem take (hp : Pool fs Y l) (hs : s ∈ l) :
    (∃ x, Fresh fs Y s x) ∧ Pool fs (Y \ fs.disk.own s) (l.erase s) := by
  have hperm : l.Perm (s :: l.erase s) := perm_cons_erase hs
  have hpair := hp.apart.perm hperm fun h => h.symm
  rw [pairwise_cons] at hpair
  refine ⟨hp.fresh s hs, fun t ht => ?_, hpair.2⟩
  obtain ⟨x, hf⟩ := hp.fresh t (hperm.mem_iff.mpr (.tail _ ht))
  refine ⟨x, hf.inode, hf.apart, hf.fits, Set.subset_sdiff.mpr ⟨hf.spare, ?_⟩, hf.zeros⟩
  exact own_eq hf ▸ (hpair.1 t ht).symm

end Pool

/-! ## The invariant of a run -/

/-- The invariant of a run. -/
structure DirSane (r : DirAt) (S : DirState) : Prop where
  inv : ∃ H D Y, Inv S.fs r (S.dir.inode :: (S.held ++ H)) D Y ∧ Pool S.fs Y S.fresh ∧
    ∀ p, D.count p ≤ H.count p
  dir : S.fs.IsDir r S.dir
  held : ∀ p ∈ S.held, S.fs.IsFile r p
  pos : ∃ k, k ≤ r.slots ∧ S.dir.pos = entrySize * k
  holds : Holds S.fs r S.log

variable {S : DirState}

/-- A step that keeps the directory and the pool. -/
theorem DirSane.step {S' : DirState} {H' D' : List Nat} (hS : DirSane r S)
    (h : Inv S.fs r (S.dir.inode :: (S.held ++ H)) D Y) (hq : Quiet (S.fs.wildAt r) S.fs S'.fs)
    (hinode : S'.dir.inode = S.dir.inode) (hsub : S'.held ⊆ S.held)
    (h' : Inv S'.fs r (S'.dir.inode :: (S'.held ++ H')) D' Y') (hpool : Pool S'.fs Y' S'.fresh)
    (hle : ∀ p, D'.count p ≤ H'.count p) (hpos : ∃ k, k ≤ r.slots ∧ S'.dir.pos = entrySize * k)
    (hholds : Holds S'.fs r S'.log) : DirSane r S' where
  inv := ⟨H', D', Y', h', hpool, hle⟩
  dir := by
    have hd : S'.fs.IsDir r S.dir := hq.isDir h h' (hinode ▸ mem_cons_self) hS.dir
    rw [FileSys.IsDir, hinode]
    exact hd
  held p hp := hq.isFile h h' (.tail _ (mem_append_left _ hp)) (hS.held p (hsub hp))
  pos := hpos
  holds := hholds

theorem DirSane.create {length : Nat} {fs1 fs2 : FileSys} (hS : DirSane r S)
    (hlen : length < 2 ^ 31)
    (halloc : freeMapAllocate 1 S.fs = some (some s, fs1))
    (hmade : inodeCreate s length fs1 = some (true, fs2)) :
    DirSane r { S with fs := fs2, fresh := s :: S.fresh } := by
  obtain ⟨H, D, Y, h, hpool, hle⟩ := hS.inv
  obtain ⟨t, hscan⟩ := scan_of_allocate halloc
  obtain ⟨fs1', halloc', hmap1, h1, hq1, hs⟩ := alloc_spec h hscan
  obtain ⟨hst, rfl⟩ := Prod.mk.inj (some.inj (halloc'.symm.trans halloc))
  obtain rfl := some.inj hst
  rcases allocCreate_spec h hscan hmap1 h1 hq1 hs hlen with
    ⟨-, hfail⟩ | ⟨start, fs2', -, hcreate, -, h2, hfresh, hnew, hq2⟩
  · rw [hfail] at hmade
    cases hmade
  obtain ⟨-, rfl⟩ := Prod.mk.inj (some.inj (hcreate.symm.trans hmade))
  have hq : Quiet (S.fs.wildAt r) S.fs fs2' := hq2.mono Set.subset_union_left
  have hpool2 : Pool fs2' (insert t Y ∪ InodeDisk.extent ⟨start, length⟩) S.fresh :=
    hpool.keep ((Set.subset_insert t Y).trans Set.subset_union_left) hq.disk h.spare_disjoint_wildAt
  refine hS.step h hq rfl (List.Subset.refl _) h2 (hpool2.cons hfresh fun u hu => ?_) hle hS.pos
    (hS.holds.keep (hq2.slot h))
  -- the others were taken before
  obtain ⟨y, hfu⟩ := hpool.fresh u hu
  have hu2 : fs2'.disk.own u = insert u y.extent :=
    Pool.own_eq (hfu.keep hq.disk (h.spare_disjoint_wildAt.mono_left hfu.spare) hfu.spare)
  rw [Pool.own_eq hfresh, hu2]
  refine Set.disjoint_left.mpr fun z hz hz' =>
    hnew hz (h.layout.allotted.spare_used (hfu.spare hz'))

theorem DirSane.add {ok : Bool} (hS : DirSane r S) (hnul : 0 ∉ name) (hs : s ∈ S.fresh)
    (hadd : dirAdd S.dir name s S.fs = some (ok, fs')) :
    DirSane r { S with fs := fs', fresh := S.fresh.erase s, log := S.record ok (.added name s)
      } := by
  obtain ⟨H, D, Y, h, hpool, hle⟩ := hS.inv
  obtain ⟨⟨x, hfresh⟩, hrest⟩ := hpool.take hs
  rcases dirAdd_spec h hS.dir name s with
    ⟨k, e, hname, hlen, hnew, hk, hkfree, hes, heu, hen, hcstr, heq⟩ | ⟨-, heq⟩
  · obtain ⟨rfl, rfl⟩ := Prod.mk.inj (some.inj (heq.symm.trans hadd))
    have hq : Quiet (S.fs.wildAt r) S.fs (S.fs.withEntry r k e) :=
      (Quiet.withEntry S.fs r k e).mono Set.subset_union_right
    have hlt : e.inodeSector < 2 ^ 32 := by
      have := (h.layout.allotted.spare_used (hfresh.spare (.inl rfl)) : s ∈ S.fs.freeMap.used).1
      have := h.layout.bitCnt
      have := h.layout.small
      omega
    refine hS.step h hq rfl (List.Subset.refl _) (h.link hfresh hk hes hen)
      (hrest.keep subset_rfl hq.disk ?_) hle hS.pos ?_
    · exact h.spare_disjoint_wildAt.mono_left Set.sdiff_subset
    · exact hS.holds.add ⟨hname, hlen⟩ hnew hk hkfree heu (hcstr hnul) hes fun j _ =>
      slot_withEntry h hk hlt hen j
  · obtain ⟨rfl, rfl⟩ := Prod.mk.inj (some.inj (heq.symm.trans hadd))
    refine hS.step h (.refl _) rfl (List.Subset.refl _) (h.mono Set.sdiff_subset) hrest hle hS.pos
      hS.holds

theorem DirSane.remove {ok : Bool} (hS : DirSane r S)
    (hremove : dirRemove S.dir name S.fs = some (ok, fs')) :
    DirSane r { S with fs := fs', log := S.record ok (.removed name) } := by
  obtain ⟨H, D, Y, h, hpool, hle⟩ := hS.inv
  obtain ⟨h', hq, hyes, hno⟩ := of_wp (dirRemove_spec h hS.dir mem_cons_self name) hremove
  have hq' : Quiet (S.fs.wildAt r) S.fs fs' :=
    hq.mono (Set.union_subset_union_left _ Set.subset_union_left)
  refine hS.step h hq' rfl (List.Subset.refl _) h'
    (hpool.keep subset_rfl hq'.disk h.spare_disjoint_wildAt) hle hS.pos ?_
  cases ok with
  | true =>
    obtain ⟨k, hk, hslots⟩ := hyes rfl
    exact hS.holds.remove hk rfl hslots
  | false =>
    obtain ⟨-, rfl⟩ := hno rfl
    exact hS.holds

theorem DirSane.lookup {p : Option Nat} (hS : DirSane r S)
    (hlookup : dirLookup S.dir name S.fs = some (p, fs')) :
    DirSane r { S with fs := fs', held := p.toList ++ S.held } := by
  obtain ⟨H, D, Y, h, hpool, hle⟩ := hS.inv
  rw [dirLookup] at hlookup
  rcases dirFind_spec h hS.dir name with ⟨k, hk, heq⟩ | ⟨-, heq⟩
  · have hlive : (S.fs.slot r k).inodeSector ∈ S.fs.live r := Layout.link_mem hk.links
    rw [bind_eq heq] at hlookup
    obtain ⟨q, fs1, hopen, hret⟩ := of_bind_eq hlookup
    obtain ⟨rfl, rfl⟩ := Prod.mk.inj (some.inj hret)
    obtain ⟨h', hq, hd, -, i, hi, rfl, his⟩ := of_wp (inodeOpen_spec h hlive) hopen
    obtain ⟨hmap, hdir⟩ := h.layout.files _ _ hk.links
    have hfile : fs1.IsFile r i.ptr := ⟨i, hi, rfl, his ▸ hmap, his ▸ hdir⟩
    have h'' := h'.perm (.swap _ _ _) (.refl D)
    refine ⟨⟨H, D, Y, h'', hpool.keep subset_rfl hq.disk (Set.disjoint_empty Y), hle⟩, ?_, ?_,
      hS.pos, ?_⟩
    · exact hq.isDir h h'' mem_cons_self hS.dir
    · refine forall_mem_cons.mpr ⟨hfile, fun p hp => ?_⟩
      exact hq.isFile h h'' (.tail _ (.tail _ (mem_append_left _ hp))) (hS.held p hp)
    · exact hS.holds.keep fun j _ => congrFun (FileSys.slot_of_disk hd) j
  · rw [bind_eq heq] at hlookup
    cases hlookup
    exact hS

theorem DirSane.close {p : Nat} {u : Unit} (hS : DirSane r S) (hp : p ∈ S.held)
    (hclose : inodeClose p S.fs = some (u, fs')) :
    DirSane r { S with fs := fs', held := S.held.erase p } := by
  obtain ⟨H, D, Y, h, hpool, hle⟩ := hS.inv
  obtain ⟨i, hi, hip, hmap, -⟩ := hS.held p hp
  have hperm : (S.dir.inode :: (S.held ++ H)).Perm (p :: S.dir.inode :: (S.held.erase p ++ H)) :=
    (((perm_cons_erase hp).append_right H).cons _).trans (.swap _ _ _)
  have hD : D.count p ≤ (S.dir.inode :: (S.held.erase p ++ H)).count p := by
    refine Nat.le_trans (hle p) (Nat.le_trans ?_ count_le_count_cons)
    rw [count_append]
    exact Nat.le_add_left _ _
  obtain ⟨h', hq, -⟩ :=
    of_wp (inodeClose_spec (h.perm hperm (.refl D)) (hip ▸ h.table.lookup_eq hi) hmap hD) hclose
  have hq' : Quiet (S.fs.wildAt r) S.fs fs' :=
    hq.mono (Set.subset_union_left.trans Set.subset_union_left)
  have hqs : Quiet S.fs.scratch S.fs fs' := hq.mono Set.subset_union_left
  exact hS.step h hq' rfl erase_subset h'
    (hpool.keep subset_rfl hq'.disk h.spare_disjoint_wildAt) hle
    hS.pos (hS.holds.keep (hqs.slot h))

/-- **`dir_readdir`** from slot `k` returns the name in the next slot that is in use. -/
theorem dirReaddir_spec (h : Inv fs r H D Y) (hd : fs.IsDir r dir) (hk : k ≤ r.slots)
    (hpos : dir.pos = entrySize * k) :
    (∃ j, k ≤ j ∧ j < r.slots ∧ (fs.slot r j).inUse = true ∧
      (∀ l, k ≤ l → l < j → (fs.slot r l).inUse = false) ∧ dirReaddir dir fs =
        some ((some ((cstr (fs.slot r j).name).take nameMax), ⟨dir.inode, entrySize * (j + 1)⟩),
          fs)) ∨
    ((∀ l, k ≤ l → l < r.slots → (fs.slot r l).inUse = false) ∧
      dirReaddir dir fs = some ((none, ⟨dir.inode, entrySize * r.slots⟩), fs)) := by
  obtain ⟨i, -, hi, -, -, hlen, -⟩ := dir_inode h hd
  have hturns : i.data.length / entrySize + 1 = r.slots + 1 := by
    rw [hlen, Nat.mul_div_cancel_left _ (by decide)]
  rw [dirReaddir, bind_eq (inode_eq hi), hturns, hpos]
  rcases scanEntries_spec h hd (q := (·.inUse)) (e := .blank) hk
    (by omega : r.slots - k < r.slots + 1) with
    ⟨j, hkj, hj, huse, hbefore, heq⟩ | ⟨hnone, e', heq⟩
  · refine .inl ⟨j, hkj, hj, huse, hbefore, ?_⟩
    rw [bind_eq heq, Nat.mul_succ]
    rfl
  · refine .inr ⟨hnone, ?_⟩
    rw [bind_eq heq]
    rfl

theorem DirSane.readdir {name : Option (List Byte)} (hS : DirSane r S)
    (hread : dirReaddir S.dir S.fs = some ((name, dir), fs')) :
    DirSane r { S with fs := fs', dir := dir } := by
  obtain ⟨H, D, Y, h, hpool, hle⟩ := hS.inv
  obtain ⟨k, hk, hpos⟩ := hS.pos
  rcases dirReaddir_spec h hS.dir hk hpos with ⟨j, -, hj, -, -, heq⟩ | ⟨-, heq⟩
  · obtain ⟨hr, rfl⟩ := Prod.mk.inj (some.inj (heq.symm.trans hread))
    obtain ⟨-, rfl⟩ := Prod.mk.inj hr
    exact hS.step h (.refl _) rfl (List.Subset.refl _) h hpool hle ⟨j + 1, hj, rfl⟩ hS.holds
  · obtain ⟨hr, rfl⟩ := Prod.mk.inj (some.inj (heq.symm.trans hread))
    obtain ⟨-, rfl⟩ := Prod.mk.inj hr
    exact hS.step h (.refl _) rfl (List.Subset.refl _) h hpool hle ⟨r.slots, le_rfl,
      rfl⟩ hS.holds

/-! ## Where a run starts -/

/-- A fresh inode of a whole number of slots is an empty directory. -/
theorem Inv.newDir {start : Nat} (h : Inv fs r H D Y) (hf : Fresh fs Y s ⟨start, entrySize * n⟩) :
    Inv fs ⟨s, n⟩ H D (Y \ fs.disk.own s) ∧ ∀ k, k < n → (fs.slot ⟨s, n⟩ k).inUse = false := by
  have hempty (k) (hk : k < n) : (fs.slot ⟨s, n⟩ k).inUse = false := by
    rw [FileSys.slot, hf.inode]
    exact slot_zeros hf.zeros (Nat.mul_le_mul_left _ hk)
  have hnone (k t) : ¬fs.disk.Links ⟨s, n⟩ k t := fun hk => by
    have := hempty k hk.lt
    rw [FileSys.slot, hk.inUse] at this
    cases this
  refine ⟨⟨h.table, h.layout.newDir (fun t ht => Layout.open_mem ht) hf.inode rfl hf.fits hf.apart
    hf.spare hf.zeros, h.data, ?_, fun i _ _ k => hnone k i.sector, h.mapFile⟩, hempty⟩
  rintro i hi (hs | hs)
  · exact h.special i hi (.inl hs)
  · have hs : i.sector = s := hs
    exact absurd (hf.spare (.inl rfl)) (hs ▸ h.layout.not_mem_spare (fs.mem_live hi))

theorem dirSane_root {T : State} {p : Nat} (hT : Reachable T)
    (hopen : inodeOpen rootDirSector T.fs = some (p, fs))
    (hempty : ∀ k, k < DirAt.root.slots → (T.fs.slot .root k).inUse = false) :
    DirSane .root ⟨fs, dirOpen p, [], [], []⟩ := by
  obtain ⟨q, h⟩ := hT.sane.inv
  obtain ⟨h', -, hd, -, i, hi, rfl, his⟩ := of_wp (inodeOpen_spec h Layout.dir_mem) hopen
  refine ⟨⟨_, _, ∅, h', ⟨by simp, .nil⟩, fun p => ?_⟩, ⟨i, hi, rfl, his⟩, by simp,
    ⟨0, Nat.zero_le _, rfl⟩, .empty ?_⟩
  · exact Nat.le_trans (count_deniers_le _ p) count_le_count_cons
  · rwa [FileSys.slot_of_disk hd]

theorem dirSane_made {T : State} {p entryCnt : Nat} {fs1 fs2 fs3 : FileSys} (hT : Reachable T)
    (halloc : freeMapAllocate 1 T.fs = some (some s, fs1))
    (hmade : dirCreate s entryCnt fs1 = some (true, fs2))
    (hopen : inodeOpen s fs2 = some (p, fs3)) :
    DirSane ⟨s, entryCnt⟩ ⟨fs3, dirOpen p, [], [], []⟩ := by
  obtain ⟨q, h⟩ := hT.sane.inv
  obtain ⟨t, hscan⟩ := scan_of_allocate halloc
  obtain ⟨fs1', halloc', hmap1, h1, hq1, hs⟩ := alloc_spec h hscan
  obtain ⟨hst, rfl⟩ := Prod.mk.inj (some.inj (halloc'.symm.trans halloc))
  cases hst
  rw [dirCreate, Nat.mul_comm] at hmade
  -- the capacity fits the device
  have hsize : entrySize * entryCnt < 2 ^ 31 := by
    obtain ⟨start, fs0, ha, -⟩ := of_inodeCreate hmade
    obtain ⟨u, hu⟩ := scan_of_allocate ha
    obtain ⟨⟨-, hin⟩, -⟩ := Bitmap.scan_eq_some hu
    have := h1.layout.bitCnt
    have := h1.layout.small
    unfold bytesToSectors sectorSize at hin
    omega
  rcases allocCreate_spec h hscan hmap1 h1 hq1 hs hsize with
    ⟨-, hfail⟩ | ⟨start, fs2', -, hcreate, -, h2, hfresh, -, -⟩
  · rw [hfail] at hmade
    cases hmade
  obtain ⟨-, rfl⟩ := Prod.mk.inj (some.inj (hcreate.symm.trans hmade))
  obtain ⟨h3, hempty⟩ := h2.newDir hfresh
  obtain ⟨h4, -, hd, -, i, hi, rfl, his⟩ := of_wp (inodeOpen_spec h3 Layout.dir_mem) hopen
  refine ⟨⟨_, _, ∅, h4.mono (Set.empty_subset _), ⟨by simp, .nil⟩, fun p => ?_⟩, ⟨i, hi, rfl, his⟩,
    by simp, ⟨0, Nat.zero_le _, rfl⟩, .empty ?_⟩
  · exact Nat.le_trans (count_deniers_le _ p) count_le_count_cons
  · rwa [FileSys.slot_of_disk hd]

/-- **Every state of a run is sane.** -/
theorem DirRuns.sane (h : DirRuns r S) : DirSane r S := by
  induction h with
  | root hS hopen hempty => exact dirSane_root hS hopen hempty
  | made hS halloc hmade hopen => exact dirSane_made hS halloc hmade hopen
  | create _ hlen halloc hmade ih => exact ih.create hlen halloc hmade
  | add _ hnul hs hadd ih => exact ih.add hnul hs hadd
  | remove _ hremove ih => exact ih.remove hremove
  | lookup _ hlookup ih => exact ih.lookup hlookup
  | close _ hp hclose ih => exact ih.close hp hclose
  | readdir _ hread ih => exact ih.readdir hread

/-! ## A whole scan -/

/-- `dir_readdir` until it returns false: the names. -/
def readAll : (turns : Nat) → Dir → K (List (List Byte))
  | 0, _ => return []
  | turns + 1, dir => do
    let (name, dir) ← dirReaddir dir
    match name with
    | none => return []
    | some n =>
      let rest ← readAll turns dir
      return n :: rest

/-- The names in the slots from `k` on. -/
def FileSys.namesFrom (fs : FileSys) (r : DirAt) (k : Nat) : List (List Byte) :=
  ((List.range' k (r.slots - k)).filter fun j => (fs.slot r j).inUse).map fun j =>
    (cstr (fs.slot r j).name).take nameMax

theorem namesFrom_skip (hkj : k ≤ j) (hj : j ≤ r.slots)
    (hfree : ∀ l, k ≤ l → l < j → (fs.slot r l).inUse = false) :
      fs.namesFrom r k = fs.namesFrom r j := by
  have hsplit :
    List.range' k (r.slots - k) = List.range' k (j - k) ++ List.range' j (r.slots - j) := by
    have : List.range' k (j - k) ++ List.range' (k + 1 * (j - k)) (r.slots - j) =
        List.range' k (j - k + (r.slots - j)) := range'_append
    rw [show k + 1 * (j - k) = j by omega, show j - k + (r.slots - j) = r.slots - k by omega]
      at this
    exact this.symm
  have hnil : (List.range' k (j - k)).filter (fun l => (fs.slot r l).inUse) = [] := by
    refine filter_eq_nil_iff.mpr fun l hl => ?_
    obtain ⟨h1, h2⟩ := List.mem_range'_1.mp hl
    rw [hfree l h1 (by omega)]
    decide
  rw [FileSys.namesFrom, hsplit, filter_append, hnil, nil_append, FileSys.namesFrom]

theorem namesFrom_cons (hj : j < r.slots) (huse : (fs.slot r j).inUse = true) :
    fs.namesFrom r j = (cstr (fs.slot r j).name).take nameMax :: fs.namesFrom r (j + 1) := by
  rw [FileSys.namesFrom, show r.slots - j = r.slots - (j + 1) + 1 by omega, range'_succ,
    filter_cons_of_pos (p := fun j => (fs.slot r j).inUse) huse, map_cons, FileSys.namesFrom]

theorem readAll_spec (h : Inv fs r H D Y) (hd : fs.IsDir r dir) (hk : k ≤ r.slots)
    (hpos : dir.pos = entrySize * k) (hturns : r.slots - k < turns) :
    readAll turns dir fs = some (fs.namesFrom r k, fs) := by
  induction turns generalizing k dir with
  | zero => exact absurd hturns (Nat.not_lt_zero _)
  | succ turns ih =>
    rw [readAll]
    rcases dirReaddir_spec h hd hk hpos with ⟨j, hkj, hj, huse, hbefore, heq⟩ | ⟨hnone, heq⟩
    · have hrest : readAll turns ⟨dir.inode, entrySize * (j + 1)⟩ fs = _ := ih hd hj rfl (by omega)
      rw [bind_eq heq, namesFrom_skip hkj (Nat.le_of_lt hj) hbefore, namesFrom_cons hj huse]
      exact bind_eq hrest
    · rw [bind_eq heq, namesFrom_skip hk le_rfl hnone, FileSys.namesFrom, Nat.sub_self]
      rfl

theorem Holds.namesFrom_zero (h : Holds fs r log) : (fs.namesFrom r 0).Nodup ∧
    ∀ name, name ∈ fs.namesFrom r 0 ↔ (Pintos.current log name).isSome = true := by
  have hname (j) (hj : j < r.slots) (huse : (fs.slot r j).inUse = true) :
      fs.Named r ((cstr (fs.slot r j).name).take nameMax) j := by
    have hn : fs.Named r (cstr (fs.slot r j).name) j := ⟨hj, huse, rfl⟩
    rwa [take_of_length_le (h.valid _ j hn).2]
  have hmem (j) (hj : j ∈ (List.range' 0 (r.slots - 0)).filter fun j => (fs.slot r j).inUse) :
      fs.Named r ((cstr (fs.slot r j).name).take nameMax) j := by
    obtain ⟨hj, huse⟩ := mem_filter.mp hj
    exact hname j (by simpa using (List.mem_range'_1.mp hj).2) huse
  refine ⟨List.Nodup.map_on (fun i hi j hj he => ?_) ((nodup_range' 1).filter _), fun name =>
    ?_⟩
  · exact h.unique _ i j (hmem i hi) (he ▸ hmem j hj)
  · rw [FileSys.namesFrom, mem_map, Option.isSome_iff_exists]
    constructor
    · rintro ⟨j, hj, rfl⟩
      exact ⟨_, (h.current _ _).mpr ⟨j, hmem j hj, rfl⟩⟩
    · rintro ⟨s, hs⟩
      obtain ⟨j, hj, -⟩ := (h.current name s).mp hs
      refine ⟨j,
        mem_filter.mpr ⟨List.mem_range'_1.mpr ⟨Nat.zero_le _, by have := hj.lt; omega⟩,
        hj.inUse⟩, ?_⟩
      rw [← (hname j hj.lt hj.inUse).name, hj.name]

/-! ## The directory as a map -/

/-- What the functions of `directory.c` do on the directory, in the terms of the map. -/
structure ActsAsMap (r : DirAt) (S : DirState) : Prop where
  /-- The entries in use have distinct names, of 1 to 14 characters. -/
  names : ∀ j, j < r.slots → (S.fs.slot r j).inUse = true →
    1 ≤ (cstr (S.fs.slot r j).name).length ∧ (cstr (S.fs.slot r j).name).length ≤ nameMax ∧
    ∀ k, k < r.slots → (S.fs.slot r k).inUse = true → cstr (S.fs.slot r k).name =
      cstr (S.fs.slot r j).name → k = j
  lookup : ∀ name, ∃ found, dirFind S.dir name S.fs = some (found, S.fs) ∧
    found.map (fun f => f.1.inodeSector) = current S.log name
  dirLookup : ∀ name, ∃ p fs', dirLookup S.dir name S.fs = some (p, fs') ∧
    (p = none ↔ current S.log name = none) ∧
    ∀ q, p = some q → ∃ i ∈ fs'.openInodes, i.ptr = q ∧ current S.log name = some i.sector
  add : ∀ name s, ∃ ok fs', dirAdd S.dir name s S.fs = some (ok, fs') ∧
    (ok = true ↔ 1 ≤ name.length ∧ name.length ≤ nameMax ∧ current S.log name = none ∧
      ∃ k, k < r.slots ∧ (S.fs.slot r k).inUse = false) ∧ (ok = false → fs' = S.fs)
  remove : ∀ name, ∃ ok fs', dirRemove S.dir name S.fs = some (ok, fs') ∧
    (ok = true ↔ (current S.log name).isSome = true) ∧ (ok = false → fs' = S.fs)
  readdir : ∀ turns, r.slots < turns → ∃ names, readAll turns (dirOpen S.dir.inode) S.fs =
    some (names, S.fs) ∧
    names.Nodup ∧ ∀ name, name ∈ names ↔ (current S.log name).isSome = true

/-- **A directory is a finite map** from names to sectors, after any calls. -/
theorem directory_is_finite_map (h : DirRuns r S) : ActsAsMap r S := by
  have hS := h.sane
  obtain ⟨H, D, Y, hinv, -, -⟩ := hS.inv
  have hnone {name} : current S.log name = none ↔ ∀ k, ¬S.fs.Named r name k :=
    hS.holds.current_eq_none
  have hsome {name k} (hk : S.fs.Named r name k) :
    current S.log name = some (S.fs.slot r k).inodeSector :=
    (hS.holds.current name _).mpr ⟨k, hk, rfl⟩
  refine ⟨fun j hj huse => ?_, fun name => ?_, fun name => ?_, fun name s => ?_, fun name =>
    ?_, fun turns ht => ?_⟩
  · have hn : S.fs.Named r (cstr (S.fs.slot r j).name) j := ⟨hj, huse, rfl⟩
    obtain ⟨hne, hlen⟩ := hS.holds.valid _ j hn
    exact ⟨length_pos_iff.mpr hne, hlen, fun k hk huse' he =>
      hS.holds.unique _ k j ⟨hk, huse', he⟩ hn⟩
  · rcases dirFind_spec hinv hS.dir name with ⟨k, hk, heq⟩ | ⟨hno, heq⟩
    · exact ⟨_, heq, (hsome hk).symm⟩
    · exact ⟨none, heq, (hnone.mpr hno).symm⟩
  · rcases dirFind_spec hinv hS.dir name with ⟨k, hk, heq⟩ | ⟨hno, heq⟩
    · obtain ⟨p, fs', hopen, -, -, -, -, i, hi, rfl, his⟩ :=
        inodeOpen_spec hinv (Layout.link_mem hk.links)
      refine ⟨some i.ptr, fs', ?_, ?_, ?_⟩
      · rw [Pintos.dirLookup, bind_eq heq]
        exact bind_eq hopen
      · rw [hsome hk]
        exact ⟨fun hc => absurd hc (by simp), fun hc => absurd hc (by simp)⟩
      · rintro q ⟨⟩
        exact ⟨i, hi, rfl, his ▸ hsome hk⟩
    · refine ⟨none, S.fs, ?_, ⟨fun _ => hnone.mpr hno, fun _ => rfl⟩, fun q hq =>
      absurd hq (by simp)⟩
      rw [Pintos.dirLookup, bind_eq heq]
      rfl
  · rcases dirAdd_spec hinv hS.dir name s with ⟨k, e, hname, hlen, hnew, hk, hkfree, -, -, -, -,
      heq⟩ | ⟨hrej, heq⟩
    · refine ⟨true, _, heq, ⟨fun _ => ?_, fun _ => rfl⟩, fun hc => absurd hc (by decide)⟩
      exact ⟨length_pos_iff.mpr hname, hlen, hnone.mpr hnew, k, hk, hkfree⟩
    · refine ⟨false, S.fs, heq, ⟨fun hc => absurd hc (by decide), ?_⟩, fun _ => rfl⟩
      rintro ⟨hpos, hlen, hcur, k, hk, hfree⟩
      rcases hrej with rfl | hlong | ⟨j, hj⟩ | hfull
      · cases hpos
      · omega
      · exact absurd hj (hnone.mp hcur j)
      · rw [hfull k hk] at hfree
        cases hfree
  · obtain ⟨ok, fs', heq, -, -, hyes, hno⟩ := dirRemove_spec hinv hS.dir mem_cons_self name
    refine ⟨ok, fs', heq, ?_, fun hok => (hno hok).2⟩
    cases ok with
    | true =>
      obtain ⟨k, hk, -⟩ := hyes rfl
      rw [hsome hk]
      exact ⟨fun _ => rfl, fun _ => rfl⟩
    | false =>
      rw [hnone.mpr (hno rfl).1]
      exact Iff.rfl
  · have hnames := hS.holds.namesFrom_zero
    refine ⟨_, readAll_spec hinv (k := 0) ?_ (Nat.zero_le _) rfl (by omega), hnames.1, hnames.2⟩
    exact hS.dir

/-- A file is made and added to the directory. -/
def DirState.addFile (S : DirState) (name : List Byte) : Option DirState := do
  let (a, fs1) ← freeMapAllocate 1 S.fs
  let s ← a
  let (made, fs2) ← inodeCreate s 5 fs1
  let (ok, fs3) ← dirAdd S.dir name s fs2
  if made then
    return { S with fs := fs3, fresh := (s :: S.fresh).erase s, log := S.record ok (.added name s) }
  else none

theorem DirRuns.addFile {S' : DirState} (h : DirRuns r S) (hnul : 0 ∉ name)
    (hadd : S.addFile name = some S') : DirRuns r S' := by
  simp only [DirState.addFile, bind_eq_bind, Option.bind_eq_some_iff, Prod.exists,
    Option.ite_none_right_eq_some] at hadd
  obtain ⟨a, fs1, halloc, s, rfl, made, fs2, hmade, ok, fs3, hadd, rfl, hS⟩ := hadd
  cases hS
  exact (DirRuns.create h (by decide) halloc hmade).add hnul mem_cons_self hadd

/-- In the root directory of a small device `a` and `b` are added, `a` is removed, and `c` takes its
place. -/
def replaced : Option DirState := do
  let fs ← filesysInit true smallDisk fun _ => false
  let (p, fs) ← inodeOpen rootDirSector fs
  let S ← DirState.addFile ⟨fs, dirOpen p, [], [], []⟩ [97]
  let S ← S.addFile [98]
  let (ok, fs) ← dirRemove S.dir [97] S.fs
  DirState.addFile { S with fs := fs, log := S.record ok (.removed [97]) } [99]

theorem dirRuns_replaced (h : replaced = some S) : DirRuns .root S := by
  simp only [replaced, bind_eq_bind, Option.bind_eq_some_iff, Prod.exists] at h
  obtain ⟨fs, hinit, p, fs1, hopen, S₁, h₁, S₂, h₂, ok, fs2, hremove, hS⟩ := h
  have hroot : DirRuns .root ⟨fs1, dirOpen p, [], [], []⟩ :=
    .root (.init (by decide) hinit) hopen (inv_of_init (by decide) hinit).2.empty
  exact (((hroot.addFile (by decide) h₁).addFile (by decide) h₂).remove hremove).addFile
    (by decide) hS

theorem directory_is_finite_map_replaced : ∃ S, DirRuns .root S ∧ ActsAsMap .root S ∧
    [[97], [98], [99]].map (fun name => (current S.log name).isSome) = [false, true, true] ∧
    cstr (S.fs.slot .root 0).name = [99] := by
  have hrun : (replaced.map fun S =>
      ([[97], [98], [99]].map (fun name => (current S.log name).isSome),
        cstr (S.fs.slot .root 0).name)) = some ([false, true, true], [99]) := by decide +kernel
  obtain ⟨S, hS, hp⟩ := Option.map_eq_some_iff.mp hrun
  have hr := dirRuns_replaced hS
  exact ⟨S, hr, directory_is_finite_map hr, congrArg Prod.fst hp, congrArg Prod.snd hp⟩

end SystemProg.Pintos
