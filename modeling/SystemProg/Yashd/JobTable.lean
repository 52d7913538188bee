import SystemProg.Yashd.Session
import Mathlib.Data.List.Perm.Basic

/-!
# The job table against the children

What a session's job table has to agree with is the set of its unreaped children. `View` puts the
two side by side: the job list, `fg_job`, and the children the session has forked, as pairs of pid
and process group. `Table` is the agreement, `Ready` the agreement at the points where every job is
alive, and the lemmas say what each change of the table or of the children does to it.
-/

namespace SystemProg.Yashd

open Text Shell Data List

/-- A session's jobs, its unreaped children (pid and group) and its input buffer. -/
structure View where
  jobs : List Job
  fgJob : Option Nat
  kids : List (Nat × Nat)
  inbuf : List Byte

/-- The pids of the children in a group. -/
def members (kids : List (Nat × Nat)) (pgid : Nat) : List Nat :=
  (kids.filter fun k => k.2 = pgid).map Prod.fst

/-- The nonzero `cmds[i].pid`, `i < ncmds`. -/
def livePids (j : Job) : List Nat := ((j.cmds.take j.ncmds).map Cmd.pid).filter fun n => n ≠ 0

/-- A job whose pid slots and `nlive` are those of its unreaped children. -/
structure Tracks (kids : List (Nat × Nat)) (j : Job) : Prop where
  perm : (livePids j).Perm (members kids j.pgid)
  nlive : j.nlive = (livePids j).length

/-- A job that is not over. -/
structure Live (j : Job) : Prop where
  nlive : 0 < j.nlive
  state : j.state ≠ .done

/-- What always holds of a job table. -/
structure Table (v : View) : Prop where
  pids : (v.kids.map Prod.fst).Nodup
  nonzero : ∀ k ∈ v.kids, k.1 ≠ 0 ∧ k.2 ≠ 0
  sorted : (v.jobs.map Job.jid).Pairwise (· < ·)
  positive : ∀ j ∈ v.jobs, 0 < j.jid
  cap : v.jobs.length ≤ yashMaxJobs
  groups : (v.jobs.map Job.pgid).Nodup
  tracks : ∀ j ∈ v.jobs, Tracks v.kids j

/-- The table between two commands, and all through a foreground wait: every job is alive, and
`fg_job`, if set, is one of them. -/
structure Ready (x : Option Nat) (v : View) : Prop where
  table : Table v
  live : ∀ j ∈ v.jobs, Live j
  fg : v.fgJob = x
  ptr : ∀ jid, x = some jid → jid ∈ v.jobs.map Job.jid

/-! ## Groups and pid slots -/

variable {kids : List (Nat × Nat)} {j : Job} {n g : Nat}

theorem mem_members : n ∈ members kids g ↔ (n, g) ∈ kids := by
  simp [members]

theorem members_append (kids : List (Nat × Nat)) (n g g' : Nat) :
    members (kids ++ [(n, g')]) g = members kids g ++ if g' = g then [n] else [] := by
  by_cases h : g' = g <;> simp [members, h]

theorem members_remove (kids : List (Nat × Nat)) (n g : Nat) :
    members (remove Prod.fst kids n) g = (members kids g).filter fun p => p ≠ n := by
  simp only [members, remove, filter_filter, filter_map]
  congr 1
  refine filter_congr fun k _ => ?_
  simp [Bool.and_comm]

/-- The exit of a child takes nothing from another group. -/
theorem members_remove_of_ne (h : (kids.map Prod.fst).Nodup) (hn : (n, g) ∈ kids) {g' : Nat}
    (hne : g' ≠ g) : members (remove Prod.fst kids n) g' = members kids g' := by
  rw [members_remove, filter_eq_self]
  intro p hp
  have : p ≠ n := by
    rintro rfl
    exact hne (congrArg Prod.snd (inj_on_of_nodup_map h (mem_members.mp hp) hn rfl))
  simpa using this

theorem members_eq_nil (h : ∀ k ∈ kids, k.2 ≠ g) : members kids g = [] := by
  rw [members, map_eq_nil_iff, filter_eq_nil_iff]
  exact fun k hk => by simpa using h k hk

theorem nodup_members (h : (kids.map Prod.fst).Nodup) (g : Nat) : (members kids g).Nodup :=
  h.sublist (filter_sublist.map _)

theorem length_filter_ne {l : List Nat} (hl : l.Nodup) (hn : n ∈ l) :
    (l.filter fun p => p ≠ n).length = l.length - 1 := by
  have herase : l.filter (fun p => p ≠ n) = l.erase n := by
    rw [hl.erase_eq_filter]
    exact filter_congr fun p _ => by by_cases e : p = n <;> simp [e]
  rw [herase, length_erase_of_mem hn]

theorem livePids_length_le (j : Job) : (livePids j).length ≤ j.ncmds := by
  refine (length_filter_le _ _).trans ?_
  rw [length_map, length_take]
  exact Nat.min_le_left _ _

theorem take_map_append_drop {α : Type} (l : List α) (m : Nat) (f : α → α) :
    ((l.take m).map f ++ l.drop m).take m = (l.take m).map f := by
  have hlen : ((l.take m).map f).length ≤ m := by
    rw [length_map, length_take]; exact Nat.min_le_left _ _
  rw [take_append, take_of_length_le hlen, length_map, length_take]
  rcases Nat.le_total m l.length with h | h
  · rw [Nat.min_eq_left h, Nat.sub_self, take_zero, append_nil]
  · rw [drop_eq_nil_of_le h, take_nil, append_nil]

theorem filter_zeroed (n : Nat) (ps : List Nat) :
    (ps.map fun p => if p = n then 0 else p).filter (fun p => p ≠ 0) =
      (ps.filter fun p => p ≠ 0).filter fun p => p ≠ n := by
  induction ps with
  | nil => rfl
  | cons p ps ih =>
    by_cases hp : p = n
    · by_cases hn : n = 0 <;> simp_all
    · by_cases h0 : p = 0 <;> simp_all

theorem livePids_clearPid (j : Job) (n : Nat) :
    livePids (Code.clearPid j n) = (livePids j).filter fun p => p ≠ n := by
  rw [livePids, livePids, ← filter_zeroed]
  simp only [Code.clearPid, take_map_append_drop, map_map]
  congr 1
  refine map_congr_left fun c _ => ?_
  by_cases h : c.pid = n <;> simp [h]

theorem Tracks.nlive_eq (h : Tracks kids j) : j.nlive = (members kids j.pgid).length := by
  rw [h.nlive, h.perm.length_eq]

theorem Tracks.group_empty (h : Tracks kids j) (hn : j.nlive = 0) : ∀ k ∈ kids, k.2 ≠ j.pgid := by
  rw [h.nlive_eq, length_eq_zero_iff] at hn
  rintro ⟨n, g⟩ hk rfl
  exact absurd (mem_members.mpr hk) (hn ▸ not_mem_nil)

theorem Tracks.exists_kid (h : Tracks kids j) (hn : 0 < j.nlive) : ∃ k ∈ kids, k.2 = j.pgid := by
  rw [h.nlive_eq] at hn
  obtain ⟨n, hn⟩ := exists_mem_of_length_pos hn
  exact ⟨(n, j.pgid), mem_members.mp hn, rfl⟩

/-- The exit of a child of the job, as `poll_job` records it. -/
theorem Tracks.reap (h : Tracks kids j) (hk : (kids.map Prod.fst).Nodup) (hn : (n, j.pgid) ∈ kids) :
    Tracks (remove Prod.fst kids n) (Code.reaped n j) := by
  refine ⟨?_, ?_⟩
  · show (livePids (Code.clearPid j n)).Perm (members _ j.pgid)
    rw [livePids_clearPid, members_remove]
    exact h.perm.filter _
  · show j.nlive - 1 = (livePids (Code.clearPid j n)).length
    have hnodup : (livePids j).Nodup := h.perm.nodup_iff.mpr (nodup_members hk j.pgid)
    have hmem : n ∈ livePids j := h.perm.mem_iff.mpr (mem_members.mpr hn)
    rw [livePids_clearPid, length_filter_ne hnodup hmem, h.nlive]

theorem Tracks.congr {kids' : List (Nat × Nat)} (h : Tracks kids j)
    (hm : members kids' j.pgid = members kids j.pgid) : Tracks kids' j :=
  ⟨hm ▸ h.perm, h.nlive⟩

/-! ## Changes of the table -/

variable {v : View} {jid : Nat} {f : Job → Job} {x y : Option Nat} {b : List Byte}

theorem Table.nodup (h : Table v) : (v.jobs.map Job.jid).Nodup :=
  h.sorted.imp fun hlt => Nat.ne_of_lt hlt

theorem Table.lookup (h : Table v) (hj : j ∈ v.jobs) : lookup Job.jid v.jobs j.jid = some j :=
  lookup_of_mem h.nodup hj

/-- A write to one job, with the children as they are after it. -/
theorem Table.update {kids' : List (Nat × Nat)} (h : Table v) (hsub : kids'.Sublist v.kids)
    (hjid : ∀ j, (f j).jid = j.jid) (hpgid : ∀ j, (f j).pgid = j.pgid)
    (hcur : ∀ j ∈ v.jobs, j.jid = jid → Tracks kids' (f j))
    (hrest : ∀ j ∈ v.jobs, j.jid ≠ jid → Tracks kids' j) :
    Table ⟨update Job.jid v.jobs jid f, y, kids', b⟩ := by
  refine ⟨h.pids.sublist (hsub.map _), fun k hk => h.nonzero k (hsub.mem hk), ?_, ?_, ?_, ?_, ?_⟩
  · simpa only [map_update hjid] using h.sorted
  · intro j hj
    rcases mem_update hj with ⟨i, hi, -, rfl⟩ | ⟨hj, -⟩
    · rw [hjid]
      exact h.positive i hi
    · exact h.positive j hj
  · simpa [Data.update] using h.cap
  · simpa only [map_update hpgid] using h.groups
  · intro j hj
    rcases mem_update hj with ⟨i, hi, hjid, rfl⟩ | ⟨hj, hjid⟩
    · exact hcur i hi hjid
    · exact hrest j hj hjid

/-- A write to fields of a job that the agreement is not about. -/
theorem Table.setJob (h : Table v) (hjid : ∀ j, (f j).jid = j.jid)
    (hpgid : ∀ j, (f j).pgid = j.pgid)
    (hslots : ∀ j, livePids (f j) = livePids j) (hlive : ∀ j, (f j).nlive = j.nlive) :
    Table ⟨Data.update Job.jid v.jobs jid f, y, v.kids, b⟩ := by
  refine h.update (List.Sublist.refl _) hjid hpgid (fun j hj _ => ?_) fun j hj _ => h.tracks j hj
  obtain ⟨hp, hn⟩ := h.tracks j hj
  exact ⟨by rwa [hslots, hpgid], by rw [hlive, hslots, hn]⟩

theorem Table.reap (h : Table v) (hj : j ∈ v.jobs) (hn : (n, j.pgid) ∈ v.kids) :
    Table ⟨Data.update Job.jid v.jobs j.jid (Code.reaped n), y, remove Prod.fst v.kids n, b⟩ := by
  refine h.update remove_sublist (fun _ => rfl) (fun _ => rfl) (fun i hi hjid => ?_)
    fun i hi hjid => ?_
  · obtain rfl : i = j := inj_on_of_nodup_map h.nodup hi hj hjid
    exact (h.tracks i hi).reap h.pids hn
  · -- the child was not in this job's group: two jobs never share one
    refine (h.tracks i hi).congr ?_
    have hne : i.pgid ≠ j.pgid :=
      fun he => hjid (by rw [inj_on_of_nodup_map h.groups hi hj he])
    exact members_remove_of_ne h.pids hn hne

theorem Table.remove (h : Table v) (jid : Nat) :
    Table ⟨remove Job.jid v.jobs jid, y, v.kids, b⟩ :=
  ⟨h.pids, h.nonzero, h.sorted.sublist (remove_sublist.map _),
    fun j hj => h.positive j (mem_remove.mp hj).1, (remove_sublist.length_le).trans h.cap,
    h.groups.sublist (remove_sublist.map _), fun j hj => h.tracks j (mem_remove.mp hj).1⟩

theorem Table.fork (h : Table v) (hn : n ≠ 0) (hfresh : ∀ k ∈ v.kids, k.1 ≠ n) (hg : g ≠ 0)
    (hgroup : ∀ j ∈ v.jobs, j.pgid ≠ g) : Table ⟨v.jobs, y, v.kids ++ [(n, g)], b⟩ := by
  refine ⟨?_, forall_mem_concat h.nonzero ⟨hn, hg⟩, h.sorted, h.positive, h.cap, h.groups,
    fun j hj => ?_⟩
  · rw [map_append, nodup_append]
    refine ⟨h.pids, by simp, ?_⟩
    rintro p hp q hq rfl
    obtain ⟨k, hk, rfl⟩ := mem_map.mp hp
    simp only [map_cons, map_nil, mem_singleton] at hq
    exact hfresh k hk hq
  · refine (h.tracks j hj).congr ?_
    rw [members_append, if_neg fun he => hgroup j hj he.symm, append_nil]

theorem Table.add (h : Table v) (hcap : v.jobs.length < yashMaxJobs) (hpos : 0 < j.jid)
    (hmax : ∀ i ∈ v.jobs, i.jid < j.jid) (hgroup : ∀ i ∈ v.jobs, i.pgid ≠ j.pgid)
    (ht : Tracks v.kids j) : Table ⟨v.jobs ++ [j], y, v.kids, b⟩ := by
  refine ⟨h.pids, h.nonzero, ?_, forall_mem_concat h.positive hpos, ?_, ?_,
    forall_mem_concat h.tracks ht⟩
  · rw [map_append, pairwise_append]
    refine ⟨h.sorted, by simp, ?_⟩
    simpa using hmax
  · rw [length_append, length_singleton]
    exact hcap
  · rw [map_append, nodup_append]
    refine ⟨h.groups, by simp, ?_⟩
    simpa using hgroup

theorem lt_nextJid {s : Session} (h : (s.jobs.map Job.jid).Pairwise (· < ·)) :
    ∀ i ∈ s.jobs, i.jid < s.nextJid := by
  intro i hi
  unfold Session.nextJid
  cases hlast : s.jobs.getLast? with
  | none =>
    rw [getLast?_eq_none_iff.mp hlast] at hi
    cases hi
  | some tail => exact lt_succ_last h hi hlast

theorem Session.nextJid_eq (s : Session) :
    s.nextJid = (s.jobs.getLast?.map Job.jid).getD 0 + 1 := by
  unfold Session.nextJid
  cases s.jobs.getLast? <;> rfl

theorem nextJid_pos (s : Session) : 0 < s.nextJid := by
  unfold Session.nextJid
  split <;> simp

/-! ## Where every job is alive -/

theorem Ready.exists_kid (h : Ready x v) (hj : j ∈ v.jobs) : ∃ k ∈ v.kids, k.2 = j.pgid :=
  (h.table.tracks j hj).exists_kid (h.live j hj).nlive

theorem Table.deref (h : Table v) (hjid : jid ∈ v.jobs.map Job.jid) :
    ∃ j ∈ v.jobs, j.jid = jid ∧ Data.lookup Job.jid v.jobs jid = some j := by
  obtain ⟨j, hj, rfl⟩ := mem_map.mp hjid
  exact ⟨j, hj, rfl, h.lookup hj⟩

/-- A write to fields of a job that its being alive does not depend on. -/
theorem Ready.setJob (h : Ready x v) (hjid : ∀ j, (f j).jid = j.jid)
    (hpgid : ∀ j, (f j).pgid = j.pgid) (hslots : ∀ j, livePids (f j) = livePids j)
    (hlive : ∀ j, (f j).nlive = j.nlive) (hstate : ∀ j, Live j → (f j).state ≠ .done) :
    Ready x { v with jobs := update Job.jid v.jobs jid f } := by
  refine ⟨h.table.setJob hjid hpgid hslots hlive, fun j hj => ?_, h.fg, ?_⟩
  · rcases mem_update hj with ⟨i, hi, -, rfl⟩ | ⟨hj, -⟩
    · exact ⟨by rw [hlive]; exact (h.live i hi).nlive, hstate i (h.live i hi)⟩
    · exact h.live j hj
  · simpa only [map_update hjid] using h.ptr

/-- A job that is alive, or over and marked so. -/
def Settled (j : Job) : Prop := (j.state = .done ∧ j.nlive = 0) ∨ Live j

/-- The table around one job: the agreement, what holds of the list's `jid`s, and what holds of the
other jobs. -/
structure Around (jid : Nat) (x : Option Nat) (K : List Nat → Prop) (R : Job → Prop) (v : View) :
    Prop where
  table : Table v
  fg : v.fgJob = x
  mem : jid ∈ v.jobs.map Job.jid
  keys : K (v.jobs.map Job.jid)
  rest : ∀ j ∈ v.jobs, j.jid ≠ jid → R j

/-- The table while a job is being polled: its children come and go, and nothing else changes. -/
structure Polling (jid : Nat) (x : Option Nat) (K : List Nat → Prop) (R : Job → Prop) (v : View) :
    Prop extends Around jid x K R v where
  cur : ∀ j ∈ v.jobs, j.jid = jid → j.state ≠ .done

variable {K : List Nat → Prop} {R : Job → Prop} {kids' : List (Nat × Nat)}

theorem Around.update (h : Around jid x K R v)
    (ht : Table ⟨Data.update Job.jid v.jobs jid f, v.fgJob, kids', v.inbuf⟩)
    (hjid : ∀ j, (f j).jid = j.jid) :
    Around jid x K R ⟨Data.update Job.jid v.jobs jid f, v.fgJob, kids', v.inbuf⟩ := by
  refine ⟨ht, h.fg, ?_, ?_, fun j hj hne => ?_⟩
  · simpa only [map_update hjid] using h.mem
  · simpa only [map_update hjid] using h.keys
  · rcases mem_update hj with ⟨i, hi, hi', rfl⟩ | ⟨hj, -⟩
    · exact absurd ((hjid i).trans hi') hne
    · exact h.rest j hj hne

theorem mem_update_self {P : Job → Prop} (hf : ∀ j ∈ v.jobs, j.jid = jid → P (f j)) :
    ∀ j ∈ Data.update Job.jid v.jobs jid f, j.jid = jid → P j := by
  intro j hj he
  rcases mem_update hj with ⟨i, hi, hi', rfl⟩ | ⟨-, hne⟩
  · exact hf i hi hi'
  · exact absurd he hne

theorem Polling.update (h : Polling jid x K R v)
    (ht : Table ⟨Data.update Job.jid v.jobs jid f, v.fgJob, kids', v.inbuf⟩)
    (hjid : ∀ j, (f j).jid = j.jid)
    (hstate : ∀ j ∈ v.jobs, j.state ≠ .done → (f j).state ≠ .done) :
    Polling jid x K R ⟨Data.update Job.jid v.jobs jid f, v.fgJob, kids', v.inbuf⟩ :=
  ⟨h.toAround.update ht hjid, mem_update_self fun i hi hi' => hstate i hi (h.cur i hi hi')⟩

/-- With every other job alive, a job with a child left makes the table ready again. -/
theorem Polling.ready (h : Polling jid (some jid) K Live v)
    (hn : ∀ j ∈ v.jobs, j.jid = jid → 0 < j.nlive) : Ready (some jid) v := by
  refine ⟨h.table, fun j hj => ?_, h.fg, fun i hi => ?_⟩
  · by_cases he : j.jid = jid
    · exact ⟨hn j hj he, h.cur j hj he⟩
    · exact h.rest j hj he
  · cases hi
    exact h.mem

theorem Ready.polling (h : Ready (some jid) v) :
    Polling jid (some jid) (fun _ => True) Live v :=
  ⟨⟨h.table, h.fg, h.ptr jid rfl, trivial, fun j hj _ => h.live j hj⟩,
    fun j hj _ => (h.live j hj).state⟩

/-- The end of a foreground wait: the job has stopped, or is marked as over. -/
structure Waited (jid : Nat) (v : View) : Prop extends
    Around jid (some jid) (fun _ => True) Live v where
  settled : ∀ j ∈ v.jobs, j.jid = jid → Settled j

/-- `jobs_reap` polling: the jobs still to be polled are alive, the others settled. -/
structure Reaping (todo : List Nat) (v : View) : Prop where
  table : Table v
  fg : v.fgJob = none
  nodup : todo.Nodup
  mem : ∀ jid ∈ todo, jid ∈ v.jobs.map Job.jid
  live : ∀ j ∈ v.jobs, j.jid ∈ todo → Live j
  settled : ∀ j ∈ v.jobs, j.jid ∉ todo → Settled j

variable {todo : List Nat}

theorem Reaping.polling (h : Reaping (jid :: todo) v) :
    Polling jid none (fun js => ∀ i ∈ todo, i ∈ js)
      (fun j => (j.jid ∈ todo → Live j) ∧ (j.jid ∉ todo → Settled j)) v := by
  refine ⟨⟨h.table, h.fg, h.mem jid mem_cons_self,
    fun i hi => h.mem i (mem_cons_of_mem jid hi), fun j hj hne =>
    ⟨fun hi => ?_, fun hi => ?_⟩⟩, fun j hj he => ?_⟩
  · exact h.live j hj (mem_cons_of_mem jid hi)
  · exact h.settled j hj fun hm => (mem_cons.mp hm).elim hne hi
  · exact (h.live j hj (he ▸ mem_cons_self)).state

/-- Once a job has been polled it is settled too. -/
theorem Around.reaping (hn : (jid :: todo).Nodup)
    (h : Around jid none (fun js => ∀ i ∈ todo, i ∈ js)
      (fun j => (j.jid ∈ todo → Live j) ∧ (j.jid ∉ todo → Settled j)) v)
    (hs : ∀ j ∈ v.jobs, j.jid = jid → Settled j) : Reaping todo v := by
  rw [nodup_cons] at hn
  refine ⟨h.table, h.fg, hn.2, h.keys, fun j hj hi => ?_, fun j hj hi => ?_⟩
  · exact (h.rest j hj fun he => hn.1 (he ▸ hi)).1 hi
  · by_cases he : j.jid = jid
    · exact hs j hj he
    · exact (h.rest j hj he).2 hi

theorem Ready.reaping (h : Ready none v) : Reaping (v.jobs.map Job.jid) v :=
  ⟨h.table, h.fg, h.table.nodup, fun _ hi => hi, fun j hj _ => h.live j hj,
    fun _ hj hn => absurd (mem_map_of_mem hj) hn⟩

/-- `jobs_reap` sweeping: the jobs still to be looked at are settled, the others alive. -/
structure Sweeping (todo : List Nat) (v : View) : Prop where
  table : Table v
  fg : v.fgJob = none
  nodup : todo.Nodup
  mem : ∀ jid ∈ todo, jid ∈ v.jobs.map Job.jid
  settled : ∀ j ∈ v.jobs, j.jid ∈ todo → Settled j
  live : ∀ j ∈ v.jobs, j.jid ∉ todo → Live j

theorem Reaping.sweeping (h : Reaping [] v) : Sweeping (v.jobs.map Job.jid) v :=
  ⟨h.table, h.fg, h.table.nodup, fun _ hi => hi, fun j hj _ => h.settled j hj not_mem_nil,
    fun _ hj hn => absurd (mem_map_of_mem hj) hn⟩

theorem Sweeping.next (h : Sweeping (jid :: todo) v) (hl : ∀ j ∈ v.jobs, j.jid = jid → Live j) :
    Sweeping todo v := by
  refine ⟨h.table, h.fg, (nodup_cons.mp h.nodup).2,
    fun i hi => h.mem i (mem_cons_of_mem jid hi),
    fun j hj hi => h.settled j hj (mem_cons_of_mem jid hi), fun j hj hi => ?_⟩
  by_cases he : j.jid = jid
  · exact hl j hj he
  · exact h.live j hj fun hm => (mem_cons.mp hm).elim he hi

theorem Sweeping.remove (h : Sweeping (jid :: todo) v) :
    Sweeping todo { v with jobs := remove Job.jid v.jobs jid } := by
  have hn := nodup_cons.mp h.nodup
  refine ⟨h.table.remove jid, h.fg, hn.2, fun i hi => ?_, fun j hj hi => ?_, fun j hj hi => ?_⟩
  · obtain ⟨j, hj, rfl⟩ := mem_map.mp (h.mem i (mem_cons_of_mem jid hi))
    exact mem_map_of_mem (mem_remove.mpr ⟨hj, fun he => hn.1 (he ▸ hi)⟩)
  · exact h.settled j (mem_remove.mp hj).1 (mem_cons_of_mem jid hi)
  · obtain ⟨hj, hne⟩ := mem_remove.mp hj
    exact h.live j hj fun hm => (mem_cons.mp hm).elim hne hi

theorem Sweeping.ready (h : Sweeping [] v) : Ready none v :=
  ⟨h.table, fun j hj => h.live j hj not_mem_nil, h.fg, fun _ he => absurd he (by simp)⟩

theorem Table.setFg (h : Table v) (y : Option Nat) : Table { v with fgJob := y } :=
  ⟨h.pids, h.nonzero, h.sorted, h.positive, h.cap, h.groups, h.tracks⟩

theorem Ready.setInbuf (h : Ready x v) (b : List Byte) : Ready x { v with inbuf := b } :=
  ⟨⟨h.table.pids, h.table.nonzero, h.table.sorted, h.table.positive, h.table.cap, h.table.groups,
    h.table.tracks⟩, h.live, h.fg, h.ptr⟩

theorem Ready.setFg (h : Ready x v) (hjid : jid ∈ v.jobs.map Job.jid) :
    Ready (some jid) { v with fgJob := some jid } :=
  ⟨h.table.setFg _, h.live, rfl, fun i hi => by cases hi; exact hjid⟩

theorem Waited.ready (h : Waited jid v) (hs : ∀ j ∈ v.jobs, j.jid = jid → j.state ≠ .done) :
    Ready none { v with fgJob := none } := by
  refine ⟨h.table.setFg none, fun j hj => ?_, rfl, fun _ he => absurd he (by simp)⟩
  by_cases he : j.jid = jid
  · exact (h.settled j hj he).resolve_left fun ho => hs j hj he ho.1
  · exact h.rest j hj he

theorem Waited.remove (h : Waited jid v) :
    Ready none ⟨remove Job.jid v.jobs jid, none, v.kids, v.inbuf⟩ := by
  refine ⟨h.table.remove jid, fun j hj => ?_, rfl, fun _ he => absurd he (by simp)⟩
  obtain ⟨hj, hne⟩ := mem_remove.mp hj
  exact h.rest j hj hne

/-! ## Starting a job -/

theorem livePids_of_slots {ps : List Nat} {m : Nat}
    (h : j.cmds.map Cmd.pid = ps ++ List.replicate m 0)
    (hps : ∀ p ∈ ps, p ≠ 0) (hle : ps.length ≤ j.ncmds) : livePids j = ps := by
  rw [livePids, map_take, h, take_append, take_of_length_le hle, take_replicate,
    filter_append, filter_eq_self.mpr (by simpa using hps),
    filter_eq_nil_iff.mpr (by simp), append_nil]

theorem slots_started {ps : List Nat} {m : Nat}
    (h : j.cmds.map Cmd.pid = ps ++ List.replicate (m + 1) 0) (n : Nat) :
    (Code.started j ps.length n).cmds.map Cmd.pid = (ps ++ [n]) ++ List.replicate m 0 := by
  have hset :
      (Code.started j ps.length n).cmds.map Cmd.pid = (j.cmds.map Cmd.pid).set ps.length n := by
    refine ext_getElem? fun i => ?_
    simp only [Code.started, getElem?_map, getElem?_modify, getElem?_set, length_map]
    by_cases hi : ps.length = i
    · subst hi
      cases hc : j.cmds[ps.length]? with
      | none => simp [List.getElem?_eq_none_iff.mp hc]
      | some c => simp [(List.getElem?_eq_some_iff.mp hc).1]
    · simp [hi]
  rw [hset, h, set_append_right _ _ le_rfl, Nat.sub_self, replicate_succ,
    set_cons_zero, append_assoc]
  rfl

/-- `exec_job` after `i` forks: the children forked so far are alone in the group `pgid`, and fill
the first `i` pid slots. -/
structure Forking (i pgid : Nat) (proto : Job) (v : View) : Prop where
  ready : Ready none v
  slots : ∃ ps m, proto.cmds.map Cmd.pid = ps ++ List.replicate m 0 ∧ ps.length = i ∧
    (∀ p ∈ ps, p ≠ 0) ∧ proto.ncmds ≤ i + m ∧ ps.Perm (members v.kids pgid)
  le : i ≤ proto.ncmds
  nlive : proto.nlive = i
  zero : pgid = 0 ↔ i = 0
  group : ∀ j ∈ v.jobs, j.pgid ≠ pgid
  state : proto.state ≠ .done

variable {i pgid : Nat} {proto : Job}

/-- A job as `parse_line` returns it. -/
structure Fresh (job : Job) : Prop where
  pids : job.cmds.map Cmd.pid = [0, 0]
  ncmds : job.ncmds ≤ 2
  nlive : job.nlive = 0
  state : job.state = .running

theorem fresh_of_parseLine {line : List Byte} {job : Job} (h : parseLine (some line) = .ok job) :
    Fresh job := by
  obtain ⟨hpids, hncmds, hnlive, hstate⟩ := parseLine_unstarted h
  exact ⟨hpids, hncmds, hnlive, hstate⟩

theorem Forking.start (h : Ready none v) (hp : Fresh proto) : Forking 0 0 proto v := by
  refine ⟨h, ⟨[], 2, hp.pids, rfl, by simp, hp.ncmds, ?_⟩, Nat.zero_le _, hp.nlive, by simp, ?_, ?_⟩
  · rw [members_eq_nil fun k hk => (h.table.nonzero k hk).2]
  · intro j hj he
    obtain ⟨k, hk, hg⟩ := h.exists_kid hj
    exact (h.table.nonzero k hk).2 (hg.trans he)
  · rw [hp.state]
    simp

theorem Forking.tracks (h : Forking i pgid proto v) :
    Tracks v.kids { proto with pgid := pgid } := by
  obtain ⟨ps, m, hcmds, hlen, hnz, -, hperm⟩ := h.slots
  have hlive : livePids { proto with pgid := pgid } = ps :=
    livePids_of_slots (j := { proto with pgid := pgid }) hcmds hnz (hlen ▸ h.le)
  exact ⟨by rw [hlive]; exact hperm, by rw [hlive, hlen]; exact h.nlive⟩

/-- Another child, whose pid is that of no child and no group. -/
theorem Forking.fork (h : Forking i pgid proto v) (hi : i < proto.ncmds) (hn : n ≠ 0)
    (hfresh : ∀ k ∈ v.kids, k.1 ≠ n ∧ k.2 ≠ n) :
    Forking (i + 1) (if pgid = 0 then n else pgid) (Code.started proto i n)
      { v with kids := v.kids ++ [(n, if pgid = 0 then n else pgid)] } := by
  obtain ⟨ps, m, hcmds, rfl, hnz, hm, hperm⟩ := h.slots
  obtain ⟨m, rfl⟩ : ∃ m', m = m' + 1 := ⟨m - 1, by omega⟩
  have hg0 : (if pgid = 0 then n else pgid) ≠ 0 := by
    split
    · exact hn
    · assumption
  have hgroup : ∀ j ∈ v.jobs, j.pgid ≠ if pgid = 0 then n else pgid := by
    intro j hj
    split
    · obtain ⟨k, hk, hg⟩ := h.ready.exists_kid hj
      exact fun he => (hfresh k hk).2 (hg.trans he)
    · exact h.group j hj
  have hmem : ps.Perm (members v.kids (if pgid = 0 then n else pgid)) := by
    split
    · rename_i h0
      rw [members_eq_nil fun k hk => (hfresh k hk).2, length_eq_zero_iff.mp (h.zero.mp h0)]
    · exact hperm
  refine ⟨⟨h.ready.table.fork hn (fun k hk => (hfresh k hk).1) hg0 hgroup, h.ready.live, h.ready.fg,
    h.ready.ptr⟩, ⟨ps ++ [n], m, slots_started hcmds n, by simp, ?_,
    by show proto.ncmds ≤ _; omega, ?_⟩, hi,
    by rw [Code.started, h.nlive], by simp [hg0], hgroup, h.state⟩
  · intro p hp
    rcases mem_append.mp hp with hp | hp
    · exact hnz p hp
    · rwa [mem_singleton.mp hp]
  · rw [members_append, if_pos rfl]
    exact hmem.append_right [n]

/-! ## Killing every job -/

/-- `jobs_kill_all`: the jobs still to be killed have children, which `nlive` counts; those done
with have none. `cur` is the one it is at. -/
structure Killing (cur : Option Nat) (todo : List Nat) (v : View) : Prop where
  nodup : (v.jobs.map Job.jid).Nodup
  groups : (v.jobs.map Job.pgid).Nodup
  pids : (v.kids.map Prod.fst).Nodup
  distinct : todo.Nodup
  mem : ∀ jid ∈ todo, jid ∈ v.jobs.map Job.jid
  counts : ∀ j ∈ v.jobs, j.jid ∈ todo → j.nlive = (members v.kids j.pgid).length ∧ 0 < j.nlive
  emptied : ∀ j ∈ v.jobs, j.jid ∉ todo → cur ≠ some j.jid → ∀ k ∈ v.kids, k.2 ≠ j.pgid

theorem Ready.killing (h : Ready none v) : Killing none (v.jobs.map Job.jid) v :=
  ⟨h.table.nodup, h.table.groups, h.table.pids, h.table.nodup, fun _ hi => hi,
    fun j hj _ => ⟨(h.table.tracks j hj).nlive_eq, (h.live j hj).nlive⟩,
    fun _ hj hi => absurd (mem_map_of_mem hj) hi⟩

/-- `jobs_kill_all` waiting for the children of one job. -/
structure Draining (jid : Nat) (todo : List Nat) (v : View) : Prop extends
    Killing (some jid) todo v where
  next : jid ∉ todo
  ptr : jid ∈ v.jobs.map Job.jid
  count : ∀ j ∈ v.jobs, j.jid = jid → j.nlive = (members v.kids j.pgid).length

theorem Killing.draining (h : Killing none (jid :: todo) v) : Draining jid todo v := by
  obtain ⟨hnext, hdistinct⟩ := nodup_cons.mp h.distinct
  refine ⟨⟨h.nodup, h.groups, h.pids, hdistinct, fun i hi => h.mem i (mem_cons_of_mem jid hi),
    fun j hj hi => h.counts j hj (mem_cons_of_mem jid hi), fun j hj hi hne => ?_⟩, hnext,
    h.mem jid mem_cons_self, fun j hj he => (h.counts j hj (he ▸ mem_cons_self)).1⟩
  refine h.emptied j hj (fun hm => ?_) (by simp)
  exact (mem_cons.mp hm).elim (fun he => hne (he ▸ rfl)) hi

theorem Draining.killing (h : Draining jid todo v)
    (hover : ∀ j ∈ v.jobs, j.jid = jid → ∀ k ∈ v.kids, k.2 ≠ j.pgid) : Killing none todo v := by
  refine ⟨h.nodup, h.groups, h.pids, h.distinct, h.mem, h.counts, fun j hj hi _ => ?_⟩
  by_cases he : j.jid = jid
  · exact hover j hj he
  · exact h.emptied j hj hi fun hc => he (Option.some.inj hc).symm

/-- The exit of a child of the job, as `jobs_kill_all` counts it. -/
theorem Draining.reap (h : Draining j.jid todo v) (hj : j ∈ v.jobs) (hn : (n, j.pgid) ∈ v.kids) :
    Draining j.jid todo
      ⟨update Job.jid v.jobs j.jid (fun j => { j with nlive := j.nlive - 1 }), v.fgJob,
        remove Prod.fst v.kids n, v.inbuf⟩ := by
  have hjids : ∀ i : Job, ({ i with nlive := i.nlive - 1 } : Job).jid = i.jid := fun _ => rfl
  have hpgids : ∀ i : Job, ({ i with nlive := i.nlive - 1 } : Job).pgid = i.pgid := fun _ => rfl
  refine ⟨⟨?_, ?_, h.pids.sublist (remove_sublist.map _), h.distinct, ?_, fun i hi hin => ?_,
    fun i hi hin hne k hk => ?_⟩, h.next, ?_, mem_update_self fun i hi he => ?_⟩
  · simpa only [map_update hjids] using h.nodup
  · simpa only [map_update hpgids] using h.groups
  · simpa only [map_update hjids] using h.mem
  · rcases mem_update hi with ⟨i', -, hi', rfl⟩ | ⟨hi, hne⟩
    · exact absurd (hi' ▸ hin) h.next
    · have hg : i.pgid ≠ j.pgid :=
        fun he => hne (by rw [inj_on_of_nodup_map h.groups hi hj he])
      rw [members_remove_of_ne h.pids hn hg]
      exact h.counts i hi hin
  · rcases mem_update hi with ⟨i', -, hi', rfl⟩ | ⟨hi, -⟩
    · exact absurd (congrArg some hi'.symm) hne
    · exact h.emptied i hi hin hne k (mem_remove.mp hk).1
  · simpa only [map_update hjids] using h.ptr
  · obtain rfl : i = j := inj_on_of_nodup_map h.nodup hi hj he
    show i.nlive - 1 = (members (remove Prod.fst v.kids n) i.pgid).length
    rw [members_remove, length_filter_ne (nodup_members h.pids i.pgid) (mem_members.mpr hn),
      h.count i hi rfl]

end SystemProg.Yashd
