import SystemProg.Yash.Walk
import SystemProg.Yashd.JobTable

/-!
# The job table of the shell against its children

`waitpid(-1)` names a child by its pid, and `jobs_find_pid` looks for that pid in all jobs, oldest
first, those of reaped children included (`yash/src/jobs.c:144-157`). So the shell credits an exit
to the right job only as long as the pids stored in its table are those of different children.
`exec_job` forks before `jobs_add` decides whether there is room (`yash/src/exec.c:70-115`), and
drops the children if there is none.

`Ledger` puts the table next to the unreaped children. `Books` is how the two are related whatever
has been reaped, `Agrees` that every `nlive` counts the children of its job.
-/

namespace SystemProg.Yash

open Text Shell Conc Data Conc.Logic List
open Yashd (Signal WaitFlags WaitRes livePids)

/-- An unreaped child, but for its state. -/
structure Kid where
  pid : Nat
  pgid : Nat
  call : Nat
  deriving Repr, DecidableEq

/-- The table, the unreaped children, and the signals sent. -/
structure Ledger where
  jobs : Jobs
  kids : List Kid
  signals : List (Nat × Signal)

/-- The unreaped children of a call of `exec_job`. -/
def Ledger.of (v : Ledger) (call : Nat) : List Kid := v.kids.filter fun k => k.call = call

/-- Every `nlive` counts the unreaped children of its job, and a job that is done has none. -/
def Ledger.Agrees (v : Ledger) : Prop :=
  ∀ e ∈ v.jobs, e.job.nlive = (v.of e.call).length ∧ (e.job.state = .done → e.job.nlive = 0)

/-- Every unreaped child is a command of a job of the table. -/
def Ledger.Tracked (v : Ledger) : Prop :=
  ∀ k ∈ v.kids, ∃ e ∈ v.jobs, k.call = e.call ∧ k.pid ∈ e.pids

/-- Every child left has been sent SIGKILL, through its group. -/
def Ledger.Killed (v : Ledger) : Prop := ∀ k ∈ v.kids, (k.pgid, Signal.kill) ∈ v.signals

/-- The children a `waitpid` is about. -/
def Kid.among (k : Kid) (pgid : Option Nat) : Prop := ∀ g, pgid = some g → k.pgid = g

/-- `full`: the runs are those in which `jobs_add` never fails. -/
def Ledger.pre (full : Bool) : Op → Ledger → Prop
  | .load, _ | .store _, _ | .fault, _ => True
  | .pipe, v | .fork _ _, v | .malloc, v | .complain _, v => v.Agrees
  | .line site e _ _, v => (v.Agrees ∧ (full = true → v.Tracked)) ∧
      (site = .sweep → v.of e.call = [])
  | _, v => v.Agrees ∧ (full = true → v.Tracked)

/-- The runs are those in which `fork` returns no pid that is stored in the table. -/
def Ledger.act (full : Bool) : (o : Op) → Ledger → o.Res → Ledger → Prop
  | .load, v, js, v' => js = v.jobs ∧ v' = v
  | .store f, v, _, v' => v' = { v with jobs := f v.jobs }
  | .fork g c, v, r, v' =>
    match r with
    | none => v' = v
    | some n => n ≠ 0 ∧ (∀ k ∈ v.kids, k.pid ≠ n ∧ k.pgid ≠ n) ∧ (∀ e ∈ v.jobs, n ∉ e.pids) ∧
        (full = true → v.jobs.length < yashMaxJobs) ∧ v' = { v with kids := v.kids ++
          [⟨n, if g = 0 then n else if ∀ k ∈ v.kids, k.pgid ≠ g then 0 else g, c⟩] }
  | .malloc, v, r, v' => (full = true → r = true) ∧ v' = v
  | .parse line, v, r, v' => r = parseLine (some line) ∧ v' = v
  | .waitpid g flags, v, r, v' =>
    match r with
    | .exited pid => ∃ k ∈ v.kids, k.pid = pid ∧ k.among g ∧
        v' = { v with kids := remove Kid.pid v.kids pid }
    | .echild => (∀ k ∈ v.kids, ¬ k.among g) ∧ v' = v
    | .none => flags.nohang = true ∧ v' = v
    | .continued _ => flags.continued = true ∧ v' = v
    | .stopped _ | .eintr => v' = v
  | .kill g sig, v, _, v' => v' = { v with signals := v.signals ++ [(g, sig)] }
  | _, v, _, v' => v' = v

/-- The logic of the ledger. -/
def ledger (full : Bool) : Logic calls Ledger := sequential (Ledger.pre full) (Ledger.act full)

/-! ## The books -/

/-- How table and children are related, up to the call `c` of `exec_job`. -/
structure Books (c : Nat) (v : Ledger) : Prop where
  sorted : v.jobs.Sorted
  distinct : (v.kids.map Kid.pid).Nodup
  nonzero : ∀ k ∈ v.kids, k.pid ≠ 0
  before : (∀ e ∈ v.jobs, e.call < c) ∧ ∀ k ∈ v.kids, k.call < c
  /-- No two jobs have stored the same pid. -/
  slots : ∀ e ∈ v.jobs, ∀ e' ∈ v.jobs, ∀ p ∈ livePids e.job, p ∈ livePids e'.job → e.jid = e'.jid
  leader : ∀ e ∈ v.jobs, e.job.pgid ∈ livePids e.job
  owner : ∀ k ∈ v.kids, ∀ e ∈ v.jobs, k.call = e.call ↔ k.pid ∈ livePids e.job
  group : ∀ k ∈ v.kids, ∀ e ∈ v.jobs, k.call = e.call ↔ k.pgid = e.job.pgid

/-- What of a job the books are about. -/
def Entry.outline (e : Entry) : Nat × Nat × Nat × List Nat :=
  (e.jid, e.call, e.job.pgid, livePids e.job)

variable {full : Bool} {c : Nat} {v v' : Ledger} {e : Entry} {k : Kid} {jid pid n : Nat}
  {f : Job → Job}

theorem Entry.mem_pids (h : pid ≠ 0) : pid ∈ e.pids ↔ pid ∈ livePids e.job := by
  simp [Entry.pids, livePids, h]

theorem Books.nodup (h : Books c v) : (v.jobs.map Entry.jid).Nodup := h.sorted.nodup

/-- The books are about the outlines of the jobs. -/
theorem Books.congr {js : Jobs} (h : Books c v)
    (hjs : js.map Entry.outline = v.jobs.map Entry.outline) :
    Books c { v with jobs := js } := by
  have hmem : ∀ e ∈ js, ∃ e' ∈ v.jobs, e'.jid = e.jid ∧ e'.call = e.call ∧
      e'.job.pgid = e.job.pgid ∧ livePids e'.job = livePids e.job := by
    intro e he
    obtain ⟨e', he', ho⟩ := mem_map.mp (hjs ▸ mem_map_of_mem he)
    simp only [Entry.outline, Prod.mk.injEq] at ho
    exact ⟨e', he', ho⟩
  have hjids : js.map Entry.jid = v.jobs.map Entry.jid := by
    have := congrArg (List.map Prod.fst) hjs
    rwa [map_map, map_map] at this
  refine ⟨by rw [Jobs.Sorted, hjids]; exact h.sorted, h.distinct, h.nonzero,
    ⟨fun e he => ?_, h.before.2⟩, fun e he d hd p hp hp' => ?_, fun e he => ?_, fun k hk e he =>
    ?_, fun k hk e he => ?_⟩
  · obtain ⟨e', he', -, hcall, -⟩ := hmem e he
    exact hcall ▸ h.before.1 e' he'
  · obtain ⟨e', he', hjid, -, -, hpids⟩ := hmem e he
    obtain ⟨d', hd', hjid', -, -, hpids'⟩ := hmem d hd
    rw [← hjid, ← hjid']
    exact h.slots e' he' d' hd' p (hpids ▸ hp) (hpids' ▸ hp')
  · obtain ⟨e', he', -, -, hpgid, hpids⟩ := hmem e he
    rw [← hpgid, ← hpids]
    exact h.leader e' he'
  · obtain ⟨e', he', -, hcall, -, hpids⟩ := hmem e he
    rw [← hcall, ← hpids]
    exact h.owner k hk e' he'
  · obtain ⟨e', he', -, hcall, hpgid, -⟩ := hmem e he
    rw [← hcall, ← hpgid]
    exact h.group k hk e' he'

theorem Books.reap {kids : List Kid} (h : Books c v) (hsub : kids.Sublist v.kids) :
    Books c { v with kids := kids } :=
  ⟨h.sorted, h.distinct.sublist (hsub.map _), fun k hk => h.nonzero k (hsub.mem hk),
    ⟨h.before.1, fun k hk => h.before.2 k (hsub.mem hk)⟩, h.slots, h.leader,
    fun k hk => h.owner k (hsub.mem hk), fun k hk => h.group k (hsub.mem hk)⟩

theorem Books.drop {js : Jobs} (h : Books c v) (hsub : js.Sublist v.jobs) :
    Books c { v with jobs := js } :=
  ⟨h.sorted.sublist (hsub.map _), h.distinct, h.nonzero,
    ⟨fun e he => h.before.1 e (hsub.mem he), h.before.2⟩,
    fun e he e' he' => h.slots e (hsub.mem he) e' (hsub.mem he'),
    fun e he => h.leader e (hsub.mem he), fun k hk e he => h.owner k hk e (hsub.mem he),
    fun k hk e he => h.group k hk e (hsub.mem he)⟩

theorem Books.mono {c' : Nat} (h : Books c v) (hc : c ≤ c') : Books c' v :=
  ⟨h.sorted, h.distinct, h.nonzero, ⟨fun e he => (h.before.1 e he).trans_le hc,
    fun k hk => (h.before.2 k hk).trans_le hc⟩, h.slots, h.leader, h.owner, h.group⟩

theorem Books.unique {e e' : Entry} (h : Books c v) (hk : k ∈ v.kids) (he : e ∈ v.jobs)
    (he' : e' ∈ v.jobs) (hc : k.call = e.call) (hc' : k.call = e'.call) : e = e' :=
  inj_on_of_nodup_map h.nodup he he' (h.slots e he e' he' k.pid
    ((h.owner k hk e he).mp hc) ((h.owner k hk e' he').mp hc'))

/-! ## The shell between two calls of `exec_job` -/

/-- What holds between two commands. -/
structure Sound (full : Bool) (c : Nat) (v : Ledger) : Prop where
  books : Books c v
  agrees : v.Agrees
  tracked : full = true → ∀ k ∈ v.kids, ∃ e ∈ v.jobs, k.call = e.call

theorem Sound.pre_tracked (h : Sound full c v) (hf : full = true) : v.Tracked := by
  intro k hk
  obtain ⟨e, he, hc⟩ := h.tracked hf k hk
  exact ⟨e, he, hc, (Entry.mem_pids (h.books.nonzero k hk)).mpr ((h.books.owner k hk e he).mp hc)⟩

theorem Sound.mono (h : Sound full c v) : Sound full (c + 1) v :=
  ⟨h.books.mono (Nat.le_succ c), h.agrees, h.tracked⟩

theorem of_remove_of_ne (hd : (v.kids.map Kid.pid).Nodup) (hk : k ∈ v.kids) (hc : k.call ≠ c) :
    Ledger.of { v with kids := remove Kid.pid v.kids k.pid } c = v.of c := by
  show (remove Kid.pid v.kids k.pid).filter _ = v.kids.filter _
  rw [remove, filter_comm]
  refine remove_eq_self fun k' hk' he => hc ?_
  obtain ⟨hk', hc'⟩ := mem_filter.mp hk'
  rw [← inj_on_of_nodup_map hd hk' hk he]
  exact of_decide_eq_true hc'

theorem length_of_remove (hd : (v.kids.map Kid.pid).Nodup) (hk : k ∈ v.kids) :
    (Ledger.of { v with kids := remove Kid.pid v.kids k.pid } k.call).length =
      (v.of k.call).length - 1 := by
  have hlen : (remove Kid.pid (v.of k.call) k.pid).length + 1 = (v.of k.call).length :=
    length_remove (hd.sublist (filter_sublist.map _))
      (mem_filter.mpr ⟨hk, decide_eq_true rfl⟩)
  rw [← hlen, Nat.add_sub_cancel]
  show ((remove Kid.pid v.kids k.pid).filter _).length = _
  rw [remove, filter_comm]
  rfl

/-- A write to a job that leaves its outline alone. -/
structure Outlined (f : Job → Job) : Prop where
  jid : ∀ j, (f j).jid = j.jid
  pgid : ∀ j, (f j).pgid = j.pgid
  pids : ∀ j, livePids (f j) = livePids j

/-- A write to one job, with the children as they are after it. -/
theorem Sound.update {kids : List Kid} (h : Sound full c v) (hsub : kids.Sublist v.kids)
    (hf : Outlined f)
    (hcur : ∀ e ∈ v.jobs, e.jid = jid →
      (f e.job).nlive = (Ledger.of { v with kids := kids } e.call).length ∧
      ((f e.job).state = .done → (f e.job).nlive = 0))
    (hrest : ∀ e ∈ v.jobs, e.jid ≠ jid → Ledger.of { v with kids := kids } e.call = v.of e.call) :
    Sound full c { v with jobs := v.jobs.setJob jid f, kids := kids } := by
  refine ⟨Books.congr (h.books.reap hsub) ?_, fun e he => ?_, fun hfull k hk => ?_⟩
  · refine map_update fun e => ?_
    simp only [Entry.outline, Entry.jid, hf.jid, hf.pgid, hf.pids]
  · rcases mem_update he with ⟨d, hd, hjid, rfl⟩ | ⟨he, hjid⟩
    · exact hcur d hd hjid
    · obtain ⟨hn, hdone⟩ := h.agrees e he
      exact ⟨hn.trans (congrArg List.length (hrest e he hjid).symm), hdone⟩
  · obtain ⟨e, he, hc⟩ := h.tracked hfull k (hsub.mem hk)
    refine ⟨_, mem_map_of_mem he, ?_⟩
    split <;> exact hc

/-- A write that is neither about a job's children nor ends it. -/
theorem Sound.setJob (h : Sound full c v) (hf : Outlined f) (hn : ∀ j, (f j).nlive = j.nlive)
    (hdone : ∀ e ∈ v.jobs, e.jid = jid → (f e.job).state = .done → e.job.nlive = 0) :
    Sound full c { v with jobs := v.jobs.setJob jid f } := by
  refine h.update (List.Sublist.refl _) hf (fun e he hjid => ?_) fun _ _ _ => rfl
  rw [hn]
  exact ⟨(h.agrees e he).1, hdone e he hjid⟩

/-- **The exit of a child, recorded in its job.** -/
theorem Sound.reap (h : Sound full c v) (hk : k ∈ v.kids) (he : e ∈ v.jobs) (hc : k.call = e.call)
    (hf : Outlined f) (hn : ∀ j, (f j).nlive = j.nlive - 1)
    (hdone : (f e.job).state = .done → e.job.nlive ≤ 1) :
    Sound full c { v with
      jobs := v.jobs.setJob e.jid f
      kids := remove Kid.pid v.kids k.pid } := by
  refine h.update remove_sublist hf (fun d hd hjid => ?_) fun d hd hjid => ?_
  · obtain rfl := inj_on_of_nodup_map h.books.nodup hd he hjid
    rw [hn, ← hc, length_of_remove h.books.distinct hk, hc, ← (h.agrees _ hd).1]
    exact ⟨rfl, fun hs => by have := hdone hs; omega⟩
  · exact of_remove_of_ne h.books.distinct hk fun hcd =>
      hjid (by rw [h.books.unique hk he hd hc hcd])

/-- The exit of a child whose job is not in the table. -/
theorem Sound.lost (h : Sound full c v) (hk : k ∈ v.kids) (hno : ∀ e ∈ v.jobs, k.call ≠ e.call) :
    Sound full c { v with kids := remove Kid.pid v.kids k.pid } := by
  refine ⟨h.books.reap remove_sublist, fun e he => ?_, fun hfull k' hk' =>
    h.tracked hfull k' (mem_remove.mp hk').1⟩
  rw [of_remove_of_ne h.books.distinct hk (hno e he)]
  exact h.agrees e he

theorem Sound.of_done (h : Sound full c v) (he : e ∈ v.jobs) (hd : e.job.state = .done) :
    v.of e.call = [] := by
  obtain ⟨hn, hdone⟩ := h.agrees e he
  exact length_eq_zero_iff.mp (hn.symm.trans (hdone hd))

theorem Sound.remove (h : Sound full c v) (hjid : ∀ e ∈ v.jobs, e.jid = jid → e.job.state = .done) :
    Sound full c { v with jobs := remove Entry.jid v.jobs jid } := by
  refine ⟨h.books.drop remove_sublist, fun e he => h.agrees e (mem_remove.mp he).1,
    fun hfull k hk => ?_⟩
  obtain ⟨e, he, hc⟩ := h.tracked hfull k hk
  refine ⟨e, mem_remove.mpr ⟨he, fun hj => ?_⟩, hc⟩
  exact filter_eq_nil_iff.mp (h.of_done he (hjid e he hj)) k hk (decide_eq_true hc)

theorem Sound.signal (h : Sound full c v) (g : Nat) (sig : Signal) :
    Sound full c { v with signals := v.signals ++ [(g, sig)] } :=
  ⟨⟨h.books.sorted, h.books.distinct, h.books.nonzero, h.books.before, h.books.slots,
    h.books.leader, h.books.owner, h.books.group⟩, h.agrees, h.tracked⟩

/-- A job with `nlive > 0` has a child left, in its group. -/
theorem Sound.exists_kid (h : Sound full c v) (he : e ∈ v.jobs) (hn : e.job.nlive ≠ 0) :
    ∃ k ∈ v.kids, k.pgid = e.job.pgid := by
  rw [(h.agrees e he).1] at hn
  obtain ⟨k, hk⟩ := exists_mem_of_length_pos (Nat.pos_of_ne_zero hn)
  obtain ⟨hk, hc⟩ := mem_filter.mp hk
  exact ⟨k, hk, (h.books.group k hk e he).mp (of_decide_eq_true hc)⟩

/-! ## A job being forked -/

/-- `exec_job` after `i` forks. -/
structure Forking (full : Bool) (c i pgid : Nat) (proto : Job) (v : Ledger) : Prop where
  books : Books (c + 1) v
  agrees : v.Agrees
  tracked : full = true → ∀ k ∈ v.kids, k.call ≠ c → ∃ e ∈ v.jobs, k.call = e.call
  /-- The job is not in the table. -/
  before : ∀ e ∈ v.jobs, e.call < c
  count : (v.of c).length = i
  le : i ≤ proto.ncmds
  nlive : proto.nlive = i
  slots : ∃ m, proto.cmds.map Cmd.pid = (v.of c).map Kid.pid ++ List.replicate m 0 ∧
    proto.ncmds ≤ i + m
  state : proto.state ≠ .done
  unset : i = 0 → pgid = 0
  lead : i ≠ 0 → pgid ∈ (v.of c).map Kid.pid
  group : i ≠ 0 → ∀ k ∈ v.kids, k.call = c ↔ k.pgid = pgid
  room : full = true → i ≠ 0 → v.jobs.length < yashMaxJobs

variable {i pgid : Nat} {proto : Job}

theorem mem_of : k ∈ v.of c ↔ k ∈ v.kids ∧ k.call = c := by
  rw [Ledger.of, mem_filter, decide_eq_true_iff]

theorem Sound.of_eq_nil (h : Sound full c v) : v.of c = [] :=
  filter_eq_nil_iff.mpr fun k hk => by simpa using Nat.ne_of_lt (h.books.before.2 k hk)

theorem Forking.start (h : Sound full c v) (hp : Yashd.Fresh proto) : Forking full c 0 0 proto v :=
  ⟨h.mono.books, h.agrees, fun hf k hk _ => h.tracked hf k hk, h.books.before.1,
    by rw [h.of_eq_nil]; rfl, Nat.zero_le _, hp.nlive, ⟨2, by rw [h.of_eq_nil]; exact hp.pids,
    by rw [Nat.zero_add]; exact hp.ncmds⟩, by rw [hp.state]; decide, fun _ => rfl, absurd rfl,
    absurd rfl, fun _ => absurd rfl⟩

theorem Forking.sound_zero (h : Forking full c 0 pgid proto v) : Sound full (c + 1) v := by
  refine ⟨h.books, h.agrees, fun hf k hk => h.tracked hf k hk fun hc => ?_⟩
  exact not_mem_nil (length_eq_zero_iff.mp h.count ▸ mem_of.mpr ⟨hk, hc⟩)

theorem Forking.sound_lost (h : Forking false c i pgid proto v) : Sound false (c + 1) v :=
  ⟨h.books, h.agrees, fun hf => absurd hf (by decide)⟩

theorem Forking.leader (h : Forking full c i pgid proto v) (hi : i ≠ 0) :
    ∃ k ∈ v.kids, k.call = c ∧ k.pid = pgid ∧ k.pgid = pgid := by
  obtain ⟨k, hk, hpid⟩ := mem_map.mp (h.lead hi)
  obtain ⟨hk, hc⟩ := mem_of.mp hk
  exact ⟨k, hk, hc, hpid, (h.group hi k hk).mp hc⟩

theorem Books.fork {g : Nat} (h : Books (c + 1) v) (hc : ∀ e ∈ v.jobs, e.call < c) (hn : n ≠ 0)
    (hfresh : ∀ k ∈ v.kids, k.pid ≠ n) (hstored : ∀ e ∈ v.jobs, n ∉ e.pids)
    (hg : ∀ e ∈ v.jobs, g ≠ e.job.pgid) :
    Books (c + 1) { v with kids := v.kids ++ [⟨n, g, c⟩] } := by
  refine ⟨h.sorted, ?_, forall_mem_concat h.nonzero hn,
    ⟨h.before.1, forall_mem_concat h.before.2 (Nat.lt_succ_self c)⟩, h.slots, h.leader,
    forall_mem_concat h.owner fun e he => ?_, forall_mem_concat h.group fun e he => ?_⟩
  · rw [map_append, nodup_append]
    refine ⟨h.distinct, by simp, ?_⟩
    simpa using hfresh
  · exact iff_of_false (hc e he).ne' fun hp => hstored e he ((Entry.mem_pids hn).mpr hp)
  · exact iff_of_false (hc e he).ne' (hg e he)

/-- **One `fork`**: the child is in the group of its job, which no other child is in. -/
theorem Forking.fork {v' : Ledger} (h : Forking full c i pgid proto v) (hi : i < proto.ncmds)
    (ha : Ledger.act full (.fork pgid c) v (some n) v') :
    Forking full c (i + 1) (if pgid = 0 then n else pgid) (Yashd.Code.started proto i n) v' := by
  obtain ⟨hn, hfresh, hstored, hroom, rfl⟩ := ha
  obtain ⟨g, hg⟩ : ∃ g, g = if pgid = 0 then n else pgid := ⟨_, rfl⟩
  have hjoin : (if pgid = 0 then n else if ∀ k ∈ v.kids, k.pgid ≠ pgid then 0 else pgid) = g := by
    rcases Nat.eq_zero_or_pos i with h0 | hpos
    · rw [hg, h.unset h0, if_pos rfl, if_pos rfl]
    · obtain ⟨k, hk, -, -, hkg⟩ := h.leader hpos.ne'
      rw [hg, if_neg fun hall : ∀ k ∈ v.kids, k.pgid ≠ pgid => hall k hk hkg]
  -- the group of the job: a new one, or that of the children already forked
  have hgroup : ∀ k ∈ v.kids, k.call = c ↔ k.pgid = g := by
    intro k hk
    rcases Nat.eq_zero_or_pos i with h0 | hpos
    · rw [hg, h.unset h0, if_pos rfl]
      refine iff_of_false (fun hc => ?_) (hfresh k hk).2
      exact not_mem_nil (length_eq_zero_iff.mp (h.count.trans h0) ▸ mem_of.mpr ⟨hk, hc⟩)
    · obtain ⟨l, hl, -, hlp, -⟩ := h.leader hpos.ne'
      rw [hg, if_neg (hlp ▸ h.books.nonzero l hl)]
      exact h.group hpos.ne' k hk
  have hforeign : ∀ e ∈ v.jobs, g ≠ e.job.pgid := by
    intro e he hge
    have hlead := h.books.leader e he
    rcases Nat.eq_zero_or_pos i with h0 | hpos
    · rw [h.unset h0, if_pos rfl] at hg
      refine hstored e he ((Entry.mem_pids hn).mpr ?_)
      rw [← hg, hge]
      exact hlead
    · obtain ⟨l, hl, hlc, hlp, hlg⟩ := h.leader hpos.ne'
      rw [if_neg (hlp ▸ h.books.nonzero l hl)] at hg
      have := (h.books.group l hl e he).mpr (hlg.trans (hg.symm.trans hge))
      exact (h.before e he).ne (this.symm.trans hlc)
  have hof : Ledger.of { v with kids := v.kids ++ [⟨n, g, c⟩] } c = v.of c ++ [⟨n, g, c⟩] := by
    simp [Ledger.of, filter_append]
  obtain ⟨m, hcmds, hm⟩ := h.slots
  rw [hjoin, ← hg]
  refine ⟨h.books.fork h.before hn (fun k hk => (hfresh k hk).1) hstored hforeign, fun e he => ?_,
    fun hf k hk hc => ?_, h.before, ?_, hi, congrArg (· + 1) h.nlive, ⟨m - 1, ?_, ?_⟩, h.state,
    by simp, fun _ => ?_, fun _ k hk => ?_, fun hf _ => hroom hf⟩
  · have : Ledger.of { v with kids := v.kids ++ [⟨n, g, c⟩] } e.call = v.of e.call := by
      simp [Ledger.of, filter_append, (h.before e he).ne']
    rw [this]
    exact h.agrees e he
  · rcases mem_append.mp hk with hk | hk
    · exact h.tracked hf k hk hc
    · rw [mem_singleton.mp hk] at hc
      exact absurd rfl hc
  · rw [hof, length_append, h.count]
    rfl
  · obtain ⟨m, rfl⟩ : ∃ m', m = m' + 1 := ⟨m - 1, by omega⟩
    have hlen : i = ((v.of c).map Kid.pid).length := by rw [length_map, h.count]
    rw [hof, map_append, hlen]
    exact Yashd.slots_started hcmds n
  · show proto.ncmds ≤ _
    omega
  · rw [hof, map_append]
    rcases Nat.eq_zero_or_pos i with h0 | hpos
    · rw [hg, h.unset h0, if_pos rfl]
      exact mem_append_right _ (mem_singleton_self n)
    · obtain ⟨l, hl, -, hlp, -⟩ := h.leader hpos.ne'
      rw [hg, if_neg (hlp ▸ h.books.nonzero l hl)]
      exact mem_append_left _ (h.lead hpos.ne')
  · rcases mem_append.mp hk with hk | hk
    · exact hgroup k hk
    · rw [mem_singleton.mp hk]
      exact iff_of_true rfl rfl

/-- **`jobs_add`**: the job in the table, with its children. -/
theorem Forking.add (h : Forking full c i pgid proto v) (hi : i ≠ 0) :
    Sound full (c + 1) { v with jobs := v.jobs.append { proto with pgid := pgid } c } := by
  obtain ⟨e, he⟩ : ∃ e : Entry, e = ⟨{ proto with pgid := pgid, jid := v.jobs.nextJid }, c⟩ :=
    ⟨_, rfl⟩
  rw [Jobs.append, ← he]
  have hcall : e.call = c := by rw [he]
  have hlive : livePids e.job = (v.of c).map Kid.pid := by
    obtain ⟨m, hcmds, -⟩ := h.slots
    rw [he]
    refine Yashd.livePids_of_slots hcmds (fun p hp => ?_)
      (by rw [length_map, h.count]; exact h.le)
    obtain ⟨k, hk, rfl⟩ := mem_map.mp hp
    exact h.books.nonzero k (mem_of.mp hk).1
  have hown : ∀ k ∈ v.kids, k.call = c ↔ k.pid ∈ (v.of c).map Kid.pid := by
    refine fun k hk => ⟨fun hc => mem_map_of_mem (mem_of.mpr ⟨hk, hc⟩), fun hp => ?_⟩
    obtain ⟨l, hl, hlp⟩ := mem_map.mp hp
    obtain ⟨hl, hlc⟩ := mem_of.mp hl
    rwa [← inj_on_of_nodup_map h.books.distinct hl hk hlp]
  have hnew : ∀ d ∈ v.jobs, ∀ p ∈ livePids d.job, p ∉ livePids e.job := by
    intro d hd p hp hp'
    rw [hlive] at hp'
    obtain ⟨k, hk, rfl⟩ := mem_map.mp hp'
    obtain ⟨hk, hkc⟩ := mem_of.mp hk
    exact (h.before d hd).ne (((h.books.owner k hk d hd).mpr hp).symm.trans hkc)
  refine ⟨⟨?_, h.books.distinct, h.books.nonzero, ⟨forall_mem_concat h.books.before.1 ?_,
    h.books.before.2⟩, ?_, forall_mem_concat h.books.leader ?_,
    fun k hk => forall_mem_concat (h.books.owner k hk) ?_,
    fun k hk => forall_mem_concat (h.books.group k hk) ?_⟩,
    forall_mem_concat h.agrees ⟨?_, fun hd => ?_⟩, fun hf k hk => ?_⟩
  · exact he ▸ h.books.sorted.append { proto with pgid := pgid } c
  · rw [hcall]
    exact Nat.lt_succ_self c
  · refine forall_mem_concat (fun d hd => forall_mem_concat (h.books.slots d hd) fun p hp hp' => ?_)
      (forall_mem_concat (fun d hd p hp hp' => ?_) fun _ _ _ => rfl)
    · exact absurd hp' (hnew d hd p hp)
    · exact absurd hp (hnew d hd p hp')
  · rw [hlive, he]
    exact h.lead hi
  · rw [hcall, hlive]
    exact hown k hk
  · rw [hcall, he]
    exact h.group hi k hk
  · rw [hcall, he]
    exact h.nlive.trans h.count.symm
  · rw [he] at hd
    exact absurd hd h.state
  · by_cases hc : k.call = c
    · exact ⟨e, mem_append_right _ (mem_singleton_self e), hc.trans hcall.symm⟩
    · obtain ⟨d, hd, hkd⟩ := h.tracked hf k hk hc
      exact ⟨d, mem_append_left _ hd, hkd⟩

end SystemProg.Yash
