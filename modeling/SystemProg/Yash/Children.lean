import SystemProg.Yash.Accounts

/-!
# The children of the shell

Two things the shell says of its children, and the runs in which they hold.

* **`balanced_of_unstored`**: as long as `fork` returns no pid that is stored in the table and no
  child leaves the group of its job, every `nlive` is the number of unreaped children of its job. A
  pid stays in the table after its child has been reaped (the later server clears it: `clear_pid`),
  and the kernel may hand it out again: in `reused_pid` the exit of one job's only child ends
  another job, whose own child is alive.
* **`tracked_of_fits`**: as long as, besides, nothing is forked while the table is full and `malloc`
  does not fail, every unreaped child is a command of a job of the table and gets SIGKILL at the end
  ("All child processes will be dead on exit", `yash/src/main.c`). With 20 jobs in the table the
  next child is forked and forgotten (`forgotten_child`).
-/

namespace SystemProg.Yash

open Text Shell Conc Data List
open Yashd (Signal WaitFlags WaitRes Choice)

/-- The unreaped children of a call of `exec_job`. -/
def World.children (w : World) (call : Nat) : List Proc := w.procs.filter fun p => p.call = call

/-- Every `nlive` is the number of unreaped children of its job, and a job that is done has none. -/
def World.Balanced (w : World) : Prop :=
  ∀ e ∈ w.jobs, e.job.nlive = (w.children e.call).length ∧
    (e.job.state = .done → w.children e.call = [])

/-- Every unreaped child is a command of a job of the table. -/
def World.Tracked (w : World) : Prop :=
  ∀ p ∈ w.procs, ∃ e ∈ w.jobs, p.call = e.call ∧ p.pid ∈ e.pids

/-- The operations outside the updates of the table. -/
def Op.settled : Op → Bool
  | .load | .store _ | .fault => false
  | _ => true

/-- The operations outside those, and outside `exec_job` up to `jobs_add`. -/
def Op.resting : Op → Bool
  | .load | .store _ | .fault | .pipe | .fork _ _ | .malloc | .complain _ => false
  | _ => true

/-- `fork` returns no pid that is stored in the table, and no child leaves its group. -/
def unstored (S : System) (e : Event) : Bool :=
  match S.next, e with
  | _, .regroup _ _ => false
  | some (.fork _ _), .run (.pid n) => S.world.jobs.all fun e => n ∉ e.pids
  | _, _ => true

/-- Nothing is forked while the table is full, and `malloc` does not fail. -/
def fits (S : System) (e : Event) : Bool :=
  match S.next, e with
  | some (.fork _ _), .run (.pid _) => S.world.jobs.length < yashMaxJobs
  | some .malloc, .run .error => false
  | _, _ => true

/-! ## The ledger of a world -/

/-- A process in the ledger. -/
def Proc.kid (p : Proc) : Kid := ⟨p.pid, p.pgid, p.call⟩

/-- The ledger of a world. -/
def World.ledger (w : World) : Ledger := ⟨w.jobs, w.procs.map Proc.kid, w.signals⟩

variable {S S' : System} {w w' : World} {full : Bool} {o : Op}

theorem ledger_of (w : World) (call : Nat) : w.ledger.of call = (w.children call).map Proc.kid := by
  rw [Ledger.of, World.ledger, filter_map]
  rfl

theorem mem_ledger {k : Kid} : k ∈ w.ledger.kids ↔ ∃ p ∈ w.procs, p.kid = k := mem_map

/-- Nothing but `fork` and `waitpid` changes which children there are. -/
theorem ledger_setProc (w : World) (pid : Nat) {f : Proc → Proc} (hf : ∀ p, (f p).kid = p.kid) :
    (w.setProc pid f).ledger = w.ledger := by
  show (⟨_, (w.setProc pid f).procs.map Proc.kid, _⟩ : Ledger) = _
  congr 1
  rw [World.setProc, map_map]
  refine map_congr_left fun p _ => ?_
  show Proc.kid (if _ then _ else _) = _
  split
  · exact hf p
  · rfl

theorem ledger_env {e : Event} (h : unstored S e = true) :
    (S.world.env e).ledger = S.world.ledger := by
  cases e with
  | regroup pid pgid => simp [unstored] at h
  | exit pid | stop pid | cont pid => exact ledger_setProc _ pid fun _ => rfl
  | input bs =>
    simp only [World.env]
    split <;> rfl
  | close | run ch => rfl

theorem ledger_reported {p : Proc} : (w.reported p).ledger = { w.ledger with
    kids := if p.state = .zombie then remove Kid.pid w.ledger.kids p.pid else w.ledger.kids } := by
  unfold World.reported
  split
  · rename_i hz
    rw [if_pos hz]
    show (⟨_, List.map _ (List.filter _ _), _⟩ : Ledger) = _
    rw [remove, World.ledger, filter_map]
    rfl
  · rename_i hz
    rw [if_neg hz]
    show (⟨_, List.map _ (List.map _ _), _⟩ : Ledger) = _
    rw [map_map]
    congr 1
    refine map_congr_left fun q _ => ?_
    show Proc.kid (if _ then _ else _) = _
    split <;> rfl

theorem Proc.among_iff {p : Proc} {g : Option Nat} : p.among g = true ↔ p.kid.among g := by
  cases g with
  | none => exact iff_of_true rfl fun _ h => by cases h
  | some g => simp [Proc.among, Kid.among, Proc.kid]

theorem ledger_waitpid_act {g : Option Nat} {flags : WaitFlags} {ch : Choice} {r : WaitRes}
    (h : w.waitpid g flags ch = some (r, w')) :
    Ledger.act full (.waitpid g flags) w.ledger r w'.ledger := by
  rcases waitpid_cases h with ⟨p, hp, ham, hrep, rfl⟩ | ⟨rfl, hno, rfl⟩ | ⟨rfl | ⟨rfl, hn⟩, rfl⟩
  · rw [ledger_reported]
    rcases Proc.reports_cases hrep with ⟨rfl, hz⟩ | ⟨rfl | ⟨rfl, hc⟩, hz⟩
    · rw [if_pos hz]
      exact ⟨p.kid, mem_ledger.mpr ⟨p, hp, rfl⟩, rfl, Proc.among_iff.mp ham, rfl⟩
    · rw [if_neg hz]
      rfl
    · rw [if_neg hz]
      exact ⟨hc, rfl⟩
  · refine ⟨fun k hk ham => ?_, rfl⟩
    obtain ⟨p, hp, rfl⟩ := mem_ledger.mp hk
    exact absurd (Proc.among_iff.mpr ham) (by rw [hno p hp]; decide)
  · rfl
  · exact ⟨hn, rfl⟩

/-- **An operation does to the ledger what the shell's specification says.** -/
theorem ledger_exec {ok : System → Event → Bool} (hok : ∀ S e, ok S e = true → unstored S e = true)
    (hfull : full = true → ∀ S e, ok S e = true → fits S e = true) {ch : Choice} {r : o.Res}
    (hS : ok S (.run ch) = true) (ho : S.next = some o) (h : exec ch o S.world = some (r, w')) :
    Ledger.act full o S.world.ledger r w'.ledger := by
  cases o with
  | load =>
    cases h
    exact ⟨rfl, rfl⟩
  | fault => cases h
  | fgets =>
    obtain ⟨x, -, hx⟩ := Option.map_eq_some_iff.mp h
    cases hx
    rfl
  | parse line =>
    cases h
    exact ⟨rfl, rfl⟩
  | pipe =>
    revert h
    cases ch <;> rintro ⟨⟩ <;> rfl
  | malloc =>
    cases ch <;> cases h
    · exact ⟨fun _ => rfl, rfl⟩
    · refine ⟨fun hf => ?_, rfl⟩
      have := hfull hf _ _ hS
      simp [fits, ho] at this
  | fork g c =>
    rcases fork_cases h with ⟨n, rfl, rfl, hn, hfresh, rfl⟩ | ⟨rfl, rfl⟩
    · have hun := hok _ _ hS
      have hkids : ∀ g, (∀ k ∈ S.world.ledger.kids, k.pgid ≠ g) ↔ ∀ p ∈ S.world.procs, p.pgid ≠ g :=
        fun g => forall_mem_map
      refine ⟨hn, forall_mem_map.mpr hfresh, ?_, fun hf => ?_, ?_⟩
      · simpa [unstored, ho, World.ledger] using hun
      · have := hfull hf _ _ hS
        simpa [fits, ho, World.ledger] using this
      · simp only [hkids]
        simp only [World.ledger, map_append]
        rfl
    · rfl
  | waitpid g flags => exact ledger_waitpid_act h
  | store _ | prompt | print _ | line _ _ _ _ | complain _ | kill _ _ | giveTerminal _ =>
    cases h
    rfl

theorem ReachableIf.ledger {ok : System → Event → Bool} (h : ReachableIf ok S) (full : Bool)
    (hok : ∀ S e, ok S e = true → unstored S e = true)
    (hfull : full = true → ∀ S e, ok S e = true → fits S e = true) :
    S.Upholds (Ledger.pre full) (Ledger.act full) (fun v => full = true → v.Killed) World.ledger :=
  h.upholds Code.ledger_main (fun _ _ _ _ _ hS ho _ hx => ledger_exec hok hfull hS ho hx)
    fun S e h => ledger_env (hok S e h)

/-! ## Whose exit it was -/

theorem World.balanced_of_agrees (h : w.ledger.Agrees) : w.Balanced := by
  intro e he
  obtain ⟨hn, hd⟩ := h e he
  rw [ledger_of, length_map] at hn
  exact ⟨hn, fun hs => length_eq_zero_iff.mp (hn.symm.trans (hd hs))⟩

theorem Ledger.agrees_of_pre {v : Ledger} (h : Ledger.pre full o v) (hs : o.settled = true) :
    v.Agrees := by
  cases o with
  | load | store _ | fault => cases hs
  | pipe | fork _ _ | malloc | complain _ => exact h
  | line _ _ _ _ => exact h.1.1
  | _ => exact h.1

theorem Ledger.tracked_of_pre {v : Ledger} (h : Ledger.pre true o v) (hs : o.resting = true) :
    v.Tracked := by
  cases o with
  | load | store _ | fault | pipe | fork _ _ | malloc | complain _ => cases hs
  | line _ _ _ _ => exact h.1.2 rfl
  | _ => exact h.2 rfl

/-- **Exits are credited to the right job**, wherever `fork` has returned no pid that is stored in
the table and no child has left its group: every `nlive` counts the children of its job, a job is
done only when it has none left, and its Done line is printed only then. -/
theorem balanced_of_unstored (h : ReachableIf unstored S) :
    (∀ o, S.next = some o → o.settled = true → S.world.Balanced) ∧
      ∀ e mark status, S.printing = some (.sweep, e, mark, status) →
        S.world.children e.call = [] := by
  have hup := h.ledger false (fun _ _ h => h) fun hf => by cases hf
  refine ⟨fun o ho hs => World.balanced_of_agrees (Ledger.agrees_of_pre (hup.head ho) hs),
    fun e mark status hp => ?_⟩
  have := (hup.head (System.next_of_printing hp)).2 rfl
  rwa [ledger_of, map_eq_nil_iff] at this

/-- `a | b` is stopped, `b` has exited, and `c &` has been forked, with the pids `p`, `q` and
`r`. -/
def besideRun (p q r : Nat) : List Event :=
  [.input (str "a | b\nc &\n")] ++ steps 9 .go ++ [.run (.pid p), .run .go, .run (.pid q)] ++
    steps 8 .go ++ [.stop p, .run (.pid p), .exit q] ++ steps 6 .go ++ [.run (.pid q)] ++
    steps 11 .go ++ [.run (.pid r)]

theorem balanced_of_unstored_beside : ∃ S : System, ReachableIf unstored S ∧
    S.world.jobs.map (fun e => (e.jid, e.job.nlive)) = [(1, 1), (2, 1)] ∧ S.world.Balanced := by
  obtain ⟨S, hS, hp⟩ := reachableIf_of_any unstored (besideRun 100 101 102 ++ steps 7 .go)
    (fun S => S.world.jobs.map (fun e => (e.jid, e.job.nlive)) = [(1, 1), (2, 1)] ∧
      S.next.any Op.settled = true) (by decide +kernel)
  obtain ⟨hjobs, hnext⟩ := of_decide_eq_true hp
  obtain ⟨o, ho, hs⟩ := (Option.any_eq_true _ _).mp hnext
  exact ⟨S, hS, hjobs, (balanced_of_unstored hS).1 o ho hs⟩

/-- `c` gets the pid that `b` had. When it exits, the job of `a` is done: its Done line is printed
next, and `a` is there. -/
theorem reused_pid : ∃ S : System, Reachable S ∧ ∃ e ∈ S.world.jobs, e.jid = 1 ∧
    e.job.state = .done ∧
    S.printing = some (.sweep, e, .minus, .done) ∧
    ∃ p ∈ S.world.children e.call, p.pid = 100 ∧ p.state = .stopped := by
  obtain ⟨S, hS, hp⟩ := reachableIf_of_any (fun _ _ => true)
    (besideRun 100 101 101 ++ [.exit 101] ++ steps 7 .go ++ [.run (.pid 101)] ++ steps 8 .go)
    (fun S => ∃ e ∈ S.world.jobs, e.jid = 1 ∧ e.job.state = .done ∧
      S.printing = some (.sweep, e, .minus, .done) ∧
      ∃ p ∈ S.world.children e.call, p.pid = 100 ∧ p.state = .stopped) (by decide +kernel)
  exact ⟨S, hS, of_decide_eq_true hp⟩

/-! ## Children nobody knows -/

/-- **No untracked children**, in the runs in which besides nothing is forked while the table is
full and `malloc` does not fail: every unreaped child is a command of a job of the table, and when
`main` returns every one that is left has been sent SIGKILL. -/
theorem tracked_of_fits (h : ReachableIf (fun S e => unstored S e && fits S e) S) :
    (∀ o, S.next = some o → o.resting = true → S.world.Tracked) ∧
      (S.returned = true → ∀ p ∈ S.world.procs, (p.pgid, Signal.kill) ∈ S.world.signals) := by
  have hup := h.ledger true (fun _ _ h => (Bool.and_eq_true_iff.mp h).1)
    fun _ _ _ h => (Bool.and_eq_true_iff.mp h).2
  refine ⟨fun o ho hr p hp => ?_, fun hr p hp => ?_⟩
  · exact Ledger.tracked_of_pre (hup.head ho) hr p.kid (mem_ledger.mpr ⟨p, hp, rfl⟩)
  · exact hup.final hr rfl p.kid (mem_ledger.mpr ⟨p, hp, rfl⟩)

/-- `n + 1` times the line `a &`, with pids from 100 on. -/
def manyRun (n : Nat) : List Event :=
  [.input (List.replicate (n + 1) (str "a &\n")).flatten] ++ steps 8 .go ++ [.run (.pid 100)] ++
    (List.range n).flatMap fun i => steps (14 + i) .go ++ [.run (.pid (101 + i))]

theorem tracked_of_fits_two : ∃ S : System, ReachableIf (fun S e => unstored S e && fits S e) S ∧
    S.returned = true ∧ S.world.procs.map Proc.pid = [100, 101] ∧
    ∀ p ∈ S.world.procs, (p.pgid, Signal.kill) ∈ S.world.signals := by
  obtain ⟨S, hS, hp⟩ := reachableIf_of_any (fun S e => unstored S e && fits S e)
    (manyRun 1 ++ [.close] ++ steps 18 .go)
    (fun S => S.returned = true ∧ S.world.procs.map Proc.pid = [100, 101]) (by decide +kernel)
  obtain ⟨hr, hpids⟩ := of_decide_eq_true hp
  exact ⟨S, hS, hr, hpids, (tracked_of_fits hS).2 hr⟩

/-- The 21st job: the child is forked, the table is full. At the next prompt no job has its pid, and
when the shell has ended it has been sent nothing. -/
theorem forgotten_child :
    (∃ S : System, Reachable S ∧ (∃ o, S.next = some o ∧ o.resting = true) ∧
      ∃ p ∈ S.world.procs, p.pid = 120 ∧ ∀ e ∈ S.world.jobs, p.pid ∉ e.pids) ∧
    ∃ S : System, Reachable S ∧ S.returned = true ∧
      ∃ p ∈ S.world.procs, p.pid = 120 ∧ p.state = .running ∧
        (p.pgid, Signal.kill) ∉ S.world.signals := by
  constructor
  · obtain ⟨S, hS, hp⟩ := reachableIf_of_any (fun _ _ => true) (manyRun 20 ++ steps 27 .go)
      (fun S => S.next.any Op.resting = true ∧
        ∃ p ∈ S.world.procs, p.pid = 120 ∧ ∀ e ∈ S.world.jobs, p.pid ∉ e.pids) (by decide +kernel)
    obtain ⟨hnext, hp⟩ := of_decide_eq_true hp
    exact ⟨S, hS, (Option.any_eq_true _ _).mp hnext, hp⟩
  · obtain ⟨S, hS, hp⟩ := reachableIf_of_any (fun _ _ => true)
      (manyRun 20 ++ [.close] ++ steps 52 .go)
      (fun S => S.returned = true ∧ ∃ p ∈ S.world.procs, p.pid = 120 ∧ p.state = .running ∧
        (p.pgid, Signal.kill) ∉ S.world.signals) (by decide +kernel)
    exact ⟨S, hS, of_decide_eq_true hp⟩

end SystemProg.Yash
