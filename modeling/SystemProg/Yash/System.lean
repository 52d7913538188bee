import SystemProg.Conc.Runs
import SystemProg.Conc.Wp
import SystemProg.Text.Pieces
import SystemProg.Yash.Shell
import SystemProg.Yashd.System

/-!
# The shell and its kernel

One process over a table of children and a stream of input. A step of the shell performs one
operation (`exec`); between two of them the children and the input move.

* A `Choice` resolves what an operation leaves to the kernel, as in the daemon's model.
* A pid handed out by `fork` is that of no unreaped child and of no group of one, and is not 0. It
  may be one that a reaped child had.
* `waitpid` reports only unreaped children, of the group it is given or any: an exit, which removes
  the child, a stop with `WUNTRACED` or a continuation with `WCONTINUED`, each once.
* Children exit, stop, continue and change their group at any time, whatever signals they have been
  sent.
* `fgets` blocks until it can return. A signal that interrupts it loses what it has read so far.
-/

namespace SystemProg.Yash

open Text Shell Conc Data Option
open Yashd (Signal WaitFlags WaitRes ProcState Report Choice nl)

/-- A child of the shell that has not been reaped. -/
structure Proc where
  pid : Nat
  pgid : Nat
  /-- The call of `exec_job` that forked it. -/
  call : Nat
  state : ProcState
  report : Option Report
  deriving Repr, DecidableEq

/-- A job line as printed. -/
structure Line where
  site : Site
  jid : Nat
  mark : Mark
  status : Status
  deriving Repr, DecidableEq

/-- The kernel, the terminal and the table. -/
structure World where
  procs : List Proc
  jobs : Jobs
  /-- The input that has arrived and has not been read. -/
  pending : List Byte
  closed : Bool
  /-- All the input that has arrived. -/
  heard : List Byte
  /-- What `fgets` has returned. -/
  reads : List Fgets
  /-- The strings passed to `parse_line`. -/
  parsed : List (List Byte)
  /-- The job lines printed. -/
  lines : List Line
  /-- The signals sent: group and signal. -/
  signals : List (Nat × Signal)

/-- Before the first prompt. -/
def World.init : World := ⟨[], [], [], false, [], [], [], [], []⟩

/-- `sizeof line - 1`: what `fgets` reads at most. -/
def fgetsMax : Nat := yashMaxLine + 1

/-- What `fgets(line, sizeof line, stdin)` returns, and how many bytes it takes. -/
def World.fgetsRes (w : World) : Choice → Option (Fgets × Nat)
  | .go =>
    if nl ∈ w.pending.take fgetsMax ∨ fgetsMax ≤ w.pending.length ∨ w.closed = true then
      if w.pending = [] then some (.eof, 0)
      else some (.line (piece nl fgetsMax w.pending), (piece nl fgetsMax w.pending).length)
    else none
  | .upTo n => if n < fgetsMax ∧ nl ∉ w.pending.take n then some (.error, n) else none
  | _ => none

/-- `fgets`. -/
def World.fgets (w : World) (ch : Choice) : Option (Fgets × World) :=
  (w.fgetsRes ch).map fun x =>
    (x.1, { w with pending := w.pending.drop x.2, reads := w.reads ++ [x.1] })

/-- The children a `waitpid` is about. -/
def Proc.among (p : Proc) (pgid : Option Nat) : Bool :=
  match pgid with
  | none => true
  | some g => p.pgid = g

/-- Its candidates. -/
def World.among (w : World) (pgid : Option Nat) : List Proc := w.procs.filter fun p => p.among pgid

/-- What `waitpid` with `flags` would report of a child. -/
def Proc.reports (p : Proc) (flags : WaitFlags) : Option WaitRes :=
  match p.state, p.report with
  | .zombie, _ => some (.exited p.pid)
  | _, some .stop => if flags.untraced then some (.stopped p.pid) else none
  | _, some .cont => if flags.continued then some (.continued p.pid) else none
  | _, none => none

/-- The table after a child has been reported: an exit removes it. -/
def World.reported (w : World) (p : Proc) : World :=
  match p.state with
  | .zombie => { w with procs := w.procs.filter fun q => q.pid ≠ p.pid }
  | _ => { w with
      procs := w.procs.map fun q => if q.pid = p.pid then { q with report := none } else q }

/-- `waitpid`. -/
def World.waitpid (w : World) (pgid : Option Nat) (flags : WaitFlags) :
    Choice → Option (WaitRes × World)
  | .eintr => some (.eintr, w)
  | .pid n =>
    match (w.among pgid).find? fun p => p.pid == n with
    | none => none
    | some p => (p.reports flags).map fun r => (r, w.reported p)
  | _ =>
    if w.among pgid = [] then some (.echild, w)
    else if flags.nohang ∧ ∀ p ∈ w.among pgid, p.reports flags = none then
      some (.none, w)
    else none

/-- `fork`, then `setpgid(pid, pgid)`. A group that is gone cannot be joined. -/
def World.fork (w : World) (pgid call : Nat) : Choice → Option (Option Nat × World)
  | .pid n =>
    if n ≠ 0 ∧ ∀ p ∈ w.procs, p.pid ≠ n ∧ p.pgid ≠ n then
      let g := if pgid = 0 then n else if ∀ p ∈ w.procs, p.pgid ≠ pgid then 0 else pgid
      some (some n, { w with procs := w.procs ++ [⟨n, g, call, .running, none⟩] })
    else none
  | .error => some (none, w)
  | _ => none

/-- A call that may fail. -/
def World.succeeds (w : World) : Choice → Option (Bool × World)
  | .go => some (true, w)
  | .error => some (false, w)
  | _ => none

/-- One operation; `none` if it cannot be performed now, or not with this choice. -/
def exec (ch : Choice) : (o : Op) → World → Option (o.Res × World)
  | .load, w => some (w.jobs, w)
  | .store f, w => some ((), { w with jobs := f w.jobs })
  | .fault, _ => none
  | .prompt, w => some ((), w)
  | .fgets, w => w.fgets ch
  | .parse line, w => some (parseLine (some line), { w with parsed := w.parsed ++ [line] })
  | .print _, w => some ((), w)
  | .line site e mark status, w =>
    some ((), { w with lines := w.lines ++ [⟨site, e.jid, mark, status⟩] })
  | .complain _, w => some ((), w)
  | .pipe, w => w.succeeds ch
  | .fork pgid call, w => w.fork pgid call ch
  | .malloc, w => w.succeeds ch
  | .waitpid pgid flags, w => w.waitpid pgid flags ch
  | .kill pgid sig, w => some ((), { w with signals := w.signals ++ [(pgid, sig)] })
  | .giveTerminal _, w => some ((), w)

/-! ## Runs -/

/-- The shell and its world. -/
structure System where
  world : World
  thread : Code.C Unit

/-- The shell starts. -/
def System.init : System := ⟨World.init, Code.main⟩

/-- The operation the shell performs next. -/
def System.next (S : System) : Option Op :=
  match S.thread with
  | .call o _ => some o
  | _ => none

/-- The job line that is printed next. -/
def System.printing (S : System) : Option (Site × Entry × Mark × Status) :=
  match S.next with
  | some (.line site e mark status) => some (site, e, mark, status)
  | _ => none

/-- `main` has returned. -/
def System.returned (S : System) : Bool :=
  match S.thread with
  | .ret _ => true
  | _ => false

/-- What can happen next. -/
inductive Event where
  /-- The shell takes a step. -/
  | run (ch : Choice)
  /-- A child exits, stops, continues. -/
  | exit (pid : Nat)
  | stop (pid : Nat)
  | cont (pid : Nat)
  /-- A child changes its group: `setsid`, `setpgid`. -/
  | regroup (pid pgid : Nat)
  /-- Input arrives, or its end. -/
  | input (bs : List Byte)
  | close
  deriving Repr, DecidableEq

/-- A change of a child that has not exited. -/
def World.setProc (w : World) (pid : Nat) (f : Proc → Proc) : World :=
  { w with procs := w.procs.map fun p => if p.pid = pid ∧ p.state ≠ .zombie then f p else p }

/-- A step that the shell does not take. -/
def World.env (w : World) : Event → World
  | .exit pid => w.setProc pid fun p => { p with state := .zombie }
  | .stop pid => w.setProc pid fun p => { p with state := .stopped, report := some .stop }
  | .cont pid => w.setProc pid fun p => { p with state := .running, report := some .cont }
  | .regroup pid pgid => w.setProc pid fun p => { p with pgid := pgid }
  | .input bs =>
    if w.closed then w else { w with pending := w.pending ++ bs, heard := w.heard ++ bs }
  | .close => { w with closed := true }
  | .run _ => w

/-- A step. -/
def System.step (S : System) (e : Event) : Option System :=
  match e with
  | .run ch => (S.thread.step (S := calls) (exec ch) S.world).map fun x => ⟨x.2, x.1⟩
  | _ => some { S with world := S.world.env e }

/-- One step, if it meets a condition. -/
def System.stepIf (ok : System → Event → Bool) (S : System) (e : Event) : Option System :=
  if ok S e then S.step e else none

/-- The states that runs lead to all of whose steps meet a condition. -/
def ReachableIf (ok : System → Event → Bool) (S : System) : Prop :=
  ∃ evs : List Event, evs.foldlM (System.stepIf ok) System.init = some S

/-- The states the shell can be in. -/
def Reachable : System → Prop := ReachableIf fun _ _ => true

theorem reachableIf_of_any (ok : System → Event → Bool) (evs : List Event) (p : System → Bool)
    (h : (evs.foldlM (System.stepIf ok) System.init).any p = true) :
    ∃ S, ReachableIf ok S ∧ p S = true := by
  obtain ⟨S, hS, hp⟩ := (any_eq_true _ _).mp h
  exact ⟨S, ⟨evs, hS⟩, hp⟩

variable {S S' : System} {e : Event} {ok : System → Event → Bool}

/-- What one step does: one of the shell, or one of its surroundings. -/
theorem System.step_cases (h : S.step e = some S') :
    (∃ ch, e = .run ch ∧
      S.thread.step (S := calls) (exec ch) S.world = some (S'.thread, S'.world)) ∨
    ((∀ ch, e ≠ .run ch) ∧ S' = { S with world := S.world.env e }) := by
  cases e with
  | run ch =>
    obtain ⟨⟨p, w⟩, hp, rfl⟩ := map_eq_some_iff.mp h
    exact .inl ⟨ch, rfl, hp⟩
  | _ => exact .inr ⟨by simp, (some.inj h).symm⟩

/-- **Induction over the states of such runs.** -/
theorem ReachableIf.induction {P : System → Prop} (hinit : P System.init)
    (hstep : ∀ S e S', P S → ok S e = true → S.step e = some S' → P S') (h : ReachableIf ok S) :
    P S := by
  obtain ⟨evs, h⟩ := h
  refine foldlM_invariant (fun S e S' hS hs => ?_) hinit h
  obtain ⟨hok, hs⟩ := (ite_none_right_eq_some ..).mp hs
  exact hstep S e S' hS hok hs

section Upholds

variable {V : Type} {pre : Op → V → Prop} {act : (o : Op) → V → o.Res → V → Prop} {post : V → Prop}
  {view : World → V}

/-- The shell is in a state its specification covers; `view` is the part of the world it is
about. -/
def System.Upholds (S : System) (pre : Op → V → Prop) (act : (o : Op) → V → o.Res → V → Prop)
    (post : V → Prop) (view : World → V) : Prop :=
  (Logic.sequential (S := calls) pre act).wp S.thread (fun _ => post) (view S.world)

theorem System.next_eq_some {o : Op} (h : S.next = some o) : ∃ k, S.thread = .call o k := by
  unfold System.next at h
  split at h
  · rename_i k ht
    cases h
    exact ⟨k, ht⟩
  · cases h

theorem System.next_of_printing {site : Site} {e : Entry} {mark : Mark} {status : Status}
    (h : S.printing = some (site, e, mark, status)) : S.next = some (.line site e mark status) := by
  unfold System.printing at h
  split at h
  · rename_i ho
    cases h
    exact ho
  · cases h

theorem System.Upholds.head (h : S.Upholds pre act post view) {o : Op} (ho : S.next = some o) :
    pre o (view S.world) := by
  obtain ⟨k, ht⟩ := System.next_eq_some ho
  unfold System.Upholds at h
  rw [ht] at h
  exact Logic.wp_pre rfl h

theorem System.Upholds.final (h : S.Upholds pre act post view) (hr : S.returned = true) :
    post (view S.world) := by
  unfold System.returned at hr
  split at hr
  · rename_i ht
    unfold System.Upholds at h
    rw [ht] at h
    exact Logic.seq_ret.mp h
  · cases hr

/-- **One process and its surroundings.** If `main` meets its specification, an operation does what
the specification allows, and the surroundings do nothing to its part of the world, then the shell
stays within its specification. -/
theorem ReachableIf.upholds (h : ReachableIf ok S)
    (hmain : (Logic.sequential (S := calls) pre act).wp Code.main (fun _ => post) (view World.init))
    (hexec : ∀ (S : System) ch o r w', ok S (.run ch) = true → S.next = some o →
      pre o (view S.world) → exec ch o S.world = some (r, w') → act o (view S.world) r (view w'))
    (henv : ∀ (S : System) e, ok S e = true → view (S.world.env e) = view S.world) :
    S.Upholds pre act post view := by
  refine h.induction (P := fun S => S.Upholds pre act post view) hmain fun S e S' hS hok hstep => ?_
  rcases System.step_cases hstep with ⟨ch, rfl, hp⟩ | ⟨-, rfl⟩
  · unfold System.Upholds at hS ⊢
    cases ht : S.thread with
    | ret a =>
      rw [ht] at hp
      cases hp
    | call o k =>
      rw [ht] at hp hS
      obtain ⟨⟨r, w'⟩, hx, he⟩ := map_eq_some_iff.mp hp
      obtain ⟨hthread, hworld⟩ := Prod.mk.inj he
      obtain ⟨hpre, hk⟩ := hS _ rfl
      rw [← hthread, ← hworld]
      exact hk r _ (hexec S ch o r w' hok (by rw [System.next, ht]) hpre hx)
    | loop body s k =>
      rw [ht] at hp hS
      obtain ⟨hthread, hworld⟩ := Prod.mk.inj (some.inj hp)
      rw [← hthread, ← hworld]
      exact Logic.wp_loop_turn rfl hS
  · unfold System.Upholds at hS ⊢
    rw [henv _ _ hok]
    exact hS

end Upholds

/-- `n` steps of the shell, each with the same answer of the kernel. -/
def steps (n : Nat) (ch : Choice) : List Event := List.replicate n (.run ch)

/-! ## What an operation can do -/

variable {w w' : World} {ch : Choice}

theorem Proc.reports_cases {p : Proc} {flags : WaitFlags} {r : WaitRes}
    (h : p.reports flags = some r) :
    (r = .exited p.pid ∧ p.state = .zombie) ∨
      ((r = .stopped p.pid ∨ (r = .continued p.pid ∧ flags.continued = true)) ∧
        p.state ≠ .zombie) := by
  unfold Proc.reports at h
  split at h
  · rename_i hz
    exact .inl ⟨(some.inj h).symm, hz⟩
  · rename_i hz
    rw [ite_none_right_eq_some] at h
    exact .inr ⟨.inl (some.inj h.2).symm, fun he => by simp_all⟩
  · rename_i hz
    rw [ite_none_right_eq_some] at h
    exact .inr ⟨.inr ⟨(some.inj h.2).symm, h.1⟩, fun he => by simp_all⟩
  · exact absurd h (by simp)

theorem waitpid_cases {flags : WaitFlags} {r : WaitRes} {g : Option Nat}
    (h : w.waitpid g flags ch = some (r, w')) :
    (∃ p ∈ w.procs, p.among g = true ∧ p.reports flags = some r ∧ w' = w.reported p) ∨
      (r = .echild ∧ (∀ p ∈ w.procs, p.among g = false) ∧ w' = w) ∨
      ((r = .eintr ∨ (r = .none ∧ flags.nohang = true)) ∧ w' = w) := by
  have hrest : (if w.among g = [] then some (WaitRes.echild, w)
      else if flags.nohang ∧ ∀ p ∈ w.among g, p.reports flags = none then
        some (.none, w)
      else none) = some (r, w') →
      (r = .echild ∧ (∀ p ∈ w.procs, p.among g = false) ∧ w' = w) ∨
        ((r = .none ∧ flags.nohang = true) ∧ w' = w) := by
    intro h
    split at h
    · rename_i hnil
      cases h
      exact .inl ⟨rfl, fun p hp => by simpa using List.filter_eq_nil_iff.mp hnil p hp, rfl⟩
    · rw [ite_none_right_eq_some] at h
      cases h.2
      exact .inr ⟨⟨rfl, h.1.1⟩, rfl⟩
  cases ch with
  | eintr =>
    cases h
    exact .inr (.inr ⟨.inl rfl, rfl⟩)
  | pid n =>
    simp only [World.waitpid] at h
    split at h
    · exact absurd h (by simp)
    · rename_i p hp
      obtain ⟨hmem, hamong⟩ := List.mem_filter.mp (List.mem_of_find?_eq_some hp)
      obtain ⟨r', hr, he⟩ := map_eq_some_iff.mp h
      cases he
      exact .inl ⟨p, hmem, hamong, hr, rfl⟩
  | _ =>
    rcases hrest h with h | h
    · exact .inr (.inl h)
    · exact .inr (.inr ⟨.inr h.1, h.2⟩)

theorem fork_cases {g c : Nat} {r : Option Nat} (h : w.fork g c ch = some (r, w')) :
    (∃ n, ch = .pid n ∧ r = some n ∧ n ≠ 0 ∧ (∀ p ∈ w.procs, p.pid ≠ n ∧ p.pgid ≠ n) ∧
      w' = { w with procs := w.procs ++ [⟨n, if g = 0 then n
        else if ∀ p ∈ w.procs, p.pgid ≠ g then 0 else g, c, .running, none⟩] }) ∨
      (r = none ∧ w' = w) := by
  cases ch with
  | pid n =>
    simp only [World.fork, ite_none_right_eq_some] at h
    obtain ⟨⟨hn, hfresh⟩, h⟩ := h
    cases h
    exact .inl ⟨n, rfl, rfl, hn, hfresh, rfl⟩
  | error =>
    cases h
    exact .inr ⟨rfl, rfl⟩
  | _ => exact absurd h (by simp [World.fork])

theorem reported_frame (w : World) (p : Proc) :
    w.reported p = { w with procs := (w.reported p).procs } := by
  unfold World.reported
  split <;> rfl

/-- What an operation leaves alone: the list but for `store`, the input but for `fgets`, what has
been parsed but for `parse`. -/
theorem exec_frame {o : Op} {r : o.Res} (h : exec ch o w = some (r, w')) :
    ((∀ f, o ≠ .store f) → w'.jobs = w.jobs) ∧
    (o ≠ .fgets → w'.heard = w.heard ∧ w'.pending = w.pending ∧ w'.closed = w.closed ∧
      w'.reads = w.reads) ∧
    ((∀ line, o ≠ .parse line) → w'.parsed = w.parsed) := by
  cases o with
  | fault => cases h
  | fgets =>
    obtain ⟨x, -, hx⟩ := map_eq_some_iff.mp h
    cases hx
    exact ⟨fun _ => rfl, absurd rfl, fun _ => rfl⟩
  | store f =>
    cases h
    exact ⟨fun hf => absurd rfl (hf f), fun _ => ⟨rfl, rfl, rfl, rfl⟩, fun _ => rfl⟩
  | parse line =>
    cases h
    exact ⟨fun _ => rfl, fun _ => ⟨rfl, rfl, rfl, rfl⟩, fun hl => absurd rfl (hl line)⟩
  | pipe | malloc =>
    have hw : w' = w := by
      revert h
      cases ch <;> rintro ⟨⟩ <;> rfl
    rw [hw]
    exact ⟨fun _ => rfl, fun _ => ⟨rfl, rfl, rfl, rfl⟩, fun _ => rfl⟩
  | fork g c =>
    rcases fork_cases h with ⟨n, -, -, -, -, rfl⟩ | ⟨-, rfl⟩ <;>
      exact ⟨fun _ => rfl, fun _ => ⟨rfl, rfl, rfl, rfl⟩, fun _ => rfl⟩
  | waitpid g flags =>
    rcases waitpid_cases h with ⟨p, -, -, -, rfl⟩ | ⟨-, -, rfl⟩ | ⟨-, rfl⟩
    · rw [reported_frame]
      exact ⟨fun _ => rfl, fun _ => ⟨rfl, rfl, rfl, rfl⟩, fun _ => rfl⟩
    · exact ⟨fun _ => rfl, fun _ => ⟨rfl, rfl, rfl, rfl⟩, fun _ => rfl⟩
    · exact ⟨fun _ => rfl, fun _ => ⟨rfl, rfl, rfl, rfl⟩, fun _ => rfl⟩
  | load | prompt | print _ | line _ _ _ _ | complain _ | kill _ _ | giveTerminal _ =>
    cases h
    exact ⟨fun _ => rfl, fun _ => ⟨rfl, rfl, rfl, rfl⟩, fun _ => rfl⟩

end SystemProg.Yash
