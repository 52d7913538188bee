import SystemProg.Conc.Runs
import SystemProg.Conc.Wp
import SystemProg.Yashd.Session

/-!
# The daemon and its kernel

Any number of sessions run as threads of one process, each with its own connection, over one table
of child processes. A step of a session performs one operation (`exec`); between two of them other
sessions, the children and the clients move.

* A `Choice` resolves what an operation leaves to the kernel: how much a `read` or `write`
  transfers, which child a `waitpid` reports, the descriptors and pids handed out, a failure.
* A pid handed out by `fork` is that of no unreaped child and of no group of one, and is not 0. It
  may be one that a reaped child had.
* `waitpid(-pgid)` reports only unreaped children of the group: an exit, which removes the child, a
  stop with `WUNTRACED` or a continuation with `WCONTINUED`, each once. It fails with `ECHILD` if
  the group has none, and returns 0 with `WNOHANG` if none has anything to report.
* Children exit, stop, continue and write to their client at any time, whatever signals they have
  been sent. That they may also leave their group is in `Orphans.lean`.
* A failing call leaves its `errno`. A `write` to a pipe takes all its bytes, of which there are at
  most `PIPE_BUF`, or fails.
-/

namespace SystemProg.Yashd

open Text Shell Conc List Option

/-- What a child is doing. -/
inductive ProcState where
  | running
  | stopped
  | zombie
  deriving Repr, DecidableEq

/-- A status change that `waitpid` has not reported yet. -/
inductive Report where
  | stop
  | cont
  deriving Repr, DecidableEq

/-- A child of the daemon that has not been reaped. -/
structure Proc where
  pid : Nat
  pgid : Nat
  /-- The session whose `exec_job` forked it. -/
  owner : Nat
  state : ProcState
  report : Option Report
  /-- `SIGKILL` has been sent to it. -/
  killed : Bool
  deriving Repr, DecidableEq

/-- Who wrote a byte to a client: the session itself, or one of its children. -/
inductive Src where
  | shell
  | child
  deriving Repr, DecidableEq

/-- A line that `buf_take_line` has popped. -/
structure Taken where
  site : Site
  line : List Byte
  /-- How many bytes the session itself had written to its client by then. -/
  shell : Nat
  /-- Whether a job was in the foreground then, with its `infd` open. -/
  input : Bool
  deriving Repr, DecidableEq

/-- A session's memory and its connection, with the connection's history. -/
structure Sess where
  mem : Session
  wire : Inbound
  /-- Everything the client has sent so far. -/
  heard : List Byte
  /-- The lines the session has taken from it. -/
  taken : List Taken
  /-- Those among them, by their index, that made `handle_ctl` set `quit`. -/
  ended : List Nat
  /-- Everything written to the client so far. -/
  sent : List (Src × Byte)
  /-- How much of it the client has read. -/
  recvd : Nat

/-- A new session. -/
def Sess.create : Sess := ⟨Session.create, ⟨[], false⟩, [], [], [], [], 0⟩

/-- The bytes the session itself has written. -/
def Sess.shell (x : Sess) : List Byte := (x.sent.filter fun b => b.1 = .shell).map Prod.snd

/-- What the sessions share. -/
structure World where
  procs : List Proc
  /-- The descriptors of pipes the daemon has open. -/
  fds : List Nat
  /-- What has been written to the pipe a descriptor is the write end of. -/
  piped : Nat → List Byte
  sess : Nat → Sess
  /-- The log: session and command line. -/
  logged : List (Nat × List Byte)
  /-- The signals sent: group and signal. -/
  signals : List (Nat × Signal)

/-- The daemon starts. -/
def World.init : World := ⟨[], [], fun _ => [], fun _ => Sess.create, [], []⟩

/-- How the kernel answers an operation. -/
inductive Choice where
  | go
  | eintr
  | error
  | upTo (n : Nat)
  | pid (n : Nat)
  | fds (r w : Nat)
  deriving Repr, DecidableEq

variable (sid : Nat)

/-- `*s`. -/
def World.mem (w : World) : Session := (w.sess sid).mem

/-- A session changes. -/
def World.setSess (w : World) (x : Sess) : World :=
  { w with sess := fun i => if i = sid then x else w.sess i }

/-- A write to `*s`. -/
def World.setMem (w : World) (f : Session → Session) : World :=
  w.setSess sid { w.sess sid with mem := f (w.sess sid).mem }

/-- `errno`. -/
def World.setErrno (w : World) (e : Errno) : World :=
  w.setMem sid fun s => { s with input.errno := e }

/-- The input half of a session, with its connection. -/
def World.conn (w : World) : Conn := ⟨(w.mem sid).input, (w.sess sid).wire⟩

/-- Its input changes. -/
def World.setConn (w : World) (c : Conn) : World :=
  w.setSess sid { w.sess sid with mem.input := c.input, wire := c.wire }

/-- `n` bytes more have gone to the client. -/
def World.send (w : World) (src : Src) (bs : List Byte) : World :=
  w.setSess sid { w.sess sid with sent := (w.sess sid).sent ++ bs.map fun b => (src, b) }

/-- A process group. -/
def World.group (w : World) (pgid : Nat) : List Proc := w.procs.filter fun p => p.pgid = pgid

/-- What `waitpid` with `flags` would report of a child. -/
def Proc.reports (p : Proc) (flags : WaitFlags) : Option WaitRes :=
  match p.state, p.report with
  | .zombie, _ => some (.exited p.pid)
  | _, some .stop => if flags.untraced then some (.stopped p.pid) else none
  | _, some .cont => if flags.continued then some (.continued p.pid) else none
  | _, none => none

/-- The table after a child has been reported: an exit removes it. -/
def World.reported (w : World) (p : Proc) : World :=
  match p.state with
  | .zombie => { w with procs := w.procs.filter fun q => q.pid ≠ p.pid }
  | _ => { w with
      procs := w.procs.map fun q => if q.pid = p.pid then { q with report := none } else q }

/-- `waitpid(-pgid, _, flags)`. -/
def World.waitpid (w : World) (pgid : Nat) (flags : WaitFlags) : Choice → Option (WaitRes × World)
  | .eintr => some (.eintr, w.setErrno sid .eintr)
  | .pid n =>
    match (w.group pgid).find? fun p => p.pid == n with
    | none => none
    | some p => (p.reports flags).map fun r => (r, w.reported p)
  | _ =>
    if w.group pgid = [] then some (.echild, w.setErrno sid .other)
    else if flags.nohang ∧ ∀ p ∈ w.group pgid, p.reports flags = none then some (.none, w)
    else none

/-- `fork`, then `setpgid(pid, pgid)`. A group that is gone cannot be joined. -/
def World.fork (w : World) (pgid : Nat) : Choice → Option (Option Nat × World)
  | .pid n =>
    if n ≠ 0 ∧ ∀ p ∈ w.procs, p.pid ≠ n ∧ p.pgid ≠ n then
      let g := if pgid = 0 then n else if w.group pgid = [] then 0 else pgid
      some (some n, { w with procs := w.procs ++ [⟨n, g, sid, .running, none, false⟩] })
    else none
  | .error => some (none, w.setErrno sid .other)
  | _ => none

/-- `kill(-pgid, sig)`. -/
def World.kill (w : World) (pgid : Nat) (sig : Signal) : World :=
  { w with
    procs := w.procs.map fun p =>
      if p.pgid = pgid ∧ sig = .kill then { p with killed := true } else p
    signals := w.signals ++ [(pgid, sig)] }

/-- A `write` to a pipe. -/
def World.feed (w : World) (fd : Nat) (bs : List Byte) : World :=
  { w with piped := fun i => if i = fd then w.piped i ++ bs else w.piped i }

/-- `write(s->cfd, bs, _)`. -/
def World.write (w : World) (bs : List Byte) : Choice → Option (WriteRes × World)
  | .upTo n =>
    let m := min (n + 1) bs.length
    some (.wrote m, w.send sid .shell (bs.take m))
  | .eintr => some (.fail .eintr, w.setErrno sid .eintr)
  | .error => some (.fail .other, w.setErrno sid .other)
  | _ => none

/-- `buf_fill`. -/
def World.fill (w : World) (ch : Choice) : Option (Int × World) :=
  let cut : Option Cut := match ch with
    | .upTo n => some (.upTo n)
    | .eintr => some .eintr
    | .error => some .error
    | _ => none
  cut.bind fun cut => (bufFill (w.conn sid) cut).map fun (r, c) => (r, w.setConn sid c)

/-- The session with a line taken from its buffer. -/
def Sess.take (x : Sess) (site : Site) (line : List Byte) (b : InBuf) : Sess :=
  { x with mem.input.inbuf := b, taken := x.taken ++ [⟨site, line, x.shell.length, x.mem.fgInput⟩] }

/-- The session with `quit` set. -/
def Sess.quit (x : Sess) (site : QuitSite) : Sess :=
  { x with
    mem.quit := true
    ended := if site = .ctl then x.ended ++ [x.taken.length - 1] else x.ended }

/-- `buf_take_line`. -/
def World.takeLine (w : World) (site : Site) : Option (List Byte) × World :=
  match bufTakeLine (w.mem sid).input.inbuf yashBufSize with
  | none => (none, w)
  | some (line, b) => (some line, w.setSess sid ((w.sess sid).take site line b))

/-- One operation of session `sid`; `none` if it cannot be performed now, or not with this
choice. -/
def exec (ch : Choice) : (o : Op) → World → Option (o.Res × World)
  | .load, w => some (w.mem sid, w)
  | .store f, w => some ((), w.setMem sid f)
  | .quit site, w => some ((), w.setSess sid ((w.sess sid).quit site))
  | .fault, _ => none
  | .takeLine site, w => some (w.takeLine sid site)
  | .fill _, w => w.fill sid ch
  | .select, w =>
    match ch with
    | .eintr => some (false, w.setErrno sid .eintr)
    | _ => some ((w.sess sid).wire.pending ≠ [] || (w.sess sid).wire.closed, w)
  | .write _ bs, w => w.write sid bs ch
  | .writePipe fd bs, w =>
    match ch with
    | .go => some (true, w.feed fd bs)
    | .eintr => some (false, w.setErrno sid .eintr)
    | .error => some (false, w.setErrno sid .other)
    | _ => none
  | .close fd, w => some ((), { w with fds := w.fds.erase fd })
  | .pipe _, w =>
    match ch with
    | .fds r t =>
      if r ∉ w.fds ∧ t ∉ w.fds ∧ r ≠ t then
        some (some (r, t), { w with
          fds := r :: t :: w.fds
          piped := fun i => if i = t then [] else w.piped i })
      else none
    | .error => some (none, w.setErrno sid .other)
    | _ => none
  | .fork pgid, w => w.fork sid pgid ch
  | .malloc, w =>
    match ch with
    | .go => some (true, w)
    | .error => some (false, w.setErrno sid .other)
    | _ => none
  | .waitpid pgid flags, w => w.waitpid sid pgid flags ch
  | .kill pgid sig, w => some ((), w.kill pgid sig)
  | .log cmdline, w => some ((), { w with logged := w.logged ++ [(sid, cmdline)] })
  | .hangup, w => some ((), w)

variable {sid} {w w' : World} {ch : Choice}

theorem pid_of_reports {p : Proc} {flags : WaitFlags} {r : WaitRes} (h : p.reports flags = some r) :
    (r = .exited p.pid ∧ p.state = .zombie) ∨
      ((r = .stopped p.pid ∨ r = .continued p.pid) ∧ p.state ≠ .zombie) := by
  unfold Proc.reports at h
  split at h
  · rename_i hz
    exact .inl ⟨(some.inj h).symm, hz⟩
  · rename_i hz
    rw [ite_none_right_eq_some] at h
    exact .inr ⟨.inl (some.inj h.2).symm, fun he => by simp_all⟩
  · rename_i hz
    rw [ite_none_right_eq_some] at h
    exact .inr ⟨.inr (some.inj h.2).symm, fun he => by simp_all⟩
  · exact absurd h (by simp)

theorem waitpid_cases {flags : WaitFlags} {r : WaitRes} {g : Nat}
    (h : w.waitpid sid g flags ch = some (r, w')) :
    (∃ p ∈ w.procs, p.pgid = g ∧ p.reports flags = some r ∧ w' = w.reported p) ∨
      (r = .echild ∧ w.group g = [] ∧ w' = w.setErrno sid .other) ∨
      (r = .eintr ∧ w' = w.setErrno sid .eintr) ∨ (r = .none ∧ w' = w) := by
  have hrest : (if w.group g = [] then some (WaitRes.echild, w.setErrno sid .other)
      else if flags.nohang ∧ ∀ p ∈ w.group g, p.reports flags = none then some (.none, w)
      else none) = some (r, w') →
      (r = .echild ∧ w.group g = [] ∧ w' = w.setErrno sid .other) ∨ (r = .none ∧ w' = w) := by
    intro h
    split at h
    · cases h
      exact .inl ⟨rfl, ‹_›, rfl⟩
    · rw [ite_none_right_eq_some] at h
      cases h.2
      exact .inr ⟨rfl, rfl⟩
  cases ch with
  | eintr =>
    cases h
    exact .inr (.inr (.inl ⟨rfl, rfl⟩))
  | pid n =>
    simp only [World.waitpid] at h
    split at h
    · exact absurd h (by simp)
    · rename_i p hp
      obtain ⟨hmem, hpg⟩ := mem_filter.mp (mem_of_find?_eq_some hp)
      obtain ⟨r', hr, he⟩ := map_eq_some_iff.mp h
      cases he
      exact .inl ⟨p, hmem, by simpa using hpg, hr, rfl⟩
  | _ =>
    rcases hrest h with h | h
    · exact .inr (.inl h)
    · exact .inr (.inr (.inr h))

theorem fork_cases {g : Nat} {r : Option Nat} (h : w.fork sid g ch = some (r, w')) :
    (∃ n, r = some n ∧ n ≠ 0 ∧ (∀ p ∈ w.procs, p.pid ≠ n ∧ p.pgid ≠ n) ∧
      w' = { w with procs := w.procs ++
        [⟨n, if g = 0 then n else if w.group g = [] then 0 else g, sid, .running, none, false⟩] }) ∨
      (r = none ∧ w' = w.setErrno sid .other) := by
  cases ch with
  | pid n =>
    simp only [World.fork, ite_none_right_eq_some] at h
    obtain ⟨⟨hn, hfresh⟩, h⟩ := h
    cases h
    exact .inl ⟨n, rfl, hn, hfresh, rfl⟩
  | error =>
    cases h
    exact .inr ⟨rfl, rfl⟩
  | _ => exact absurd h (by simp [World.fork])

/-! ## The session's part in an operation -/

/-- `errno`. -/
def Sess.setErrno (x : Sess) (e : Errno) : Sess := { x with mem.input.errno := e }

/-- What an operation does to the memory and the connection of the session that performs it. -/
def Sess.act : (o : Op) → Sess → o.Res → Sess → Prop
  | .load, x, s, x' => s = x.mem ∧ x' = x
  | .store f, x, _, x' => x' = { x with mem := f x.mem }
  | .quit site, x, _, x' => x' = x.quit site
  | .takeLine site, x, r, x' =>
    match r with
    | none => nl ∉ x.mem.input.inbuf.bytes ∧ x' = x
    | some line => ∃ b, bufTakeLine x.mem.input.inbuf yashBufSize = some (line, b) ∧
        x' = x.take site line b
  | .fill _, x, r, x' => ∃ cut c, bufFill ⟨x.mem.input, x.wire⟩ cut = some (r, c) ∧
      x' = { x with mem.input := c.input, wire := c.wire }
  | .write _ bs, x, r, x' =>
    match r with
    | .wrote n => x' = { x with sent := x.sent ++ (bs.take n).map fun b => (.shell, b) }
    | .fail e => x' = x.setErrno e
  | _, x, _, x' => x' = x ∨ ∃ e, x' = x.setErrno e

/-- The operations on processes. -/
def Op.onProcs : Op → Bool
  | .fork _ | .waitpid _ _ | .kill _ _ => true
  | _ => false

/-- The command lines an operation logs. -/
def Op.logs : Op → List (List Byte)
  | .log cmdline => [cmdline]
  | _ => []

/-- An operation is the performing session's affair: what it does to that session, that it does
nothing to the others, and what it does to what they share. -/
structure Local (sid : Nat) (o : Op) (w : World) (r : o.Res) (w' : World) : Prop where
  own : Sess.act o (w.sess sid) r (w'.sess sid)
  others : ∀ i, i ≠ sid → w'.sess i = w.sess i
  procs : o.onProcs = false → w'.procs = w.procs
  logged : w'.logged = w.logged ++ o.logs.map fun cmdline => (sid, cmdline)

theorem sess_setSess_self (x : Sess) : (w.setSess sid x).sess sid = x := if_pos rfl

theorem local_setSess {o : Op} {r : o.Res} {x : Sess} (h : Sess.act o (w.sess sid) r x)
    (hlogs : o.logs = []) : Local sid o w r (w.setSess sid x) :=
  ⟨by rwa [sess_setSess_self], fun _ hi => if_neg hi, fun _ => rfl,
    by rw [hlogs]; exact (append_nil _).symm⟩

theorem local_setErrno {o : Op} {r : o.Res} {e : Errno}
    (h : Sess.act o (w.sess sid) r ((w.sess sid).setErrno e)) (hlogs : o.logs = []) :
    Local sid o w r (w.setErrno sid e) := local_setSess h hlogs

theorem local_of_sess {o : Op} {r : o.Res} (h : Sess.act o (w.sess sid) r (w.sess sid))
    (hsess : w'.sess = w.sess) (hprocs : o.onProcs = false → w'.procs = w.procs)
    (hlogged : w'.logged = w.logged ++ o.logs.map fun cmdline => (sid, cmdline)) :
    Local sid o w r w' :=
  ⟨by rwa [hsess], fun _ _ => by rw [hsess], hprocs, hlogged⟩

/-- **What an operation can do.** -/
theorem exec_local {o : Op} {r : o.Res} (h : exec sid ch o w = some (r, w')) :
    Local sid o w r w' := by
  have hnil : w.logged = w.logged ++ [] := (append_nil _).symm
  cases o with
  | load =>
    cases h
    exact local_of_sess ⟨rfl, rfl⟩ rfl (fun _ => rfl) hnil
  | store f | quit site =>
    cases h
    exact local_setSess rfl rfl
  | fault => exact absurd h (by simp [exec])
  | takeLine site =>
    simp only [exec, World.takeLine] at h
    split at h <;> cases h
    · exact local_of_sess ⟨bufTakeLine_eq_none.mp ‹_›, rfl⟩ rfl (fun _ => rfl) hnil
    · exact local_setSess ⟨_, ‹_›, rfl⟩ rfl
  | fill site =>
    obtain ⟨cut, -, h⟩ := bind_eq_some_iff.mp h
    obtain ⟨⟨r', c⟩, hfill, h⟩ := map_eq_some_iff.mp h
    cases h
    exact local_setSess ⟨cut, c, hfill, rfl⟩ rfl
  | select =>
    simp only [exec] at h
    split at h <;> cases h
    · exact local_setErrno (.inr ⟨_, rfl⟩) rfl
    · exact local_of_sess (.inl rfl) rfl (fun _ => rfl) hnil
  | write out bs =>
    simp only [exec, World.write] at h
    split at h <;> cases h
    · exact local_setSess rfl rfl
    · exact local_setErrno rfl rfl
    · exact local_setErrno rfl rfl
  | writePipe fd bs =>
    simp only [exec] at h
    split at h <;> cases h
    · exact local_of_sess (.inl rfl) rfl (fun _ => rfl) hnil
    · exact local_setErrno (.inr ⟨_, rfl⟩) rfl
    · exact local_setErrno (.inr ⟨_, rfl⟩) rfl
  | pipe p =>
    simp only [exec] at h
    split at h
    · rw [ite_none_right_eq_some] at h
      cases h.2
      exact local_of_sess (.inl rfl) rfl (fun _ => rfl) hnil
    · cases h
      exact local_setErrno (.inr ⟨_, rfl⟩) rfl
    · cases h
  | fork pgid =>
    rcases fork_cases h with ⟨n, rfl, -, -, rfl⟩ | ⟨rfl, rfl⟩
    · exact local_of_sess (.inl rfl) rfl (fun h => by cases h) hnil
    · exact local_setErrno (.inr ⟨_, rfl⟩) rfl
  | malloc =>
    simp only [exec] at h
    split at h <;> cases h
    · exact local_of_sess (.inl rfl) rfl (fun _ => rfl) hnil
    · exact local_setErrno (.inr ⟨_, rfl⟩) rfl
  | waitpid pgid flags =>
    rcases waitpid_cases h with ⟨p, -, -, -, rfl⟩ | ⟨-, -, rfl⟩ | ⟨-, rfl⟩ | ⟨-, rfl⟩
    · have hsame : (w.reported p).sess = w.sess ∧ (w.reported p).logged = w.logged := by
        unfold World.reported
        split <;> exact ⟨rfl, rfl⟩
      exact local_of_sess (.inl rfl) hsame.1 (fun h => by cases h) (hsame.2.trans hnil)
    · exact local_setErrno (.inr ⟨_, rfl⟩) rfl
    · exact local_setErrno (.inr ⟨_, rfl⟩) rfl
    · exact local_of_sess (.inl rfl) rfl (fun _ => rfl) hnil
  | log cmdline =>
    cases h
    exact local_of_sess (.inl rfl) rfl (fun _ => rfl) rfl
  | close fd | hangup =>
    cases h
    exact local_of_sess (.inl rfl) rfl (fun _ => rfl) hnil
  | kill pgid sig =>
    cases h
    exact local_of_sess (.inl rfl) rfl (fun h => by cases h) hnil

/-! ## Runs -/

/-- The threads with what is left of their programs, over the world they share. -/
structure System where
  world : World
  thread : Nat → Option (Code.C Unit)

/-- No client yet. -/
def System.init : System := ⟨World.init, fun _ => none⟩

/-- A step of the system. -/
inductive Event where
  /-- A client connects and gets a thread. -/
  | accept (sid : Nat)
  /-- A session takes a step. -/
  | run (sid : Nat) (ch : Choice)
  /-- A child exits, stops, continues. -/
  | exit (pid : Nat)
  | stop (pid : Nat)
  | cont (pid : Nat)
  /-- A process of a session's jobs writes to its client. -/
  | output (sid : Nat) (bs : List Byte)
  /-- A client sends, reads, closes. -/
  | peerSend (sid : Nat) (bs : List Byte)
  | peerRecv (sid : Nat) (n : Nat)
  | peerClose (sid : Nat)
  deriving Repr, DecidableEq

/-- A change of a child that has not exited. -/
def World.setProc (w : World) (pid : Nat) (f : Proc → Proc) : World :=
  { w with procs := w.procs.map fun p => if p.pid = pid ∧ p.state ≠ .zombie then f p else p }

/-- The client has sent `bs`. -/
def Sess.peerSend (x : Sess) (bs : List Byte) : Sess :=
  { x with wire.pending := x.wire.pending ++ bs, heard := x.heard ++ bs }

/-- The client has read `n` bytes more, or all there are. -/
def Sess.peerRecv (x : Sess) (n : Nat) : Sess :=
  { x with recvd := min (x.recvd + n) x.sent.length }

/-- The client has closed. -/
def Sess.peerClose (x : Sess) : Sess := { x with wire.closed := true }

/-- A step that no session takes. -/
def World.env (w : World) : Event → World
  | .exit pid => w.setProc pid fun p => { p with state := .zombie }
  | .stop pid => w.setProc pid fun p => { p with state := .stopped, report := some .stop }
  | .cont pid => w.setProc pid fun p => { p with state := .running, report := some .cont }
  | .output sid bs => w.send sid .child bs
  | .peerSend sid bs => w.setSess sid ((w.sess sid).peerSend bs)
  | .peerRecv sid n => w.setSess sid ((w.sess sid).peerRecv n)
  | .peerClose sid => w.setSess sid (w.sess sid).peerClose
  | .accept sid => w.setSess sid Sess.create
  | .run _ _ => w

/-- The program of one thread changes. -/
def System.setThread (S : System) (sid : Nat) (p : Code.C Unit) : System :=
  { S with thread := fun i => if i = sid then some p else S.thread i }

/-- The step. -/
def System.step (S : System) (e : Event) : Option System :=
  match e with
  | .accept sid =>
    match S.thread sid with
    | some _ => none
    | none => some (({ S with world := S.world.env e }).setThread sid Code.sessionMain)
  | .run sid ch =>
    match S.thread sid with
    | none => none
    | some p =>
      (p.step (S := sys) (exec sid ch) S.world).map fun x =>
        ({ S with world := x.2 }).setThread sid x.1
  | _ => some { S with world := S.world.env e }

/-- The state a sequence of events leads to. -/
def System.run (S : System) (evs : List Event) : Option System := evs.foldlM System.step S

theorem System.run_cons {S S₁ : System} {e : Event} {evs : List Event} (h : S.step e = some S₁) :
    S.run (e :: evs) = S₁.run evs := by
  rw [System.run, foldlM_cons, h]
  rfl

theorem System.step_run {S : System} {sid : Nat} {ch : Choice} {p p' : Code.C Unit} {w' : World}
    (ht : S.thread sid = some p) (h : p.step (S := sys) (exec sid ch) S.world = some (p', w')) :
    S.step (.run sid ch) = some (({ S with world := w' }).setThread sid p') := by
  simp only [System.step, ht, h, map_some]

/-- What one step does: a new thread, a step of a thread, or a step of the environment. -/
theorem System.step_cases {S S' : System} {e : Event} (h : S.step e = some S') :
    (∃ sid, e = .accept sid ∧ S.thread sid = none ∧
      S' = ({ S with world := S.world.setSess sid Sess.create }).setThread sid Code.sessionMain) ∨
    (∃ sid ch p p' w', e = .run sid ch ∧ S.thread sid = some p ∧
      p.step (S := sys) (exec sid ch) S.world = some (p', w') ∧
      S' = ({ S with world := w' }).setThread sid p') ∨
    ((∀ sid, e ≠ .accept sid) ∧ S' = { S with world := S.world.env e }) := by
  cases e with
  | accept sid =>
    simp only [System.step] at h
    split at h
    · exact absurd h (by simp)
    · rename_i ht
      exact .inl ⟨sid, rfl, ht, (some.inj h).symm⟩
  | run sid ch =>
    simp only [System.step] at h
    split at h
    · exact absurd h (by simp)
    · rename_i p ht
      obtain ⟨⟨p', w'⟩, hstep, rfl⟩ := map_eq_some_iff.mp h
      exact .inr (.inl ⟨sid, ch, p, p', w', rfl, ht, hstep, rfl⟩)
  | _ => exact .inr (.inr ⟨by simp, (some.inj h).symm⟩)

theorem System.step_accept {S S' : System} {sid : Nat} (ht : S.thread sid = none)
    (h : S.step (.accept sid) = some S') :
    S' = ({ S with world := S.world.setSess sid Sess.create }).setThread sid Code.sessionMain := by
  simp only [System.step, ht] at h
  exact (some.inj h).symm

/-- What may happen to a session's connection without the session. -/
inductive Sess.Env (x : Sess) : Sess → Prop where
  | refl : Env x x
  | send (bs : List Byte) : Env x (x.peerSend bs)
  | recv (n : Nat) : Env x (x.peerRecv n)
  | close : Env x x.peerClose
  | output (bs : List Byte) : Env x { x with sent := x.sent ++ bs.map fun b => (.child, b) }

theorem Sess.Env.mem {x x' : Sess} (h : Sess.Env x x') : x'.mem = x.mem := by
  cases h <;> rfl

theorem Sess.Env.setSess {x : Sess} (h : Sess.Env (w.sess sid) x) (i : Nat) :
    Sess.Env (w.sess i) ((w.setSess sid x).sess i) := by
  by_cases hi : i = sid
  · subst hi
    rwa [sess_setSess_self]
  · rw [show (w.setSess sid x).sess i = w.sess i from if_neg hi]
    exact .refl

theorem World.env_sess {e : Event} (he : ∀ sid, e ≠ .accept sid) (i : Nat) :
    Sess.Env (w.sess i) ((w.env e).sess i) := by
  cases e with
  | accept sid => exact absurd rfl (he sid)
  | output sid bs => exact (Sess.Env.output bs).setSess i
  | peerSend sid bs => exact (Sess.Env.send bs).setSess i
  | peerRecv sid n => exact (Sess.Env.recv n).setSess i
  | peerClose sid => exact Sess.Env.close.setSess i
  | _ => exact .refl

/-- What one step does to one session: an operation of its own, its creation, or what happens to its
connection. -/
theorem System.step_sess {S S' : System} {e : Event} (h : S.step e = some S') (i : Nat) :
    (∃ ch o k r, e = .run i ch ∧ S.thread i = some (.call o k) ∧
      exec i ch o S.world = some (r, S'.world) ∧ S'.thread i = some (k r) ∧
      Sess.act o (S.world.sess i) r (S'.world.sess i)) ∨
    (e = .accept i ∧ S'.world.sess i = Sess.create) ∨
    Sess.Env (S.world.sess i) (S'.world.sess i) := by
  rcases System.step_cases h with ⟨sid, rfl, ht, rfl⟩ | ⟨sid, ch, p, p', w', rfl, ht, hp, rfl⟩ |
    ⟨he, rfl⟩
  · by_cases hi : i = sid
    · subst hi
      exact .inr (.inl ⟨rfl, sess_setSess_self _⟩)
    · refine .inr (.inr ?_)
      show Sess.Env _ ((S.world.setSess sid Sess.create).sess i)
      rw [show (S.world.setSess sid Sess.create).sess i = S.world.sess i from if_neg hi]
      exact .refl
  · rcases Prog.step_cases hp with ⟨o, k, r, rfl, hx, rfl⟩ | rfl
    · by_cases hi : i = sid
      · subst hi
        exact .inl ⟨ch, o, k, r, rfl, ht, hx, if_pos rfl, (exec_local hx).own⟩
      · refine .inr (.inr ?_)
        show Sess.Env _ (w'.sess i)
        rw [(exec_local hx).others i hi]
        exact .refl
    · exact .inr (.inr .refl)
  · exact .inr (.inr (World.env_sess he i))

/-- The states the daemon can be in. -/
def Reachable (S : System) : Prop := ∃ evs, System.init.run evs = some S

theorem Reachable.step {S S' : System} {e : Event} (h : Reachable S) (hstep : S.step e = some S') :
    Reachable S' := by
  obtain ⟨evs, h⟩ := h
  refine ⟨evs ++ [e], ?_⟩
  rw [System.run, foldlM_append]
  exact bind_eq_some_iff.mpr ⟨S, h, by simpa using hstep⟩

/-- **Induction over the reachable states.** -/
theorem Reachable.induction {P : System → Prop} (hinit : P System.init)
    (hstep : ∀ S e S', Reachable S → P S → S.step e = some S' → P S') {S : System}
    (h : Reachable S) : P S := by
  obtain ⟨evs, h⟩ := h
  have := foldlM_invariant (P := fun S => Reachable S ∧ P S)
    (fun S e S' hS hs => ⟨hS.1.step hs, hstep S e S' hS.1 hS.2 hs⟩) ⟨⟨[], rfl⟩, hinit⟩ h
  exact this.2

/-- One step, if it meets a condition. -/
def System.stepIf (ok : System → Event → Bool) (S : System) (e : Event) : Option System :=
  if ok S e then S.step e else none

/-- The states that runs lead to all of whose steps meet a condition. -/
def ReachableIf (ok : System → Event → Bool) (S : System) : Prop :=
  ∃ evs : List Event, evs.foldlM (System.stepIf ok) System.init = some S

theorem System.stepIf_eq_some {ok : System → Event → Bool} {S S' : System} {e : Event}
    (h : S.stepIf ok e = some S') : ok S e = true ∧ S.step e = some S' :=
  (ite_none_right_eq_some ..).mp h

theorem ReachableIf.step {ok : System → Event → Bool} {S S' : System} {e : Event}
    (h : ReachableIf ok S) (hok : ok S e = true) (hs : S.step e = some S') : ReachableIf ok S' := by
  obtain ⟨evs, h⟩ := h
  refine ⟨evs ++ [e], ?_⟩
  rw [foldlM_append, h]
  exact (bind_pure _).trans ((if_pos hok).trans hs)

theorem ReachableIf.reachable {ok : System → Event → Bool} {S : System} (h : ReachableIf ok S) :
    Reachable S := by
  obtain ⟨evs, h⟩ := h
  exact foldlM_invariant (fun _ _ _ hS hs => hS.step (System.stepIf_eq_some hs).2) ⟨[], rfl⟩ h

/-- **Induction over the states of such runs.** -/
theorem ReachableIf.induction {ok : System → Event → Bool} {P : System → Prop}
    (hinit : P System.init)
    (hstep : ∀ S e S', Reachable S → P S → ok S e = true → S.step e = some S' → P S') {S : System}
    (h : ReachableIf ok S) : P S := by
  obtain ⟨evs, h⟩ := h
  have := foldlM_invariant (P := fun S => Reachable S ∧ P S) (fun S e S' hS hs => ?_)
    ⟨⟨[], rfl⟩, hinit⟩ h
  · exact this.2
  · obtain ⟨hok, hs⟩ := System.stepIf_eq_some hs
    exact ⟨hS.1.step hs, hstep S e S' hS.1 hS.2 hok hs⟩

/-! ## Threads that meet their specifications -/

theorem System.setThread_self (S : System) (sid : Nat) (p : Code.C Unit) :
    (S.setThread sid p).thread sid = some p := if_pos rfl

theorem System.setThread_setThread (S : System) (sid : Nat) (p q : Code.C Unit) (w w' : World) :
    ({ ({ S with world := w }).setThread sid p with world := w' }).setThread sid q =
      ({ S with world := w' }).setThread sid q := by
  rw [System.setThread, System.setThread, System.setThread, System.mk.injEq]
  refine ⟨rfl, funext fun i => ?_⟩
  by_cases hi : i = sid <;> simp [hi]

theorem System.setThread_eq_self {S : System} {sid : Nat} {p : Code.C Unit}
    (h : S.thread sid = some p) : S.setThread sid p = S := by
  rw [System.setThread, ← h]
  refine congrArg (System.mk S.world) (funext fun i => ?_)
  by_cases hi : i = sid <;> simp [hi]

theorem System.setThread_of_ne {i sid : Nat} (S : System) (p : Code.C Unit) (h : i ≠ sid) :
    (S.setThread sid p).thread i = S.thread i := if_neg h

section Upholds

variable {V : Type} {pre : Op → V → Prop} {act : (o : Op) → V → o.Res → V → Prop} {post : V → Prop}
  {v v' : V} {S S' : System} {e : Event} {sid : Nat}

/-- The thread of a session, if there is one, is in a state its specification covers; `v` is what it
sees. -/
def System.Upholds (S : System) (sid : Nat) (pre : Op → V → Prop)
    (act : (o : Op) → V → o.Res → V → Prop) (post : V → Prop) (v : V) : Prop :=
  ∀ p, S.thread sid = some p → (Logic.sequential (S := sys) pre act).wp p (fun _ => post) v

theorem System.Upholds.head (h : S.Upholds sid pre act post v) {o : Op} {k : o.Res → Code.C Unit}
    (ht : S.thread sid = some (.call o k)) : pre o v :=
  Logic.wp_pre rfl (h _ ht)

/-- The specification of a thread that has returned. -/
theorem System.Upholds.returned (h : S.Upholds sid pre act post v)
    (ht : S.thread sid = some (.ret ())) : post v :=
  Logic.seq_ret.mp (h _ ht)

/-- **One thread among others.** If a new thread meets its specification, an operation of the thread
does what the specification allows, and the other steps do not change what it sees, then every step
keeps the thread within its specification. -/
theorem System.Upholds.step (h : S.Upholds sid pre act post v) (hstep : S.step e = some S')
    (haccept : e = .accept sid → S.thread sid = none →
      (Logic.sequential (S := sys) pre act).wp Code.sessionMain (fun _ => post) v')
    (hexec : ∀ ch o k r, e = .run sid ch → S.thread sid = some (.call o k) → pre o v →
      exec sid ch o S.world = some (r, S'.world) → act o v r v')
    (hother : e ≠ .accept sid → (∀ ch o k, e = .run sid ch → S.thread sid ≠ some (.call o k)) →
      v' = v) : S'.Upholds sid pre act post v' := by
  intro q hq
  by_cases hacc : e = .accept sid
  · subst hacc
    rcases System.step_cases hstep with ⟨i, he, ht, rfl⟩ | ⟨i, ch, p, p', w', he, -⟩ | ⟨he, -⟩
    · cases he
      rw [System.setThread_self] at hq
      cases hq
      exact haccept rfl ht
    · cases he
    · exact absurd rfl (he sid)
  by_cases hown : ∃ ch o k, e = .run sid ch ∧ S.thread sid = some (.call o k)
  · obtain ⟨ch, o, k, rfl, ht⟩ := hown
    simp only [System.step, ht] at hstep
    obtain ⟨⟨p', w'⟩, hp, rfl⟩ := map_eq_some_iff.mp hstep
    obtain ⟨⟨r, w₁⟩, hx, he⟩ := map_eq_some_iff.mp hp
    cases he
    rw [System.setThread_self] at hq
    cases hq
    obtain ⟨hpre, hk⟩ := h _ ht _ rfl
    exact hk r _ (hexec ch o k r rfl ht hpre hx)
  obtain rfl := hother hacc fun ch o k he ht => hown ⟨ch, o, k, he, ht⟩
  rcases System.step_cases hstep with ⟨i, rfl, ht, rfl⟩ | ⟨i, ch, p, p', w', rfl, ht, hp, rfl⟩ |
    ⟨he, rfl⟩
  · have hne : sid ≠ i := fun hi => hacc (hi ▸ rfl)
    rw [System.setThread_of_ne _ _ hne] at hq
    exact h q hq
  · by_cases hi : sid = i
    · subst hi
      rw [System.setThread_self] at hq
      cases hq
      cases p with
      | ret a => cases hp
      | call o k => exact absurd ⟨ch, o, k, rfl, ht⟩ hown
      | loop body s k =>
        cases hp
        exact Logic.wp_loop_turn rfl (h _ ht)
    · rw [System.setThread_of_ne _ _ hi] at hq
      exact h q hq
  · exact h q hq

end Upholds

section Meets

variable {V : Type} {pre : Op → V → Prop} {act : (o : Op) → V → o.Res → V → Prop}
  {view : Nat → World → V}

/-- Every thread is in a state its specification covers. The specifications are about a part of the
world that is the thread's own. -/
def System.Meets (S : System) (pre : Op → V → Prop) (act : (o : Op) → V → o.Res → V → Prop)
    (view : Nat → World → V) : Prop :=
  ∀ sid, S.Upholds sid pre act (fun _ => True) (view sid S.world)

theorem System.Meets.head {S : System} (h : S.Meets pre act view) {sid : Nat} {o : Op}
    {k : o.Res → Code.C Unit} (ht : S.thread sid = some (.call o k)) : pre o (view sid S.world) :=
  (h sid).head ht

/-- **Interleaving.** If a new thread meets its specification, an operation of a thread does to its
own part what the specification allows and nothing to the others', and the environment does nothing
to any, then every step keeps every thread within its specification. -/
theorem System.Meets.step {S S' : System} {e : Event} (h : S.Meets pre act view)
    (hstep : S.step e = some S')
    (haccept : ∀ sid, S.thread sid = none →
      (Logic.sequential (S := sys) pre act).wp Code.sessionMain (fun _ _ => True)
        (view sid (S.world.setSess sid Sess.create)) ∧
      ∀ i, i ≠ sid → view i (S.world.setSess sid Sess.create) = view i S.world)
    (hexec : ∀ sid ch o r w', pre o (view sid S.world) → exec sid ch o S.world = some (r, w') →
      act o (view sid S.world) r (view sid w') ∧ ∀ i, i ≠ sid → view i w' = view i S.world)
    (henv : (∀ sid, e ≠ .accept sid) → ∀ i, view i (S.world.env e) = view i S.world) :
    S'.Meets pre act view := by
  intro sid
  refine (h sid).step hstep ?_ (fun ch o k r _ _ hpre hx => (hexec sid ch o r _ hpre hx).1) ?_
  · rintro rfl ht
    cases System.step_accept ht hstep
    exact (haccept sid ht).1
  · intro hacc hrun
    rcases System.step_cases hstep with ⟨i, rfl, ht, rfl⟩ | ⟨i, ch, p, p', w', rfl, ht, hp, rfl⟩ |
      ⟨he, rfl⟩
    · exact (haccept i ht).2 sid fun hi => hacc (hi ▸ rfl)
    · rcases Prog.step_cases hp with ⟨o, k, r, rfl, hx, -⟩ | rfl
      · exact (hexec i ch o r w' (h.head ht) hx).2 sid fun hi => hrun ch o k (hi ▸ rfl) (hi ▸ ht)
      · rfl
    · exact henv he sid

end Meets

/-- `n` steps of a session, each with the same answer of the kernel. -/
def steps (sid n : Nat) (ch : Choice) : List Event := List.replicate n (.run sid ch)

/-- The session has ended. -/
def System.over (S : System) (sid : Nat) : Bool :=
  match S.thread sid with
  | some (.ret _) => true
  | _ => false

theorem System.over_iff {S : System} {sid : Nat} :
    S.over sid = true ↔ S.thread sid = some (.ret ()) := by
  unfold System.over
  split
  · rename_i h
    exact iff_of_true rfl h
  · rename_i h
    exact iff_of_false (by decide) (h ())

theorem reachable_of_any (evs : List Event) (p : System → Bool)
    (h : (System.init.run evs).any p = true) : ∃ S, Reachable S ∧ p S = true := by
  obtain ⟨S, hS, hp⟩ := (any_eq_true _ _).mp h
  exact ⟨S, ⟨evs, hS⟩, hp⟩

theorem reachableIf_of_any (ok : System → Event → Bool) (evs : List Event) (p : System → Bool)
    (h : (evs.foldlM (System.stepIf ok) System.init).any p = true) :
    ∃ S, ReachableIf ok S ∧ p S = true := by
  obtain ⟨S, hS, hp⟩ := (any_eq_true _ _).mp h
  exact ⟨S, ⟨evs, hS⟩, hp⟩

theorem reachable_get {evs : List Event} (h : (System.init.run evs).isSome) :
    Reachable ((System.init.run evs).get h) :=
  ⟨evs, (some_get h).symm⟩

end SystemProg.Yashd
