import SystemProg.Conc.Prog
import SystemProg.Data.Keyed
import SystemProg.Shell.Parse
import SystemProg.Yashd.Input

/-!
# A session of the daemon

Model of the session thread of `yashd`: `session_main` (`server/src/session.c:286-308`) and what it
calls in `session.c`, `jobs.c`, `exec.c` and `builtins.c`. Each C function is a program of the same
name over the operations `Op`: its system calls, its accesses to `session_t`, and the two input
functions that make at most one system call (`buf_take_line`, `buf_fill`).

* A `job_t *` is the `jid` of the job in `s->job_list`; the pointers of a session are to jobs of its
  list, whose `jid`s are distinct. Dereferencing a job that is no longer there is `fault`.
* The loops over the job list walk the list as it is when they start. None of them is left with a
  list changed behind it: only the job at hand is ever removed, after its `next` has been read.
* `pid_t` and descriptors are natural numbers; `-1` is `none`.
* The child's half of `fork` is not here. A child joins its process group in the step that creates
  it: both halves call `setpgid` before anything else, and until then no thread can name the group.
* `session_printf` writes at most `YASH_MAX_LINE + 127` bytes.
-/

namespace SystemProg.Yashd

open Text Shell Conc Data

/-- `YASH_PROMPT`. -/
def yashPrompt : List Byte := str "\n# "

/-- `MSG_CMD`. -/
def msgCmd : List Byte := str "CMD "

/-- `MSG_CTL`. -/
def msgCtl : List Byte := str "CTL "

/-- `MSG_PREFIX_LEN`. -/
def msgPrefixLen : Nat := 4

/-- `CTL_INT`, `'c'`. -/
def ctlInt : Byte := 99

/-- `CTL_STOP`, `'z'`. -/
def ctlStop : Byte := 122

/-- `CTL_EOF`, `'d'`. -/
def ctlEof : Byte := 100

/-- `session_t`. -/
structure Session where
  jobs : List Job
  fgJob : Option Nat
  input : Input
  quit : Bool

/-- `session_create`, with `jobs_init`. -/
def Session.create : Session := ⟨[], none, ⟨.empty, .other⟩, false⟩

/-- The job a pointer points to. -/
def Session.job? (s : Session) (jid : Nat) : Option Job := lookup Job.jid s.jobs jid

/-- A write through a pointer to a job. -/
def Session.setJob (s : Session) (jid : Nat) (f : Job → Job) : Session :=
  { s with jobs := update Job.jid s.jobs jid f }

/-- `s->fg_job != NULL && s->fg_job->infd >= 0`. -/
def Session.fgInput (s : Session) : Bool :=
  match s.fgJob.bind s.job? with
  | none => false
  | some j => j.infd.isSome

/-- `jobs_current`: the last job that is running or stopped. -/
def Session.jobsCurrent (s : Session) : Option Job :=
  (s.jobs.filter fun j => j.state == .running || j.state == .stopped).getLast?

/-- `jobs_recent_stopped`. -/
def Session.jobsRecentStopped (s : Session) : Option Job :=
  (s.jobs.filter fun j => j.state == .stopped).getLast?

/-- The `jid` `jobs_add` gives the next job. -/
def Session.nextJid (s : Session) : Nat :=
  match s.jobs.getLast? with
  | none => 1
  | some tail => tail.jid + 1

/-! ## Operations -/

/-- A signal that is sent. -/
inductive Signal where
  | int
  | tstp
  | cont
  | kill
  deriving Repr, DecidableEq

/-- The options of a `waitpid`. -/
structure WaitFlags where
  nohang : Bool
  untraced : Bool
  continued : Bool
  deriving Repr, DecidableEq

/-- What `waitpid` returns: 0, -1 with `EINTR` or `ECHILD`, or a child and what became of it. -/
inductive WaitRes where
  | none
  | eintr
  | echild
  | exited (pid : Nat)
  | stopped (pid : Nat)
  | continued (pid : Nat)
  deriving Repr, DecidableEq

/-- What `write` returns. -/
inductive WriteRes where
  | wrote (n : Nat)
  | fail (e : Errno)
  deriving Repr, DecidableEq

/-- Which of the two callers takes a line or fills the buffer. -/
inductive Site where
  | readsocket
  | pump
  deriving Repr, DecidableEq

/-- What the shell writes to the client. -/
inductive Out where
  | prompt
  | text
  deriving Repr, DecidableEq

/-- Where `s->quit` is set: `session_write`, `handle_ctl`, `handle_cmd`, `jobs_wait_fg`. -/
inductive QuitSite where
  | write
  | ctl
  | cmd
  | gone
  deriving Repr, DecidableEq

/-- What a pipe is for: a job's stdin, or the `|` between two commands. -/
inductive Pipe where
  | input
  | bar
  deriving Repr, DecidableEq

/-- What a session does to the world. -/
inductive Op where
  /-- Reading `*s`. -/
  | load
  /-- Writing `*s`. -/
  | store (f : Session → Session)
  /-- `s->quit = 1`. -/
  | quit (site : QuitSite)
  /-- A dangling `job_t *`. -/
  | fault
  /-- `buf_take_line(s, line, sizeof line)`. -/
  | takeLine (site : Site)
  /-- `buf_fill(s)`. -/
  | fill (site : Site)
  /-- `select` on the client's socket, up to `FG_POLL_MS`. -/
  | select
  /-- `write(s->cfd, ...)`. -/
  | write (out : Out) (bs : List Byte)
  /-- `write` to a descriptor of a pipe. -/
  | writePipe (fd : Nat) (bs : List Byte)
  | close (fd : Nat)
  | pipe (p : Pipe)
  /-- `fork`, and `setpgid` of the child; 0 puts it in a group of its own. -/
  | fork (pgid : Nat)
  | malloc
  /-- `waitpid(-pgid, ...)`. -/
  | waitpid (pgid : Nat) (flags : WaitFlags)
  /-- `kill(-pgid, sig)`. -/
  | kill (pgid : Nat) (sig : Signal)
  /-- `log_command`. -/
  | log (cmdline : List Byte)
  /-- `close(s->cfd)`. -/
  | hangup

/-- What it gets back. -/
def Op.Res : Op → Type
  | .load => Session
  | .fault => Empty
  | .takeLine _ => Option (List Byte)
  | .fill _ => Int
  | .select => Bool
  | .write _ _ => WriteRes
  | .writePipe _ _ => Bool
  | .pipe _ => Option (Nat × Nat)
  | .fork _ => Option Nat
  | .malloc => Bool
  | .waitpid _ _ => WaitRes
  | _ => Unit

/-- The signature of the daemon's threads. -/
abbrev sys : Sig := ⟨Op, Op.Res⟩

namespace Code

open Prog

/-- Code of a session thread that returns an `α`. -/
abbrev C (α : Type) := Prog sys α

/-- `*s`. -/
def load : C Session := perform (S := sys) .load

/-- A write to `*s`. -/
def store (f : Session → Session) : C Unit := perform (S := sys) (.store f)

/-- `s->quit = 1`. -/
def setQuit (site : QuitSite) : C Unit := perform (S := sys) (.quit site)

/-- `close`. -/
def close (fd : Nat) : C Unit := perform (S := sys) (.close fd)

/-- `kill`. -/
def kill (pgid : Nat) (sig : Signal) : C Unit := perform (S := sys) (.kill pgid sig)

/-- `waitpid`. -/
def waitpid (pgid : Nat) (flags : WaitFlags) : C WaitRes :=
  perform (S := sys) (.waitpid pgid flags)

/-- `write` to the client. -/
def write (out : Out) (bs : List Byte) : C WriteRes := perform (S := sys) (.write out bs)

/-- `write` to a pipe. -/
def writePipe (fd : Nat) (bs : List Byte) : C Bool := perform (S := sys) (.writePipe fd bs)

/-- `select`. -/
def select : C Bool := perform (S := sys) .select

/-- `malloc`. -/
def malloc : C Bool := perform (S := sys) .malloc

/-- `pipe`. -/
def pipe (p : Pipe) : C (Option (Nat × Nat)) := perform (S := sys) (.pipe p)

/-- `fork`. -/
def fork (pgid : Nat) : C (Option Nat) := perform (S := sys) (.fork pgid)

/-- `log_command`. -/
def logCommand (cmdline : List Byte) : C Unit := perform (S := sys) (.log cmdline)

/-- `buf_take_line`. -/
def takeLine (site : Site) : C (Option (List Byte)) := perform (S := sys) (.takeLine site)

/-- `buf_fill`. -/
def fill (site : Site) : C Int := perform (S := sys) (.fill site)

/-- `*job`. -/
def deref (jid : Nat) : C Job := do
  let s ← load
  match s.job? jid with
  | some j => return j
  | none =>
    let e ← perform (S := sys) .fault
    nomatch (e : Empty)

/-- A write to fields of `*job`. -/
def modifyJob (jid : Nat) (f : Job → Job) : C Unit := do
  let _ ← deref jid
  store (·.setJob jid f)

/-! ## `session.c`: output and input -/

/-- `session_write`; `true` for 0. The loop state is what is still to be written. -/
def sessionWrite (out : Out) (buf : List Byte) : C Bool :=
  iter (fun rest => do
    if rest = [] then return .inr true
    match ← write out rest with
    | .wrote n => return .inl (rest.drop n)
    | .fail .eintr => return .inl rest
    | .fail .other =>
      setQuit .write
      return .inr false) buf

/-- `session_printf`. -/
def sessionPrintf (text : List Byte) : C Bool :=
  sessionWrite .text (text.take (yashMaxLine + 127))

/-- `session_prompt`. -/
def sessionPrompt : C Bool := sessionWrite .prompt yashPrompt

/-- `session_readsocket`. -/
def sessionReadsocket : C Ret :=
  iter (fun _ : Unit => do
    match ← takeLine .readsocket with
    | some line => return .inr (.line line)
    | none =>
      let r ← fill .readsocket
      if r = 0 then return .inr .closed
      if r < 0 then
        let s ← load
        if s.input.errno = .eintr then return .inl ()
        return .inr .error
      return .inl ()) ()

/-! ## `session.c`: messages for a running job -/

/-- `handle_ctl`. -/
def handleCtl (arg : List Byte) : C Unit := do
  let s ← load
  match arg.head? with
  | none => return ()
  | some c =>
    if c = ctlInt then
      match s.fgJob with
      | none => return ()
      | some jid => do
        let j ← deref jid
        kill j.pgid .int
    else if c = ctlStop then
      match s.fgJob with
      | none => return ()
      | some jid => do
        let j ← deref jid
        kill j.pgid .tstp
    else if c = ctlEof then
      match s.fgJob with
      | none => setQuit .ctl
      | some jid => do
        let j ← deref jid
        match j.infd with
        | none => setQuit .ctl
        | some fd => do
          close fd
          modifyJob jid fun j => { j with infd := none }
    else return ()

/-- `handle_text`. -/
def handleText (line : List Byte) : C Unit := do
  let s ← load
  match s.fgJob with
  | none => return ()
  | some jid => do
    let j ← deref jid
    match j.infd with
    | none => return ()
    | some fd => do
      let ok ← writePipe fd line
      let ok ← if ok then writePipe fd [nl] else pure false
      if !ok then
        close fd
        modifyJob jid fun j => { j with infd := none }

/-- `dispatch_running`. The line is read as a C string. -/
def dispatchRunning (line : List Byte) : C Unit :=
  let line := cstr line
  if line.take msgPrefixLen = msgCtl then handleCtl (line.drop msgPrefixLen)
  else handleText line

/-- `while (buf_take_line(...)) dispatch_running(...)`. -/
def drain : C Unit :=
  iter (fun _ : Unit => do
    match ← takeLine .pump with
    | none => return .inr ()
    | some line =>
      dispatchRunning line
      return .inl ()) ()

/-- `session_pump`; `false` for 0. -/
def sessionPump : C Bool := do
  drain
  let ready ← select
  if !ready then return true
  let r ← fill .pump
  if r = 0 then return false
  drain
  return true

/-! ## `jobs.c` -/

/-- `clear_pid`. -/
def clearPid (job : Job) (pid : Nat) : Job :=
  { job with cmds :=
      (job.cmds.take job.ncmds).map (fun c => if c.pid = pid then { c with pid := 0 } else c) ++
        job.cmds.drop job.ncmds }

/-- `clear_pid(job, r)` and `job->nlive--`. -/
def reaped (pid : Nat) (job : Job) : Job := { clearPid job pid with nlive := job.nlive - 1 }

/-- `poll_job`; `true` if the job stopped. -/
def pollJob (jid : Nat) (block : Bool) : C Bool :=
  iter (fun _ : Unit => do
    let j ← deref jid
    if j.nlive = 0 then return .inr false
    match ← waitpid j.pgid ⟨!block, true, true⟩ with
    | .none => return .inr false
    | .eintr => return .inl ()
    | .echild =>
      modifyJob jid fun j => { j with nlive := 0 }
      return .inr false
    | .stopped _ =>
      modifyJob jid fun j => { j with state := .stopped }
      return .inr true
    | .continued _ =>
      modifyJob jid fun j => { j with state := .running }
      return .inl ()
    | .exited pid =>
      modifyJob jid (reaped pid)
      return .inl ()) ()

/-- The text of `jobs_print_one`. -/
def jobLine (job : Job) (mark status : String) : List Byte :=
  str "[" ++ str (toString job.jid) ++ str "] " ++ str mark ++ str " " ++ str status ++ str "\t" ++
    job.cmdline ++ (if job.background then str " &" else []) ++ [nl]

/-- `jobs_print_one`. -/
def jobsPrintOne (job : Job) (mark status : String) : C Unit := do
  let _ ← sessionPrintf (jobLine job mark status)

/-- `jobs_remove`. -/
def jobsRemove (jid : Nat) : C Unit := do
  let s ← load
  match s.job? jid with
  | none => return ()
  | some j => do
    store fun s => { s with jobs := remove Job.jid s.jobs jid }
    match j.infd with
    | some fd => close fd
    | none => pure ()
    store fun s => if s.fgJob = some jid then { s with fgJob := none } else s

/-- The first loop of `jobs_reap`. -/
def reapPoll : List Nat → C Unit
  | [] => return ()
  | jid :: rest => do
    let j ← deref jid
    if j.state ≠ .done ∧ 0 < j.nlive then
      let stopped ← pollJob jid false
      if !stopped then
        let j ← deref jid
        if j.nlive = 0 then
          modifyJob jid fun j => { j with state := .done }
    reapPoll rest

/-- The second loop of `jobs_reap`. -/
def reapSweep : List Nat → C Unit
  | [] => return ()
  | jid :: rest => do
    let j ← deref jid
    if j.state = .done then
      let s ← load
      jobsPrintOne j (if s.jobsCurrent.isNone then "+" else "-") "Done"
      jobsRemove jid
    reapSweep rest

/-- `jobs_reap`. -/
def jobsReap : C Unit := do
  let s ← load
  reapPoll (s.jobs.map Job.jid)
  let s ← load
  reapSweep (s.jobs.map Job.jid)

/-- `jobs_wait_fg`. -/
def jobsWaitFg (jid : Nat) : C Unit := do
  let stopped ← iter (fun _ : Unit => do
    let j ← deref jid
    if j.nlive = 0 then return .inr false
    let s ← load
    if !s.quit then
      let there ← sessionPump
      if !there then
        setQuit .gone
        let j ← deref jid
        kill j.pgid .kill
      if ← pollJob jid false then return .inr true
      return .inl ()
    else
      if ← pollJob jid true then return .inr true
      return .inl ()) ()
  if !stopped then
    modifyJob jid fun j => { j with state := .done }

/-- The loop of `jobs_print`. -/
def printEach (cur : Option Job) : List Job → C Unit
  | [] => return ()
  | j :: rest => do
    jobsPrintOne j (if cur.map Job.jid = some j.jid then "+" else "-")
      (if j.state = .stopped then "Stopped" else "Running")
    printEach cur rest

/-- `jobs_print`. -/
def jobsPrint : C Unit := do
  let s ← load
  printEach s.jobsCurrent s.jobs

/-- `jobs_add`; `none` for NULL. -/
def jobsAdd (proto : Job) : C (Option Nat) := do
  let s ← load
  if yashMaxJobs ≤ s.jobs.length then return none
  let ok ← malloc
  if !ok then return none
  let jid := s.nextJid
  store fun s => { s with jobs := s.jobs ++ [{ proto with jid := jid }] }
  return some jid

/-- The `waitpid` loop of `jobs_kill_all`. -/
def killWait (jid : Nat) : C Unit :=
  iter (fun _ : Unit => do
    let j ← deref jid
    if j.nlive = 0 then return .inr ()
    match ← waitpid j.pgid ⟨false, false, false⟩ with
    | .echild => return .inr ()
    | .exited _ =>
      modifyJob jid fun j => { j with nlive := j.nlive - 1 }
      return .inl ()
    | _ => return .inl ()) ()

/-- The loop of `jobs_kill_all`. -/
def killEach : List Nat → C Unit
  | [] => return ()
  | jid :: rest => do
    let j ← deref jid
    kill j.pgid .kill
    match j.infd with
    | some fd => close fd
    | none => pure ()
    killWait jid
    killEach rest

/-- `jobs_kill_all`. -/
def jobsKillAll : C Unit := do
  let s ← load
  killEach (s.jobs.map Job.jid)
  store fun s => { s with jobs := [], fgJob := none }

/-! ## `exec.c` -/

/-- `cmd->pid = pid` and `proto->nlive++`. -/
def started (proto : Job) (i pid : Nat) : Job :=
  { proto with
    cmds := proto.cmds.modify i fun c => { c with pid := pid }
    nlive := proto.nlive + 1 }

/-- The `fork` loop of `exec_job`; its state is `i`, `pgid` and `*proto`. -/
def forkLoop (proto : Job) : C (Nat × Job) :=
  iter (fun (i, pgid, proto) => do
    if proto.ncmds ≤ i then return .inr (pgid, proto)
    match ← fork pgid with
    | none => return .inr (pgid, proto)
    | some pid => return .inl (i + 1, if pgid = 0 then pid else pgid, started proto i pid))
    (0, 0, proto)

/-- The end of `exec_job` and of `do_fg`: the job is in the foreground until it stops or ends. -/
def foreground (jid : Nat) : C Unit := do
  store fun s => { s with fgJob := some jid }
  jobsWaitFg jid
  store fun s => { s with fgJob := none }
  let j ← deref jid
  if j.state = .done then jobsRemove jid

/-- The end of `exec_job`: the job enters the table, or is killed if there is no room for it. -/
def trackJob (pgid : Nat) (proto : Job) : C Unit := do
  match ← jobsAdd proto with
  | none =>
    kill pgid .kill
    match proto.infd with
    | some fd => close fd
    | none => return ()
  | some jid =>
    let j ← deref jid
    if j.background then return ()
    foreground jid

/-- `exec_job` after the `fork` loop. -/
def startJob (inw : Nat) (pgid : Nat) (proto : Job) : C Unit := do
  if proto.nlive = 0 then close inw
  else if proto.background then
    close inw
    trackJob pgid { proto with pgid := pgid, infd := none }
  else trackJob pgid { proto with pgid := pgid, infd := some inw }

/-- `exec_job` once its pipes are open: `inr` and `inw` for the job's stdin, `fds` for the `|`. -/
def launchJob (inr inw : Nat) (fds : Option (Nat × Nat)) (proto : Job) : C Unit := do
  let (pgid, proto) ← forkLoop proto
  match fds with
  | some (r, w) =>
    close r
    close w
  | none => pure ()
  close inr
  startJob inw pgid proto

/-- `exec_job`. -/
def execJob (proto : Job) : C Unit := do
  let proto := { proto with infd := none }
  match ← pipe .input with
  | none => return ()
  | some (inr, inw) =>
    if proto.ncmds = 2 then
      match ← pipe .bar with
      | none =>
        close inr
        close inw
      | some fds => launchJob inr inw (some fds) proto
    else launchJob inr inw none proto

/-! ## `builtins.c` -/

/-- `do_fg`. -/
def doFg : C Unit := do
  let s ← load
  match s.jobsCurrent with
  | none => return ()
  | some j => do
    let jid := j.jid
    let _ ← sessionPrintf (j.cmdline ++ [nl])
    modifyJob jid fun j => { j with background := false }
    let j ← deref jid
    if j.state = .stopped then kill j.pgid .cont
    modifyJob jid fun j => { j with state := .running }
    foreground jid

/-- `do_bg`. -/
def doBg : C Unit := do
  let s ← load
  match s.jobsRecentStopped with
  | none => return ()
  | some j => do
    let jid := j.jid
    kill j.pgid .cont
    modifyJob jid fun j => { j with state := .running, background := true }
    let j ← deref jid
    jobsPrintOne j "+" "Running"

/-- The string `job->cmds[0].argv[0]` points to; `parse_line` never leaves it NULL. -/
def name (job : Job) : Option (List Byte) :=
  (job.cmds.head?.bind fun c => c.argv.head?.join).map (strAt job.buf)

/-- `builtin_try`; `true` if the line was a builtin. -/
def builtinTry (job : Job) : C Bool := do
  if job.ncmds ≠ 1 ∨ (job.cmds.head?.map Cmd.argc) = some 0 then return false
  if name job = some (str "jobs") then
    jobsPrint
    return true
  if name job = some (str "fg") then
    doFg
    return true
  if name job = some (str "bg") then
    doBg
    return true
  return false

/-! ## `session.c`: the thread -/

/-- `handle_cmd`. -/
def handleCmd (cmdline : List Byte) : C Unit := do
  match parseLine (some cmdline) with
  | .ok job => do
    logCommand cmdline
    if name job = some (str "quit") ∧ job.ncmds = 1 then
      setQuit .cmd
      return ()
    if ← builtinTry job then return ()
    execJob job
  | _ => return ()

/-- `dispatch`. The line is read as a C string. -/
def dispatch (line : List Byte) : C Unit :=
  let line := cstr line
  if line.take msgPrefixLen = msgCmd then handleCmd (line.drop msgPrefixLen)
  else if line.take msgPrefixLen = msgCtl then handleCtl (line.drop msgPrefixLen)
  else handleText line

/-- `session_destroy`. -/
def sessionDestroy : C Unit := do
  jobsKillAll
  perform (S := sys) .hangup

/-- One turn of the loop of `session_main`, from `session_prompt` on; `true` to go round again. -/
def serve : C Bool := do
  if !(← sessionPrompt) then return false
  match ← sessionReadsocket with
  | .line line =>
    dispatch line
    let s ← load
    return !s.quit
  | _ => return false

/-- The body of the loop of `session_main` after `jobs_reap`. -/
def serveTurn : C (Unit ⊕ Unit) := do
  if ← serve then return .inl ()
  return .inr ()

/-- `session_main`. -/
def sessionMain : C Unit := do
  iter (fun _ : Unit => do
    jobsReap
    serveTurn) ()
  sessionDestroy

/-- What is left of `session_main` each time `jobs_reap` returns. -/
def prompting : C Unit :=
  serveTurn.bind (turn (fun _ : Unit => do jobsReap; serveTurn) fun _ => sessionDestroy)

end Code

end SystemProg.Yashd
