import SystemProg.Yashd.Session

/-!
# The shell of Project 1

Model of `yash`: `main` (`yash/src/main.c`) and what it calls in `jobs.c`, `exec.c` and
`builtins.c`. The parser is the one of `Shell.Parse`; the later server copied it. Each C function is
a program of the same name over the operations `Op`.

* A `job_t *` is the `jid` of a job in `job_list`, whose `jid`s are distinct. Dereferencing a job
  that is no longer there is `fault`.
* `Entry` adds to a job the number of the `exec_job` call that made it. Nothing in the shell reads
  it; it tells apart jobs that had the same `jid` at different times, and says whose a child is.
* The loops over the job list walk the list as it is when they start: only the job at hand is ever
  removed, after its `next` has been read.
* `nlive` is a natural number. Where C takes it below 0 it stays 0 here: the code only asks whether
  it is positive, and whether a decrement has just brought it to 0.
* The child's half of `fork` is not here. A child joins its process group in the step that creates
  it: both halves call `setpgid` before anything else.
* The descriptors of the `|` are not here; they are open only inside one call of `exec_job`.
-/

namespace SystemProg.Yash

open Text Shell Conc Data
open Yashd (Signal WaitFlags WaitRes nl)

/-- A job of `job_list`, and the call of `exec_job` that made it. -/
structure Entry where
  job : Job
  call : Nat
  deriving Repr, DecidableEq

/-- Its `jid`. -/
def Entry.jid (e : Entry) : Nat := e.job.jid

/-- The `pid` fields `jobs_find_pid` looks at. -/
def Entry.pids (e : Entry) : List Nat := (e.job.cmds.take e.job.ncmds).map Cmd.pid

/-- `job_list`, oldest first. -/
abbrev Jobs := List Entry

namespace Jobs

/-- `jobs_current`: the last job that is running or stopped. -/
def current (js : Jobs) : Option Entry :=
  (js.filter fun e => e.job.state == .running || e.job.state == .stopped).getLast?

/-- `jobs_recent_stopped`. -/
def recentStopped (js : Jobs) : Option Entry :=
  (js.filter fun e => e.job.state == .stopped).getLast?

/-- `jobs_find_pid`. -/
def findPid (js : Jobs) (pid : Nat) : Option Entry := js.find? fun e => pid ∈ e.pids

/-- The `jid` `jobs_add` gives the next job. -/
def nextJid (js : Jobs) : Nat :=
  match js.getLast? with
  | none => 1
  | some tail => tail.jid + 1

/-- The list with a job more, as `jobs_add` links it. -/
def append (js : Jobs) (proto : Job) (call : Nat) : Jobs :=
  js ++ [⟨{ proto with jid := js.nextJid }, call⟩]

/-- A write to the fields of a job. -/
def setJob (js : Jobs) (jid : Nat) (f : Job → Job) : Jobs :=
  update Entry.jid js jid fun e => { e with job := f e.job }

end Jobs

/-! ## Operations -/

/-- The `mark` of `jobs_print_one`. -/
inductive Mark where
  | plus
  | minus
  deriving Repr, DecidableEq

/-- The `status` of `jobs_print_one`. -/
inductive Status where
  | running
  | stopped
  | done
  deriving Repr, DecidableEq

/-- The callers of `jobs_print_one`: `jobs_print`, `do_bg`, `jobs_reap`. -/
inductive Site where
  | listing
  | bg
  | sweep
  deriving Repr, DecidableEq

/-- What `fgets` returns: a line or a piece of one, NULL at the end of the input, NULL for an
error. -/
inductive Fgets where
  | line (bs : List Byte)
  | eof
  | error
  deriving Repr, DecidableEq

/-- What the shell does to the world. -/
inductive Op where
  /-- Reading `job_list`. -/
  | load
  /-- Writing `job_list`. -/
  | store (f : Jobs → Jobs)
  /-- A dangling `job_t *`. -/
  | fault
  /-- `fputs("# ", stdout)`. -/
  | prompt
  /-- `fgets(line, sizeof line, stdin)`. -/
  | fgets
  /-- `parse_line(line, &job)`. -/
  | parse (line : List Byte)
  /-- `putchar` and `printf` of anything but a job line. -/
  | print (text : List Byte)
  /-- `jobs_print_one`. -/
  | line (site : Site) (e : Entry) (mark : Mark) (status : Status)
  /-- `perror`, and `fprintf(stderr, ...)`. -/
  | complain (text : String)
  | pipe
  /-- `fork`, and `setpgid` of the child; 0 puts it in a group of its own. -/
  | fork (pgid call : Nat)
  | malloc
  /-- `waitpid(-pgid, ...)`; `none` for `waitpid(-1, ...)`. -/
  | waitpid (pgid : Option Nat) (flags : WaitFlags)
  /-- `kill(-pgid, sig)`. -/
  | kill (pgid : Nat) (sig : Signal)
  /-- `sig_give_terminal`; `none` for the shell's own group. -/
  | giveTerminal (pgid : Option Nat)

/-- What it gets back. -/
def Op.Res : Op → Type
  | .load => Jobs
  | .fault => Empty
  | .fgets => Fgets
  | .parse _ => ParseResult
  | .pipe => Bool
  | .fork _ _ => Option Nat
  | .malloc => Bool
  | .waitpid _ _ => WaitRes
  | _ => Unit

/-- The signature of the shell. -/
abbrev calls : Sig := ⟨Op, Op.Res⟩

namespace Code

open Prog
open Yashd.Code (started)

/-- Code that returns an `α`. -/
abbrev C (α : Type) := Prog calls α

/-- `job_list`. -/
def load : C Jobs := perform (S := calls) .load

/-- A write to `job_list`. -/
def store (f : Jobs → Jobs) : C Unit := perform (S := calls) (.store f)

/-- The prompt. -/
def prompt : C Unit := perform (S := calls) .prompt

/-- `fgets`. -/
def fgets : C Fgets := perform (S := calls) .fgets

/-- `parse_line`. -/
def parse (line : List Byte) : C ParseResult := perform (S := calls) (.parse line)

/-- `printf`. -/
def print (text : List Byte) : C Unit := perform (S := calls) (.print text)

/-- `jobs_print_one`. -/
def jobsPrintOne (site : Site) (e : Entry) (mark : Mark) (status : Status) : C Unit :=
  perform (S := calls) (.line site e mark status)

/-- `perror`. -/
def complain (text : String) : C Unit := perform (S := calls) (.complain text)

/-- `pipe`. -/
def pipe : C Bool := perform (S := calls) .pipe

/-- `fork`. -/
def fork (pgid call : Nat) : C (Option Nat) := perform (S := calls) (.fork pgid call)

/-- `malloc`. -/
def malloc : C Bool := perform (S := calls) .malloc

/-- `waitpid`. -/
def waitpid (pgid : Option Nat) (flags : WaitFlags) : C WaitRes :=
  perform (S := calls) (.waitpid pgid flags)

/-- `kill`. -/
def kill (pgid : Nat) (sig : Signal) : C Unit := perform (S := calls) (.kill pgid sig)

/-- `sig_give_terminal`. -/
def giveTerminal (pgid : Option Nat) : C Unit := perform (S := calls) (.giveTerminal pgid)

/-- `*job`. -/
def deref (jid : Nat) : C Entry := do
  let js ← load
  match lookup Entry.jid js jid with
  | some e => return e
  | none =>
    let e ← perform (S := calls) .fault
    nomatch (e : Empty)

/-- A write to fields of `*job`. -/
def modifyJob (jid : Nat) (f : Job → Job) : C Unit := do
  let _ ← deref jid
  store (·.setJob jid f)

/-! ## `jobs.c` -/

/-- `jobs_add`; `none` for NULL. -/
def jobsAdd (proto : Job) (call : Nat) : C (Option Nat) := do
  let js ← load
  if yashMaxJobs ≤ js.length then return none
  let ok ← malloc
  if !ok then return none
  store (·.append proto call)
  return some js.nextJid

/-- `jobs_remove`. -/
def jobsRemove (jid : Nat) : C Unit := store fun js => remove Entry.jid js jid

/-- `if (--j->nlive == 0) j->state = JOB_DONE;` -/
def reaped (j : Job) : Job :=
  { j with nlive := j.nlive - 1, state := if j.nlive = 1 then .done else j.state }

/-- A status reported for `pid` goes to the job `jobs_find_pid` returns. -/
def credit (pid : Nat) (f : Job → Job) : C Unit := do
  let js ← load
  match js.findPid pid with
  | none => return ()
  | some e => modifyJob e.jid f

/-- The first loop of `jobs_reap`. -/
def reapPoll : C Unit :=
  iter (fun _ : Unit => do
    match ← waitpid none ⟨true, true, true⟩ with
    | .stopped pid =>
      credit pid fun j => { j with state := .stopped }
      return .inl ()
    | .continued pid =>
      credit pid fun j => { j with state := .running }
      return .inl ()
    | .exited pid =>
      credit pid reaped
      return .inl ()
    | _ => return .inr ()) ()

/-- The second loop of `jobs_reap`. -/
def reapSweep : List Nat → C Unit
  | [] => return ()
  | jid :: rest => do
    let e ← deref jid
    if e.job.state = .done then
      let js ← load
      jobsPrintOne .sweep e (if js.current.isNone then .plus else .minus) .done
      jobsRemove jid
    reapSweep rest

/-- `jobs_reap`. -/
def jobsReap : C Unit := do
  reapPoll
  let js ← load
  reapSweep (js.map Entry.jid)

/-- `jobs_wait_fg`. Without `WNOHANG` and `WCONTINUED`, what is left is an exit. -/
def jobsWaitFg (jid : Nat) : C Unit := do
  let stopped ← iter (fun _ : Unit => do
    let e ← deref jid
    if e.job.nlive = 0 then return .inr false
    match ← waitpid (some e.job.pgid) ⟨false, true, false⟩ with
    | .eintr => return .inl ()
    | .echild => return .inr false
    | .stopped _ =>
      modifyJob jid fun j => { j with state := .stopped }
      return .inr true
    | _ =>
      modifyJob jid fun j => { j with nlive := j.nlive - 1 }
      return .inl ()) ()
  if !stopped then
    modifyJob jid fun j => { j with state := .done }

/-- The loop of `jobs_print`. -/
def printEach (cur : Option Nat) : Jobs → C Unit
  | [] => return ()
  | e :: rest => do
    jobsPrintOne .listing e (if cur = some e.jid then .plus else .minus)
      (if e.job.state = .stopped then .stopped else .running)
    printEach cur rest

/-- `jobs_print`. -/
def jobsPrint : C Unit := do
  let js ← load
  printEach (js.current.map Entry.jid) js

/-- The loop of `jobs_kill_all`. -/
def killEach : Jobs → C Unit
  | [] => return ()
  | e :: rest => do
    kill e.job.pgid .kill
    killEach rest

/-- `jobs_kill_all`. -/
def jobsKillAll : C Unit := do
  let js ← load
  killEach js
  store fun _ => []

/-! ## `exec.c` -/

/-- The `fork` loop of `exec_job`; its state is `i`, `pgid` and `*proto`. -/
def forkLoop (call : Nat) (proto : Job) : C (Nat × Job) :=
  iter (fun (i, pgid, proto) => do
    if proto.ncmds ≤ i then return .inr (pgid, proto)
    match ← fork pgid call with
    | none =>
      complain "fork"
      return .inr (pgid, proto)
    | some pid => return .inl (i + 1, if pgid = 0 then pid else pgid, started proto i pid))
    (0, 0, proto)

/-- The end of `exec_job` and of `do_fg`: the job has the terminal until it stops or ends. -/
def waitAndRemove (jid : Nat) : C Unit := do
  jobsWaitFg jid
  giveTerminal none
  let e ← deref jid
  if e.job.state = .done then jobsRemove jid

/-- `exec_job` after the `fork` loop. -/
def trackJob (call pgid : Nat) (proto : Job) : C Unit := do
  if proto.nlive = 0 then return ()
  match ← jobsAdd { proto with pgid := pgid } call with
  | none => complain "yash: too many jobs\n"
  | some jid =>
    let e ← deref jid
    if e.job.background then return ()
    giveTerminal (some e.job.pgid)
    waitAndRemove jid

/-- `launch_job`. -/
def launchJob (call : Nat) (proto : Job) : C Unit := do
  let (pgid, proto) ← forkLoop call proto
  trackJob call pgid proto

/-- `exec_job`. -/
def execJob (call : Nat) (proto : Job) : C Unit := do
  if proto.ncmds = 2 then
    if ← pipe then launchJob call proto
    else complain "pipe"
  else launchJob call proto

/-! ## `builtins.c` -/

/-- `do_fg`. -/
def doFg : C Unit := do
  let js ← load
  match js.current with
  | none => return ()
  | some e => do
    let jid := e.jid
    print (e.job.cmdline ++ [nl])
    modifyJob jid fun j => { j with background := false }
    giveTerminal (some e.job.pgid)
    let e ← deref jid
    if e.job.state = .stopped then kill e.job.pgid .cont
    modifyJob jid fun j => { j with state := .running }
    waitAndRemove jid

/-- `do_bg`. -/
def doBg : C Unit := do
  let js ← load
  match js.recentStopped with
  | none => return ()
  | some e => do
    let jid := e.jid
    kill e.job.pgid .cont
    modifyJob jid fun j => { j with state := .running, background := true }
    let e ← deref jid
    jobsPrintOne .bg e .plus .running

/-- `builtin_try`; `true` if the line was a builtin. -/
def builtinTry (job : Job) : C Bool := do
  if job.ncmds ≠ 1 ∨ (job.cmds.head?.map Cmd.argc) = some 0 then return false
  if Yashd.Code.name job = some (str "jobs") then
    jobsPrint
    return true
  if Yashd.Code.name job = some (str "fg") then
    doFg
    return true
  if Yashd.Code.name job = some (str "bg") then
    doBg
    return true
  return false

/-! ## `main.c` -/

/-- `line[strcspn(line, "\n")] = '\0'`, as the string it leaves. -/
def trim (line : List Byte) : List Byte := (cstr line).takeWhile (· ≠ nl)

/-- What `main` does with a line. -/
def serve (call : Nat) (line : List Byte) : C Unit := do
  match ← parse (trim line) with
  | .ok job =>
    if ← builtinTry job then return ()
    execJob call job
  | _ => return ()

/-- One turn of the loop of `main`; the loop state is the number of the next call of `exec_job`. -/
def turnMain (call : Nat) : C (Nat ⊕ Unit) := do
  jobsReap
  prompt
  match ← fgets with
  | .eof => return .inr ()
  | .error =>
    print [nl]
    return .inl call
  | .line line =>
    serve call line
    return .inl (call + 1)

/-- `main`. -/
def main : C Unit := do
  iter turnMain 0
  print [nl]
  jobsKillAll

end Code

end SystemProg.Yash
