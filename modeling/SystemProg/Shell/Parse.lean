import SystemProg.Text.CString
import Mathlib.Data.List.DropRight

/-!
# The shell's data model and `parse_line`

Model of `cmd_t` / `job_t` (`Project 1/yash/include/yash.h`,
`Project 2/yashd/server/include/yashd.h`) and of `parse_line` (`Project 1/yash/src/parse.c:61-167`).
Project 2 carries the parser over (`Project 2/yashd/server/src/parse.c:45-140`); its only change is
that it also sets the new field `infd` to `-1`, so one model serves both, with `infd` unused in
Project 1.

* A `char *` into `job->buf` is an offset into the list `buf`, and NULL is `none`. `argv` keeps its
  `YASH_MAX_ARGS + 1` slots, all NULL after the `memset`.
* The token loop (`parse.c:98-143`) is `parseLoop`: the list argument is `tokens[i..ntok)`, so the
  look-ahead `tokens[++i]` takes the second element and `i != ntok - 1` says that something follows.
  `none` is `return PARSE_ERROR`. The loop reads tokens through `buf`, which it never writes.
* `line` is the C string argument, without its NUL; `none` is a NULL pointer. `cmdline` is likewise
  the string held in the array of that name.
* No caller reads `*job` after a result other than `PARSE_OK`, so only that result carries the job.
-/

namespace SystemProg.Shell

open Text List

/-- `YASH_MAX_LINE`. -/
def yashMaxLine : Nat := 200
/-- `YASH_MAX_TOKENS`. -/
def yashMaxTokens : Nat := 128
/-- `YASH_MAX_ARGS`. -/
def yashMaxArgs : Nat := 64
/-- At most one pipe per line. -/
def yashMaxCmds : Nat := 2
/-- `YASH_MAX_JOBS`. -/
def yashMaxJobs : Nat := 20

/-- `job_state_t`. -/
inductive JobState where
  | running
  | stopped
  | done
  deriving Repr, DecidableEq

/-- `cmd_t`: one executable plus its redirections. `pid` is `0` before the fork (and, in Project 2,
again once the child is reaped). -/
structure Cmd where
  argv : List (Option Nat)
  argc : Nat
  infile : Option Nat
  outfile : Option Nat
  errfile : Option Nat
  pid : Nat
  deriving Repr, DecidableEq

/-- A `cmd_t` after `memset(job, 0, ...)`. -/
def Cmd.zero : Cmd := ⟨List.replicate (yashMaxArgs + 1) none, 0, none, none, none, 0⟩

/-- `job_t`: everything typed on one line. `infd` is Project 2's, `none` for `-1`. -/
structure Job where
  /-- An `int`: fewer than `2 ^ 31` jobs are created. -/
  jid : Nat
  pgid : Nat
  state : JobState
  background : Bool
  ncmds : Nat
  nlive : Nat
  infd : Option Nat
  cmds : List Cmd
  cmdline : List Byte
  buf : List Byte
  deriving Repr, DecidableEq

/-- The results of `parse_line`: `PARSE_OK`, `PARSE_EMPTY` and `PARSE_ERROR`. -/
inductive ParseResult where
  | ok (job : Job)
  | empty
  | error
  deriving Repr, DecidableEq

/-- The delimiters of `tokenize`: `" \t"`. -/
def isBlank (b : Byte) : Bool := b == 32 || b == 9

/-- `is_operator`. -/
def isOperator (tok : List Byte) : Bool :=
  tok == str "<" || tok == str ">" || tok == str "2>" || tok == str "|" || tok == str "&"

/-- The three `cmd_t` fields a redirection can fill. -/
inductive Slot where
  | infile
  | outfile
  | errfile
  deriving Repr, DecidableEq

/-- `redirect_slot`: the field `tok` redirects, `none` if it is not a redirection. -/
def redirectSlot (tok : List Byte) : Option Slot :=
  if tok = str "<" then some .infile
  else if tok = str ">" then some .outfile
  else if tok = str "2>" then some .errfile
  else none

/-- `*slot`. -/
def Cmd.get (c : Cmd) : Slot → Option Nat
  | .infile => c.infile
  | .outfile => c.outfile
  | .errfile => c.errfile

/-- `*slot = t`. -/
def Cmd.put (c : Cmd) (t : Nat) : Slot → Cmd
  | .infile => { c with infile := some t }
  | .outfile => { c with outfile := some t }
  | .errfile => { c with errfile := some t }

/-- `cur->argv[cur->argc++] = tok`. -/
def Cmd.addArg (c : Cmd) (t : Nat) : Cmd :=
  { c with argv := c.argv.set c.argc (some t), argc := c.argc + 1 }

/-- The variables of the token loop. -/
structure Scan where
  job : Job
  ci : Nat
  redirectSeen : Bool

/-- `cur = &job->cmds[ci]`. -/
def Scan.cur (st : Scan) : Cmd := st.job.cmds.getD st.ci Cmd.zero

/-- A write through `cur`. -/
def Scan.setCur (st : Scan) (c : Cmd) : Scan :=
  { st with job := { st.job with cmds := st.job.cmds.set st.ci c } }

/-- The token loop of `parse_line`. -/
def parseLoop (buf : List Byte) : List Nat → Scan → Option Scan
  | [], st => some st
  | t :: ts, st =>
    match redirectSlot (strAt buf t) with
    | some slot =>
      -- a redirection with no command, or the same direction twice
      if st.cur.argc = 0 then none
      else if (st.cur.get slot).isSome then none
      else
        match ts with
        | [] => none
        | u :: us =>
          if isOperator (strAt buf u) then none
          else parseLoop buf us { st.setCur (st.cur.put u slot) with redirectSeen := true }
    | none =>
      if strAt buf t = str "|" then
        if st.ci + 1 ≥ yashMaxCmds then none
        else if st.cur.argc = 0 then none
        else parseLoop buf ts { st with ci := st.ci + 1, redirectSeen := false }
      else if strAt buf t = str "&" then
        if ts ≠ [] then none
        else if st.ci ≠ 0 then none
        else parseLoop buf ts { st with job := { st.job with background := true } }
      else if st.redirectSeen then none
      else if st.cur.argc = yashMaxArgs then none
      else parseLoop buf ts (st.setCur (st.cur.addArg t))

/-- The characters trimmed off the end of a background line's `cmdline`. -/
def isTrailer (b : Byte) : Bool := b == 38 || b == 32 || b == 9

/-- `argv[argc] = NULL`. -/
def Cmd.terminate (c : Cmd) : Cmd := { c with argv := c.argv.set c.argc none }

/-- What follows the loop: the last command must have a word, a background line's `cmdline` loses
its `&`, and `ncmds` is set and each `argv` terminated. -/
def finishLine (st : Scan) : Option Job :=
  if st.cur.argc = 0 then none
  else
    let job := st.job
    let cmdline := if job.background then job.cmdline.rdropWhile isTrailer else job.cmdline
    let ncmds := st.ci + 1
    some { job with
      cmdline := cmdline
      ncmds := ncmds
      cmds := job.cmds.mapIdx fun i c => if i < ncmds then c.terminate else c }

/-- `*job` when the loop starts, with the buffer the tokenizer has left. -/
def freshJob (line buf : List Byte) : Job where
  jid := 0
  pgid := 0
  state := .running
  background := false
  ncmds := 0
  nlive := 0
  infd := none
  cmds := [Cmd.zero, Cmd.zero]
  cmdline := line
  buf := buf

/-- `strcpy(job->buf, line)` into the zeroed array. -/
def lineBuf (line : List Byte) : List Byte :=
  line ++ List.replicate (yashMaxLine + 1 - line.length) 0

/-- `parse_line`. -/
def parseLine : Option (List Byte) → ParseResult
  | none => .error
  | some line =>
    if yashMaxLine < line.length then .error
    else
      match tokenize isBlank (lineBuf line) 0 yashMaxTokens with
      | (none, _) => .error
      | (some [], _) => .empty
      | (some ts, buf) =>
        match (parseLoop buf ts ⟨freshJob line buf, 0, false⟩).bind finishLine with
        | none => .error
        | some job => .ok job

/-! ## What parsing leaves alone -/

/-- No command has been started, and `ci` is the index of one of the `cmd_t`s. -/
structure Scan.Unstarted (st : Scan) : Prop where
  pids : st.job.cmds.map Cmd.pid = [0, 0]
  nlive : st.job.nlive = 0
  state : st.job.state = .running
  ci : st.ci < yashMaxCmds

theorem Scan.Unstarted.setCur {st : Scan} (h : st.Unstarted) {c : Cmd} (hc : c.pid = st.cur.pid) :
    (st.setCur c).Unstarted := by
  refine ⟨?_, h.nlive, h.state, h.ci⟩
  rw [← h.pids]
  refine ext_getElem? fun i => ?_
  simp only [Scan.setCur, map_set, getElem?_set, length_map, getElem?_map]
  by_cases hi : st.ci = i
  · subst hi
    have hlen : st.ci < st.job.cmds.length := by
      have h2 := congrArg List.length h.pids
      rw [length_map] at h2
      rw [h2]
      exact h.ci
    simp [hlen, hc, Scan.cur]
  · simp [hi]

theorem parseLoop_unstarted {buf : List Byte} {ts : List Nat} {st st' : Scan} (h : st.Unstarted)
    (hp : parseLoop buf ts st = some st') : st'.Unstarted := by
  fun_induction parseLoop buf ts st with
  | case1 => cases hp; exact h
  | case6 t st slot _ _ _ u us _ ih =>
    obtain ⟨hpids, hn, hs, hci⟩ := h.setCur (c := st.cur.put u slot) (by cases slot <;> rfl)
    exact ih ⟨hpids, hn, hs, hci⟩ hp
  | case9 t ts st _ _ hci _ ih => exact ih ⟨h.pids, h.nlive, h.state, Nat.not_le.mp hci⟩ hp
  | case12 t ts st _ _ _ _ _ ih => exact ih ⟨h.pids, h.nlive, h.state, h.ci⟩ hp
  | case15 t ts st _ _ _ _ _ ih => exact ih (h.setCur rfl) hp
  | _ => exact absurd hp (by simp)

/-- How a line is accepted: it fits the buffer, and the token loop and what follows it succeed. -/
theorem parseLine_ok {line : List Byte} {job : Job} (h : parseLine (some line) = .ok job) :
    line.length ≤ yashMaxLine ∧ ∃ ts buf st,
      parseLoop buf ts ⟨freshJob line buf, 0, false⟩ = some st ∧ finishLine st = some job := by
  unfold parseLine at h
  dsimp only at h
  split at h
  · exact absurd h (by simp)
  · rename_i hlen
    split at h
    · exact absurd h (by simp)
    · exact absurd h (by simp)
    · split at h
      · exact absurd h (by simp)
      · rename_i hb
        cases h
        obtain ⟨st, hloop, hfin⟩ := Option.bind_eq_some_iff.mp hb
        exact ⟨Nat.not_lt.mp hlen, _, _, st, hloop, hfin⟩

/-- **An accepted line is a job none of whose commands has been started.** -/
theorem parseLine_unstarted {line : List Byte} {job : Job} (h : parseLine (some line) = .ok job) :
    job.cmds.map Cmd.pid = [0, 0] ∧ job.ncmds ≤ 2 ∧ job.nlive = 0 ∧ job.state = .running := by
  obtain ⟨-, ts, buf, st, hloop, hfin⟩ := parseLine_ok h
  obtain ⟨hpids, hn, hs, hci⟩ := parseLoop_unstarted ⟨rfl, rfl, rfl, Nat.zero_lt_two⟩ hloop
  unfold finishLine at hfin
  split at hfin
  · exact absurd hfin (by simp)
  · cases hfin
    refine ⟨?_, hci, hn, hs⟩
    rw [← hpids]
    refine ext_getElem? fun i => ?_
    simp only [getElem?_map, getElem?_mapIdx, Option.map_map]
    congr 1
    funext c
    simp only [Function.comp]
    split <;> rfl

theorem parseLoop_cmdline {buf : List Byte} {ts : List Nat} {st st' : Scan}
    (hp : parseLoop buf ts st = some st') : st'.job.cmdline = st.job.cmdline := by
  fun_induction parseLoop buf ts st with
  | case1 => cases hp; rfl
  | case6 t st slot _ _ _ u us _ ih => exact ih hp
  | case9 t ts st _ _ hci _ ih => exact ih hp
  | case12 t ts st _ _ _ _ _ ih => exact ih hp
  | case15 t ts st _ _ _ _ _ ih => exact ih hp
  | _ => exact absurd hp (by simp)

/-- The stored command line is the line typed, less the trailer of a background line. -/
theorem parseLine_cmdline {line : List Byte} {job : Job} (h : parseLine (some line) = .ok job) :
    job.cmdline = if job.background then line.rdropWhile isTrailer else line := by
  obtain ⟨-, ts, buf, st, hloop, hfin⟩ := parseLine_ok h
  have hc : st.job.cmdline = line := parseLoop_cmdline hloop
  unfold finishLine at hfin
  split at hfin
  · exact absurd hfin (by simp)
  · cases hfin
    rw [← hc]

end SystemProg.Shell
