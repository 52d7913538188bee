import SystemProg.Conc.Runs
import SystemProg.Yashd.Client
import SystemProg.Yashd.Endings

/-!
# Messages for a running command

What a session does with the messages in its buffer while a job is in the foreground: `handle_ctl`,
`handle_text`, `dispatch_running` and the loop of `session_pump` (`server/src/session.c:162-282`),
run without interruption under given answers of the kernel. None of these calls blocks but the
`write` to the job's stdin.

* `typed_line_delivered`: when a typed line reaches the job's stdin as it was typed.
* `eof_messages_only_close`: when `CTL d` messages only close the job's stdin.
-/

namespace SystemProg.Yashd

open Text Shell Conc Data Conc.Prog List

variable {sid jid fd : Nat} {answer : Op → Choice} {w w₁ w' : World} {j : Job} {α : Type} {a : α}

/-- Code of session `sid`, run without interruption. -/
abbrev Does (sid : Nat) (answer : Op → Choice) {α : Type} (p : Code.C α) (w : World) (a : α)
    (w' : World) : Prop :=
  Runs (S := sys) (fun o => exec sid (answer o) o) p w a w'

/-- A step under the answers is a step under one of them. -/
theorem step_answer {p p' : Code.C α}
    (h : p.step (S := sys) (fun o => exec sid (answer o) o) w = some (p', w')) :
    ∃ ch, p.step (S := sys) (exec sid ch) w = some (p', w') := by
  cases p with
  | ret a => exact absurd h (by simp [Prog.step])
  | call o k => exact ⟨answer o, h⟩
  | loop body s k => exact ⟨.go, h⟩

theorem System.run_of_does {S : System} {p : Code.C α} {k : α → Code.C Unit}
    (ht : S.thread sid = some (p.bind k)) (h : Does sid answer p S.world a w') :
    ∃ evs, S.run evs = some (({ S with world := w' }).setThread sid (k a)) := by
  generalize hw : S.world = w at h
  induction h generalizing S with
  | ret a w =>
    subst hw
    exact ⟨[], congrArg some (System.setThread_eq_self ht).symm⟩
  | @step p p₁ w w₁ w' a hstep _ ih =>
    subst hw
    obtain ⟨ch, hch⟩ := step_answer hstep
    obtain ⟨evs, hevs⟩ := ih (S := ({ S with world := w₁ }).setThread sid (p₁.bind k))
      (System.setThread_self _ _ _) rfl
    rw [System.setThread_setThread] at hevs
    exact ⟨.run sid ch :: evs, (System.run_cons (System.step_run ht (step_bind k hch))).trans hevs⟩

/-- A turn of a loop is a run of the daemon, after which the loop goes on. -/
theorem System.run_of_turn {S : System} {σ β : Type} {body : σ → Code.C (σ ⊕ β)} {s s' : σ}
    {k : β → Code.C Unit} (ht : S.thread sid = some ((iter body s).bind k))
    (h : Does sid answer (body s) S.world (.inl s') w') :
    ∃ evs, S.run evs = some (({ S with world := w' }).setThread sid ((iter body s').bind k)) := by
  obtain ⟨evs, hevs⟩ := System.run_of_does (S := S.setThread sid ((body s).bind (turn body k)))
    (System.setThread_self _ _ _) h
  rw [System.setThread_setThread] at hevs
  exact ⟨.run sid .go :: evs, (System.run_cons (System.step_run ht rfl)).trans hevs⟩

/-! ## The handlers -/

/-- The foreground job of a session. -/
structure Fg (w : World) (sid jid : Nat) (j : Job) : Prop where
  fg : (w.mem sid).fgJob = some jid
  job : (w.mem sid).job? jid = some j

theorem mem_setSess (w : World) (x : Sess) : (w.setSess sid x).mem sid = x.mem :=
  congrArg Sess.mem (sess_setSess_self x)

theorem does_load {f : Session → Code.C α} (h : Does sid answer (f (w.mem sid)) w a w') :
    Does sid answer (Code.load >>= f) w a w' := runs_call rfl h

theorem does_deref {f : Job → Code.C α} (hj : (w.mem sid).job? jid = some j)
    (h : Does sid answer (f j) w a w') : Does sid answer (Code.deref jid >>= f) w a w' := by
  refine runs_bind (does_load ?_) h
  rw [hj]
  exact runs_pure j w

theorem does_modifyJob {f : Job → Job} (hj : (w.mem sid).job? jid = some j) :
    Does sid answer (Code.modifyJob jid f) w () (w.setMem sid (·.setJob jid f)) :=
  does_deref hj (runs_perform rfl)

/-- `close(j->infd)`, `j->infd = -1`. -/
def World.closeInfd (w : World) (sid jid fd : Nat) : World :=
  World.setMem sid { w with fds := w.fds.erase fd } (·.setJob jid fun j => { j with infd := none })

theorem does_closeInfd (hj : (w.mem sid).job? jid = some j) (fd : Nat) :
    Does sid answer (do Code.close fd; Code.modifyJob jid fun j => { j with infd := none }) w ()
      (w.closeInfd sid jid fd) :=
  runs_call rfl (does_modifyJob (w := { w with fds := w.fds.erase fd }) hj)

/-- What `CTL d` does while `j` is in the foreground. -/
def World.eof (w : World) (sid jid : Nat) (j : Job) : World :=
  match j.infd with
  | none => w.setSess sid ((w.sess sid).quit .ctl)
  | some fd => w.closeInfd sid jid fd

theorem does_handleCtl_eof (h : Fg w sid jid j) (rest : List Byte) :
    Does sid answer (Code.handleCtl (ctlEof :: rest)) w () (w.eof sid jid j) := by
  refine does_load ?_
  simp only [head?_cons, h.fg]
  refine does_deref h.job ?_
  unfold World.eof
  cases j.infd with
  | none => exact runs_perform rfl
  | some fd => exact does_closeInfd h.job fd

/-- The bytes still in a session's input buffer. -/
def World.unread (w : World) (sid : Nat) : List Byte := (w.mem sid).input.inbuf.bytes

/-- A control message puts nothing into a pipe, and takes nothing from the buffer. -/
theorem does_handleCtl (answer : Op → Choice) (h : Fg w sid jid j) (arg : List Byte) :
    ∃ w', Does sid answer (Code.handleCtl arg) w () w' ∧ w'.piped = w.piped ∧
      w'.unread sid = w.unread sid := by
  have hkill : ∀ sig, Does sid answer (do let j ← Code.deref jid; Code.kill j.pgid sig) w ()
      (w.kill j.pgid sig) := fun sig => does_deref h.job (runs_perform rfl)
  cases arg with
  | nil => exact ⟨w, does_load (runs_pure () w), rfl, rfl⟩
  | cons c rest =>
    by_cases hd : c = ctlEof
    · subst hd
      refine ⟨_, does_handleCtl_eof h rest, ?_⟩
      unfold World.eof World.unread
      split
      · rw [mem_setSess]
        exact ⟨rfl, rfl⟩
      · rw [World.closeInfd, World.setMem, mem_setSess]
        exact ⟨rfl, rfl⟩
    · by_cases hint : c = ctlInt
      · refine ⟨w.kill j.pgid .int, does_load ?_, rfl, rfl⟩
        simp only [head?_cons, if_pos hint, h.fg]
        exact hkill .int
      by_cases hstop : c = ctlStop
      · refine ⟨w.kill j.pgid .tstp, does_load ?_, rfl, rfl⟩
        simp only [head?_cons, if_neg hint, if_pos hstop, h.fg]
        exact hkill .tstp
      · refine ⟨w, does_load ?_, rfl, rfl⟩
        simp only [head?_cons, if_neg hint, if_neg hstop, if_neg hd]
        exact runs_pure () w

/-- Exactly `bs` has gone into the pipe, no signal has been sent, no descriptor closed and `quit`
not set. -/
structure Delivered (sid fd : Nat) (bs : List Byte) (w w' : World) : Prop where
  piped : w'.piped = (w.feed fd bs).piped
  signals : w'.signals = w.signals
  fds : w'.fds = w.fds
  quit : (w'.mem sid).quit = (w.mem sid).quit

theorem feed_feed (w : World) (fd : Nat) (a b : List Byte) :
    (w.feed fd a).feed fd b = w.feed fd (a ++ b) := by
  unfold World.feed
  congr 1
  funext i
  by_cases hi : i = fd <;> simp [hi]

theorem not_delivered {bs bs' : List Byte} (h : w'.piped = (w.feed fd bs').piped)
    (hlt : bs'.length < bs.length) : ¬ Delivered sid fd bs w w' := by
  intro hd
  have := congrArg List.length (congrFun (h.symm.trans hd.piped) fd)
  simp only [World.feed, if_true, length_append] at this
  omega

theorem feed_nil (w : World) (fd : Nat) : (w.feed fd []).piped = w.piped := by
  funext i
  simp [World.feed]

/-- A `write` that does not block. -/
def Choice.Returns (ch : Choice) : Prop := ch = .go ∨ ch = .eintr ∨ ch = .error

theorem writePipe_cases (sid : Nat) {ch : Choice} (hch : ch.Returns) (fd : Nat) (bs : List Byte)
    (w : World) :
    (ch = .go ∧ exec sid ch (.writePipe fd bs) w = some (true, w.feed fd bs)) ∨
      (ch ≠ .go ∧ ∃ e, exec sid ch (.writePipe fd bs) w = some (false, w.setErrno sid e)) := by
  rcases hch with rfl | rfl | rfl
  · exact .inl ⟨rfl, rfl⟩
  · exact .inr ⟨by decide, _, rfl⟩
  · exact .inr ⟨by decide, _, rfl⟩

/-- After a failed `write` the job's stdin is closed. -/
theorem does_closeInfd_errno (hj : (w.mem sid).job? jid = some j) (fd : Nat) (e : Errno) :
    Does sid answer (do Code.close fd; Code.modifyJob jid fun j => { j with infd := none })
      (w.setErrno sid e) () ((w.setErrno sid e).closeInfd sid jid fd) := by
  refine does_closeInfd (j := j) ?_ fd
  rw [World.setErrno, World.setMem, mem_setSess]
  exact hj

theorem unread_closeInfd (w : World) (e : Errno) (fd : Nat) :
    ((w.setErrno sid e).closeInfd sid jid fd).unread sid = w.unread sid := by
  simp [World.unread, World.closeInfd, World.setErrno, World.setMem, World.mem, World.setSess,
    Session.setJob]

/-- `handle_text` delivers the line if both its calls of `write` succeed. -/
theorem does_handleText (h : Fg w sid jid j) (hinfd : j.infd = some fd)
    (hans : ∀ bs, (answer (.writePipe fd bs)).Returns) (line : List Byte) :
    ∃ w', Does sid answer (Code.handleText line) w () w' ∧ w'.unread sid = w.unread sid ∧
      (Delivered sid fd (line ++ [nl]) w w' ↔
        answer (.writePipe fd line) = .go ∧ answer (.writePipe fd [nl]) = .go) := by
  have hfail : line.length < (line ++ [nl]).length := by simp
  have start : ∀ w', Does sid answer (do
      let ok ← Code.writePipe fd line
      let ok ← if ok then Code.writePipe fd [nl] else pure false
      if !ok then
        Code.close fd
        Code.modifyJob jid fun j => { j with infd := none }) w () w' →
      Does sid answer (Code.handleText line) w () w' := by
    intro w' hrun
    refine does_load ?_
    simp only [h.fg]
    refine does_deref h.job ?_
    simp only [hinfd]
    exact hrun
  rcases writePipe_cases sid (hans line) fd line w with ⟨hgo, hx⟩ | ⟨hno, e, hx⟩
  · rcases writePipe_cases sid (hans [nl]) fd [nl] (w.feed fd line) with
      ⟨hgo', hx'⟩ | ⟨hno, e, hx'⟩
    · refine ⟨_, start _ (runs_call hx (runs_call hx' (runs_pure () _))), rfl, ?_⟩
      rw [feed_feed]
      exact iff_of_true ⟨rfl, rfl, rfl, rfl⟩ ⟨hgo, hgo'⟩
    · refine ⟨_, start _ (runs_call hx (runs_call hx'
        (does_closeInfd_errno (w := w.feed fd line) h.job fd e))), unread_closeInfd _ e fd, ?_⟩
      exact iff_of_false (not_delivered rfl hfail) fun hg => hno hg.2
  · refine ⟨_, start _ (runs_call hx (does_closeInfd_errno h.job fd e)), unread_closeInfd w e fd,
      ?_⟩
    exact iff_of_false (not_delivered (feed_nil w fd).symm (by simp)) fun hg => hno hg.1

/-! ## The loop -/

theorem does_drain_nil (h : nl ∉ w.unread sid) : Does sid answer Code.drain w () w := by
  have hx : exec sid (answer (.takeLine .pump)) (.takeLine .pump) w = some (none, w) := by
    simp only [exec, World.takeLine, bufTakeLine_eq_none.mpr h]
    rfl
  exact runs_iter_done (runs_call hx (runs_pure _ w))

/-- A session that has taken a line. -/
structure Popped (sid : Nat) (line rest : List Byte) (w w₁ : World) : Prop where
  world : ∃ b : InBuf, b.bytes = rest ∧ w₁ = w.setSess sid ((w.sess sid).take .pump line b)

theorem does_drain_cons (answer : Op → Choice) {line rest : List Byte} (hline : nl ∉ line)
    (hcr : stripCr line = line) (hbuf : w.unread sid = line ++ nl :: rest) :
    ∃ w₁, Popped sid line rest w w₁ ∧
      ∀ w₂, Does sid answer (Code.dispatchRunning line) w₁ () w₂ →
      (∀ w', Does sid answer Code.drain w₂ () w' → Does sid answer Code.drain w () w') ∧
      ∀ (S : System) k, S.world = w → S.thread sid = some (Code.drain.bind k) →
        ∃ evs, S.run evs =
          some (({ S with world := w₂ }).setThread sid (Code.drain.bind k)) := by
  obtain ⟨b, htake, hb⟩ := bufTakeLine_eq_some le_rfl hline hbuf
  rw [hcr] at htake
  have hx : exec sid (answer (.takeLine .pump)) (.takeLine .pump) w =
      some (some line, w.setSess sid ((w.sess sid).take .pump line b)) := by
    simp only [exec, World.takeLine, htake]
    rfl
  refine ⟨_, ⟨b, hb, rfl⟩, fun w₂ hd => ?_⟩
  obtain ⟨body, hdrain, hturn⟩ : ∃ body : Unit → Code.C (Unit ⊕ Unit), Code.drain = iter body () ∧
      Does sid answer (body ()) w (.inl ()) w₂ :=
    ⟨_, rfl, runs_bind (runs_perform hx) (runs_bind hd (runs_pure (Sum.inl ()) w₂))⟩
  rw [hdrain]
  exact ⟨fun w' hrest => runs_iter_next hturn hrest,
    fun S k hS ht => System.run_of_turn ht (hS ▸ hturn)⟩

theorem Popped.mem {line rest : List Byte} (h : Popped sid line rest w w₁) :
    (w₁.mem sid).fgJob = (w.mem sid).fgJob ∧ (w₁.mem sid).jobs = (w.mem sid).jobs ∧
      (w₁.mem sid).quit = (w.mem sid).quit ∧ w₁.unread sid = rest := by
  obtain ⟨b, hb, rfl⟩ := h.world
  rw [World.unread, mem_setSess]
  exact ⟨rfl, rfl, rfl, hb⟩

theorem Popped.fg {line rest : List Byte} (h : Popped sid line rest w w₁) (hfg : Fg w sid jid j) :
    Fg w₁ sid jid j := by
  obtain ⟨hf, hj, -, -⟩ := h.mem
  refine ⟨hf.trans hfg.fg, ?_⟩
  rw [Session.job?, hj]
  exact hfg.job

theorem Popped.delivered_iff {line rest bs : List Byte} (h : Popped sid line rest w w₁) :
    Delivered sid fd bs w₁ w' ↔ Delivered sid fd bs w w' := by
  have hquit := h.mem.2.2.1
  obtain ⟨b, hb, rfl⟩ := h.world
  constructor
  · rintro ⟨hp, hs, hf, hq⟩
    exact ⟨hp, hs, hf, hq.trans hquit⟩
  · rintro ⟨hp, hs, hf, hq⟩
    exact ⟨hp, hs, hf, hq.trans hquit.symm⟩

/-! ## Typed lines -/

/-- The bytes the client sends for a line typed while its prompt flag is 0. -/
theorem sendLine_running {c : Client} {L : List Byte} (hflag : c.prompt = false)
    (hlen : L.length ≤ 4000) (hnl : nl ∉ L) (hnul : 0 ∉ L) (hcr : L.getLast? ≠ some cr) :
    ((c.sendLine L).2.flatMap fun s => s.msg.bytes) = L ++ [nl] := by
  have htyped : (⟨.text, L⟩ : Msg).Typed := ⟨hlen.trans (by decide), hnl, hnul, hcr⟩
  have hsend : (c.sendLine L).2 = [⟨false, .text, L⟩] := by
    rw [Client.sendLine, hflag]
    rfl
  rw [hsend, flatMap_singleton]
  exact htyped.bytes_of_fits (hlen.trans (by decide))

/-- **Typed input.** A line of at most 4000 characters is typed while the client's flag is 0, and is
in the buffer of a session that has a job in the foreground with its `infd` open; more may follow
it. `session_pump` appends exactly that line and a newline to the job's stdin, sends no signal,
closes nothing and does not set `quit`, before it looks at what follows, if and only if the line
does not begin with `"CTL "` and the two calls of `write` succeed. -/
theorem typed_line_delivered {S : System} {k : Unit → Code.C Unit} {c : Client}
    {L rest : List Byte} (answer : Op → Choice) (hlen : L.length ≤ 4000) (hnl : nl ∉ L)
    (hnul : 0 ∉ L) (hcr : L.getLast? ≠ some cr) (hflag : c.prompt = false)
    (ht : S.thread sid = some (Code.drain.bind k)) (hfg : Fg S.world sid jid j)
    (hinfd : j.infd = some fd)
    (hbuf : S.world.unread sid = ((c.sendLine L).2.flatMap fun s => s.msg.bytes) ++ rest)
    (hans : ∀ bs, (answer (.writePipe fd bs)).Returns) :
    ∃ w', w'.unread sid = rest ∧
      (∃ evs, S.run evs = some (({ S with world := w' }).setThread sid (Code.drain.bind k))) ∧
      (nl ∉ rest → Does sid answer Code.drain S.world () w' ∧
        ∃ evs, S.run evs = some (({ S with world := w' }).setThread sid (k ()))) ∧
      (Delivered sid fd (L ++ [nl]) S.world w' ↔ L.take msgPrefixLen ≠ msgCtl ∧
        answer (.writePipe fd L) = .go ∧ answer (.writePipe fd [nl]) = .go) := by
  rw [sendLine_running hflag hlen hnl hnul hcr, append_assoc] at hbuf
  obtain ⟨w₁, hpop, hdrain⟩ := does_drain_cons answer hnl (if_neg hcr) hbuf
  have hall {w₂ : World} (hrun : Does sid answer (Code.dispatchRunning L) w₁ () w₂)
      (hun : w₂.unread sid = rest) (hrest : nl ∉ rest) :
      Does sid answer Code.drain S.world () w₂ :=
    (hdrain w₂ hrun).1 w₂ (does_drain_nil (hun ▸ hrest))
  have hstr := cstr_of_not_mem hnul
  by_cases hctl : L.take msgPrefixLen = msgCtl
  · obtain ⟨w₂, hdoes, hpiped, hun⟩ := does_handleCtl answer (hpop.fg hfg)
      (L.drop msgPrefixLen)
    have hrun : Does sid answer (Code.dispatchRunning L) w₁ () w₂ := by
      rw [Code.dispatchRunning, hstr]
      exact (if_pos hctl).symm ▸ hdoes
    have hun := hun.trans hpop.mem.2.2.2
    refine ⟨w₂, hun, (hdrain w₂ hrun).2 S k rfl ht, fun hrest => ⟨hall hrun hun hrest,
      System.run_of_does ht (hall hrun hun hrest)⟩, iff_of_false ?_ fun h => h.1 hctl⟩
    rw [← hpop.delivered_iff]
    exact not_delivered (hpiped.trans (feed_nil w₁ fd).symm) (by simp)
  · obtain ⟨w₂, hdoes, hun, hiff⟩ := does_handleText (hpop.fg hfg) hinfd hans L
    have hrun : Does sid answer (Code.dispatchRunning L) w₁ () w₂ := by
      rw [Code.dispatchRunning, hstr]
      exact (if_neg hctl).symm ▸ hdoes
    have hun := hun.trans hpop.mem.2.2.2
    refine ⟨w₂, hun, (hdrain w₂ hrun).2 S k rfl ht, fun hrest => ⟨hall hrun hun hrest,
      System.run_of_does ht (hall hrun hun hrest)⟩, ?_⟩
    rw [← hpop.delivered_iff, hiff]
    exact (and_iff_right hctl).symm

/-- `cat` is in the foreground, `msgs` is in the buffer, and `session_pump` is about to look at
it. -/
def catRun (msgs : List Byte) : List Event :=
  [.accept 0, .peerSend 0 (str "CMD cat\n" ++ msgs)] ++ steps 0 12 (.upTo 4095) ++
    [.run 0 (.fds 3 4), .run 0 .go, .run 0 (.pid 7)] ++ steps 0 10 .go

/-- A client whose flag is 0. -/
def Client.running : Client := { Client.start with prompt := false }

theorem typed_line_delivered_hi : ∃ S w' evs p, Reachable S ∧
    S.run evs = some (({ S with world := w' }).setThread 0 p) ∧
      Delivered 0 4 (str "hi\n") S.world w' ∧ w'.unread 0 = str "CTL d\n" := by
  have hrun : (System.init.run (catRun (str "hi\nCTL d\n"))).isSome := by decide +kernel
  have ht : ((System.init.run (catRun (str "hi\nCTL d\n"))).get hrun).thread 0 =
    some (Code.drain.bind _) := rfl
  have hfg : Fg ((System.init.run (catRun (str "hi\nCTL d\n"))).get hrun).world 0 1 _ := ⟨rfl, rfl⟩
  obtain ⟨w', hrest, ⟨evs, hevs⟩, -, hiff⟩ := typed_line_delivered (c := Client.running)
    (L := str "hi") (fun _ => .go) (by decide) (by decide) (by decide) (by decide) rfl ht hfg rfl
    rfl fun _ => .inl rfl
  exact ⟨_, w', evs, _, reachable_get hrun, hevs, hiff.mpr ⟨by decide, rfl, rfl⟩, hrest⟩

/-- The line `CTL d`, typed into `cat`, is taken while the job reads its input, and closes it. -/
theorem typed_ctl_closes_input :
    ∃ S, Reachable S ∧
      (S.world.sess 0).heard = str "CMD cat\n" ++
        ((Client.running.sendLine (str "CTL d")).2.flatMap fun s => s.msg.bytes) ∧
      (S.world.sess 0).taken.getLast? = some ⟨.pump, str "CTL d", 3, true⟩ ∧
      S.world.unread 0 = [] ∧ S.world.piped 4 = [] ∧ 4 ∉ S.world.fds := by
  have hrun : (System.init.run (catRun (str "CTL d\n") ++ steps 0 9 .go)).isSome := by
    decide +kernel
  refine ⟨_, reachable_get hrun, rfl, rfl, rfl, rfl, ?_⟩
  have hfds :
      ((System.init.run (catRun (str "CTL d\n") ++ steps 0 9 .go)).get hrun).world.fds = [] := rfl
  rw [hfds]
  exact not_mem_nil

/-! ## End of file -/

/-- Ctrl-d. -/
def eofLine : List Byte := str "CTL d"

/-- `n` messages `CTL d`. -/
def eofs : Nat → List Byte
  | 0 => []
  | n + 1 => eofLine ++ nl :: eofs n

/-- No `quit` has been set, and nothing has been done but to close the `infd` of the job. -/
structure OnlyCloses (sid jid : Nat) (j : Job) (w w' : World) : Prop where
  ended : (w'.sess sid).ended = (w.sess sid).ended
  quit : (w'.mem sid).quit = (w.mem sid).quit
  fg : (w'.mem sid).fgJob = (w.mem sid).fgJob
  procs : w'.procs = w.procs
  signals : w'.signals = w.signals
  piped : w'.piped = w.piped
  infd : (w'.mem sid).jobs = (w.mem sid).jobs ∧ w'.fds = w.fds ∨
    ∃ fd, j.infd = some fd ∧ w'.fds = w.fds.erase fd ∧
      (w'.mem sid).jobs = update Job.jid (w.mem sid).jobs jid fun j => { j with infd := none }

theorem OnlyCloses.refl (sid jid : Nat) (j : Job) (w : World) : OnlyCloses sid jid j w w :=
  ⟨rfl, rfl, rfl, rfl, rfl, rfl, .inl ⟨rfl, rfl⟩⟩

theorem does_dispatch_eof (h : Fg w sid jid j) :
    Does sid answer (Code.dispatchRunning eofLine) w () (w.eof sid jid j) :=
  does_handleCtl_eof h []

theorem sess_eof_none (w : World) (sid jid : Nat) (hinfd : j.infd = none) :
    (w.eof sid jid j).sess sid = (w.sess sid).quit .ctl := by
  rw [World.eof, hinfd]
  exact sess_setSess_self _

theorem sess_eof_some (w : World) (sid jid : Nat) (hinfd : j.infd = some fd) :
    (w.eof sid jid j).sess sid =
      { w.sess sid with mem := (w.mem sid).setJob jid fun j => { j with infd := none } } := by
  rw [World.eof, hinfd]
  exact sess_setSess_self _

theorem Popped.ended {line rest : List Byte} (h : Popped sid line rest w w₁) :
    (w₁.sess sid).ended = (w.sess sid).ended := by
  obtain ⟨b, -, rfl⟩ := h.world
  rw [sess_setSess_self]
  rfl

theorem Popped.onlyCloses {line rest : List Byte} (h : Popped sid line rest w w₁)
    (hinfd : j.infd = some fd) : OnlyCloses sid jid j w (w₁.eof sid jid j) := by
  obtain ⟨hfg, hjobs, hquit, -⟩ := h.mem
  have hsess := sess_eof_some w₁ sid jid hinfd
  have heof : w₁.eof sid jid j = w₁.closeInfd sid jid fd := by rw [World.eof, hinfd]
  have hended := h.ended
  have hmem : (w₁.eof sid jid j).mem sid =
      (w₁.mem sid).setJob jid fun j => { j with infd := none } := by rw [World.mem, hsess]
  obtain ⟨b, -, rfl⟩ := h.world
  refine ⟨by rw [hsess]; exact hended, by rw [hmem]; exact hquit, by rw [hmem]; exact hfg,
    by rw [heof]; rfl, by rw [heof]; rfl, by rw [heof]; rfl,
    .inr ⟨fd, hinfd, by rw [heof]; rfl, ?_⟩⟩
  rw [hmem, ← hjobs]
  rfl

theorem does_drain_eofs (answer : Op → Choice) {n : Nat} (hfg : Fg w sid jid j)
    (hinfd : j.infd = none)
    (hbuf : w.unread sid = eofs n) :
    ∃ w', Does sid answer Code.drain w () w' ∧
      (w'.sess sid).ended.length = (w.sess sid).ended.length + n ∧ (n = 0 → w' = w) := by
  induction n generalizing w with
  | zero => exact ⟨w, does_drain_nil (hbuf ▸ not_mem_nil), rfl, fun _ => rfl⟩
  | succ n ih =>
    obtain ⟨w₁, hpop, hdrain⟩ := does_drain_cons answer (show nl ∉ eofLine by decide)
      (by decide) hbuf
    have hfg₁ := hpop.fg hfg
    have hsess := sess_eof_none w₁ sid jid hinfd
    have hfg₂ : Fg (w₁.eof sid jid j) sid jid j :=
      ⟨by rw [World.mem, hsess]; exact hfg₁.fg, by rw [World.mem, hsess]; exact hfg₁.job⟩
    have hbuf₂ : (w₁.eof sid jid j).unread sid = eofs n := by
      rw [World.unread, World.mem, hsess]
      exact hpop.mem.2.2.2
    obtain ⟨w', hdoes, hlen, -⟩ := ih hfg₂ hbuf₂
    refine ⟨w', (hdrain _ (does_dispatch_eof hfg₁)).1 w' hdoes, ?_, fun h => by cases h⟩
    have hone : ((w₁.sess sid).quit .ctl).ended = (w₁.sess sid).ended ++ [_] := rfl
    rw [hlen, hsess, hone, hpop.ended, length_append, length_singleton]
    omega

/-- The first message closes the `infd`, if it is open; any other sets `quit`. -/
theorem does_drain_eofs_iff (answer : Op → Choice) {n : Nat} (hfg : Fg w sid jid j)
    (hbuf : w.unread sid = eofs n) :
    ∃ w', Does sid answer Code.drain w () w' ∧
      (OnlyCloses sid jid j w w' ↔ n = 0 ∨ (n = 1 ∧ j.infd ≠ none)) := by
  -- what sets `quit` is on record
  have hquit : ∀ w' m, (w'.sess sid).ended.length = (w.sess sid).ended.length + (m + 1) →
      ¬ OnlyCloses sid jid j w w' := by
    intro w' m hlen hc
    rw [hc.ended] at hlen
    omega
  cases hinfd : j.infd with
  | none =>
    obtain ⟨w', hdoes, hlen, hzero⟩ := does_drain_eofs answer hfg hinfd hbuf
    refine ⟨w', hdoes, ?_⟩
    cases n with
    | zero =>
      rw [hzero rfl]
      exact iff_of_true (.refl _ _ _ _) (.inl rfl)
    | succ m => exact iff_of_false (hquit w' m hlen) (by simp)
  | some fd =>
    cases n with
    | zero =>
      exact ⟨w, does_drain_nil (hbuf ▸ not_mem_nil), iff_of_true (.refl _ _ _ _) (.inl rfl)⟩
    | succ m =>
      obtain ⟨w₁, hpop, hdrain⟩ := does_drain_cons answer (show nl ∉ eofLine by decide)
        (by decide) hbuf
      have hfg₁ := hpop.fg hfg
      have hsess := sess_eof_some w₁ sid jid hinfd
      have hfg₂ : Fg (w₁.eof sid jid j) sid jid { j with infd := none } := by
        refine ⟨by rw [World.mem, hsess]; exact hfg₁.fg, ?_⟩
        rw [World.mem, hsess]
        exact lookup_update (fun _ => rfl) hfg₁.job
      have hbuf₂ : (w₁.eof sid jid j).unread sid = eofs m := by
        rw [World.unread, World.mem, hsess]
        exact hpop.mem.2.2.2
      obtain ⟨w', hdoes, hlen, hzero⟩ := does_drain_eofs answer hfg₂ rfl hbuf₂
      refine ⟨w', (hdrain _ (does_dispatch_eof hfg₁)).1 w' hdoes, ?_⟩
      cases m with
      | zero =>
        rw [hzero rfl]
        exact iff_of_true (hpop.onlyCloses hinfd) (.inr ⟨rfl, by simp⟩)
      | succ m =>
        refine iff_of_false (hquit w' m ?_) (by simp)
        rw [hlen, hsess, ← hpop.ended]

/-- **`CTL d` while a command runs.** In every reachable state: the `CTL d` messages that
`session_pump` has taken and handled have not set `quit`, if and only if each was taken while the
foreground job's `infd` was open. And when a session with a foreground job finds `n` such messages
in its buffer, `session_pump` sets no `quit` and only closes that `infd`, if and only if there are
none, or there is one and the `infd` is open. -/
theorem eof_messages_only_close {S : System} (h : Reachable S) (sid : Nat) :
    (S.Rests sid →
      ((∀ i t, (S.world.sess sid).taken[i]? = some t → t.site = .pump → isEof t.line = true →
        i ∉ (S.world.sess sid).ended) ↔
      ∀ t ∈ (S.world.sess sid).taken, t.site = .pump → isEof t.line = true → t.input = true)) ∧
    ∀ jid j n answer k, S.thread sid = some (Code.drain.bind k) → Fg S.world sid jid j →
      S.world.unread sid = eofs n →
      ∃ w', Does sid answer Code.drain S.world () w' ∧
        (∃ evs, S.run evs = some (({ S with world := w' }).setThread sid (k ()))) ∧
        (OnlyCloses sid jid j S.world w' ↔ n = 0 ∨ (n = 1 ∧ j.infd ≠ none)) := by
  refine ⟨fun hr => ?_, fun jid j n answer k ht hfg hbuf => ?_⟩
  · have ha := h.answered hr
    constructor
    · intro hnot t ht hsite heof
      obtain ⟨i, hi⟩ := getElem?_of_mem ht
      have hends := mt (ha.iff i t hi).mpr (hnot i t hi hsite heof)
      rw [Taken.ends, heof] at hends
      simpa using hends
    · intro hall i t hi hsite heof hmem
      have hends := (ha.iff i t hi).mp hmem
      rw [Taken.ends, hall t (mem_of_getElem? hi) hsite heof] at hends
      simp at hends
  · obtain ⟨w', hdoes, hiff⟩ := does_drain_eofs_iff answer hfg hbuf
    exact ⟨w', hdoes, System.run_of_does ht hdoes, hiff⟩

theorem eof_messages_only_close_cat :
    ∃ S w', Reachable S ∧ (S.world.mem 0).fgJob = some 1 ∧ S.world.unread 0 = str "CTL d\n" ∧
      Does 0 (fun _ => .go) Code.drain S.world () w' ∧ (w'.mem 0).quit = false := by
  have hrun : (System.init.run (catRun (str "CTL d\n"))).isSome := by decide +kernel
  have ht : ((System.init.run (catRun (str "CTL d\n"))).get hrun).thread 0 =
    some (Code.drain.bind _) := rfl
  have hfg : Fg ((System.init.run (catRun (str "CTL d\n"))).get hrun).world 0 1 _ := ⟨rfl, rfl⟩
  obtain ⟨w', hdoes, -, hiff⟩ := (eof_messages_only_close (reachable_get hrun) 0).2 1 _ 1
    (fun _ => .go) _ ht hfg rfl
  exact ⟨_, w', reachable_get hrun, rfl, rfl, hdoes, (hiff.mpr (.inr ⟨rfl, by simp⟩)).quit⟩

/-- A second `CTL d` ends the session of a `cat` that is still running. -/
theorem second_eof_sets_quit :
    ∃ S, Reachable S ∧ (S.world.mem 0).fgJob = some 1 ∧ (S.world.mem 0).quit = true ∧
      (S.world.sess 0).taken.map (fun t => (t.site, t.line)) =
        [(.readsocket, str "CMD cat"), (.pump, str "CTL d"), (.pump, str "CTL d")] ∧
      (S.world.sess 0).ended = [2] := by
  have hrun : (System.init.run (catRun (str "CTL d\nCTL d\n") ++ steps 0 14 .go)).isSome := by
    decide +kernel
  exact ⟨_, reachable_get hrun, rfl, rfl, rfl, rfl⟩

end SystemProg.Yashd
