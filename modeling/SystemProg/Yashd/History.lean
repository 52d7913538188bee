import SystemProg.Yashd.Client
import SystemProg.Yashd.Framing
import SystemProg.Yashd.Isolation
import SystemProg.Yashd.Talk

/-!
# What a session has heard and what it has done about it

The world keeps the history of every connection: the bytes the client has sent, the lines
`buf_take_line` has popped from them and for whom, and the command lines that went to the log. This
module relates the three, for any interleaving.

* `Reachable.talks`: whenever the session listens at its prompt it has written the prompt, has
  written something since the last line it took, and has run exactly the commands that
  `session_readsocket` returned. A line that `session_pump` took is never run.

Headline: `commands_of_messages`.
-/

namespace SystemProg.Yashd

open Text Shell Conc Data Conc.Logic List

/-! ## Commands -/

/-- The command lines a session has logged. -/
def World.commands (w : World) (sid : Nat) : List (List Byte) :=
  (w.logged.filter fun e => e.1 = sid).map Prod.snd

/-- The talk of a session. -/
def World.talk (w : World) (sid : Nat) : Talk :=
  ⟨(w.sess sid).taken, w.commands sid, (w.sess sid).shell⟩

variable {w w' : World} {sid i : Nat} {ch : Choice}

theorem commands_of_logged {cs : List (List Byte)}
    (h : w'.logged = w.logged ++ cs.map fun c => (sid, c)) :
    w'.commands i = w.commands i ++ if i = sid then cs else [] := by
  rw [World.commands, h, filter_append, map_append, World.commands]
  congr 1
  by_cases hi : i = sid
  · subst hi
    rw [filter_eq_self.mpr (by simp), if_pos rfl, map_map]
    exact map_id _
  · rw [filter_eq_nil_iff.mpr (by simpa using fun _ _ => Ne.symm hi), if_neg hi]
    rfl

theorem shell_append_shell (x : Sess) (bs : List Byte) :
    Sess.shell { x with sent := x.sent ++ bs.map fun b => (.shell, b) } = x.shell ++ bs := by
  simp [Sess.shell, filter_map, Function.comp_def]

theorem shell_append_child (x : Sess) (bs : List Byte) :
    Sess.shell { x with sent := x.sent ++ bs.map fun b => (.child, b) } = x.shell := by
  simp [Sess.shell, filter_map, Function.comp_def]

theorem talk_of_act {o : Op} {r : o.Res} (h : Sess.act o x r x') (cs : List (List Byte)) :
    Talk.act o ⟨x.taken, cs, x.shell⟩ r ⟨x'.taken, cs ++ o.logs, x'.shell⟩ := by
  have same : x'.taken = x.taken → x'.shell = x.shell →
      (⟨x'.taken, cs ++ [], x'.shell⟩ : Talk) = ⟨x.taken, cs, x.shell⟩ := by
    intro ht hs
    rw [ht, hs, append_nil]
  cases o with
  | load => exact same (by rw [h.2]) (by rw [h.2])
  | store f | quit site =>
    cases h
    exact same rfl rfl
  | takeLine site =>
    cases r with
    | none => exact same (by rw [h.2]) (by rw [h.2])
    | some line =>
      obtain ⟨b, -, rfl⟩ := h
      refine ⟨x.mem.fgInput, ?_⟩
      show Talk.mk _ (cs ++ []) _ = _
      rw [append_nil]
      rfl
  | fill site =>
    obtain ⟨cut, c, -, rfl⟩ := h
    exact same rfl rfl
  | write out bs =>
    cases r with
    | wrote n =>
      cases h
      show Talk.mk _ (cs ++ []) _ = _
      rw [append_nil, shell_append_shell]
    | fail e =>
      cases h
      exact same rfl rfl
  | log cmdline =>
    rcases h with rfl | ⟨e, rfl⟩
    · rfl
    · rfl
  | _ =>
    rcases h with rfl | ⟨e, rfl⟩
    · exact same rfl rfl
    · exact same rfl rfl

/-- An operation is part of its own session's conversation, and of no other's. -/
theorem exec_talk {o : Op} {r : o.Res} (h : exec sid ch o w = some (r, w')) :
    Talk.act o (w.talk sid) r (w'.talk sid) ∧ ∀ i, i ≠ sid → w'.talk i = w.talk i := by
  have hl := exec_local h
  refine ⟨?_, fun i hi => ?_⟩
  · have hcmds := commands_of_logged (i := sid) hl.logged
    rw [if_pos rfl] at hcmds
    rw [World.talk, World.talk, hcmds]
    exact talk_of_act hl.own _
  · have hcmds := commands_of_logged (i := i) hl.logged
    rw [if_neg hi, append_nil] at hcmds
    rw [World.talk, World.talk, hcmds, hl.others i hi]

/-- Whatever else happens to a connection is no part of the conversation. -/
theorem Sess.Env.talk (h : Sess.Env x x') : x'.taken = x.taken ∧ x'.shell = x.shell := by
  cases h with
  | output bs => exact ⟨rfl, shell_append_child x bs⟩
  | _ => exact ⟨rfl, rfl⟩

theorem env_talk {e : Event} (he : ∀ sid, e ≠ .accept sid) (i : Nat) :
    (w.env e).talk i = w.talk i := by
  have hlogged : (w.env e).logged = w.logged := by cases e <;> rfl
  obtain ⟨htaken, hshell⟩ := (World.env_sess (w := w) he i).talk
  rw [World.talk, World.talk, World.commands, World.commands, hlogged, htaken, hshell]

/-- Every session keeps to it. -/
structure System.Talks (S : System) : Prop where
  idle : ∀ sid, S.thread sid = none → S.world.commands sid = []
  threads : S.Meets Talk.pre Talk.act fun sid w => w.talk sid

theorem System.Talks.step {S S' : System} {e : Event} (h : S.Talks) (hstep : S.step e = some S') :
    S'.Talks := by
  refine ⟨fun i hi => ?_, h.threads.step hstep (fun sid ht => ⟨?_, fun i hi => ?_⟩)
    (fun sid ch o r w' _ hx => exec_talk hx) env_talk⟩
  · rcases System.step_cases hstep with ⟨sid, rfl, -, rfl⟩ |
      ⟨sid, ch, p, p', w', rfl, -, hp, rfl⟩ | ⟨he, rfl⟩
    · by_cases hs : i = sid
      · subst hs
        rw [System.setThread_self] at hi
        cases hi
      · exact h.idle i (System.setThread_of_ne _ _ hs ▸ hi)
    · by_cases hs : i = sid
      · subst hs
        rw [System.setThread_self] at hi
        cases hi
      · have hidle := h.idle i (System.setThread_of_ne _ _ hs ▸ hi)
        rcases Prog.step_cases hp with ⟨o, k, r, -, hx, -⟩ | rfl
        · exact (congrArg Talk.cmds ((exec_talk hx).2 i hs)).trans hidle
        · exact hidle
    · exact (congrArg Talk.cmds (env_talk he i)).trans (h.idle i hi)
  · -- nothing was logged for a session before there is one
    have : (S.world.setSess sid Sess.create).talk sid = ⟨[], [], []⟩ := by
      have hcmds : (S.world.setSess sid Sess.create).commands sid = [] := h.idle sid ht
      rw [World.talk, hcmds, sess_setSess_self]
      rfl
    rw [this]
    exact Code.talk_sessionMain
  · rw [World.talk, World.talk, show (S.world.setSess sid Sess.create).sess i = S.world.sess i from
      if_neg hi]
    rfl

/-- **Conversations, in any interleaving.** -/
theorem Reachable.talks {S : System} (h : Reachable S) : S.Talks :=
  h.induction ⟨fun _ _ => rfl, fun _ _ h => by cases h⟩ fun _ _ _ _ hS hstep => hS.step hstep

/-! ## Streams of commands -/

/-- The message for a command line. -/
def cmdMsg (c : List Byte) : Msg := ⟨.cmd, c⟩

/-- A command line a client may send: its message is a line of at most 4095 bytes, `parse_line`
accepts it, and it does not end the session. -/
structure Accepted (c : List Byte) : Prop where
  typed : (cmdMsg c).Typed
  short : (cmdMsg c).line.length ≤ 4095
  parse : ∃ job, parseLine (some c) = .ok job ∧ Code.name job ≠ some (str "quit")

/-- The bytes of a sequence of commands. -/
def cmdStream (cmds : List (List Byte)) : List Byte :=
  ((cmds.map cmdMsg).map Msg.line).flatMap fun l => l ++ [nl]

/-- The session is blocked in `session_readsocket` and has read everything sent to it. -/
structure System.Waits (S : System) (sid : Nat) : Prop where
  head : ∃ k, S.thread sid = some (.call (Op.fill .readsocket) k)
  pending : (S.world.sess sid).wire.pending = []

/-- A session that has been sent the commands `cmds`, has read them all, and waits at its prompt. -/
structure Served (S : System) (sid : Nat) (cmds : List (List Byte)) : Prop where
  reachable : Reachable S
  accepted : ∀ c ∈ cmds, Accepted c
  heard : (S.world.sess sid).heard = cmdStream cmds
  waits : S.Waits sid

variable {c : List Byte} {cmds : List (List Byte)} {S : System}

theorem Accepted.commandOf (h : Accepted c) : commandOf (cmdMsg c).line = some c := by
  obtain ⟨job, hjob, -⟩ := h.parse
  have hnul : 0 ∉ (cmdMsg c).line := by
    rw [Msg.line, mem_append]
    exact fun hm => hm.elim (show 0 ∉ msgCmd by decide) h.typed.nul
  have hdrop : (cmdMsg c).line.drop msgPrefixLen = c := rfl
  simp only [Yashd.commandOf, cstr_of_not_mem hnul, hdrop, hjob]
  exact if_pos rfl

theorem typed_of_accepted (h : ∀ c ∈ cmds, Accepted c) : ∀ m ∈ cmds.map cmdMsg, m.Typed := by
  intro m hm
  obtain ⟨c, hc, rfl⟩ := mem_map.mp hm
  exact (h c hc).typed

theorem Served.brief (h : Served S sid cmds) : Brief (S.world.sess sid).heard := by
  obtain ⟨hlines, hlast⟩ := frames_of_typed (typed_of_accepted h.accepted)
  rw [h.heard, cmdStream]
  refine ⟨fun r hr => ?_, by rw [ShortEnd, hlast]; decide⟩
  rw [hlines, map_map] at hr
  obtain ⟨c, hc, rfl⟩ := mem_map.mp hr
  exact Nat.lt_succ_of_le (h.accepted c hc).short

theorem Served.taken (h : Served S sid cmds) :
    (S.world.sess sid).taken.map Taken.line = (cmds.map cmdMsg).map Msg.line := by
  obtain ⟨raws, hf⟩ := h.reachable.framed sid h.brief
  obtain ⟨k, hk⟩ := h.waits.head
  have hnl : nl ∉ (S.world.sess sid).mem.input.inbuf.bytes := (h.reachable.inv.threads.head hk).1
  have htyped := typed_of_accepted h.accepted
  have hraws : raws = (cmds.map cmdMsg).map Msg.line := by
    have := hf.lines_heard
    rw [h.heard, cmdStream, (frames_of_typed htyped).1, h.waits.pending, append_nil,
      lines_of_not_mem hnl, append_nil] at this
    exact this.symm
  rw [hf.taken, hraws, map_map]
  exact map_congr_left fun m hm => (htyped m hm).stripCr_line

/-- The commands run are those of the lines taken at the prompt. -/
theorem Served.commands (h : Served S sid cmds) :
    S.world.commands sid = ((S.world.sess sid).taken.filter fun t => t.site = .readsocket).map
      fun t => t.line.drop msgPrefixLen := by
  obtain ⟨k, hk⟩ := h.waits.head
  have hl : Listening (S.world.talk sid) := h.reachable.talks.threads.head hk
  have hline :
      ∀ t ∈ (S.world.sess sid).taken, commandOf t.line = some (t.line.drop msgPrefixLen) := by
    intro t ht
    have hmem := mem_map_of_mem (f := Taken.line) ht
    rw [h.taken] at hmem
    rw [map_map] at hmem
    obtain ⟨c, hc, he⟩ := mem_map.mp hmem
    rw [← he, Function.comp, (h.accepted c hc).commandOf]
    rfl
  refine hl.cmds.trans ?_
  show handled (S.world.sess sid).taken = _
  revert hline
  generalize (S.world.sess sid).taken = ts
  intro hline
  induction ts with
  | nil => rfl
  | cons t ts ih =>
    have ih := ih fun t' ht => hline t' (mem_cons_of_mem t ht)
    rw [handled, filterMap_cons, ← handled]
    by_cases hs : t.site = .readsocket
    · rw [if_pos hs, hline t mem_cons_self, filter_cons_of_pos (by simpa using hs), map_cons, ih]
    · rw [if_neg hs, filter_cons_of_neg (by simpa using hs), ih]

/-- The session has run every command it was sent if and only if it took each at its prompt. -/
theorem Served.commands_eq_iff (h : Served S sid cmds) :
    S.world.commands sid = cmds ↔ ∀ t ∈ (S.world.sess sid).taken, t.site = .readsocket := by
  have hlen : (S.world.sess sid).taken.length = cmds.length := by
    have := congrArg List.length h.taken
    simpa using this
  rw [h.commands]
  constructor
  · intro he
    have hle := congrArg List.length he
    rw [length_map, ← hlen] at hle
    simpa using length_filter_eq_length_iff.mp hle
  · intro hall
    rw [filter_eq_self.mpr (by simpa using hall)]
    have := congrArg (List.map fun l => l.drop msgPrefixLen) h.taken
    rw [map_map] at this
    refine this.trans ?_
    rw [map_map, map_map]
    exact map_id _

/-- **Which commands are run.** Two sessions that have been sent the same accepted commands, cut and
timed in any way, and wait at their prompts have taken the same lines in the same order. Each has
run exactly those that `session_readsocket` took; those that `session_pump` took it has not. So each
has run all of them if and only if `session_pump` took none, and two sessions of which this is true
have run the same commands. -/
theorem commands_of_messages {S₁ S₂ : System} {i j : Nat} (h₁ : Served S₁ i cmds)
    (h₂ : Served S₂ j cmds) :
    (S₁.world.sess i).taken.map Taken.line = (S₂.world.sess j).taken.map Taken.line ∧
    S₁.world.commands i = ((S₁.world.sess i).taken.filter fun t => t.site = .readsocket).map
      (fun t => t.line.drop msgPrefixLen) ∧
    (S₁.world.commands i = cmds ↔ ∀ t ∈ (S₁.world.sess i).taken, t.site = .readsocket) ∧
    ((∀ t ∈ (S₁.world.sess i).taken, t.site = .readsocket) →
      (∀ t ∈ (S₂.world.sess j).taken, t.site = .readsocket) →
      S₁.world.commands i = S₂.world.commands j) :=
  ⟨h₁.taken.trans h₂.taken.symm, h₁.commands, h₁.commands_eq_iff, fun hs₁ hs₂ =>
    (h₁.commands_eq_iff.mpr hs₁).trans (h₂.commands_eq_iff.mpr hs₂).symm⟩

/-- A foreground command, from its `pipe` to the next prompt, with `n` operations spent on messages
before it exits. -/
def foregroundRun (pid n : Nat) : List Event :=
  [.run 0 (.fds 3 4), .run 0 .go, .run 0 (.pid pid)] ++ steps 0 (12 + n) .go ++ [.exit pid] ++
    steps 0 3 .go ++ [.run 0 (.pid pid)] ++ steps 0 19 .go ++ steps 0 4 (.upTo 4095)

/-- `CMD ls` and `CMD pwd` in one packet. -/
def onePacketRun : List Event :=
  [.accept 0, .peerSend 0 (str "CMD ls\nCMD pwd\n")] ++ steps 0 12 (.upTo 4095) ++
    foregroundRun 7 6

/-- `CMD pwd` sent after `ls` is done. -/
def twoPacketRun : List Event :=
  [.accept 0, .peerSend 0 (str "CMD ls\n")] ++ steps 0 12 (.upTo 4095) ++ foregroundRun 7 0 ++
    [.peerSend 0 (str "CMD pwd\n")] ++ steps 0 4 (.upTo 4095) ++ foregroundRun 8 0

theorem accepted_ls_pwd : ∀ c ∈ [str "ls", str "pwd"], Accepted c := by
  rintro c (_ | ⟨_, _ | ⟨_, ⟨⟩⟩⟩)
  · exact ⟨⟨by decide, by decide, by decide, by decide⟩, by decide, _, rfl, by decide⟩
  · exact ⟨⟨by decide, by decide, by decide, by decide⟩, by decide, _, rfl, by decide⟩

theorem commands_of_messages_twoPacket :
    ∃ S, Served S 0 [str "ls", str "pwd"] ∧ S.world.commands 0 = [str "ls", str "pwd"] := by
  have hrun : (System.init.run twoPacketRun).isSome := by decide +kernel
  have hserved : Served ((System.init.run twoPacketRun).get hrun) 0 [str "ls", str "pwd"] :=
    ⟨reachable_get hrun, accepted_ls_pwd, rfl, ⟨_, rfl⟩, rfl⟩
  have hsites : ∀ t ∈ (((System.init.run twoPacketRun).get hrun).world.sess 0).taken,
      t.site = .readsocket := by
    have htaken : (((System.init.run twoPacketRun).get hrun).world.sess 0).taken.map Taken.site =
      [.readsocket, .readsocket] := rfl
    intro t ht
    have hmem := mem_map_of_mem (f := Taken.site) ht
    rw [htaken] at hmem
    simpa using hmem
  exact ⟨_, hserved, (commands_of_messages hserved hserved).2.2.1.mpr hsites⟩

/-- The second command of a packet is read as input of the first. -/
theorem onePacket_skips_command :
    ∃ S₁ S₂, Served S₁ 0 [str "ls", str "pwd"] ∧ Served S₂ 0 [str "ls", str "pwd"] ∧
      S₁.world.commands 0 = [str "ls"] ∧ S₂.world.commands 0 = [str "ls", str "pwd"] := by
  have hone : (System.init.run onePacketRun).isSome := by decide +kernel
  have htwo : (System.init.run twoPacketRun).isSome := by decide +kernel
  exact ⟨_, _, ⟨reachable_get hone, accepted_ls_pwd, rfl, ⟨_, rfl⟩, rfl⟩,
    ⟨reachable_get htwo, accepted_ls_pwd, rfl, ⟨_, rfl⟩, rfl⟩, rfl, rfl⟩

end SystemProg.Yashd
