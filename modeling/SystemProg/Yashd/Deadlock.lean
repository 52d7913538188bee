import SystemProg.Yashd.Keyboard

/-!
# The end of the client's input

A client whose stdin is not a terminal sends one `CTL d` at its end and never reads stdin again
(`client/src/client.c:241-252`). The session spends it on closing the input of a running job, or on
ending itself (`server/src/session.c:179-186`). If it is spent on a job, nothing is left that could
end the session: once the job is over the two wait for each other.

* `Reachable.open_at_prompt`: a session that listens at its prompt has not been ended by a `CTL d`.
* `no_deadlock`: if the `CTL d` is not taken with a job in the foreground whose stdin is open, then
  the two never wait for each other.
-/

namespace SystemProg.Yashd

open Text Shell Conc Data Conc.Logic List Option

/-! ## The session -/

/-- `session_readsocket` is not called in a session that a `CTL d` has ended. -/
def Ends.alive : Op → Ends → Prop
  | .fill .readsocket, v => v.ended = []
  | _, _ => True

/-- The logic of a session that goes on. -/
def alive : Logic sys Ends := sequential Ends.alive Ends.act

/-- If a `CTL d` has ended the session, then `quit` is set. -/
def Told (v : Ends) : Prop := v.ended ≠ [] → v.mem.quit = true

variable {v v' : Ends}

theorem alive_of_ne {o : Op} (h : o ≠ .fill .readsocket) : Ends.alive o v := by
  cases o with
  | fill site =>
    cases site with
    | readsocket => exact absurd rfl h
    | pump => trivial
  | _ => trivial

theorem ended_of_act {o : Op} {r : o.Res} (ho : o ≠ .quit .ctl) (h : Ends.act o v r v') :
    v'.ended = v.ended := by
  cases o with
  | load => rw [h.2]
  | store f => cases h; rfl
  | quit site =>
    cases h
    exact if_neg fun hs => ho (congrArg Op.quit hs)
  | takeLine site =>
    cases r with
    | none => cases h; rfl
    | some line =>
      obtain ⟨b, n, rfl⟩ := h
      rfl
  | _ =>
    obtain ⟨input, rfl⟩ := h
    rfl

theorem quit_of_act {o : Op} {r : o.Res} (ho : ∀ f, o = .store f → ∀ s, (f s).quit = s.quit)
    (h : Ends.act o v r v') (hq : v.mem.quit = true) : v'.mem.quit = true := by
  cases o with
  | load => rwa [h.2]
  | store f =>
    cases h
    exact (ho f rfl _).trans hq
  | quit site =>
    cases h
    rfl
  | takeLine site =>
    cases r with
    | none => cases h; exact hq
    | some line =>
      obtain ⟨b, n, rfl⟩ := h
      exact hq
  | _ =>
    obtain ⟨input, rfl⟩ := h
    exact hq

theorem Told.act {o : Op} {r : o.Res} (ho : ∀ f, o = .store f → ∀ s, (f s).quit = s.quit)
    (h : Told v) (hact : Ends.act o v r v') : Told v' := by
  intro hne
  by_cases hq : o = .quit .ctl
  · subst hq
    cases hact
    rfl
  · exact quit_of_act ho hact (h (ended_of_act hq hact ▸ hne))

theorem told_stable : Stable alive Told := by
  refine .intro (fun _ _ hr h => hr ▸ h) fun o ho v h =>
    ⟨alive_of_ne ?_, fun r v' hact => h.act ?_ hact⟩
  · rintro rfl
    exact ho
  · rintro f rfl
    exact ho.quit

theorem told_op {o : Op} (hr : o ≠ .fill .readsocket) (ho : ∀ f, o ≠ .store f) :
    Keeps alive Told (Prog.perform (S := sys) o) :=
  told_stable.op fun _ h => ⟨alive_of_ne hr, fun _ _ => h.act fun f hf => absurd hf (ho f)⟩

theorem told_store {f : Session → Session} (hf : ∀ s, (f s).quit = s.quit) :
    Keeps alive Told (Code.store f) := by
  refine told_stable.op fun _ h => ⟨trivial, fun r _ hact => h.act (o := .store f) (r := r) ?_ hact⟩
  intro f' he
  cases he
  exact hf

theorem told_steady : Steady alive Told :=
  told_stable.steady (fun _ _ => told_op (by simp) (by simp)) fun _ hf => told_store hf.quit

theorem told_pumped : Pumped alive Told :=
  told_steady.pumped (told_stable.pump (told_op (by simp) (by simp)) (told_op (by simp) (by simp)))
    (fun _ => told_store fun _ => rfl) fun _ => told_op (by simp) (by simp)

/-- No `CTL d` has ended the session. -/
def Open (v : Ends) : Prop := v.ended = []

theorem Open.told (h : Open v) : Told v := fun hne => absurd h hne

theorem open_op {o : Op} (ho : o ≠ .quit .ctl) : Keeps alive Open (Prog.perform (S := sys) o) := by
  refine fun v h => seq_perform ?_ fun r v' hact => (ended_of_act ho hact).trans h
  by_cases hr : o = .fill .readsocket
  · subst hr
    exact h
  · exact alive_of_ne hr

theorem open_steady : Steady alive Open := by
  refine Stable.steady (.intro (fun _ _ hr h => hr ▸ h) fun o ho v h => ?_)
    (fun _ hs => open_op fun he => hs (Op.quit.inj he)) fun _ _ => open_op (by simp)
  have hq : o ≠ .quit .ctl := by
    rintro rfl
    exact ho
  refine ⟨alive_of_ne ?_, fun r v' hact => (ended_of_act hq hact).trans h⟩
  rintro rfl
  exact ho

namespace Code

theorem told_dispatch (line : List Byte) : Keeps alive Told (dispatch line) := by
  refine told_pumped.dispatch (told_op (by simp) (by simp)) (fun cmdline => ?_) line
  unfold handleCmd
  split
  · exact Keeps.bind (told_op (o := .log cmdline) (by simp) (by simp)) fun _ =>
      told_pumped.command (fun _ => told_op (by simp) (by simp)) _
  · exact told_pumped.pure ()

/-- One turn of the loop of `session_main`: a session that goes round again has not been ended. -/
theorem open_serve (h : Open v) :
    alive.wp serve (fun again v => again = true → Open v) v := by
  refine wp_seq (open_steady.sessionWrite _ _ v h) fun ok v h => ?_
  have hread := open_steady.sessionReadsocket (open_op (by simp)) (open_op (by simp))
  split
  · exact seq_pure.mpr nofun
  · refine wp_seq (hread v h) fun r v h => ?_
    cases r with
    | line line =>
      refine wp_seq (told_dispatch line v h.told) fun _ v h => ?_
      refine wp_seq (P := fun s v => s.quit = v.mem.quit ∧ Told v) (seq_perform trivial ?_) ?_
      · rintro s _ ⟨rfl, rfl⟩
        exact ⟨rfl, h⟩
      · rintro s v ⟨hs, h⟩
        refine seq_pure.mpr fun hq => by_contra fun hne => ?_
        rw [hs, h hne] at hq
        cases hq
    | _ => exact seq_pure.mpr nofun

theorem alive_sessionMain : alive.wp sessionMain (fun _ _ => True) ⟨Session.create, [], []⟩ := by
  have hany : Steady alive fun _ => True := by
    refine Stable.steady (.intro (fun _ _ _ _ => trivial) fun o ho v _ =>
        ⟨alive_of_ne ?_, fun _ _ _ => trivial⟩)
      (fun _ _ v _ => seq_perform trivial fun _ _ _ => trivial)
      fun _ _ v _ => seq_perform trivial fun _ _ _ => trivial
    rintro rfl
    exact ho
  refine wp_seq (P := fun _ _ => True) ?_ fun _ v _ => hany.sessionDestroy v trivial
  refine seq_iter (fun _ => Open) rfl fun _ v h => ?_
  refine wp_seq (open_steady.jobsReap v h) fun _ v h => wp_seq (open_serve h) fun again v h => ?_
  cases again with
  | true => exact seq_pure.mpr (h rfl)
  | false => exact seq_pure.mpr trivial

end Code

/-- **At the prompt** no `CTL d` has ended the session. -/
theorem Reachable.open_at_prompt {S : System} (h : Reachable S) {sid : Nat} {k : Int → Code.C Unit}
    (ht : S.thread sid = some (.call (.fill .readsocket) k)) : (S.world.sess sid).ended = [] :=
  (h.meets_ends Code.alive_sessionMain).head ht

/-! ## The client -/

variable {sid : Nat} {l l' : Link} {c c' : Client} {out : List Sent}

theorem Client.sendLine_stdinOpen (c : Client) (line : List Byte) :
    (c.sendLine line).1.stdinOpen = c.stdinOpen := by
  unfold Client.sendLine
  split
  · split <;> rfl
  · rfl

theorem Client.sendLines_stdinOpen :
    ∀ (fuel : Nat) (c : Client), (sendLines fuel c).1.stdinOpen = c.stdinOpen
  | 0, _ => rfl
  | fuel + 1, c => by
    unfold Client.sendLines
    split
    · rfl
    split
    · rfl
    · exact (Client.sendLines_stdinOpen fuel _).trans (c.sendLine_stdinOpen _)

theorem Client.stdin_stdinOpen (c : Client) (bs : List Byte) :
    (c.stdin bs).1.stdinOpen = c.stdinOpen := by
  unfold Client.stdin
  dsimp only
  split <;> exact Client.sendLines_stdinOpen _ _

/-- Stdin is given up with a `CTL d`, sent with the flag 0. -/
theorem Client.step_stdinOpen {e : ClientEvent} (h : c.step e = some (c', out))
    (hc : c'.stdinOpen = false) : c.stdinOpen = false ∨ ⟨false, eofMsg⟩ ∈ out := by
  unfold Client.step at h
  split at h
  · cases h
  cases e with
  | recv bs =>
    obtain ⟨-, h⟩ := (ite_none_right_eq_some ..).mp h
    cases h
    exact .inl hc
  | stdin bs =>
    obtain ⟨-, h⟩ := (ite_none_right_eq_some ..).mp h
    refine .inl ((c.stdin_stdinOpen bs).symm.trans ?_)
    rwa [some.inj h]
  | eof tty =>
    obtain ⟨-, h⟩ := (ite_none_right_eq_some ..).mp h
    -- the flag is looked at once the last line has been sent
    have hend : ∀ c₁ : Client, c₁.stdinOpen = c.stdinOpen → ∀ out₁,
        ((if c₁.prompt then { c₁ with done := true } else if tty then c₁
          else { c₁ with stdinOpen := false }, out₁ ++ [⟨c₁.prompt, .ctl, [ctlEof]⟩]) :
          Client × List Sent) = (c', out) → c.stdinOpen = false ∨ ⟨false, eofMsg⟩ ∈ out := by
      intro c₁ hsame out₁ he
      obtain ⟨hc', rfl⟩ := Prod.mk.inj he
      cases hp : c₁.prompt with
      | true =>
        rw [hp, if_pos rfl] at hc'
        exact .inl (hsame.symm.trans ((congrArg Client.stdinOpen hc').trans hc))
      | false => exact .inr (mem_append_right _ (mem_singleton.mpr rfl))
    unfold Client.eof at h
    by_cases hb : c.inbuf.bytes = []
    · rw [if_pos hb] at h
      exact hend c rfl [] (some.inj h)
    · rw [if_neg hb] at h
      exact hend { (c.sendLine c.inbuf.bytes).1 with inbuf := .empty }
        (c.sendLine_stdinOpen _) _ (some.inj h)
  | _ =>
    cases h
    exact .inl hc

/-- A client that has given up stdin has sent its `CTL d`. -/
theorem Linked.eof_said (h : Linked sid l) :
    l.client.stdinOpen = false → ∃ s ∈ l.said, s.sent = ⟨false, eofMsg⟩ := by
  refine h.induction (P := fun l => l.client.stdinOpen = false →
    ∃ s ∈ l.said, s.sent = ⟨false, eofMsg⟩) (fun S S' _ _ hc => by cases hc) ?_
  intro l e l' _ ih hstep hc
  rcases Link.step_cases hstep with ⟨e, S', -, -, rfl⟩ | ⟨e, c, out, -, -, he, rfl⟩ |
    ⟨n, c, out, he, rfl⟩ | ⟨n, rfl⟩ | rfl
  · exact ih hc
  · rcases Client.step_stdinOpen he hc with hc | hm
    · obtain ⟨s, hs, heq⟩ := ih hc
      exact ⟨s, mem_append_left _ hs, heq⟩
    · exact ⟨_, mem_append_right _ (mem_map_of_mem hm), rfl⟩
  · rcases Client.step_stdinOpen he hc with hc | hm
    · exact ih hc
    · have hnil : out = [] := by
        unfold Client.step at he
        split at he
        · cases he
        · obtain ⟨-, he⟩ := (ite_none_right_eq_some ..).mp he
          exact (Prod.mk.inj (some.inj he)).2.symm
      rw [hnil] at hm
      cases hm
  · exact ih hc
  · exact ih hc

/-! ## The two together -/

/-- Neither end will move again: the client has given up stdin and waits for the server, which waits
at its prompt for the client. -/
structure Link.Deadlock (sid : Nat) (l : Link) : Prop where
  stdin : l.client.stdinOpen = false
  done : l.client.done = false
  idle : l.Idle sid
  quiet : l.quiet sid = true

theorem Linked.taken_all (h : Linked sid l) (hf : l.Fits) (hidle : l.Idle sid)
    (hq : l.quiet sid = true) : (l.sess sid).taken.length = l.said.length := by
  obtain ⟨k, hk⟩ := hidle
  obtain ⟨ho, hp, -⟩ := of_decide_eq_true hq
  have hnl : nl ∉ (l.sess sid).mem.input.inbuf.bytes := (h.reachable.inv.threads.head hk).1
  obtain ⟨raws, hframed⟩ := h.reachable.framed sid (h.brief hf)
  have hraws : raws = l.wires := by
    have hlines := hframed.lines_heard
    have hheard := h.heard hf
    rw [ho, append_nil] at hheard
    change lines nl (l.sess sid).heard =
      raws ++ lines nl ((l.sess sid).mem.input.inbuf.bytes ++ (l.sess sid).wire.pending) at hlines
    rw [hheard, h.frames.1, hp, append_nil, lines_of_not_mem hnl, append_nil] at hlines
    exact hlines.symm
  have hlen := congrArg List.length hframed.taken
  rw [length_map, length_map, hraws, Link.wires, length_map] at hlen
  exact hlen

/-- **No deadlock.** If every message has had room for its newline, and no `CTL d` that the client
sent with its flag 0 was taken while a job was in the foreground with its `infd` open, then the
client and the session do not wait for each other after the end of the client's input. -/
theorem no_deadlock (h : Linked sid l) (hf : l.Fits)
    (heof : ∀ i s t, l.TookEof sid i s t → s.sent.flag = false → t.input = false) :
    ¬ l.Deadlock sid := by
  intro hd
  obtain ⟨s, hs, hsent⟩ := h.eof_said hd.stdin
  obtain ⟨i, hi⟩ := mem_iff_getElem?.mp hs
  have hlt : i < (l.sess sid).taken.length := by
    rw [h.taken_all hf hd.idle hd.quiet]
    exact (List.getElem?_eq_some_iff.mp hi).1
  have htook : l.TookEof sid i s (l.sess sid).taken[i] :=
    ⟨hi, getElem?_eq_getElem hlt, congrArg Sent.msg hsent⟩
  have hinput := heof i s _ htook (congrArg Sent.flag hsent)
  obtain ⟨k, hk⟩ := hd.idle
  -- so it has ended the session, which would not be at its prompt
  have hended : i ∈ (l.sess sid).ended := by
    refine ((h.reachable.answered ⟨_, _, hk, rfl⟩).iff i _ htook.taken).mpr ?_
    rw [Taken.ends, htook.isEof h hf, hinput]
    rfl
  rw [show (l.sess sid).ended = [] from h.reachable.open_at_prompt hk] at hended
  cases hended

/-- The input of a client ends when `ls` is over and the prompt is on its way. -/
def lateEofRun : List LinkEvent :=
  typedRun (str "ls\n") ++ sessionSteps 18 .go ++ [.daemon (.exit 7)] ++ sessionSteps 6 .go ++
    [.daemon (.run 0 (.pid 7))] ++ sessionSteps 19 .go ++ sessionSteps 4 (.upTo 4095) ++
    [.user (.eof false), .write 99] ++ sessionSteps 9 (.upTo 4095) ++ [.recv 9]

theorem no_deadlock_late :
    ∃ l, Linked 0 l ∧ l.client.stdinOpen = false ∧ l.client.done = false ∧ l.quiet 0 = true ∧
      ¬ l.Deadlock 0 := by
  have hrun : ((Link.start System.accepted).run 0 lateEofRun).isSome := by decide +kernel
  have hl : Linked 0 (((Link.start System.accepted).run 0 lateEofRun).get hrun) :=
    linked_get rfl hrun
  have hsaid : (((Link.start System.accepted).run 0 lateEofRun).get hrun).said =
    [⟨⟨true, .cmd, str "ls"⟩, true⟩, ⟨⟨false, eofMsg⟩, false⟩] := rfl
  have htaken : ((((Link.start System.accepted).run 0 lateEofRun).get hrun).sess 0).taken =
    [⟨.readsocket, str "CMD ls", 3, false⟩, ⟨.readsocket, str "CTL d", 6, false⟩] := rfl
  have hclient :
      (((Link.start System.accepted).run 0 lateEofRun).get hrun).client.stdinOpen = false ∧
    (((Link.start System.accepted).run 0 lateEofRun).get hrun).client.done = false := ⟨rfl, rfl⟩
  have hquiet : (((Link.start System.accepted).run 0 lateEofRun).get hrun).quiet 0 = true := rfl
  generalize ((Link.start System.accepted).run 0 lateEofRun).get hrun = l at *
  refine ⟨l, hl, hclient.1, hclient.2, hquiet, no_deadlock hl ?_ fun i s t ht _ => ?_⟩
  · rw [Link.Fits, hsaid]
    decide
  · have hall : ∀ t ∈ (l.sess 0).taken, t.input = false := by
      rw [htaken]
      decide
    exact hall t (mem_of_getElem? ht.taken)

/-- `echo ls | yash`: the session takes the `CTL d` while `ls` is in the foreground. -/
def pipedRun : List LinkEvent :=
  promptedRun ++ [.user (.stdin (str "ls\n")), .write 99, .user (.eof false), .write 99] ++
    sessionSteps 4 (.upTo 4095) ++
    [.daemon (.run 0 (.fds 3 4)), .daemon (.run 0 .go), .daemon (.run 0 (.pid 7))] ++
    sessionSteps 22 .go ++ [.daemon (.exit 7), .daemon (.run 0 (.pid 7))] ++ sessionSteps 18 .go ++
    sessionSteps 4 (.upTo 4095) ++ [.recv 9]

/-- It closes the input of `ls`, and then both wait. -/
theorem piped_input_deadlocks :
    ∃ l, Linked 0 l ∧ l.said.map Said.sent = [⟨true, .cmd, str "ls"⟩, ⟨false, eofMsg⟩] ∧
      l.Deadlock 0 ∧ l.system.world.procs = [] := by
  have hrun : ((Link.start System.accepted).run 0 pipedRun).isSome := by decide +kernel
  exact ⟨_, linked_get rfl hrun, rfl, ⟨rfl, rfl, ⟨_, rfl⟩, rfl⟩, rfl⟩

end SystemProg.Yashd
