import SystemProg.Yashd.Endings
import SystemProg.Yashd.History
import SystemProg.Yashd.Link

/-!
# Who owns the keyboard

What the two ends of a link know about each other. The client has its prompt flag, which it sets
when what it has received ends with the prompt and clears when it sends a command
(`client/src/client.c:127-163`); the session has its foreground job.

* `prompt_flag`: what the flag says about the session.
* `ctrl_d_agrees`: when both ends mean the same by `CTL d`.
-/

namespace SystemProg.Yashd

open Text Shell Conc Data List Option

variable {sid : Nat} {l : Link} {x : Sess}

/-! ## The prompt flag -/

/-- The bytes written to the client so far. -/
def Sess.written (x : Sess) : List Byte := x.sent.map Prod.snd

/-- The session is blocked in `session_readsocket`. -/
def Link.Idle (sid : Nat) (l : Link) : Prop :=
  ∃ k, l.system.thread sid = some (.call (Op.fill .readsocket) k)

theorem nl_mem_bytes {m : Msg} (h : (m.kind.keyword ++ cstr m.body).length ≤ 4094) :
    nl ∈ m.bytes := by
  rw [Msg.bytes, sendMsg]
  have hfits : ¬ yashBufSize ≤ (m.kind.keyword ++ cstr m.body ++ [nl]).length := by
    rw [length_append, length_singleton]
    exact Nat.not_le.mpr (Nat.lt_succ_of_le (Nat.succ_le_succ h))
  rw [if_neg hfits]
  exact mem_append_right _ (mem_singleton.mpr rfl)

/-- The flag, when everything written to the client has been received. -/
theorem Link.Inv.prompt_iff (h : l.Inv sid)
    (hall : (l.sess sid).recvd = (l.sess sid).sent.length) :
    l.client.prompt = true ↔ (∀ m, l.mark = some m → m < (l.sess sid).sent.length) ∧
      yashPrompt <:+ yashPrompt ++ (l.sess sid).written := by
  rw [h.flag, h.tail, hall, take_length, atPrompt_iff]
  rfl

/-- A session that waits at its prompt has written it last. -/
theorem Linked.prompt_shell (h : Linked sid l) (hidle : l.Idle sid) :
    yashPrompt <:+ (l.sess sid).shell := by
  obtain ⟨k, hk⟩ := hidle
  exact (h.reachable.talks.threads.head hk).prompt

theorem Linked.mark_lt (h : Linked sid l) (hidle : l.Idle sid)
    (hw : ∀ s ∈ l.said, s.sent.msg.kind = .cmd → s.Whole) (ho : l.outbox = [])
    (hp : (l.sess sid).wire.pending = []) :
      ∀ m, l.mark = some m → m < (l.sess sid).sent.length := by
  obtain ⟨k, hk⟩ := hidle
  have hinv := h.inv
  have hnl : nl ∉ (l.sess sid).mem.input.inbuf.bytes := (h.reachable.inv.threads.head hk).1
  have hlisten : Listening (l.system.world.talk sid) := h.reachable.talks.threads.head hk
  intro m hm
  rcases hinv.owed hw m hm with hn | ⟨t, ht, hle⟩
  · rw [ho, hp, append_nil, append_nil] at hn
    exact absurd hn hnl
  · -- the line was taken before the prompt was written
    by_contra hge
    have hall : (l.sess sid).shellAt m = (l.sess sid).shell.length := by
      rw [Sess.shellAt, take_of_length_le (Nat.not_lt.mp hge), Sess.shell, length_map]
    exact Nat.lt_irrefl _ (Nat.lt_of_lt_of_le (hlisten.fresh t ht) (hall ▸ hle))

theorem suffix_append_iff {a b c : List Byte} (h : a.length ≤ c.length) : a <:+ b ++ c ↔ a <:+ c :=
  ⟨fun hs => suffix_of_suffix_length_le hs (suffix_append b c) h,
    fun hs => hs.trans (suffix_append b c)⟩

/-- The last bytes of a connection, if the session wrote them, are the last bytes it wrote. -/
theorem suffix_written {a : List Byte} (h : a <:+ x.shell)
    (hlast : ∀ b ∈ x.sent.drop (x.sent.length - a.length), b.1 = .shell) : a <:+ x.written := by
  have hle : a.length ≤ x.sent.length := by
    have := h.length_le
    rw [Sess.shell, length_map] at this
    exact this.trans (length_filter_le _ _)
  have hsplit := take_append_drop (x.sent.length - a.length) x.sent
  generalize x.sent.take (x.sent.length - a.length) = front at hsplit
  have hlen : (x.sent.drop (x.sent.length - a.length)).length = a.length := by
    rw [length_drop]
    omega
  generalize x.sent.drop (x.sent.length - a.length) = back at hsplit hlast hlen
  have hback : back.map Prod.snd <:+ x.shell := by
    rw [Sess.shell, ← hsplit, filter_append, map_append,
      filter_eq_self.mpr fun b hb => decide_eq_true (hlast b hb)]
    exact suffix_append _ _
  have heq : a = back.map Prod.snd :=
    (suffix_of_suffix_length_le h hback (by rw [length_map, hlen])).eq_of_length
      (by rw [length_map, hlen])
  rw [heq, Sess.written, ← hsplit, map_append]
  exact suffix_append _ _

/-- A session that waits at its prompt, once everything has arrived: the flag is 1 if and only if
the connection ends with the prompt. -/
theorem Linked.prompt_idle (h : Linked sid l) (hidle : l.Idle sid) (hq : l.quiet sid = true)
    (hw : ∀ s ∈ l.said, s.sent.msg.kind = .cmd → s.Whole) :
    l.client.prompt = true ↔ yashPrompt <:+ (l.sess sid).written := by
  obtain ⟨ho, hp, hall⟩ := of_decide_eq_true hq
  have hmark := h.mark_lt hidle hw ho hp
  have hlen : yashPrompt.length ≤ (l.sess sid).written.length := by
    have := (h.prompt_shell hidle).length_le
    rw [Sess.shell, length_map] at this
    rw [Sess.written, length_map]
    exact this.trans (length_filter_le _ _)
  rw [h.inv.prompt_iff hall, suffix_append_iff hlen]
  exact and_iff_right hmark

/-- **The keyboard.** Every command sent so far has had room for its newline.

While no bytes are in flight and the session is blocked in `session_readsocket`, there is no
foreground job; if the prompt is the last thing written to the connection, then the client's flag is
1 and a line that is typed is sent as a command.

While nothing is in flight to the client and the session does anything else, the flag is 1 if and
only if no command has been sent or something has been received since the last one, and what was
received, after the prompt the client assumes at its start, ends with the prompt. So a line typed
after a command that nothing has been written since, or at the end of other output, is sent as plain
text. -/
theorem prompt_flag (h : Linked sid l)
    (hshort : ∀ s ∈ l.said, s.sent.msg.kind = .cmd → (cstr s.sent.msg.body).length ≤ 4090) :
    (l.quiet sid = true → l.Idle sid →
      (l.sess sid).mem.fgJob = none ∧
      ((∀ b ∈ (l.sess sid).sent.drop ((l.sess sid).sent.length - 3), b.1 = .shell) →
        l.client.prompt = true ∧
        ∀ line, cstr line ≠ str "quit" → (l.client.sendLine line).2 = [⟨true, .cmd, line⟩])) ∧
    ((l.sess sid).recvd = (l.sess sid).sent.length → ¬ l.Idle sid →
      (l.client.prompt = true ↔ (∀ m, l.mark = some m → m < (l.sess sid).sent.length) ∧
        yashPrompt <:+ yashPrompt ++ (l.sess sid).written) ∧
      (l.mark = some (l.sess sid).sent.length ∨
          ¬ yashPrompt <:+ yashPrompt ++ (l.sess sid).written →
        ∀ line, (l.client.sendLine line).2 = [⟨false, .text, line⟩])) := by
  have hinv := h.inv
  refine ⟨fun hq hidle => ⟨?_, fun hlast => ?_⟩,
    fun hall _ => ⟨hinv.prompt_iff hall, fun hno line => ?_⟩⟩
  · obtain ⟨k, hk⟩ := hidle
    exact (h.reachable.inv.threads.head hk).2 rfl
  · have hw : ∀ s ∈ l.said, s.sent.msg.kind = .cmd → s.Whole := by
      intro s hs hk
      refine nl_mem_bytes ?_
      rw [hk, length_append]
      exact Nat.add_le_add (Nat.le_refl 4) (hshort s hs hk)
    have hflag := (h.prompt_idle hidle hq hw).mpr (suffix_written (h.prompt_shell hidle) hlast)
    refine ⟨hflag, fun line hquit => ?_⟩
    rw [Client.sendLine, if_pos hflag, if_neg hquit]
  · have hflag : ¬ l.client.prompt = true := by
      rw [hinv.prompt_iff hall]
      rintro ⟨hlt, hsuf⟩
      rcases hno with hm | hns
      · exact Nat.lt_irrefl _ (hlt _ hm)
      · exact hns hsuf
    rw [Client.sendLine, if_neg hflag]

/-- Steps of the session. -/
def sessionSteps (n : Nat) (ch : Choice) : List LinkEvent := (steps 0 n ch).map .daemon

/-- The session writes its first prompt and waits; the client reads it. -/
def promptedRun : List LinkEvent := sessionSteps 8 (.upTo 4095) ++ [.recv 9]

/-- A line is typed, and the session forks a child for it. -/
def typedRun (line : List Byte) : List LinkEvent :=
  promptedRun ++ [.user (.stdin line), .write 99] ++ sessionSteps 4 (.upTo 4095) ++
    [.daemon (.run 0 (.fds 3 4)), .daemon (.run 0 .go), .daemon (.run 0 (.pid 7))]

theorem linked_get {S' : System} {evs : List LinkEvent}
    (ha : System.init.step (.accept 0) = some S')
    (h : ((Link.start S').run 0 evs).isSome) : Linked 0 (((Link.start S').run 0 evs).get h) :=
  ⟨System.init, S', evs, ⟨[], rfl⟩, ha, (some_get h).symm⟩

/-- The daemon with one client, just accepted. -/
def System.accepted : System := (System.init.step (.accept 0)).get rfl

theorem prompt_flag_first :
    ∃ l, Linked 0 l ∧ l.Idle 0 ∧ (l.client.sendLine (str "ls")).2 = [⟨true, .cmd, str "ls"⟩] := by
  have hrun : ((Link.start System.accepted).run 0 promptedRun).isSome := by decide +kernel
  have hl := linked_get rfl hrun
  have hidle : (((Link.start System.accepted).run 0 promptedRun).get hrun).Idle 0 := ⟨_, rfl⟩
  have hlast : ∀ b ∈ ((((Link.start System.accepted).run 0 promptedRun).get hrun).sess 0).sent.drop
      (((((Link.start System.accepted).run 0 promptedRun).get hrun).sess 0).sent.length - 3),
      b.1 = .shell := by
    have hsent : ((((Link.start System.accepted).run 0 promptedRun).get hrun).sess 0).sent =
      [(.shell, 10), (.shell, 35), (.shell, 32)] := rfl
    rw [hsent]
    decide
  refine ⟨_, hl, hidle, ((prompt_flag hl fun s hs => ?_).1 rfl hidle).2 hlast |>.2 (str "ls")
    (by decide)⟩
  exact nomatch (show s ∈ ([] : List Said) from hs)

/-- Output of a background job clears the flag of a client whose session waits at its prompt, and
output of a foreground job that ends like a prompt sets it while the job runs. -/
theorem output_moves_flag :
    (∃ l, Linked 0 l ∧ l.quiet 0 = true ∧ l.Idle 0 ∧ (l.sess 0).mem.fgJob = none ∧
      l.client.prompt = false) ∧
    ∃ l, Linked 0 l ∧ l.quiet 0 = true ∧ (l.sess 0).mem.fgJob = some 1 ∧
      l.client.prompt = true := by
  have hbg : ((Link.start System.accepted).run 0 (typedRun (str "cat &\n") ++ sessionSteps 18 .go ++
      sessionSteps 4 (.upTo 4095) ++ [.recv 9, .daemon (.output 0 (str "x")),
      .recv 9])).isSome := by
    decide +kernel
  have hfg : ((Link.start System.accepted).run 0 (typedRun (str "cat\n") ++ sessionSteps 18 .go ++
      [.daemon (.output 0 (str "\n# ")), .recv 9])).isSome := by decide +kernel
  exact ⟨⟨_, linked_get rfl hbg, rfl, ⟨_, rfl⟩, rfl, rfl⟩, _, linked_get rfl hfg, rfl, rfl, rfl⟩

/-! ## `CTL d` -/

/-- What the client sends for Ctrl-d. -/
def eofMsg : Msg := ⟨.ctl, [ctlEof]⟩

/-- A message as it goes over the wire, without its newline. -/
def Msg.wire (m : Msg) : List Byte := m.kind.keyword ++ cstr m.body

theorem nl_not_mem_wire {m : Msg} (h : nl ∉ m.body) : nl ∉ m.wire := by
  rw [Msg.wire, mem_append]
  exact fun hm => hm.elim (nl_not_mem_keyword _) fun hm => h (List.takeWhile_prefix _ |>.subset hm)

theorem bytes_of_wire {m : Msg} (h : m.wire.length ≤ 4094) : m.bytes = m.wire ++ [nl] := by
  refine if_neg ?_
  rw [length_append, length_singleton]
  exact Nat.not_le.mpr (Nat.lt_succ_of_le (Nat.succ_le_succ h))

/-- Every message has room for its newline. -/
def Link.Fits (l : Link) : Prop := ∀ s ∈ l.said, s.sent.msg.wire.length ≤ 4094

/-- The messages, as lines. -/
def Link.wires (l : Link) : List (List Byte) := l.said.map fun s => s.sent.msg.wire

theorem Linked.heard (h : Linked sid l) (hf : l.Fits) :
    (l.sess sid).heard ++ l.outbox = l.wires.flatMap fun r => r ++ [nl] := by
  rw [h.inv.stream, Link.wires, flatMap_map]
  exact flatMap_congr fun s hs => bytes_of_wire (hf s hs)

theorem Linked.frames (h : Linked sid l) :
    lines nl (l.wires.flatMap fun r => r ++ [nl]) = l.wires ∧
      remainder nl (l.wires.flatMap fun r => r ++ [nl]) = [] := by
  refine frames_of_terminated fun r hr => ?_
  obtain ⟨s, hs, rfl⟩ := mem_map.mp hr
  exact nl_not_mem_wire (h.inv.newline s hs)

theorem Linked.brief (h : Linked sid l) (hf : l.Fits) : Brief (l.sess sid).heard := by
  obtain ⟨hlines, hlast⟩ := h.frames
  have hall : Brief ((l.sess sid).heard ++ l.outbox) := by
    rw [h.heard hf]
    refine ⟨fun r hr => ?_, by rw [ShortEnd, hlast]; decide⟩
    rw [hlines] at hr
    obtain ⟨s, hs, rfl⟩ := mem_map.mp hr
    exact Nat.lt_of_le_of_lt (hf s hs) (by decide)
  exact hall.of_append

/-- **The lines taken are the messages sent**, in order. -/
theorem Linked.taken_said (h : Linked sid l) (hf : l.Fits) {i : Nat} {s : Said} {t : Taken}
    (hs : l.said[i]? = some s) (ht : (l.sess sid).taken[i]? = some t) :
    t.line = stripCr s.sent.msg.wire := by
  obtain ⟨raws, hframed⟩ := h.reachable.framed sid (h.brief hf)
  have hprefix : raws <+: l.wires := by
    have hall := h.frames.1
    rw [← h.heard hf, lines_append, Link.sess, hframed.lines_heard, append_assoc] at hall
    exact ⟨_, hall⟩
  have hline : raws[i]?.map stripCr = some t.line := by
    rw [← getElem?_map, ← hframed.taken, getElem?_map]
    exact congrArg (Option.map Taken.line) ht
  obtain ⟨r, hr, hrt⟩ := map_eq_some_iff.mp hline
  have hwire : l.wires[i]? = some r := by
    obtain ⟨rest, hrest⟩ := hprefix
    rw [← hrest, getElem?_append_left (List.getElem?_eq_some_iff.mp hr).1, hr]
  rw [Link.wires, getElem?_map, hs] at hwire
  rw [← hrt, ← some.inj hwire]

/-- The `i`-th message the client sent is a `CTL d`, and the session has taken it. -/
structure Link.TookEof (sid : Nat) (l : Link) (i : Nat) (s : Said) (t : Taken) : Prop where
  said : l.said[i]? = some s
  taken : (l.sess sid).taken[i]? = some t
  eof : s.sent.msg = eofMsg

theorem Link.TookEof.isEof {i : Nat} {s : Said} {t : Taken} (ht : l.TookEof sid i s t)
    (h : Linked sid l) (hf : l.Fits) : isEof t.line = true := by
  rw [h.taken_said hf ht.said ht.taken, ht.eof]
  decide

/-- **Ctrl-d.** Every message has had room for its newline. Once the session has handled the lines
it has taken: none of the `CTL d` the client sent with its flag 0 has made the session set `quit`,
and all of those it sent with its flag 1 and no bytes in flight have, if and only if, when the
session took them, a job was in the foreground with its `infd` open for each of the first, and for
none of the second. At no time has a `CTL d` set `quit` that was taken with such a job in the
foreground. -/
theorem ctrl_d_agrees (h : Linked sid l) (hf : l.Fits) :
    (l.system.Rests sid →
      ((∀ i s t, l.TookEof sid i s t →
          (s.sent.flag = false → i ∉ (l.sess sid).ended) ∧
          (s.sent.flag = true → s.quiet = true → i ∈ (l.sess sid).ended)) ↔
        ∀ i s t, l.TookEof sid i s t →
          (s.sent.flag = false → t.input = true) ∧
          (s.sent.flag = true → s.quiet = true → t.input = false))) ∧
    ∀ i ∈ (l.sess sid).ended, ∃ t, (l.sess sid).taken[i]? = some t ∧ t.input = false := by
  refine ⟨fun hr => ?_, fun i hi => ?_⟩
  · have hans := h.reachable.answered hr
    have hiff : ∀ i s t, l.TookEof sid i s t → (i ∈ (l.sess sid).ended ↔ t.input = false) := by
      intro i s t ht
      rw [Link.sess, hans.iff i t ht.taken, Taken.ends, ht.isEof h hf, Bool.true_and,
        Bool.not_eq_true']
    refine forall_congr' fun i => forall_congr' fun s => forall_congr' fun t =>
      forall_congr' fun ht => ?_
    rw [hiff i s t ht, Bool.not_eq_false]
  · obtain ⟨t, ht, hends⟩ := h.reachable.ends_of_mem sid i hi
    refine ⟨t, ht, ?_⟩
    rw [Taken.ends, Bool.and_eq_true, Bool.not_eq_true'] at hends
    exact hends.2

/-- Ctrl-d is pressed while `cat` runs, and the session closes the input of the job. -/
def eofRun : List LinkEvent :=
  typedRun (str "cat\n") ++ sessionSteps 18 .go ++ [.user (.eof true), .write 99] ++
    sessionSteps 4 .go ++ sessionSteps 1 (.upTo 4095) ++ sessionSteps 8 .go

theorem ctrl_d_agrees_cat :
    ∃ l s t, Linked 0 l ∧ l.Fits ∧ l.system.Rests 0 ∧ l.TookEof 0 1 s t ∧ s.sent.flag = false ∧
      1 ∉ (l.sess 0).ended := by
  have hrun : ((Link.start System.accepted).run 0 eofRun).isSome := by decide +kernel
  have hsaid : (((Link.start System.accepted).run 0 eofRun).get hrun).said =
    [⟨⟨true, .cmd, str "cat"⟩, true⟩, ⟨⟨false, eofMsg⟩, true⟩] := rfl
  have htaken : ((((Link.start System.accepted).run 0 eofRun).get hrun).sess 0).taken =
    [⟨.readsocket, str "CMD cat", 3, false⟩, ⟨.pump, str "CTL d", 3, true⟩] := rfl
  have hrests : (((Link.start System.accepted).run 0 eofRun).get hrun).system.Rests 0 :=
    ⟨_, _, rfl, rfl⟩
  have hl : Linked 0 (((Link.start System.accepted).run 0 eofRun).get hrun) := linked_get rfl hrun
  generalize ((Link.start System.accepted).run 0 eofRun).get hrun = l at *
  have hfits : l.Fits := by
    rw [Link.Fits, hsaid]
    decide
  have hmine : l.TookEof 0 1 ⟨⟨false, eofMsg⟩, true⟩ ⟨.pump, str "CTL d", 3, true⟩ :=
    ⟨congrArg (·[1]?) hsaid, congrArg (·[1]?) htaken, rfl⟩
  refine ⟨l, _, _, hl, hfits, hrests, hmine, rfl,
    (((ctrl_d_agrees hl hfits).1 hrests).mpr ?_ 1 _ _ hmine).1 rfl⟩
  rintro i s t ⟨hs, ht, he⟩
  rw [hsaid] at hs
  rw [htaken] at ht
  rcases i with _ | _ | i
  · cases hs
    exact absurd he (by decide)
  · cases hs
    cases ht
    exact ⟨fun _ => rfl, nofun⟩
  · cases hs

/-- Ctrl-d is pressed when `ls` has exited and its prompt is on its way to the client. -/
def crossingRun : List LinkEvent :=
  typedRun (str "ls\n") ++ sessionSteps 18 .go ++ [.daemon (.exit 7)] ++ sessionSteps 6 .go ++
    [.daemon (.run 0 (.pid 7))] ++ sessionSteps 19 .go ++ sessionSteps 4 (.upTo 4095) ++
    [.user (.eof true), .write 99] ++ sessionSteps 5 (.upTo 4095)

/-- The client sends `CTL d` with its flag 0, and the session, at its prompt, ends. -/
theorem crossing_eof_ends_session :
    ∃ l, Linked 0 l ∧ l.said.map Said.sent = [⟨true, .cmd, str "ls"⟩, ⟨false, eofMsg⟩] ∧
      (l.sess 0).taken.map (fun t => (t.site, t.line)) =
        [(.readsocket, str "CMD ls"), (.readsocket, str "CTL d")] ∧
      (l.sess 0).mem.quit = true ∧ (l.sess 0).ended = [1] := by
  have hrun : ((Link.start System.accepted).run 0 crossingRun).isSome := by decide +kernel
  exact ⟨_, linked_get rfl hrun, rfl, rfl, rfl, rfl⟩

end SystemProg.Yashd
