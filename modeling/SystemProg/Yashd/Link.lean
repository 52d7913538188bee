import SystemProg.Yashd.Client
import SystemProg.Yashd.Isolation

/-!
# A client and its session

The client of `client/src/client.c` and the session of the daemon that serves it, with the two
directions of the connection between them. The daemon, its children and the other clients move at
any time; so does this client, except that `send_all` writes out what it has to send before the
client goes on.

* What the client has received is the beginning of what the session and its children have written,
  in the order in which they wrote it.
* What the client has sent and what `send_all` has still to write are the messages it has sent.
* `mark` is how much the client had received when it last sent a command.

`Linked.inv` holds in every state the two can be in.
-/

namespace SystemProg.Yashd

open Text Shell Conc Data List Option

/-- A message, and whether any bytes were in flight when it was sent. -/
structure Said where
  sent : Sent
  quiet : Bool
  deriving Repr, DecidableEq

/-- The daemon and one client. -/
structure Link where
  system : System
  client : Client
  /-- What `send_all` has still to write. -/
  outbox : List Byte
  said : List Said
  mark : Option Nat

/-- A step of either. -/
inductive LinkEvent where
  /-- A step of the daemon, a child or another client. -/
  | daemon (e : Event)
  /-- The keyboard. -/
  | user (e : ClientEvent)
  /-- A `read` from the socket. -/
  | recv (n : Nat)
  /-- A `write` of `send_all`. -/
  | write (n : Nat)
  /-- `close(sockfd)`, when the loop is left. -/
  | hangup
  deriving Repr, DecidableEq

/-- The events of a session's own connection, which are its client's. -/
def Event.isPeer (sid : Nat) : Event → Bool
  | .accept i | .peerSend i _ | .peerRecv i _ | .peerClose i => i = sid
  | _ => false

/-- A `read` from the socket. -/
def ClientEvent.isRecv : ClientEvent → Bool
  | .recv _ => true
  | _ => false

variable (sid : Nat)

/-- The client's session. -/
def Link.sess (l : Link) : Sess := l.system.world.sess sid

/-- No bytes are in flight in either direction. -/
def Link.quiet (l : Link) : Bool :=
  l.outbox = [] ∧ (l.sess sid).wire.pending = [] ∧ (l.sess sid).recvd = (l.sess sid).sent.length

/-- A step of the client on its connection. -/
def Link.peer (l : Link) (e : Event) : Link :=
  { l with system := { l.system with world := l.system.world.env e } }

/-- The messages of one event of the client. -/
def Link.say (l : Link) (c : Client) (out : List Sent) : Link :=
  { l with
    client := c
    outbox := out.flatMap fun s => s.msg.bytes
    said := l.said ++ out.map fun s => ⟨s, l.quiet sid⟩
    mark := if hasCmd out then some (l.sess sid).recvd else l.mark }

/-- What the client reads next, up to `n + 1` bytes. -/
def Link.next (l : Link) (n : Nat) : List Byte :=
  (((l.sess sid).sent.drop (l.sess sid).recvd).take (n + 1)).map Prod.snd

/-- The step. -/
def Link.step (l : Link) : LinkEvent → Option Link
  | .daemon e =>
    if e.isPeer sid then none
    else (l.system.step e).map fun S => { l with system := S }
  | .user e =>
    if l.outbox = [] ∧ e.isRecv = false then
      (l.client.step e).map fun x => l.say sid x.1 x.2
    else none
  | .recv n =>
    if l.outbox = [] then
      (l.client.step (.recv (l.next sid n))).map fun x =>
        { l.peer (.peerRecv sid (l.next sid n).length) with client := x.1 }
    else none
  | .write n =>
    if l.outbox = [] then none
    else some { l.peer (.peerSend sid (l.outbox.take (n + 1))) with
      outbox := l.outbox.drop (n + 1) }
  | .hangup =>
    if l.client.done ∧ l.outbox = [] then some (l.peer (.peerClose sid)) else none

/-- A sequence of steps. -/
def Link.run (l : Link) (evs : List LinkEvent) : Option Link := evs.foldlM (Link.step sid) l

/-- A client that has just been accepted. -/
def Link.start (S : System) : Link := ⟨S, Client.start, [], [], none⟩

/-- The states a client and its session can be in. -/
def Linked (l : Link) : Prop :=
  ∃ S S' evs, Reachable S ∧ S.step (.accept sid) = some S' ∧ (Link.start S').run sid evs = some l

variable {sid} {l l' : Link}

theorem Linked.step {e : LinkEvent} (h : Linked sid l) (hstep : l.step sid e = some l') :
    Linked sid l' := by
  obtain ⟨S, S', evs, hS, haccept, hrun⟩ := h
  refine ⟨S, S', evs ++ [e], hS, haccept, ?_⟩
  rw [Link.run, foldlM_append]
  exact bind_eq_some_iff.mpr ⟨l, hrun, by simpa using hstep⟩

/-- **Induction over the states of a link.** -/
theorem Linked.induction {P : Link → Prop}
    (hstart : ∀ S S', Reachable S → S.step (.accept sid) = some S' → P (Link.start S'))
    (hstep : ∀ l e l', Linked sid l → P l → l.step sid e = some l' → P l') (h : Linked sid l) :
    P l := by
  obtain ⟨S, S', evs, hS, haccept, hrun⟩ := h
  have := foldlM_invariant (P := fun l => Linked sid l ∧ P l)
    (fun l e l' hl hs => ⟨hl.1.step hs, hstep l e l' hl.1 hl.2 hs⟩)
    ⟨⟨S, S', [], hS, haccept, rfl⟩, hstart S S' hS haccept⟩ hrun
  exact this.2

theorem Link.step_cases {e : LinkEvent} (h : l.step sid e = some l') :
    (∃ e S', e.isPeer sid = false ∧ l.system.step e = some S' ∧ l' = { l with system := S' }) ∨
    (∃ e c out, l.outbox = [] ∧ e.isRecv = false ∧ l.client.step e = some (c, out) ∧
      l' = l.say sid c out) ∨
    (∃ n c out, l.client.step (.recv (l.next sid n)) = some (c, out) ∧
      l' = { l.peer (.peerRecv sid (l.next sid n).length) with client := c }) ∨
    (∃ n, l' = { l.peer (.peerSend sid (l.outbox.take n)) with outbox := l.outbox.drop n }) ∨
    l' = l.peer (.peerClose sid) := by
  cases e with
  | daemon e =>
    simp only [Link.step, ite_none_left_eq_some, Bool.not_eq_true] at h
    obtain ⟨he, h⟩ := h
    obtain ⟨S', hS, rfl⟩ := map_eq_some_iff.mp h
    exact .inl ⟨e, S', he, hS, rfl⟩
  | user e =>
    simp only [Link.step, ite_none_right_eq_some] at h
    obtain ⟨⟨ho, he⟩, h⟩ := h
    obtain ⟨⟨c, out⟩, hc, rfl⟩ := map_eq_some_iff.mp h
    exact .inr (.inl ⟨e, c, out, ho, he, hc, rfl⟩)
  | recv n =>
    simp only [Link.step, ite_none_right_eq_some] at h
    obtain ⟨⟨c, out⟩, hc, rfl⟩ := map_eq_some_iff.mp h.2
    exact .inr (.inr (.inl ⟨n, c, out, hc, rfl⟩))
  | write n =>
    simp only [Link.step, ite_none_left_eq_some, some.injEq] at h
    exact .inr (.inr (.inr (.inl ⟨n + 1, h.2.symm⟩)))
  | hangup =>
    simp only [Link.step, ite_none_right_eq_some, some.injEq] at h
    exact .inr (.inr (.inr (.inr h.2.symm)))

/-! ## The session's side -/

/-- What the daemon and its children do to a connection: they write more, and take lines. The
newline of a line that has not been taken is still there. -/
structure Sess.Own (x x' : Sess) : Prop where
  sent : x.sent <+: x'.sent
  recvd : x'.recvd = x.recvd
  heard : x'.heard = x.heard
  taken : x.taken <+: x'.taken
  line : (nl ∈ x.mem.input.inbuf.bytes ++ x.wire.pending →
      nl ∈ x'.mem.input.inbuf.bytes ++ x'.wire.pending) ∨
    ∃ t ∈ x'.taken, t.shell = x.shell.length

variable {x x' : Sess}

theorem Sess.Own.congr (hs : x.sent <+: x'.sent) (hr : x'.recvd = x.recvd) (hh : x'.heard = x.heard)
    (ht : x'.taken = x.taken) (hi : x'.mem.input.inbuf = x.mem.input.inbuf)
    (hw : x'.wire.pending = x.wire.pending) : x.Own x' :=
  ⟨hs, hr, hh, ht ▸ prefix_rfl, .inl (by rw [hi, hw]; exact id)⟩

theorem own_fill {cut : Cut} {r : Int} {c : Conn} (hnl : nl ∉ x.mem.input.inbuf.bytes)
    (h : bufFill ⟨x.mem.input, x.wire⟩ cut = some (r, c)) :
    x.Own { x with mem.input := c.input, wire := c.wire } := by
  refine ⟨prefix_rfl, rfl, rfl, prefix_rfl, .inl fun hm => ?_⟩
  by_cases hf : x.mem.input.inbuf.full
  · -- an overlong line is dropped, and it has no newline
    simp only [bufFill, if_pos hf, some.injEq, Prod.mk.injEq] at h
    obtain ⟨-, rfl⟩ := h
    exact mem_append_right _ ((mem_append.mp hm).resolve_left hnl)
  · have hst := bufFill_stream (c := ⟨x.mem.input, x.wire⟩) hf h
    rw [Conn.stream, Conn.stream] at hst
    show nl ∈ c.input.inbuf.bytes ++ c.wire.pending
    rw [hst]
    exact hm

theorem own_act {o : Op} {r : o.Res} {v : View} (hv : v.jobs = x.mem.jobs)
    (hi : v.inbuf = x.mem.input.inbuf.bytes) (hpre : View.pre o v) (h : Sess.act o x r x') :
    x.Own x' := by
  cases o with
  | load =>
    rw [h.2]
    exact .congr prefix_rfl rfl rfl rfl rfl rfl
  | store f =>
    cases h
    exact .congr prefix_rfl rfl rfl rfl (congrArg Input.inbuf (hpre x.mem hv.symm).input) rfl
  | quit site =>
    cases h
    exact .congr prefix_rfl rfl rfl rfl rfl rfl
  | takeLine site =>
    cases r with
    | none =>
      rw [h.2]
      exact .congr prefix_rfl rfl rfl rfl rfl rfl
    | some line =>
      obtain ⟨b, -, rfl⟩ := h
      exact ⟨prefix_rfl, rfl, rfl, prefix_append _ _,
        .inr ⟨_, mem_append_right _ (mem_singleton.mpr rfl), rfl⟩⟩
  | fill site =>
    obtain ⟨cut, c, hf, rfl⟩ := h
    exact own_fill (hi ▸ hpre.1) hf
  | write out bs =>
    cases r with
    | wrote n =>
      cases h
      exact .congr (prefix_append _ _) rfl rfl rfl rfl rfl
    | fail e =>
      cases h
      exact .congr prefix_rfl rfl rfl rfl rfl rfl
  | _ =>
    rcases h with rfl | ⟨e, rfl⟩
    · exact .congr prefix_rfl rfl rfl rfl rfl rfl
    · exact .congr prefix_rfl rfl rfl rfl rfl rfl

theorem Sess.Own.refl (x : Sess) : x.Own x := .congr prefix_rfl rfl rfl rfl rfl rfl

theorem own_setSess {w : World} {i : Nat} (hi : i ≠ sid) (y : Sess) :
    (w.sess sid).Own ((w.setSess i y).sess sid) := by
  rw [show (w.setSess i y).sess sid = w.sess sid from if_neg (Ne.symm hi)]
  exact .refl _

theorem own_env {w : World} {e : Event} (he : e.isPeer sid = false) :
    (w.sess sid).Own ((w.env e).sess sid) := by
  cases e with
  | accept i | peerSend i bs | peerRecv i n | peerClose i =>
      exact own_setSess (of_decide_eq_false he) _
  | output i bs =>
    by_cases hi : i = sid
    · subst hi
      refine .congr ?_ ?_ ?_ ?_ ?_ ?_ <;>
        rw [show ((w.env (.output i bs)).sess i) = _ from sess_setSess_self _]
      exact prefix_append _ _
    · exact own_setSess hi _
  | _ => exact .refl _

theorem Reachable.own {S S' : System} {e : Event} (h : Reachable S) (he : e.isPeer sid = false)
    (hstep : S.step e = some S') : (S.world.sess sid).Own (S'.world.sess sid) := by
  rcases System.step_cases hstep with ⟨i, rfl, -, rfl⟩ | ⟨i, ch, p, p', w', rfl, ht, hp, rfl⟩ |
    ⟨-, rfl⟩
  · exact own_setSess (of_decide_eq_false he) _
  · rcases Prog.step_cases hp with ⟨o, k, r, rfl, hx, -⟩ | rfl
    · by_cases hi : i = sid
      · subst hi
        exact own_act rfl rfl (h.inv.threads.head ht) (exec_local hx).own
      · show (S.world.sess sid).Own (w'.sess sid)
        rw [(exec_local hx).others sid (Ne.symm hi)]
        exact .refl _
    · exact .refl _
  · exact own_env he

/-! ## The client's side -/

theorem sess_peer_self {e : Event} {y : Sess}
    (h : l.system.world.env e = l.system.world.setSess sid y) :
    (l.peer e).sess sid = y := by
  show (l.system.world.env e).sess sid = y
  rw [h]
  exact sess_setSess_self y

theorem Linked.reachable (h : Linked sid l) : Reachable l.system := by
  refine h.induction (P := fun l => Reachable l.system) (fun S S' hS ha => hS.step ha) ?_
  intro l e l' _ hl hstep
  rcases Link.step_cases hstep with ⟨e, S', -, hS, rfl⟩ | ⟨e, c, out, -, -, -, rfl⟩ |
    ⟨n, c, out, -, rfl⟩ | ⟨n, rfl⟩ | rfl
  · exact hl.step hS
  · exact hl
  · exact hl.step (e := .peerRecv sid (l.next sid n).length) rfl
  · exact hl.step (e := .peerSend sid (l.outbox.take n)) rfl
  · exact hl.step (e := .peerClose sid) rfl

/-! ## The invariant -/

/-- How many of the first `n` bytes to the client the session wrote itself. -/
def Sess.shellAt (x : Sess) (n : Nat) : Nat :=
  ((x.sent.take n).filter fun b => b.1 = .shell).length

/-- The bytes of a message with its newline, if there was room for it. -/
def Said.Whole (s : Said) : Prop := nl ∈ s.sent.msg.bytes

/-- The invariant. -/
structure Link.Inv (sid : Nat) (l : Link) : Prop where
  recvd : (l.sess sid).recvd ≤ (l.sess sid).sent.length
  tail : l.client.tail =
    pushTail promptTail (((l.sess sid).sent.take (l.sess sid).recvd).map Prod.snd)
  mark : ∀ m, l.mark = some m → m ≤ (l.sess sid).recvd
  flag : l.client.prompt = true ↔
    (∀ m, l.mark = some m → m < (l.sess sid).recvd) ∧ atPrompt l.client.tail = true
  clean : l.client.done = true ∨ nl ∉ l.client.inbuf.bytes
  stream : (l.sess sid).heard ++ l.outbox = l.said.flatMap fun s => s.sent.msg.bytes
  newline : ∀ s ∈ l.said, nl ∉ s.sent.msg.body
  /-- The last command is under way, or a line has been taken since it was sent. -/
  owed : (∀ s ∈ l.said, s.sent.msg.kind = .cmd → s.Whole) → ∀ m, l.mark = some m →
    nl ∈ (l.sess sid).mem.input.inbuf.bytes ++ (l.sess sid).wire.pending ++ l.outbox ∨
      ∃ t ∈ (l.sess sid).taken, (l.sess sid).shellAt m ≤ t.shell

theorem shellAt_of_prefix {m : Nat} (h : x.sent <+: x'.sent) (hm : m ≤ x.sent.length) :
    x'.shellAt m = x.shellAt m := by
  obtain ⟨more, hmore⟩ := h
  rw [Sess.shellAt, ← hmore, take_append_of_le_length hm, Sess.shellAt]

theorem shellAt_le (x : Sess) (m : Nat) : x.shellAt m ≤ x.shell.length := by
  rw [Sess.shell, length_map]
  exact ((take_sublist m x.sent).filter _).length_le

theorem Link.Inv.start {S S' : System} (h : S.step (.accept sid) = some S') :
    (Link.start S').Inv sid := by
  have hsess : (Link.start S').sess sid = Sess.create := by
    rcases System.step_cases h with ⟨i, he, -, rfl⟩ | ⟨_, _, _, _, _, he, -⟩ | ⟨he, -⟩
    · cases he
      exact sess_setSess_self _
    · cases he
    · exact absurd rfl (he sid)
  have hmark : (Link.start S').mark = none := rfl
  refine ⟨?_, ?_, ?_, ?_, .inr not_mem_nil, ?_, by simp [Link.start], ?_⟩
  · rw [hsess]
    exact le_rfl
  · rw [hsess]
    rfl
  · rw [hmark]
    simp
  · rw [hmark]
    exact iff_of_true rfl ⟨by simp, rfl⟩
  · rw [hsess]
    rfl
  · rw [hmark]
    simp

theorem Link.Inv.daemon {S' : System} (h : l.Inv sid) (ho : (l.sess sid).Own (S'.world.sess sid)) :
    ({ l with system := S' } : Link).Inv sid := by
  have hlen := ho.sent.length_le
  refine ⟨?_, ?_, ?_, ?_, h.clean, ?_, h.newline, ?_⟩
  · show (S'.world.sess sid).recvd ≤ (S'.world.sess sid).sent.length
    rw [ho.recvd]
    exact h.recvd.trans hlen
  · show l.client.tail = pushTail promptTail
      (((S'.world.sess sid).sent.take (S'.world.sess sid).recvd).map Prod.snd)
    obtain ⟨more, hmore⟩ := ho.sent
    rw [ho.recvd, ← hmore, take_append_of_le_length h.recvd]
    exact h.tail
  · show ∀ m, l.mark = some m → m ≤ (S'.world.sess sid).recvd
    rw [ho.recvd]
    exact h.mark
  · show _ ↔ (∀ m, l.mark = some m → m < (S'.world.sess sid).recvd) ∧ _
    rw [ho.recvd]
    exact h.flag
  · show (S'.world.sess sid).heard ++ l.outbox = _
    rw [ho.heard]
    exact h.stream
  · intro hw m hm
    have hsame : (S'.world.sess sid).shellAt m = (l.sess sid).shellAt m :=
      shellAt_of_prefix ho.sent ((h.mark m hm).trans h.recvd)
    show nl ∈ (S'.world.sess sid).mem.input.inbuf.bytes ++ _ ++ l.outbox ∨
      ∃ t ∈ (S'.world.sess sid).taken, (S'.world.sess sid).shellAt m ≤ t.shell
    rw [hsame]
    rcases ho.line with hline | ⟨t, ht, hshell⟩
    · rcases h.owed hw m hm with hn | ⟨t, ht, hle⟩
      · refine .inl ((mem_append.mp hn).elim (fun hn => ?_) fun hn => ?_)
        · exact mem_append_left _ (hline hn)
        · exact mem_append_right _ hn
      · exact .inr ⟨t, ho.taken.subset ht, hle⟩
    · exact .inr ⟨t, ht, hshell ▸ shellAt_le _ m⟩

theorem nl_mem_of_hasCmd {out : List Sent} {q : Bool} (hc : hasCmd out = true)
    (hw : ∀ s ∈ out.map (Said.mk · q), s.sent.msg.kind = .cmd → s.Whole) :
    nl ∈ out.flatMap fun s => s.msg.bytes := by
  obtain ⟨s, hs, hk⟩ := any_eq_true.mp hc
  exact mem_flatMap.mpr ⟨s, hs, hw _ (mem_map_of_mem hs) (of_decide_eq_true hk)⟩

/-- The client sends: a command clears the flag and is now the one that is owed an answer. -/
theorem Link.Inv.user {c : Client} {out : List Sent} (h : l.Inv sid) (ho : l.outbox = [])
    (hs : l.client.Sends c out) (hc : c.done = true ∨ nl ∉ c.inbuf.bytes) :
    (l.say sid c out).Inv sid := by
  refine ⟨h.recvd, hs.tail.trans h.tail, fun m hm => ?_, ?_, hc, ?_, fun s hm => ?_,
    fun hw m hm => ?_⟩
  · by_cases hcmd : hasCmd out = true
    · rw [Link.say, if_pos hcmd] at hm
      exact Nat.le_of_eq (some.inj hm).symm
    · rw [Link.say, if_neg hcmd] at hm
      exact h.mark m hm
  · show c.prompt = true ↔ _ ∧ atPrompt c.tail = true
    rw [hs.prompt, hs.tail]
    by_cases hcmd : hasCmd out = true
    · rw [hcmd, Bool.not_true, Bool.and_false]
      refine iff_of_false (by decide) fun hall => Nat.lt_irrefl _ (hall.1 (l.sess sid).recvd ?_)
      exact if_pos hcmd
    · have hmark : (l.say sid c out).mark = l.mark := if_neg hcmd
      rw [Bool.not_eq_true] at hcmd
      rw [hcmd, Bool.not_false, Bool.and_true, hmark]
      exact h.flag
  · show (l.sess sid).heard ++ out.flatMap _ = (l.said ++ out.map _).flatMap _
    have hstream := h.stream
    rw [ho, append_nil] at hstream
    rw [flatMap_append, flatMap_map, ← hstream]
  · rcases mem_append.mp hm with hm | hm
    · exact h.newline s hm
    · obtain ⟨s', hs', rfl⟩ := mem_map.mp hm
      exact hs.newline s' hs'
  · by_cases hcmd : hasCmd out = true
    · exact .inl (mem_append_right _
        (nl_mem_of_hasCmd hcmd fun s hs => hw s (mem_append_right _ hs)))
    · rw [Link.say, if_neg hcmd] at hm
      rcases h.owed (fun s hs => hw s (mem_append_left _ hs)) m hm with hn | ht
      · rw [ho, append_nil] at hn
        exact .inl (mem_append_left _ hn)
      · exact .inr ht

/-- The client receives: its flag is what the last three bytes say. -/
theorem Link.Inv.recv {n : Nat} (h : l.Inv sid) (hne : l.next sid n ≠ []) :
    ({ l.peer (.peerRecv sid (l.next sid n).length) with client := l.client.recv (l.next sid n) } :
      Link).Inv sid := by
  have hsess : (l.peer (.peerRecv sid (l.next sid n).length)).sess sid =
      (l.sess sid).peerRecv (l.next sid n).length := sess_peer_self rfl
  have hlen : (l.next sid n).length ≤ (l.sess sid).sent.length - (l.sess sid).recvd := by
    rw [Link.next, length_map, length_take, length_drop]
    exact Nat.min_le_right _ _
  have hrecvd : ((l.sess sid).peerRecv (l.next sid n).length).recvd =
      (l.sess sid).recvd + (l.next sid n).length := by
    have := h.recvd
    exact Nat.min_eq_left (by omega)
  have hpos := length_pos_iff.mpr hne
  -- what has been received so far, and what is received now
  have hbytes : ((l.sess sid).sent.take ((l.sess sid).recvd + (l.next sid n).length)).map Prod.snd =
      ((l.sess sid).sent.take (l.sess sid).recvd).map Prod.snd ++ l.next sid n := by
    rw [take_add, map_append, Link.next, length_map, ← prefix_iff_eq_take.mp (List.take_prefix _ _)]
  refine ⟨?_, ?_, fun m hm => ?_, ?_, h.clean, ?_, h.newline, ?_⟩
  · show ((l.peer _).sess sid).recvd ≤ ((l.peer _).sess sid).sent.length
    rw [hsess, hrecvd]
    show _ ≤ (l.sess sid).sent.length
    have := h.recvd
    omega
  · show pushTail l.client.tail (l.next sid n) =
      pushTail promptTail
        ((((l.peer _).sess sid).sent.take ((l.peer _).sess sid).recvd).map Prod.snd)
    rw [hsess, hrecvd]
    show _ = pushTail promptTail (((l.sess sid).sent.take _).map Prod.snd)
    rw [hbytes, pushTail_append, ← h.tail]
  · show m ≤ ((l.peer _).sess sid).recvd
    rw [hsess, hrecvd]
    exact (h.mark m hm).trans (Nat.le_add_right _ _)
  · refine (and_iff_right fun m hm => ?_).symm
    show m < ((l.peer _).sess sid).recvd
    rw [hsess, hrecvd]
    have := h.mark m hm
    omega
  · show ((l.peer _).sess sid).heard ++ l.outbox = _
    rw [hsess]
    exact h.stream
  · show _ → ∀ m, l.mark = some m → nl ∈ ((l.peer _).sess sid).mem.input.inbuf.bytes ++
      ((l.peer _).sess sid).wire.pending ++ l.outbox ∨
        ∃ t ∈ ((l.peer _).sess sid).taken, ((l.peer _).sess sid).shellAt m ≤ t.shell
    rw [hsess]
    exact h.owed

theorem Link.Inv.write (h : l.Inv sid) (n : Nat) :
    ({ l.peer (.peerSend sid (l.outbox.take n)) with outbox := l.outbox.drop n } : Link).Inv
      sid := by
  have hsess : (l.peer (.peerSend sid (l.outbox.take n))).sess sid =
      (l.sess sid).peerSend (l.outbox.take n) := sess_peer_self rfl
  refine ⟨?_, ?_, ?_, ?_, h.clean, ?_, h.newline, ?_⟩
  · show ((l.peer _).sess sid).recvd ≤ ((l.peer _).sess sid).sent.length
    rw [hsess]
    exact h.recvd
  · show l.client.tail =
      pushTail promptTail
        ((((l.peer _).sess sid).sent.take ((l.peer _).sess sid).recvd).map Prod.snd)
    rw [hsess]
    exact h.tail
  · show ∀ m, l.mark = some m → m ≤ ((l.peer _).sess sid).recvd
    rw [hsess]
    exact h.mark
  · show _ ↔ (∀ m, l.mark = some m → m < ((l.peer _).sess sid).recvd) ∧ _
    rw [hsess]
    exact h.flag
  · show ((l.peer _).sess sid).heard ++ l.outbox.drop n = _
    rw [hsess]
    show (l.sess sid).heard ++ l.outbox.take n ++ l.outbox.drop n = _
    rw [append_assoc, take_append_drop]
    exact h.stream
  · show _ → ∀ m, l.mark = some m → nl ∈ ((l.peer _).sess sid).mem.input.inbuf.bytes ++
      ((l.peer _).sess sid).wire.pending ++ l.outbox.drop n ∨
        ∃ t ∈ ((l.peer _).sess sid).taken, ((l.peer _).sess sid).shellAt m ≤ t.shell
    rw [hsess]
    show _ → ∀ m, l.mark = some m → nl ∈ (l.sess sid).mem.input.inbuf.bytes ++
      ((l.sess sid).wire.pending ++ l.outbox.take n) ++ l.outbox.drop n ∨ _
    rw [append_assoc, append_assoc, take_append_drop, ← append_assoc]
    exact h.owed

theorem Link.Inv.close (h : l.Inv sid) : (l.peer (.peerClose sid)).Inv sid := by
  have hsess : (l.peer (.peerClose sid)).sess sid = (l.sess sid).peerClose := sess_peer_self rfl
  refine ⟨?_, ?_, ?_, ?_, h.clean, ?_, h.newline, ?_⟩ <;> rw [hsess]
  · exact h.recvd
  · exact h.tail
  · exact h.mark
  · exact h.flag
  · exact h.stream
  · exact h.owed

/-- **Every state of a link.** -/
theorem Linked.inv (h : Linked sid l) : l.Inv sid := by
  refine h.induction (P := fun l => l.Inv sid) (fun S S' _ ha => .start ha) ?_
  intro l e l' hl ih hstep
  rcases Link.step_cases hstep with ⟨e, S', he, hS, rfl⟩ | ⟨e, c, out, ho, he, hc, rfl⟩ |
    ⟨n, c, out, hc, rfl⟩ | ⟨n, rfl⟩ | rfl
  · exact ih.daemon (hl.reachable.own he hS)
  · rcases Client.step_cases ih.clean hc with ⟨bs, rfl, -⟩ | ⟨-, hs, hclean⟩
    · cases he
    · exact ih.user ho hs hclean
  · rcases Client.step_cases ih.clean hc with ⟨bs, hbs, hne, rfl, -⟩ | ⟨hnot, -⟩
    · cases hbs
      exact ih.recv hne
    · exact absurd rfl (hnot _)
  · exact ih.write n
  · exact ih.close

end SystemProg.Yashd
