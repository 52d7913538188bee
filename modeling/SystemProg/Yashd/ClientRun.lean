import SystemProg.Yashd.LineBuffer

/-!
# The client's loop and its events

`client_run` (`client/src/client.c:165-281`) has two models. `Loop` has the bytes of `inbuf` and the
order of the source; `Client`, which the protocol's properties are proved about, has a buffer that
cannot overflow and events that come in any order.

* `Sim s c out`: the variables of the loop `s` are those of the client `c`, and its messages have
  the bytes of `out`: `send_msg` reads a line up to its first NUL.
* A turn is up to four events: two signals, the socket and stdin. A `break` is the event `leave`; an
  interrupted call is no event.

Headline: `client_run_refines`. Whatever the loop has done, the events allow.
-/

namespace SystemProg.Yashd

open Text SystemProg.Seq Data List

/-- A state that the events can lead to, and all that has been sent. -/
inductive Client.Reach : Client → List Sent → Prop
  | start : Client.Reach .start []
  | step {c c' : Client} {out new : List Sent} {e : ClientEvent} : Client.Reach c out →
      c.step e = some (c', new) → Client.Reach c' (out ++ new)

/-- The flag a message was sent under, its kind, and the bytes handed to `send_all`. -/
def Sent.written (m : Sent) : Bool × Kind × List Byte := (m.flag, m.msg.kind, m.msg.bytes)

theorem written_congr {flag : Bool} {kind : Kind} {a b : List Byte} (h : cstr a = cstr b) :
    Sent.written ⟨flag, kind, a⟩ = Sent.written ⟨flag, kind, b⟩ := by
  simp only [Sent.written, Msg.bytes, sendMsg, h]

theorem cstr_cstr (l : List Byte) : cstr (cstr l) = cstr l :=
  cstr_of_not_mem fun h => by simpa using mem_takeWhile_imp h

theorem Client.sendLine_inbuf (c : Client) (line : List Byte) :
    (c.sendLine line).1.inbuf = c.inbuf := by
  unfold Client.sendLine
  split
  · split <;> rfl
  · rfl

namespace Loop

/-- Besides the buffer and the ends of the loop, the variables are the client's. -/
structure Like (s : Loop) (c : Client) (out : List Sent) : Prop where
  tail : s.tail = c.tail
  prompt : s.prompt = c.prompt
  stdinOpen : s.stdinOpen = c.stdinOpen
  sent : s.sent.map Sent.written = out.map Sent.written

/-- The loop is where the client is. -/
structure Sim (s : Loop) (c : Client) (out : List Sent) : Prop extends Like s c out where
  holds : Holds s c.inbuf.bytes
  done : c.done = (s.done || s.left)

variable {s s' : Loop} {c : Client} {out : List Sent} {a b bs : List Byte}

theorem Like.sent_concat (h : Like s c out) {m m' : Sent} (hm : m.written = m'.written) :
    (s.sent ++ [m]).map Sent.written = (out ++ [m']).map Sent.written := by
  simp only [map_append, h.sent, map_cons, hm, map_nil]

/-! ## Passing on lines -/

theorem sendLine_like (h : Like s c out) (h0 : 0 ∈ s.inbuf) (hline : cstr s.inbuf = cstr a)
    (hdone : c.done = false) :
    wp sendLine (fun r s' => Like s' (c.sendLine a).1 (out ++ (c.sendLine a).2) ∧
      (c.sendLine a).1.done = r ∧ s'.left = s.left ∧ s'.inbuf = s.inbuf) s := by
  have hbody : cstr (cstr s.inbuf) = cstr a := by rw [cstr_cstr, hline]
  refine wp_get (wp_assert h0 (wp_modify ?_))
  cases hp : c.prompt with
  | true =>
    have hs : s.prompt = true := h.prompt.trans hp
    rw [if_pos hs, Client.sendLine, if_pos hp]
    by_cases hq : cstr s.inbuf = str "quit"
    · rw [if_pos hq, if_pos (hline ▸ hq)]
      refine wp_modify (wp_pure ⟨⟨h.tail, h.prompt, h.stdinOpen, ?_⟩, rfl, rfl, rfl⟩)
      rw [append_nil]
      exact h.sent
    · rw [if_neg hq, if_neg (hline ▸ hq)]
      refine wp_modify (wp_modify (wp_pure ⟨⟨h.tail, rfl, h.stdinOpen, ?_⟩, hdone, rfl, rfl⟩))
      rw [← hs]
      exact h.sent_concat (written_congr hbody)
  | false =>
    have hs : s.prompt = false := h.prompt.trans hp
    rw [if_neg (by simp [hs]), Client.sendLine, if_neg (by simp [hp])]
    refine wp_modify (wp_pure ⟨⟨h.tail, h.prompt, h.stdinOpen, ?_⟩, hdone, rfl, rfl⟩)
    rw [← hs]
    exact h.sent_concat (written_congr hbody)

/-- The client after it has sent the line `a` that its buffer starts with. -/
def afterLine (c : Client) (a : List Byte) : Client :=
  { (c.sendLine a).1 with inbuf := (c.sendLine a).1.inbuf.drop (a.length + 1) }

theorem afterLine_bytes (hbuf : c.inbuf.bytes = a ++ nl :: b) :
    (afterLine c a).inbuf.bytes = b := by
  show (c.sendLine a).1.inbuf.bytes.drop (a.length + 1) = b
  rw [Client.sendLine_inbuf, hbuf, drop_length_add_append, drop_succ_cons, drop_zero]

theorem sendLines_line (hdone : c.done = false) (ha : nl ∉ a)
    (hbuf : c.inbuf.bytes = a ++ nl :: b) (fuel : Nat) :
    c.sendLines (fuel + 1) = (((afterLine c a).sendLines fuel).1,
      (c.sendLine a).2 ++ ((afterLine c a).sendLines fuel).2) := by
  have htake : c.inbuf.bytes.take a.length = a := by rw [hbuf, take_left]
  rw [Client.sendLines, if_neg (by simp [hdone]), newline_eq_some ha hbuf]
  dsimp only
  rw [htake]
  rfl

theorem takeLine_sim (h : Sim s c out) (hleft : s.left = false) (hdone : c.done = false)
    (hbuf : c.inbuf.bytes = a ++ nl :: b) :
    wp (takeLine a.length) (fun _ s' => Sim s' (afterLine c a) (out ++ (c.sendLine a).2) ∧
      s'.left = false) s := by
  have hholds : Holds s (a ++ nl :: b) := hbuf ▸ h.holds
  have hlen := hholds.inlen
  have hfits := hholds.fits
  rw [length_append, length_cons] at hlen hfits
  have ha : a.length < s.inbuf.length := by rw [hholds.size]; omega
  have hline : cstr (s.inbuf.set a.length 0) = cstr a := by
    have htake : s.inbuf.take a.length = a := by
      have := congrArg (List.take a.length) hholds.take
      rwa [take_take, Nat.min_eq_left (by omega), take_left] at this
    rw [cstr_set ha, htake]
  have hlike : Like { s with inbuf := s.inbuf.set a.length 0 } c out :=
    ⟨h.tail, h.prompt, h.stdinOpen, h.sent⟩
  -- what is left in the buffer is known from the memory alone
  obtain ⟨_, s', hrun, r, htook⟩ := takeLine_spec hholds
  refine wp_of_eq hrun ?_
  refine of_wp (Q := fun _ s' => ∀ r, Took s s' a b r → Sim s' (afterLine c a)
    (out ++ (c.sendLine a).2) ∧ s'.left = false) ?_ hrun r htook
  refine wp_call (terminate_eq ha) (wp_bind
    (sendLine_like hlike (mem_set ha 0) hline hdone) fun r s1 ⟨h1, hr, hl, _⟩ => ?_)
  refine wp_of_eq modify_eq fun _ htook => ⟨⟨⟨h1.tail, h1.prompt, h1.stdinOpen, h1.sent⟩, ?_, ?_⟩,
    hl.trans hleft⟩
  · rw [afterLine_bytes hbuf]
    exact htook.holds
  · show (c.sendLine a).1.done = (r || s1.left)
    rw [hl.trans hleft, hr, Bool.or_false]

theorem Holds.inlen_le (h : Holds s a) : s.inlen ≤ s.inbuf.length := by
  rw [h.inlen, h.size]
  exact h.fits

theorem sendLines_stop (h : Sim s c out) (hleft : s.left = false)
    (hstop : s.done = true ∨ nl ∉ c.inbuf.bytes) (turns fuel : Nat) :
    sendLines (turns + 1) s = some ((), s) ∧ c.sendLines fuel = (c, []) := by
  have hdone : c.done = s.done := by rw [h.done, hleft, Bool.or_false]
  cases hd : s.done with
  | true =>
    refine ⟨by rw [sendLines, get_bind, if_pos hd]; rfl, ?_⟩
    cases fuel <;> simp [Client.sendLines, hdone, hd]
  | false =>
    have hnl := hstop.resolve_left (by simp [hd])
    refine ⟨sendLines_idle turns hd h.holds.inlen_le (h.holds.take.symm ▸ hnl), ?_⟩
    cases fuel <;> simp [Client.sendLines, newline_eq_none.mpr hnl]

/-- The loops over the complete lines pass on the same. -/
theorem sendLines_sim {fuel : Nat} (h : Sim s c out) (hleft : s.left = false)
    (hfuel : c.inbuf.bytes.length ≤ fuel) :
    wp (sendLines (fuel + 1)) (fun _ s' =>
      Sim s' (c.sendLines fuel).1 (out ++ (c.sendLines fuel).2)) s := by
  induction fuel generalizing s c out with
  | zero =>
    have hnil : c.inbuf.bytes = [] := eq_nil_of_length_eq_zero (Nat.le_zero.mp hfuel)
    obtain ⟨hrun, hc⟩ := sendLines_stop h hleft (.inr (by simp [hnil])) 0 0
    exact wp_of_eq hrun (by rwa [hc, append_nil])
  | succ fuel ih =>
    by_cases hstop : s.done = true ∨ nl ∉ c.inbuf.bytes
    · obtain ⟨hrun, hc⟩ := sendLines_stop h hleft hstop (fuel + 1) (fuel + 1)
      exact wp_of_eq hrun (by rwa [hc, append_nil])
    · obtain ⟨hd, hnl⟩ := not_or.mp hstop
      have hdone : c.done = false := by simpa [hleft, hd] using h.done
      obtain ⟨a, b, hbuf, ha⟩ := eq_append_cons_of_mem (not_not.mp hnl)
      rw [hbuf, length_append, length_cons] at hfuel
      refine wp_get ?_
      rw [if_neg hd, sendLines_line hdone ha hbuf, ← append_assoc]
      refine wp_assert h.holds.inlen_le ?_
      rw [h.holds.take, hbuf, findIdx_newline ha]
      refine wp_bind (takeLine_sim h hleft hdone hbuf) fun _ s1 ⟨h1, hl⟩ => ih h1 hl ?_
      rw [afterLine_bytes hbuf]
      omega

theorem flush_sim (h : Sim s c out) :
    Sim s.flush (if c.inbuf.full then { c with inbuf := .empty } else c) out := by
  have hfull : s.inlen = yashBufSize ↔ c.inbuf.full := by
    rw [h.holds.inlen]
    rfl
  unfold flush
  by_cases hf : c.inbuf.full
  · rw [if_pos (hfull.mpr hf), if_pos hf]
    exact ⟨⟨h.tail, h.prompt, h.stdinOpen, h.sent⟩, ⟨h.holds.size, rfl, rfl⟩, h.done⟩
  · rw [if_neg (mt hfull.mp hf), if_neg hf]
    exact h

theorem onData_sim (h : Sim s c out) (hleft : s.left = false)
    (hbs : s.inlen + bs.length ≤ yashBufSize) :
    wp (onData bs) (fun _ s' => Sim s' (c.stdin bs).1 (out ++ (c.stdin bs).2)) s := by
  have hlen := h.holds.inlen
  have hsize := h.holds.size
  have hpush : (c.inbuf.push bs).bytes = c.inbuf.bytes ++ bs := by
    have htake : bs.take (yashBufSize - c.inbuf.bytes.length) = bs :=
      take_of_length_le (by omega)
    simp only [InBuf.push, htake]
  have hread : Sim { s with
      inbuf := splice s.inbuf s.inlen bs
      inlen := s.inlen + bs.length
      reads := s.reads ++ [bs] } { c with inbuf := c.inbuf.push bs } out := by
    refine ⟨⟨h.tail, h.prompt, h.stdinOpen, h.sent⟩, ?_, h.done⟩
    show Holds _ (c.inbuf.push bs).bytes
    rw [hpush]
    exact h.holds.push (by omega) _
  have hfuel : (c.inbuf.push bs).bytes.length = s.inlen + bs.length := by
    rw [hpush, length_append, hlen]
  refine wp_get (wp_assert (by omega) (wp_modify ?_))
  refine wp_bind (sendLines_sim hread hleft (Nat.le_of_eq hfuel)) fun _ s1 h1 => ?_
  rw [Client.stdin, hfuel]
  exact wp_of_eq modify_eq (flush_sim h1)

/-! ## The end of the input -/

/-- What has been typed before an end of file is sent. -/
def sentRest (c : Client) : Client × List Sent :=
  if c.inbuf.bytes = [] then (c, [])
  else ({ (c.sendLine c.inbuf.bytes).1 with inbuf := .empty }, (c.sendLine c.inbuf.bytes).2)

theorem eof_eq (c : Client) (tty : Bool) : c.eof tty =
    (if (sentRest c).1.prompt then { (sentRest c).1 with done := true }
      else if tty then (sentRest c).1
      else { (sentRest c).1 with stdinOpen := false },
      (sentRest c).2 ++ [⟨(sentRest c).1.prompt, .ctl, [ctlEof]⟩]) := by
  unfold Client.eof sentRest
  by_cases hnil : c.inbuf.bytes = []
  · simp only [if_pos hnil]
  · simp only [if_neg hnil]

theorem sendRest_sim (h : Sim s c out) (hleft : s.left = false) (hdone : c.done = false)
    (hroom : s.inlen < yashBufSize) :
    wp sendRest (fun _ s' => Sim s' (sentRest c).1 (out ++ (sentRest c).2)) s := by
  refine wp_get ?_
  unfold sentRest
  by_cases hnil : c.inbuf.bytes = []
  · have hzero : s.inlen = 0 := by rw [h.holds.inlen, hnil]; rfl
    rw [if_neg (by omega), if_pos hnil, append_nil]
    exact wp_pure h
  · have hpos : 0 < s.inlen := by rw [h.holds.inlen]; exact length_pos_of_ne_nil hnil
    have hlt : s.inlen < s.inbuf.length := by rw [h.holds.size]; exact hroom
    have hline : cstr (s.inbuf.set s.inlen 0) = cstr c.inbuf.bytes := by
      rw [cstr_set hlt, h.holds.take]
    have hlike : Like { s with inbuf := s.inbuf.set s.inlen 0 } c out :=
      ⟨h.tail, h.prompt, h.stdinOpen, h.sent⟩
    rw [if_pos hpos, if_neg hnil]
    refine wp_call (terminate_eq hlt) (wp_bind
      (sendLine_like hlike (mem_set hlt 0) hline hdone) fun r s1 ⟨h1, hr, hl, hbuf⟩ =>
        wp_of_eq modify_eq ⟨⟨h1.tail, h1.prompt, h1.stdinOpen, h1.sent⟩, ⟨?_, rfl, rfl⟩, ?_⟩)
    · show s1.inbuf.length = yashBufSize
      rw [hbuf, length_set, h.holds.size]
    · show (c.sendLine c.inbuf.bytes).1.done = (r || s1.left)
      rw [hl.trans hleft, hr, Bool.or_false]

theorem onEof_sim (h : Sim s c out) (hleft : s.left = false) (hdone : c.done = false)
    (hroom : s.inlen < yashBufSize) (tty : Bool) :
    wp (onEof tty) (fun _ s' => Sim s' (c.eof tty).1 (out ++ (c.eof tty).2)) s := by
  have hread : Sim { s with reads := s.reads ++ [[]] } c out :=
    ⟨⟨h.tail, h.prompt, h.stdinOpen, h.sent⟩, h.holds.congr rfl rfl, h.done⟩
  refine wp_modify (wp_bind (sendRest_sim hread hleft hdone hroom) fun _ s1 h1 => ?_)
  rw [eof_eq, ← append_assoc]
  have hsent := h1.toLike.sent_concat (m := ⟨(sentRest c).1.prompt, .ctl, [ctlEof]⟩) rfl
  refine wp_modify (wp_of_eq modify_eq ?_)
  dsimp only
  rw [h1.prompt]
  split
  · exact ⟨⟨h1.tail, rfl, h1.stdinOpen, hsent⟩, h1.holds.congr rfl rfl, rfl⟩
  · split
    · exact ⟨⟨h1.tail, rfl, h1.stdinOpen, hsent⟩, h1.holds.congr rfl rfl, h1.done⟩
    · exact ⟨⟨h1.tail, rfl, rfl, hsent⟩, h1.holds.congr rfl rfl, h1.done⟩

/-! ## A turn -/

/-- The events lead to what the loop has come to. -/
def Refined (s : Loop) : Prop := ∃ c out, Client.Reach c out ∧ Sim s c out

/-- The turn goes on, with `n` bytes in the buffer. -/
structure Going (s : Loop) (n : Nat) : Prop where
  refined : Refined s
  done : s.done = false
  left : s.left = false
  inlen : s.inlen = n

theorem Sim.not_done (h : Sim s c out) (hd : s.done = false) (hl : s.left = false) :
    c.done = false := by
  rw [h.done, hd, hl]
  rfl

variable {n : Nat}

theorem onSignal_going (h : Going s n) (flag : Bool) {b : Byte} {e : ClientEvent}
    (he : ∀ c : Client, c.done = false → c.step e = some (c, [⟨c.prompt, .ctl, [b]⟩])) :
    wp (onSignal flag b) (fun _ s' => Going s' n) s := by
  cases flag with
  | false => exact wp_pure h
  | true =>
    obtain ⟨c, out, hr, hs⟩ := h.refined
    have hwritten : Sent.written ⟨s.prompt, .ctl, [b]⟩ = Sent.written ⟨c.prompt, .ctl, [b]⟩ := by
      rw [hs.prompt]
    have hsent := hs.toLike.sent_concat hwritten
    refine wp_of_eq modify_eq ⟨⟨c, _, hr.step (he c (hs.not_done h.done h.left)), ?_⟩,
      h.done, h.left, h.inlen⟩
    exact ⟨⟨hs.tail, hs.prompt, hs.stdinOpen, hsent⟩, hs.holds.congr rfl rfl, hs.done⟩

theorem leave_refined (h : Going s n) : Refined { s with left := true } := by
  obtain ⟨c, out, hr, hs⟩ := h.refined
  have hstep : c.step .leave = some ({ c with done := true }, []) := by
    rw [Client.step, if_neg (by simp [hs.not_done h.done h.left])]
  refine ⟨_, _, hr.step hstep, ⟨hs.tail, hs.prompt, hs.stdinOpen, ?_⟩, hs.holds.congr rfl rfl,
    (Bool.or_true _).symm⟩
  rw [append_nil]
  exact hs.sent

theorem onSocket_going (h : Going s n) (printed : Bool) {res : ReadRes}
    (hres : Answers yashBufSize res) :
    wp (onSocket printed res) (fun r s' => if r then Going s' n else Refined s') s := by
  cases res with
  | data bs =>
    cases printed with
    | true =>
      obtain ⟨c, out, hr, hs⟩ := h.refined
      have hstep : c.step (.recv bs) = some (c.recv bs, []) := by
        rw [Client.step, if_neg (by simp [hs.not_done h.done h.left])]
        exact if_pos hres.1
      have htail : pushTail s.tail bs = pushTail c.tail bs := by rw [hs.tail]
      refine wp_modify (wp_pure ⟨⟨_, _, hr.step hstep, ?_⟩, h.done, h.left, h.inlen⟩)
      rw [append_nil]
      exact ⟨⟨htail, congrArg atPrompt htail, hs.stdinOpen, hs.sent⟩, hs.holds.congr rfl rfl,
        hs.done⟩
    | false => exact wp_modify (wp_pure (leave_refined h))
  | eof => exact wp_modify (wp_pure (leave_refined h))
  | fail e =>
    cases e with
    | eintr => exact wp_pure h.refined
    | other => exact wp_modify (wp_pure (leave_refined h))

theorem onStdin_refined (h : Going s n) (hroom : n < yashBufSize) (hopen : s.stdinOpen = true)
    (tty : Bool) {res : ReadRes} (hres : Answers (yashBufSize - n) res) :
    wp (onStdin tty res) (fun _ s' => Refined s') s := by
  obtain ⟨c, out, hr, hs⟩ := h.refined
  have hdone := hs.not_done h.done h.left
  have hinlen := h.inlen
  have hstdin : c.stdinOpen = true := hs.stdinOpen.symm.trans hopen
  cases res with
  | data bs =>
    obtain ⟨hne, hlen⟩ := hres
    have hbytes := hs.holds.inlen
    have hstep : c.step (.stdin bs) = some (c.stdin bs) := by
      rw [Client.step, if_neg (by simp [hdone])]
      exact if_pos ⟨hstdin, hne, by omega⟩
    exact wp_mono (onData_sim hs h.left (by omega)) fun _ s' h' => ⟨_, _, hr.step hstep, h'⟩
  | eof =>
    have hstep : c.step (.eof tty) = some (c.eof tty) := by
      rw [Client.step, if_neg (by simp [hdone])]
      exact if_pos hstdin
    exact wp_mono (onEof_sim hs h.left hdone (by omega) tty) fun _ s' h' =>
      ⟨_, _, hr.step hstep, h'⟩
  | fail e =>
    cases e with
    | eintr => exact wp_pure h.refined
    | other => exact wp_of_eq modify_eq (leave_refined h)

theorem onReady_refined (h : Going s n) (hroom : n < yashBufSize) (t : Turn)
    {socket stdin : Option ReadRes} (hsocket : ∀ res, socket = some res → Answers yashBufSize res)
    (hstdin : ∀ res, stdin = some res → Answers (yashBufSize - n) res) :
    wp (onReady t socket stdin) (fun _ s' => Refined s') s := by
  refine wp_bind (Q := fun r s' => if r then Going s' n else Refined s') ?_
    fun r s1 h1 => wp_get ?_
  · cases socket with
    | some res => exact onSocket_going h t.printed (hsocket res rfl)
    | none => exact wp_pure h
  have hr : Refined s1 := by
    cases r with
    | true => exact Going.refined h1
    | false => exact h1
  cases stdin with
  | none => exact wp_pure hr
  | some res =>
    dsimp only
    split
    · rename_i hgo
      obtain ⟨rfl, hopen⟩ := hgo
      exact onStdin_refined h1 hroom hopen t.tty (hstdin res rfl)
    · exact wp_pure hr

/-- **One turn** is a sequence of events. -/
theorem turn_refined (h : Going s n) (hroom : n < yashBufSize) {t : Turn} (ht : t.Valid s) :
    wp (turn t) (fun _ s' => Refined s') s := by
  refine wp_bind (onSignal_going (e := .int) h t.gotInt fun c hc => ?_) fun _ s1 h1 =>
    wp_bind (onSignal_going (e := .stop) h1 t.gotStop fun c hc => ?_) fun _ s2 h2 => ?_
  · rw [Client.step, if_neg (by simp [hc])]
  · rw [Client.step, if_neg (by simp [hc])]
  · unfold Turn.Valid at ht
    split
    · exact wp_pure h2.refined
    · exact wp_of_eq modify_eq (leave_refined h2)
    · rename_i socket stdin hselect
      rw [hselect, h.inlen] at ht
      exact onReady_refined h2 hroom t ht.1 ht.2

end Loop

open Loop

/-- **The loop refines the events.** Whatever turns `client_run` has made, there are events that
lead the client to the same prompt flag, received tail, unfinished line and open ends, and that send
messages of the same kinds and bytes, in the same order and under the same flags. -/
theorem client_run_refines {inbuf : List Byte} (hsize : inbuf.length = yashBufSize) {s : Loop}
    (h : Loop.Reach inbuf s) : ∃ c out, Client.Reach c out ∧ Sim s c out := by
  induction h with
  | start => exact ⟨_, _, .start, ⟨rfl, rfl, rfl, rfl⟩, ⟨hsize, rfl, rfl⟩, rfl⟩
  | turn hs hdone hleft ht hrun ih =>
    obtain ⟨l, hl, hroom⟩ := (hs.inv hsize).room
    exact of_wp (turn_refined ⟨ih, hdone, hleft, hl.inlen⟩ hroom ht) hrun

/-- `ls` is typed, and then ctrl-c comes and interrupts `pselect`. -/
theorem client_run_refines_ls : ∃ s c out, Loop.Reach fullBuffer s ∧
    s.sent.map (fun m => m.msg.bytes) = [str "CMD ls\n", str "CTL c\n"] ∧
    Client.Reach c out ∧ Sim s c out := by
  have hread : ((turn (stdinTurn (.data (str "ls\n"))) (start fullBuffer)).map fun r =>
      (r.2.done || r.2.left, r.2.sent.map fun m => m.msg.bytes)) =
        some (false, [str "CMD ls\n"]) := by decide +kernel
  obtain ⟨⟨_, s⟩, hturn, hs⟩ := Option.map_eq_some_iff.mp hread
  obtain ⟨hgo, hsent⟩ := Prod.mk.inj hs
  obtain ⟨hdone, hleft⟩ := Bool.or_eq_false_iff.mp hgo
  have hline : Loop.Reach fullBuffer s := .turn .start rfl rfl
    (stdinTurn_valid (show Answers _ (.data _) from ⟨by decide, by decide⟩)) hturn
  have hr := Reach.turn (t := ⟨true, false, .fail .eintr, true, false⟩) hline hdone hleft trivial
    rfl
  obtain ⟨c, out, hc, hsim⟩ := client_run_refines length_fullBuffer hr
  refine ⟨_, c, out, hr, ?_, hc, hsim⟩
  exact map_append.trans (congrArg (· ++ _) hsent)

end SystemProg.Yashd
