import SystemProg.Yashd.Session

/-!
# The client

Model of `client/src/client.c:97-281`. `client_run` is a loop around `pselect`; what one turn does
is cut into the events of `ClientEvent`, each of which changes the loop's variables (`Client`) and
yields the messages it sends. Between the messages of one event the client does not read from the
server, so they are written one after the other.

* A message is recorded with the prompt flag it was sent under.
* `send_all` writes the bytes of `sendMsg` in any pieces; the pieces are the connection's.
* The descriptor 1 the client prints to is not modelled, nor is the order in which one turn of the
  loop looks at its signals, the socket and stdin: the events come in any order.

Headline: `codec_roundtrip`. The server reads back exactly the messages sent, if and only if each of
them leaves room for its newline in the 4095 bytes that `send_msg` writes.
-/

namespace SystemProg.Yashd

open Text Shell List

/-- The three kinds of message. -/
inductive Kind where
  | text
  | cmd
  | ctl
  deriving Repr, DecidableEq

/-- Its keyword. -/
def Kind.keyword : Kind → List Byte
  | .text => []
  | .cmd => msgCmd
  | .ctl => msgCtl

/-- `send_msg`: the bytes handed to `send_all`. What `snprintf` has no room for is lost, the newline
first. -/
def sendMsg (keyword body : List Byte) : List Byte :=
  let text := keyword ++ cstr body ++ [nl]
  if yashBufSize ≤ text.length then text.take (yashBufSize - 1) else text

/-- A message. -/
structure Msg where
  kind : Kind
  body : List Byte
  deriving Repr, DecidableEq

/-- The line the server is to read. -/
def Msg.line (m : Msg) : List Byte := m.kind.keyword ++ m.body

/-- The bytes sent. -/
def Msg.bytes (m : Msg) : List Byte := sendMsg m.kind.keyword m.body

/-! ## `client_run` -/

/-- `tail[3]`. -/
abbrev Tail := Byte × Byte × Byte

/-- `push_tail`. -/
def pushTail (tail : Tail) (buf : List Byte) : Tail :=
  buf.foldl (fun t b => (t.2.1, t.2.2, b)) tail

/-- The bytes of the prompt: newline, `'#'`, `' '`. -/
def promptTail : Tail := (nl, 35, 32)

/-- `at_prompt`. -/
def atPrompt (tail : Tail) : Bool := tail = promptTail

/-- The variables of `client_run`. -/
structure Client where
  tail : Tail
  inbuf : InBuf
  prompt : Bool
  stdinOpen : Bool
  done : Bool
  deriving Repr, DecidableEq

/-- Before the loop. -/
def Client.start : Client := ⟨promptTail, .empty, true, true, false⟩

/-- A message, and the prompt flag when it was sent. -/
structure Sent where
  flag : Bool
  msg : Msg
  deriving Repr, DecidableEq

/-- `send_line`. The line is read as a C string; what it returns is stored in `done`. -/
def Client.sendLine (c : Client) (line : List Byte) : Client × List Sent :=
  if c.prompt then
    if cstr line = str "quit" then ({ c with done := true }, [])
    else ({ c with prompt := false }, [⟨true, .cmd, line⟩])
  else (c, [⟨false, .text, line⟩])

/-- `memmove(inbuf, inbuf + n, inlen - n)`. -/
def InBuf.drop (b : InBuf) (n : Nat) : InBuf :=
  ⟨b.bytes.drop n, by have := b.fits; rw [length_drop]; omega⟩

/-- The loop over the complete lines of `inbuf`, which holds no more lines than bytes. -/
def Client.sendLines : Nat → Client → Client × List Sent
  | 0, c => (c, [])
  | fuel + 1, c =>
    if c.done then (c, [])
    else
      match c.inbuf.newline with
      | none => (c, [])
      | some i =>
        let (c₁, out) := c.sendLine (c.inbuf.bytes.take i)
        let (c₂, rest) := sendLines fuel { c₁ with inbuf := c₁.inbuf.drop (i + 1) }
        (c₂, out ++ rest)

/-- `read` on stdin has returned `bs`. -/
def Client.stdin (c : Client) (bs : List Byte) : Client × List Sent :=
  let c := { c with inbuf := c.inbuf.push bs }
  let (c, out) := c.sendLines c.inbuf.bytes.length
  -- an overlong line: flush what we have
  (if c.inbuf.full then { c with inbuf := .empty } else c, out)

/-- `read` on stdin has returned 0; `tty` is `isatty`. -/
def Client.eof (c : Client) (tty : Bool) : Client × List Sent :=
  let (c, out) :=
    if c.inbuf.bytes = [] then (c, [])
    else
      let (c, out) := c.sendLine c.inbuf.bytes
      ({ c with inbuf := .empty }, out)
  (if c.prompt then { c with done := true }
    else if tty then c
    else { c with stdinOpen := false },
    out ++ [⟨c.prompt, .ctl, [ctlEof]⟩])

/-- `read` on the socket has returned `bs`. -/
def Client.recv (c : Client) (bs : List Byte) : Client :=
  let tail := pushTail c.tail bs
  { c with tail := tail, prompt := atPrompt tail }

/-- What the client meets. -/
inductive ClientEvent where
  /-- Bytes from the server. -/
  | recv (bs : List Byte)
  /-- Bytes from the keyboard. -/
  | stdin (bs : List Byte)
  /-- Ctrl-d. -/
  | eof (tty : Bool)
  /-- Ctrl-c. -/
  | int
  /-- Ctrl-z. -/
  | stop
  /-- A call has failed, or the server is gone: the loop is left. -/
  | leave
  deriving Repr, DecidableEq

/-- One event, and the messages it sends; `none` if the client is not waiting for it. -/
def Client.step (c : Client) (e : ClientEvent) : Option (Client × List Sent) :=
  if c.done then none
  else
    match e with
    | .recv bs => if bs ≠ [] then some (c.recv bs, []) else none
    | .stdin bs =>
      if c.stdinOpen ∧ bs ≠ [] ∧ c.inbuf.bytes.length + bs.length ≤ yashBufSize then
        some (c.stdin bs)
      else none
    | .eof tty => if c.stdinOpen then some (c.eof tty) else none
    | .int => some (c, [⟨c.prompt, .ctl, [ctlInt]⟩])
    | .stop => some (c, [⟨c.prompt, .ctl, [ctlStop]⟩])
    | .leave => some ({ c with done := true }, [])

/-! ## What an event sends -/

/-- Whether there is a command among the messages. -/
def hasCmd (out : List Sent) : Bool := out.any fun s => s.msg.kind = .cmd

/-- What the client does other than receiving: a command clears its flag and nothing else changes
it, and no message has a newline inside. -/
structure Client.Sends (c c' : Client) (out : List Sent) : Prop where
  tail : c'.tail = c.tail
  prompt : c'.prompt = (c.prompt && !hasCmd out)
  newline : ∀ s ∈ out, nl ∉ s.msg.body

section Sends

variable {c c₁ c' : Client} {out rest : List Sent}

theorem Client.Sends.same (ht : c'.tail = c.tail) (hp : c'.prompt = c.prompt) : c.Sends c' [] :=
  ⟨ht, by rw [hp]; exact (Bool.and_true _).symm, by simp⟩

theorem Client.Sends.trans (h : c.Sends c₁ out) (h' : c₁.Sends c' rest) :
    c.Sends c' (out ++ rest) := by
  refine ⟨h'.tail.trans h.tail, ?_, fun s hs => (mem_append.mp hs).elim (h.newline s)
    (h'.newline s)⟩
  rw [h'.prompt, h.prompt, hasCmd, hasCmd, hasCmd, any_append, Bool.not_or, Bool.and_assoc]

theorem Client.Sends.ctl (c : Client) (b : Byte) (hb : b ≠ nl) (flag : Bool) :
    c.Sends c [⟨flag, .ctl, [b]⟩] := by
  refine ⟨rfl, (Bool.and_true _).symm, fun s hs hm => ?_⟩
  rw [mem_singleton.mp hs] at hm
  exact hb (mem_singleton.mp hm).symm

theorem Client.sendLine_sends {line : List Byte} (hl : nl ∉ line) :
    c.Sends (c.sendLine line).1 (c.sendLine line).2 := by
  unfold Client.sendLine
  split
  · split
    · exact .same rfl rfl
    · exact ⟨rfl, (Bool.and_false _).symm, fun s hs => by rwa [mem_singleton.mp hs]⟩
  · exact ⟨rfl, (Bool.and_true _).symm, fun s hs => by rwa [mem_singleton.mp hs]⟩

theorem nl_not_mem_take {b : InBuf} {i : Nat} (h : b.newline = some i) : nl ∉ b.bytes.take i := by
  by_cases hm : nl ∈ b.bytes
  · obtain ⟨a, r, hb, ha⟩ := eq_append_cons_of_mem hm
    obtain rfl : a.length = i := Option.some.inj ((newline_eq_some ha hb).symm.trans h)
    rwa [hb, take_left]
  · exact fun ht => hm (mem_of_mem_take ht)

theorem Client.sendLines_sends :
    ∀ (fuel : Nat) (c : Client), c.Sends (sendLines fuel c).1 (sendLines fuel c).2
  | 0, _ => .same rfl rfl
  | fuel + 1, c => by
    unfold Client.sendLines
    split
    · exact .same rfl rfl
    split
    · exact .same rfl rfl
    · rename_i i hi
      have hline := Client.sendLine_sends (c := c) (nl_not_mem_take hi)
      have hrest := Client.sendLines_sends fuel
        { (c.sendLine (c.inbuf.bytes.take i)).1 with
          inbuf := (c.sendLine (c.inbuf.bytes.take i)).1.inbuf.drop (i + 1) }
      exact hline.trans ⟨hrest.tail, hrest.prompt, hrest.newline⟩

/-- The loop is left with no complete line in the buffer, or with `done`. -/
theorem Client.sendLines_clean :
    ∀ (fuel : Nat) (c : Client), c.inbuf.bytes.length ≤ fuel →
      (sendLines fuel c).1.done = true ∨ nl ∉ (sendLines fuel c).1.inbuf.bytes
  | 0, c, h => .inr (by rw [sendLines, eq_nil_of_length_eq_zero (Nat.le_zero.mp h)]; simp)
  | fuel + 1, c, h => by
    unfold Client.sendLines
    split
    · rename_i hd
      exact .inl hd
    split
    · rename_i hnone
      exact .inr (newline_eq_none.mp hnone)
    · rename_i i hi
      refine Client.sendLines_clean fuel _ ?_
      have hbuf : (c.sendLine (c.inbuf.bytes.take i)).1.inbuf = c.inbuf := by
        unfold Client.sendLine
        split
        · split <;> rfl
        · rfl
      show ((c.sendLine (c.inbuf.bytes.take i)).1.inbuf.bytes.drop (i + 1)).length ≤ fuel
      rw [hbuf, length_drop]
      omega

theorem Client.stdin_sends (bs : List Byte) :
    c.Sends (c.stdin bs).1 (c.stdin bs).2 ∧
      ((c.stdin bs).1.done = true ∨ nl ∉ (c.stdin bs).1.inbuf.bytes) := by
  have hsends :=
    Client.sendLines_sends (c.inbuf.push bs).bytes.length { c with inbuf := c.inbuf.push bs }
  have hclean := Client.sendLines_clean (c.inbuf.push bs).bytes.length
    { c with inbuf := c.inbuf.push bs } le_rfl
  unfold Client.stdin
  dsimp only
  split
  · exact ⟨⟨hsends.tail, hsends.prompt, hsends.newline⟩, .inr not_mem_nil⟩
  · exact ⟨⟨hsends.tail, hsends.prompt, hsends.newline⟩, hclean⟩

theorem Client.eof_sends (hc : nl ∉ c.inbuf.bytes) (tty : Bool) :
    c.Sends (c.eof tty).1 (c.eof tty).2 ∧ nl ∉ (c.eof tty).1.inbuf.bytes := by
  have hd : ctlEof ≠ nl := by decide
  -- the flag is left alone after the line has been sent
  have hend : ∀ (c₁ : Client) (out : List Sent), c.Sends c₁ out → nl ∉ c₁.inbuf.bytes →
      c.Sends (if c₁.prompt then { c₁ with done := true } else if tty then c₁
        else { c₁ with stdinOpen := false }) (out ++ [⟨c₁.prompt, .ctl, [ctlEof]⟩]) ∧
      nl ∉ (if c₁.prompt then { c₁ with done := true } else if tty then c₁
        else { c₁ with stdinOpen := false }).inbuf.bytes := by
    intro c₁ out h hc₁
    have h := h.trans (.ctl c₁ ctlEof hd c₁.prompt)
    split
    · exact ⟨⟨h.tail, h.prompt, h.newline⟩, hc₁⟩
    split
    · exact ⟨h, hc₁⟩
    · exact ⟨⟨h.tail, h.prompt, h.newline⟩, hc₁⟩
  unfold Client.eof
  by_cases hb : c.inbuf.bytes = []
  · rw [if_pos hb]
    exact hend c [] (.same rfl rfl) hc
  · rw [if_neg hb]
    have hline := Client.sendLine_sends (c := c) hc
    exact hend { (c.sendLine c.inbuf.bytes).1 with inbuf := .empty } _
      ⟨hline.tail, hline.prompt, hline.newline⟩ not_mem_nil

/-- **One event of the client.** -/
theorem Client.step_cases {e : ClientEvent} (hc : c.done = true ∨ nl ∉ c.inbuf.bytes)
    (h : c.step e = some (c', out)) :
    (∃ bs, e = .recv bs ∧ bs ≠ [] ∧ c' = c.recv bs ∧ out = []) ∨
      ((∀ bs, e ≠ .recv bs) ∧ c.Sends c' out ∧ (c'.done = true ∨ nl ∉ c'.inbuf.bytes)) := by
  unfold Client.step at h
  split at h
  · cases h
  rename_i hd
  have hc := hc.resolve_left hd
  cases e with
  | recv bs =>
    simp only [Option.ite_none_right_eq_some] at h
    obtain ⟨hbs, h⟩ := h
    cases h
    exact .inl ⟨bs, rfl, hbs, rfl, rfl⟩
  | stdin bs =>
    simp only [Option.ite_none_right_eq_some, Option.some.injEq] at h
    have hs := Client.stdin_sends (c := c) bs
    rw [h.2] at hs
    exact .inr ⟨by simp, hs⟩
  | eof tty =>
    simp only [Option.ite_none_right_eq_some, Option.some.injEq] at h
    have hs := Client.eof_sends hc tty
    rw [h.2] at hs
    exact .inr ⟨by simp, hs.1, .inr hs.2⟩
  | int | stop =>
    cases h
    exact .inr ⟨by simp, .ctl c _ (by decide) _, .inr hc⟩
  | leave =>
    cases h
    exact .inr ⟨by simp, .same rfl rfl, .inl rfl⟩

end Sends

/-! ## The last three bytes -/

theorem pushTail_append (t : Tail) (a b : List Byte) :
    pushTail t (a ++ b) = pushTail (pushTail t a) b := foldl_append

theorem pushTail_suffix (t : Tail) (bs : List Byte) :
    [(pushTail t bs).1, (pushTail t bs).2.1, (pushTail t bs).2.2] <:+ [t.1, t.2.1, t.2.2] ++
      bs := by
  induction bs generalizing t with
  | nil => exact suffix_rfl
  | cons b bs ih => exact (ih (t.2.1, t.2.2, b)).trans (suffix_cons _ _)

/-- The client is at the prompt if the bytes received so far, after those it assumes, end with
it. -/
theorem atPrompt_iff (bs : List Byte) :
    atPrompt (pushTail promptTail bs) = true ↔ yashPrompt <:+ yashPrompt ++ bs := by
  have hsuf := pushTail_suffix promptTail bs
  rw [atPrompt, decide_eq_true_eq]
  constructor
  · intro h
    rw [h] at hsuf
    exact hsuf
  · intro h
    have heq := (suffix_of_suffix_length_le hsuf h le_rfl).eq_of_length rfl
    generalize pushTail promptTail bs = t at heq
    obtain ⟨a, b, c⟩ := t
    cases (show [a, b, c] = [nl, 35, 32] from heq)
    rfl

/-! ## Messages on the wire -/

/-- What the client's line buffer can make a message of: at most 4095 characters, without newline,
NUL or carriage return at the end. -/
structure Msg.Typed (m : Msg) : Prop where
  short : m.body.length ≤ 4095
  newline : nl ∉ m.body
  nul : 0 ∉ m.body
  cr : m.body.getLast? ≠ some cr

variable {m : Msg} {ms : List Msg}

theorem nl_not_mem_keyword (k : Kind) : nl ∉ k.keyword := by
  cases k <;> decide

theorem Msg.Typed.nl_not_mem_line (h : m.Typed) : nl ∉ m.line := by
  rw [Msg.line, mem_append]
  exact fun hm => hm.elim (nl_not_mem_keyword _) h.newline

theorem Msg.Typed.stripCr_line (h : m.Typed) : stripCr m.line = m.line := by
  refine if_neg ?_
  rw [Msg.line, getLast?_append]
  cases hb : m.body.getLast? with
  | some b => exact fun he => h.cr (hb.trans he)
  | none => cases m.kind <;> decide

/-- A message that leaves room for its newline is sent whole. -/
theorem Msg.Typed.bytes_of_fits (h : m.Typed) (hf : m.line.length ≤ 4094) :
    m.bytes = m.line ++ [nl] := by
  rw [Msg.bytes, sendMsg, cstr_of_not_mem h.nul]
  refine if_neg ?_
  rw [length_append, length_singleton]
  exact Nat.not_le.mpr (Nat.lt_succ_of_le (Nat.succ_le_succ hf))

theorem Msg.Typed.bytes_of_not_fits (h : m.Typed) (hf : ¬ m.line.length ≤ 4094) :
    m.bytes = m.line.take 4095 := by
  rw [Msg.bytes, sendMsg, cstr_of_not_mem h.nul]
  have hlen : yashBufSize ≤ (m.kind.keyword ++ m.body ++ [nl]).length := by
    rw [length_append, length_singleton]
    exact Nat.succ_le_succ (Nat.lt_of_not_le hf)
  rw [if_pos hlen]
  exact take_append_of_le_length (Nat.lt_of_not_le hf)

theorem count_bytes (h : m.Typed) :
    m.bytes.count nl = if m.line.length ≤ 4094 then 1 else 0 := by
  split
  · rename_i hf
    rw [h.bytes_of_fits hf, count_append, count_eq_zero_of_not_mem h.nl_not_mem_line]
    rfl
  · rename_i hf
    rw [h.bytes_of_not_fits hf]
    exact count_eq_zero_of_not_mem fun hm => h.nl_not_mem_line (mem_of_mem_take hm)

/-- As many newlines go over the wire as there are messages with room for one. -/
theorem count_flatMap_bytes (h : ∀ m ∈ ms, m.Typed) :
    (ms.flatMap Msg.bytes).count nl = ms.countP fun m => m.line.length ≤ 4094 := by
  induction ms with
  | nil => rfl
  | cons m ms ih =>
    rw [flatMap_cons, count_append, count_bytes (h m mem_cons_self),
      ih fun m' hm => h m' (mem_cons_of_mem m hm), countP_cons, Nat.add_comm]
    simp only [decide_eq_true_eq]

theorem flatMap_bytes (h : ∀ m ∈ ms, m.Typed) (hf : ∀ m ∈ ms, m.line.length ≤ 4094) :
    ms.flatMap Msg.bytes = (ms.map Msg.line).flatMap fun l => l ++ [nl] := by
  rw [flatMap_map]
  exact flatMap_congr fun m hm => (h m hm).bytes_of_fits (hf m hm)

/-- The lines sent are the lines of the stream, and nothing follows them. -/
theorem frames_of_typed (h : ∀ m ∈ ms, m.Typed) :
    lines nl ((ms.map Msg.line).flatMap fun l => l ++ [nl]) = ms.map Msg.line ∧
      remainder nl ((ms.map Msg.line).flatMap fun l => l ++ [nl]) = [] := by
  refine frames_of_terminated fun l hl => ?_
  obtain ⟨m, hm, rfl⟩ := mem_map.mp hl
  exact (h m hm).nl_not_mem_line

/-- **The wire codec.** The messages a client sends, delivered in any pieces to a session with an
empty buffer, are read back as exactly their lines with nothing left over, if and only if each
message (keyword and body) has at most 4094 bytes. -/
theorem codec_roundtrip (h : ∀ m ∈ ms, m.Typed) (closed : Bool) (e : Errno) :
    (∀ cuts, .error ∉ cuts → (ms.flatMap Msg.bytes).length ≤ reads cuts → ∃ cuts' c,
      readLines yashBufSize (ms.length + 1) cuts ⟨⟨.empty, e⟩, ⟨ms.flatMap Msg.bytes, closed⟩⟩ =
        (ms.map Msg.line, cuts', c) ∧ c.input.inbuf.bytes = [] ∧ c.wire.pending = []) ↔
    ∀ m ∈ ms, m.line.length ≤ 4094 := by
  constructor
  · intro hread
    obtain ⟨cuts', c, hread, -⟩ := hread
      (List.replicate (ms.flatMap Msg.bytes).length (.upTo 0)) (by simp)
      (Nat.le_of_eq (reads_replicate _ _).symm)
    -- every line that is read back has used up a newline
    have hcount : (ms.map Msg.line).length ≤ (ms.flatMap Msg.bytes).count nl := by
      have := length_readLines_le le_rfl (ms.length + 1)
        (List.replicate (ms.flatMap Msg.bytes).length (.upTo 0))
        ⟨⟨.empty, e⟩, ⟨ms.flatMap Msg.bytes, closed⟩⟩
      rwa [hread] at this
    rw [length_map, count_flatMap_bytes h] at hcount
    have hall := countP_eq_length.mp (Nat.le_antisymm countP_le_length hcount)
    exact fun m hm => by simpa using hall m hm
  · intro hf cuts herr hr
    rw [flatMap_bytes h hf] at hr ⊢
    obtain ⟨hlines, hend⟩ := frames_of_typed h
    have hs : Short (Conn.stream ⟨⟨.empty, e⟩,
        ⟨(ms.map Msg.line).flatMap fun l => l ++ [nl], closed⟩⟩) := by
      intro r hr
      change r ∈ lines nl ((ms.map Msg.line).flatMap fun l => l ++ [nl]) at hr
      rw [hlines] at hr
      obtain ⟨m, hm, rfl⟩ := mem_map.mp hr
      exact Nat.lt_of_le_of_lt (hf m hm) (by decide)
    have he : ShortEnd ((ms.map Msg.line).flatMap fun l => l ++ [nl]) := by
      rw [ShortEnd, hend]
      exact Nat.zero_lt_succ _
    rcases hread : readLines yashBufSize (ms.length + 1) cuts
      ⟨⟨.empty, e⟩, ⟨(ms.map Msg.line).flatMap fun l => l ++ [nl], closed⟩⟩ with ⟨ls, cuts', c⟩
    obtain ⟨hls, hrest⟩ := readLines_spec le_rfl hs hread
    obtain ⟨hlen, hpend⟩ := readLines_returns le_rfl hs herr hr hread
    simp only [Conn.stream, InBuf.empty, nil_append, hlines, length_map]
      at hls hrest hlen hpend
    have hall : (ms.map Msg.line).take ls.length = ms.map Msg.line :=
      take_of_length_le (by rw [length_map]; omega)
    rw [hall] at hls hrest
    have hp : c.wire.pending = [] := hpend he (Nat.lt_succ_self _)
    have hb := append_right_eq_self.mp (hrest he).1
    refine ⟨cuts', c, ?_, (append_eq_nil_iff.mp hb).1, hp⟩
    rw [hls, map_map]
    congr 1
    exact map_congr_left fun m hm => (h m hm).stripCr_line

theorem readLines_of_count {bs : List Byte} (h : bs.count nl = 0) (k : Nat) (cuts : List Cut)
    (closed : Bool) (e : Errno) :
    (readLines yashBufSize k cuts ⟨⟨.empty, e⟩, ⟨bs, closed⟩⟩).1 = [] := by
  have hle := length_readLines_le le_rfl k cuts ⟨⟨.empty, e⟩, ⟨bs, closed⟩⟩
  rw [Conn.stream, InBuf.empty, nil_append, h] at hle
  exact length_eq_zero_iff.mp (Nat.le_zero.mp hle)

theorem codec_roundtrip_ls :
    ∃ cuts' c, readLines yashBufSize 2 (List.replicate 10 (.upTo 0))
      ⟨⟨.empty, .other⟩, ⟨(⟨.cmd, str "ls"⟩ : Msg).bytes, false⟩⟩ = ([str "CMD ls"], cuts', c) := by
  have htyped : ∀ m ∈ [(⟨.cmd, str "ls"⟩ : Msg)], m.Typed := by
    rintro m (_ | ⟨_, ⟨⟩⟩)
    exact ⟨by decide, by decide, by decide, by decide⟩
  obtain ⟨cuts', c, hread, -⟩ := (codec_roundtrip htyped false .other).mpr (by decide)
    (List.replicate 10 (.upTo 0)) (by decide) (by decide)
  exact ⟨cuts', c, hread⟩

/-- A typed line of 4091 characters, sent as a command, goes out without newline. The server, which
has read all of it, is still waiting for the end of the line. -/
theorem long_command_unread :
    (⟨.cmd, List.replicate 4091 97⟩ : Msg).Typed ∧
    (readLines yashBufSize 2 (List.replicate 4095 (.upTo 4095))
      ⟨⟨.empty, .other⟩, ⟨sendMsg msgCmd (List.replicate 4091 97), false⟩⟩).1 = [] := by
  have htyped : (⟨.cmd, List.replicate 4091 97⟩ : Msg).Typed := by
    refine ⟨?_, ?_, ?_, ?_⟩
    · rw [length_replicate]
      decide
    · exact fun hm => absurd (eq_of_mem_replicate hm) (by decide)
    · exact fun hm => absurd (eq_of_mem_replicate hm) (by decide)
    · exact fun he => absurd (eq_of_mem_replicate (mem_of_getLast? he)) (by decide)
  have hcount : (sendMsg msgCmd (List.replicate 4091 97)).count nl = 0 := by
    refine (count_bytes htyped).trans (if_neg ?_)
    rw [Msg.line, length_append, length_replicate]
    decide
  exact ⟨htyped, readLines_of_count hcount 2 _ false .other⟩

end SystemProg.Yashd
