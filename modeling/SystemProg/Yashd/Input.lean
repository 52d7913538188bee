import SystemProg.Text.CString
import SystemProg.Text.Lines

/-!
# The session's line input

Model of the input half of `server/src/session.c:95-158`: `s->inbuf[0..inlen)` is `InBuf`, which
cannot outgrow the array. `buf_take_line` pops one line, `buf_fill` appends what one `read` returns,
and `session_readsocket` alternates between the two until a line, the end of the stream or an error.

* A line is the bytes the function leaves in `line` before the terminator it writes. Its callers
  read it as a C string, so they see it up to the first NUL (`cstr`).
* `errno` is kept between calls: after `buf_fill` has dropped a full buffer no system call has
  failed, and `session_readsocket` then tests the value an earlier call left.
* The kernel is a script, one `Cut` for each `buf_fill`: how much of what has arrived one `read`
  hands over, or how it fails. When the script ends, or nothing has arrived on an open connection,
  the call is blocked.

Headline: `readsocket_frames`. Whatever the script, repeated calls return the lines of the stream.
-/

namespace SystemProg.Yashd

open Text List Option

/-- `YASH_BUF_SIZE` (`protocol.h:28`). -/
def yashBufSize : Nat := 4096

/-- `'\n'`. -/
def nl : Byte := 10

/-- `'\r'`. -/
def cr : Byte := 13

/-- `errno`, as far as the daemon looks at it. -/
inductive Errno where
  | eintr
  | other
  deriving Repr, DecidableEq

/-- `s->inbuf[0..inlen)`. -/
structure InBuf where
  bytes : List Byte
  fits : bytes.length ≤ yashBufSize
  deriving Repr, DecidableEq

/-- `inlen == 0`. -/
def InBuf.empty : InBuf := ⟨[], Nat.zero_le _⟩

/-- `inlen == sizeof inbuf`. -/
def InBuf.full (b : InBuf) : Prop := b.bytes.length = yashBufSize

instance (b : InBuf) : Decidable b.full :=
  inferInstanceAs (Decidable (b.bytes.length = yashBufSize))

/-- `memchr(s->inbuf, '\n', s->inlen)`, as an index. -/
def InBuf.newline (b : InBuf) : Option Nat := b.bytes.findIdx? (· == nl)

/-- One trailing carriage return is overwritten by NUL. -/
def stripCr (l : List Byte) : List Byte := if l.getLast? = some cr then l.dropLast else l

theorem InBuf.fits_drop (b : InBuf) (i : Nat) : (b.bytes.drop i).length ≤ yashBufSize := by
  have := b.fits
  rw [length_drop]
  omega

/-- `buf_take_line` into a `line` of `n` bytes. -/
def bufTakeLine (b : InBuf) (n : Nat) : Option (List Byte × InBuf) :=
  match b.newline with
  | none => none
  | some i =>
    let len := if n ≤ i then n - 1 else i
    some (stripCr (b.bytes.take len), ⟨b.bytes.drop (i + 1), b.fits_drop (i + 1)⟩)

/-- What `read` returns: `n > 0` bytes, 0 at the end of the stream, or -1 with `errno`. -/
inductive ReadRes where
  | data (bs : List Byte)
  | eof
  | fail (e : Errno)
  deriving Repr, DecidableEq

/-- How the kernel answers one `read`: at most `n + 1` of the bytes that have arrived, or a
failure. -/
inductive Cut where
  | upTo (n : Nat)
  | eintr
  | error
  deriving Repr, DecidableEq

/-- The inbound half of a connection: the bytes sent and not yet read, and whether the peer has
closed its end. -/
structure Inbound where
  pending : List Byte
  closed : Bool
  deriving Repr, DecidableEq

/-- `read(cfd, _, room)`. It blocks while nothing has arrived on an open connection. -/
def Inbound.read (w : Inbound) (room : Nat) : Cut → Option (ReadRes × Inbound)
  | .eintr => some (.fail .eintr, w)
  | .error => some (.fail .other, w)
  | .upTo n =>
    if w.pending = [] then
      if w.closed then some (.eof, w) else none
    else
      let m := min (n + 1) room
      some (.data (w.pending.take m), { w with pending := w.pending.drop m })

/-- The part of `session_t` that input touches, with the thread's `errno`. -/
structure Input where
  inbuf : InBuf
  errno : Errno
  deriving Repr, DecidableEq

/-- Appending bytes, never past the end of the array. -/
def InBuf.push (b : InBuf) (bs : List Byte) : InBuf :=
  ⟨b.bytes ++ bs.take (yashBufSize - b.bytes.length), by
    have := b.fits
    rw [length_append, length_take]
    omega⟩

/-- A session's input and the connection it reads from. -/
structure Conn where
  input : Input
  wire : Inbound
  deriving Repr, DecidableEq

/-- `buf_fill`: the value returned and the state after it, or `none` while `read` blocks. -/
def bufFill (c : Conn) (cut : Cut) : Option (Int × Conn) :=
  if c.input.inbuf.full then
    -- a line longer than the buffer: drop it
    some (-1, { c with input.inbuf := .empty })
  else
    match c.wire.read (yashBufSize - c.input.inbuf.bytes.length) cut with
    | none => none
    | some (.data bs, w) => some (bs.length, ⟨{ c.input with inbuf := c.input.inbuf.push bs }, w⟩)
    | some (.eof, w) => some (0, { c with wire := w })
    | some (.fail e, w) => some (-1, ⟨{ c.input with errno := e }, w⟩)

/-- How a call of `session_readsocket` ends: 1 with a line, 0, -1, or not at all. -/
inductive Ret where
  | line (l : List Byte)
  | closed
  | error
  | blocked
  deriving Repr, DecidableEq

/-- `session_readsocket` into a `line` of `n` bytes, with what it leaves of the script. -/
def sessionReadsocket (n : Nat) (cuts : List Cut) (c : Conn) : Ret × List Cut × Conn :=
  match bufTakeLine c.input.inbuf n with
  | some (line, b) => (.line line, cuts, { c with input.inbuf := b })
  | none =>
    match cuts with
    | [] => (.blocked, [], c)
    | cut :: cuts =>
      match bufFill c cut with
      | none => (.blocked, cuts, c)
      | some (r, c') =>
        if r = 0 then (.closed, cuts, c')
        else if r < 0 ∧ c'.input.errno ≠ .eintr then (.error, cuts, c')
        else sessionReadsocket n cuts c'
termination_by structural cuts

/-- At most `k` calls of `session_readsocket`, the next one made only after a line: the lines they
return, what they leave of the script, and the state after them. -/
def readLines (n : Nat) : Nat → List Cut → Conn → List (List Byte) × List Cut × Conn
  | 0, cuts, c => ([], cuts, c)
  | k + 1, cuts, c =>
    match sessionReadsocket n cuts c with
    | (.line l, cuts, c) =>
      let (ls, cuts, c) := readLines n k cuts c
      (l :: ls, cuts, c)
    | (_, cuts, c) => ([], cuts, c)

/-! ## One line, one read -/

/-- The bytes of the stream that no call has returned yet. -/
def Conn.stream (c : Conn) : List Byte := c.input.inbuf.bytes ++ c.wire.pending

theorem newline_eq_none {b : InBuf} : b.newline = none ↔ nl ∉ b.bytes := by
  rw [InBuf.newline, findIdx?_eq_none_iff]
  simp only [beq_eq_false_iff_ne]
  exact ⟨fun h hm => h nl hm rfl, fun h x hx e => h (e ▸ hx)⟩

theorem newline_eq_some {b : InBuf} {a r : List Byte} (ha : nl ∉ a) (hb : b.bytes = a ++ nl :: r) :
    b.newline = some a.length := by
  have hnone : a.findIdx? (· == nl) = none :=
    findIdx?_eq_none_iff.mpr fun x hx => beq_eq_false_iff_ne.mpr fun e => ha (e ▸ hx)
  rw [InBuf.newline, hb, findIdx?_append, hnone, findIdx?_cons]
  simp

/-- A newline in the buffer is at an index of the array. -/
theorem newline_lt {b : InBuf} {i : Nat} (h : b.newline = some i) : i < yashBufSize := by
  obtain ⟨hi, -⟩ := findIdx?_eq_some_iff_getElem.mp h
  exact Nat.lt_of_lt_of_le hi b.fits

theorem bufTakeLine_eq_none {b : InBuf} {n : Nat} : bufTakeLine b n = none ↔ nl ∉ b.bytes := by
  rw [← newline_eq_none]
  unfold bufTakeLine
  split <;> simp [*]

theorem bufTakeLine_eq_some {b : InBuf} {n : Nat} (hn : yashBufSize ≤ n) {a r : List Byte}
    (ha : nl ∉ a) (hb : b.bytes = a ++ nl :: r) :
    ∃ b', bufTakeLine b n = some (stripCr a, b') ∧ b'.bytes = r := by
  have hnew := newline_eq_some ha hb
  have hlt : ¬ n ≤ a.length := by have := newline_lt hnew; omega
  refine ⟨⟨b.bytes.drop (a.length + 1), ?_⟩, ?_, ?_⟩
  · have := b.fits
    rw [length_drop]
    omega
  · have htake : b.bytes.take a.length = a := by rw [hb, take_left]
    simp only [bufTakeLine, hnew, if_neg hlt, htake]
  · show b.bytes.drop (a.length + 1) = r
    rw [hb, ← drop_drop, drop_left, drop_one, tail_cons]

theorem bufTakeLine_inv {b b' : InBuf} {n : Nat} (hn : yashBufSize ≤ n) {l : List Byte}
    (h : bufTakeLine b n = some (l, b')) :
    ∃ raw, nl ∉ raw ∧ b.bytes = raw ++ nl :: b'.bytes ∧ l = stripCr raw := by
  by_cases hm : nl ∈ b.bytes
  · obtain ⟨raw, r, hb, hraw⟩ := eq_append_cons_of_mem hm
    obtain ⟨b₁, htake, rfl⟩ := bufTakeLine_eq_some hn hraw hb
    rw [htake] at h
    cases h
    exact ⟨raw, hraw, hb, rfl⟩
  · rw [bufTakeLine_eq_none.mpr hm] at h
    exact absurd h (by simp)

theorem push_bytes {b : InBuf} {bs : List Byte} (h : bs.length ≤ yashBufSize - b.bytes.length) :
    (b.push bs).bytes = b.bytes ++ bs := by
  simp only [InBuf.push, take_of_length_le h]

/-- What a `buf_fill` that reads can do: it moves a non-empty part of what has arrived into the
buffer, finds the stream at its end, or fails. -/
theorem bufFill_cases {c c' : Conn} {cut : Cut} {r : Int} (hf : ¬ c.input.inbuf.full)
    (h : bufFill c cut = some (r, c')) :
    (0 < r ∧ c'.input.errno = c.input.errno ∧ ∃ x, x ≠ [] ∧ c.wire.pending = x ++ c'.wire.pending ∧
      c'.input.inbuf.bytes = c.input.inbuf.bytes ++ x) ∨
    (r = 0 ∧ c.wire.pending = [] ∧ c' = c) ∨
    (r = -1 ∧ cut = .eintr ∧ c' = { c with input.errno := .eintr }) ∨
    (r = -1 ∧ cut = .error ∧ c' = { c with input.errno := .other }) := by
  have hroom : 0 < yashBufSize - c.input.inbuf.bytes.length := by
    have := c.input.inbuf.fits
    have hne : c.input.inbuf.bytes.length ≠ yashBufSize := hf
    omega
  simp only [bufFill, if_neg hf] at h
  cases cut with
  | eintr => cases h; exact .inr (.inr (.inl ⟨rfl, rfl, rfl⟩))
  | error => cases h; exact .inr (.inr (.inr ⟨rfl, rfl, rfl⟩))
  | upTo n =>
    by_cases hp : c.wire.pending = []
    · cases hc : c.wire.closed <;> simp [Inbound.read, hp, hc] at h
      obtain ⟨rfl, rfl⟩ := h
      exact .inr (.inl ⟨rfl, hp, rfl⟩)
    · simp only [Inbound.read, if_neg hp, some.injEq, Prod.mk.injEq] at h
      obtain ⟨rfl, rfl⟩ := h
      have hpos : 0 < c.wire.pending.length := length_pos_iff.mpr hp
      refine .inl ⟨?_, rfl, _, ?_, (take_append_drop _ _).symm, push_bytes ?_⟩
      · rw [length_take]; omega
      · rw [← length_pos_iff, length_take]; omega
      · rw [length_take]; omega

/-- A `buf_fill` blocks only when everything sent has been read. -/
theorem bufFill_blocked {c : Conn} {cut : Cut} (h : bufFill c cut = none) :
    c.wire.pending = [] := by
  by_cases hf : c.input.inbuf.full
  · simp [bufFill, hf] at h
  · cases cut with
    | eintr => simp [bufFill, hf, Inbound.read] at h
    | error => simp [bufFill, hf, Inbound.read] at h
    | upTo n =>
      by_contra hp
      simp [bufFill, hf, Inbound.read, hp] at h

/-- A `read` moves bytes from the connection to the buffer, in order. -/
theorem bufFill_stream {c c' : Conn} {cut : Cut} {r : Int} (hf : ¬ c.input.inbuf.full)
    (h : bufFill c cut = some (r, c')) : c'.stream = c.stream := by
  obtain ⟨-, -, x, -, hp, hb⟩ | ⟨-, -, rfl⟩ | ⟨-, -, rfl⟩ | ⟨-, -, rfl⟩ := bufFill_cases hf h
  · rw [Conn.stream, Conn.stream, hb, hp, append_assoc]
  · rfl
  · rfl
  · rfl

/-- A `buf_fill` that gets no bytes leaves no line behind. -/
theorem bufFill_no_line {c c' : Conn} {cut : Cut} {r : Int} (hb : nl ∉ c.input.inbuf.bytes)
    (h : bufFill c cut = some (r, c')) (hr : r ≤ 0) : nl ∉ c'.input.inbuf.bytes := by
  by_cases hf : c.input.inbuf.full
  · simp only [bufFill, if_pos hf, some.injEq, Prod.mk.injEq] at h
    obtain ⟨-, rfl⟩ := h
    exact not_mem_nil
  · obtain ⟨h0, -⟩ | ⟨-, -, rfl⟩ | ⟨-, -, rfl⟩ | ⟨-, -, rfl⟩ := bufFill_cases hf h
    · omega
    · exact hb
    · exact hb
    · exact hb

/-! ## One call -/

/-- Every line of the stream fits the buffer together with its newline. -/
def Short (l : List Byte) : Prop := ∀ r ∈ lines nl l, r.length < yashBufSize

/-- The unterminated end of the stream fits the buffer with room to spare. -/
def ShortEnd (l : List Byte) : Prop := (remainder nl l).length < yashBufSize

theorem Short.tail {a b : List Byte} (h : Short (a ++ nl :: b)) (ha : nl ∉ a) : Short b :=
  fun r hr => h r (by rw [lines_append_cons ha]; exact mem_cons_of_mem a hr)

theorem ShortEnd.tail {a b : List Byte} (h : ShortEnd (a ++ nl :: b)) (ha : nl ∉ a) :
    ShortEnd b := by
  rwa [ShortEnd, remainder_append_cons ha] at h

variable {c c' : Conn} {cuts cuts' : List Cut} {n : Nat} {ret : Ret}

/-- The buffer does not fill up while the stream still has a line. -/
theorem not_full_of_line (hs : Short c.stream) (hb : nl ∉ c.input.inbuf.bytes)
    (hl : nl ∈ c.stream) : ¬ c.input.inbuf.full := by
  intro hfull
  have hp : nl ∈ c.wire.pending := (mem_append.mp hl).resolve_left hb
  obtain ⟨a, b, hab, ha⟩ := eq_append_cons_of_mem hp
  have hlen := hs (c.input.inbuf.bytes ++ a) (by
    rw [Conn.stream, hab, ← append_assoc, lines_append_cons fun h => (mem_append.mp h).elim hb ha]
    exact mem_cons_self)
  have : c.input.inbuf.bytes.length = yashBufSize := hfull
  rw [length_append] at hlen
  omega

theorem not_full_of_end (he : ShortEnd c.stream) (hl : nl ∉ c.stream) :
    ¬ c.input.inbuf.full := by
  intro hfull
  rw [ShortEnd, remainder_of_not_mem hl, Conn.stream, length_append] at he
  have : c.input.inbuf.bytes.length = yashBufSize := hfull
  omega

theorem not_full (hs : Short c.stream) (he : ShortEnd c.stream) (hb : nl ∉ c.input.inbuf.bytes) :
    ¬ c.input.inbuf.full := by
  by_cases hl : nl ∈ c.stream
  · exact not_full_of_line hs hb hl
  · exact not_full_of_end he hl

/-- **The loop of `session_readsocket`.** What every `buf_fill` made on a line-free buffer preserves
holds where the call ends: at the state a line is taken from, or at the state it leaves. -/
theorem readsocket_loop {I : Conn → Prop}
    (step : ∀ {c c' : Conn} {cut : Cut} {r : Int}, I c → nl ∉ c.input.inbuf.bytes →
      bufFill c cut = some (r, c') → I c')
    (hI : I c) (h : sessionReadsocket n cuts c = (ret, cuts', c')) :
    (∃ c₁ line b, I c₁ ∧ bufTakeLine c₁.input.inbuf n = some (line, b) ∧ ret = .line line ∧
      c' = { c₁ with input.inbuf := b }) ∨
    ((∀ l, ret ≠ .line l) ∧ I c' ∧ nl ∉ c'.input.inbuf.bytes) := by
  induction cuts generalizing c with
  | nil =>
    unfold sessionReadsocket at h
    split at h
    · rename_i line b htake
      cases h
      exact .inl ⟨c, line, b, hI, htake, rfl, rfl⟩
    · rename_i htake
      cases h
      exact .inr ⟨by simp, hI, bufTakeLine_eq_none.mp htake⟩
  | cons cut cuts ih =>
    unfold sessionReadsocket at h
    split at h
    · rename_i line b htake
      cases h
      exact .inl ⟨c, line, b, hI, htake, rfl, rfl⟩
    · rename_i htake
      have hb : nl ∉ c.input.inbuf.bytes := bufTakeLine_eq_none.mp htake
      cases hfill : bufFill c cut with
      | none =>
        simp only [hfill] at h
        cases h
        exact .inr ⟨by simp, hI, hb⟩
      | some rc =>
        obtain ⟨r, c₁⟩ := rc
        have hI₁ : I c₁ := step hI hb hfill
        simp only [hfill] at h
        by_cases h0 : r = 0
        · rw [if_pos h0] at h
          cases h
          exact .inr ⟨by simp, hI₁, bufFill_no_line hb hfill (by omega)⟩
        · rw [if_neg h0] at h
          by_cases hneg : r < 0 ∧ c₁.input.errno ≠ .eintr
          · rw [if_pos hneg] at h
            cases h
            exact .inr ⟨by simp, hI₁, bufFill_no_line hb hfill (by omega)⟩
          · rw [if_neg hneg] at h
            exact ih hI₁ h

/-- **One call.** A line returned is the first of the stream, and the stream is shorter by it. A
call that returns none has left the stream as it was, except that it may have dropped the start of
an unterminated end that is too long for the buffer. -/
theorem readsocket_spec (hn : yashBufSize ≤ n) (hs : Short c.stream)
    (h : sessionReadsocket n cuts c = (ret, cuts', c')) :
    (∃ raw, nl ∉ raw ∧ c.stream = raw ++ nl :: c'.stream ∧ ret = .line (stripCr raw)) ∨
    ((∀ l, ret ≠ .line l) ∧ nl ∉ c'.input.inbuf.bytes ∧
      (nl ∈ c.stream ∨ ShortEnd c.stream → c'.stream = c.stream)) := by
  by_cases hl : nl ∈ c.stream ∨ ShortEnd c.stream
  · have step : ∀ {c₁ c₂ : Conn} {cut : Cut} {r : Int}, c₁.stream = c.stream →
        nl ∉ c₁.input.inbuf.bytes → bufFill c₁ cut = some (r, c₂) → c₂.stream = c.stream := by
      intro c₁ c₂ cut r hI hb hfill
      rw [← hI] at hs hl
      have hf : ¬ c₁.input.inbuf.full :=
        hl.elim (not_full_of_line hs hb) fun he => not_full hs he hb
      rw [bufFill_stream hf hfill, hI]
    rcases readsocket_loop step rfl h with ⟨c₁, line, b, hI, htake, rfl, rfl⟩ | ⟨hret, hI, hb⟩
    · obtain ⟨raw, hraw, hbytes, rfl⟩ := bufTakeLine_inv hn htake
      refine .inl ⟨raw, hraw, ?_, rfl⟩
      rw [← hI, Conn.stream, hbytes, append_assoc, cons_append]
      rfl
    · exact .inr ⟨hret, hb, fun _ => hI⟩
  · -- no line is left: whatever is dropped, none appears
    have step : ∀ {c₁ c₂ : Conn} {cut : Cut} {r : Int}, nl ∉ c₁.stream →
        nl ∉ c₁.input.inbuf.bytes → bufFill c₁ cut = some (r, c₂) → nl ∉ c₂.stream := by
      intro c₁ c₂ cut r hI hb hfill
      by_cases hf : c₁.input.inbuf.full
      · simp only [bufFill, if_pos hf, some.injEq, Prod.mk.injEq] at hfill
        obtain ⟨-, rfl⟩ := hfill
        exact fun hm => hI (mem_append_right _ hm)
      · rwa [bufFill_stream hf hfill]
    rcases readsocket_loop step (fun hm => hl (.inl hm)) h with
      ⟨c₁, line, b, hI, htake, rfl, rfl⟩ | ⟨hret, -, hb⟩
    · obtain ⟨raw, -, hbytes, -⟩ := bufTakeLine_inv hn htake
      refine absurd (mem_append_left _ ?_) hI
      rw [hbytes]
      exact mem_append_right raw mem_cons_self
    · exact .inr ⟨hret, hb, fun h => absurd h hl⟩

/-- A script entry that lets a `read` through. -/
def Cut.isRead : Cut → Bool
  | .upTo _ => true
  | _ => false

/-- The number of `read`s a script lets through. -/
def reads (cuts : List Cut) : Nat := cuts.countP Cut.isRead

theorem reads_replicate (k n : Nat) : reads (List.replicate k (.upTo n)) = k := by
  simp [reads, countP_replicate, Cut.isRead]

/-- **A call returns.** If no `read` fails but by `EINTR` and the script has one for each byte still
to come, a call returns a line as long as there is one, and otherwise has read all there is. -/
theorem readsocket_returns (hs : Short c.stream) (hl : nl ∈ c.stream ∨ ShortEnd c.stream)
    (herr : .error ∉ cuts) (hr : c.wire.pending.length ≤ reads cuts)
    (h : sessionReadsocket n cuts c = (ret, cuts', c')) :
    .error ∉ cuts' ∧ c'.wire.pending.length ≤ reads cuts' ∧
      ((∀ l, ret ≠ .line l) → nl ∉ c.stream ∧ c'.wire.pending = []) := by
  induction cuts generalizing c with
  | nil =>
    have hp : c.wire.pending = [] := length_eq_zero_iff.mp (Nat.le_zero.mp hr)
    unfold sessionReadsocket at h
    split at h
    · cases h
      exact ⟨herr, hr, fun hret => absurd rfl (hret _)⟩
    · rename_i htake
      cases h
      refine ⟨herr, hr, fun _ => ⟨?_, hp⟩⟩
      rw [Conn.stream, hp, append_nil]
      exact bufTakeLine_eq_none.mp htake
  | cons cut cuts ih =>
    unfold sessionReadsocket at h
    split at h
    · cases h
      exact ⟨herr, hr, fun hret => absurd rfl (hret _)⟩
    · rename_i htake
      have hb : nl ∉ c.input.inbuf.bytes := bufTakeLine_eq_none.mp htake
      have hf : ¬ c.input.inbuf.full := hl.elim (not_full_of_line hs hb) fun he => not_full hs he hb
      have herr' : .error ∉ cuts := fun hm => herr (mem_cons_of_mem cut hm)
      have hend : c.wire.pending = [] → nl ∉ c.stream := by
        intro hp
        rwa [Conn.stream, hp, append_nil]
      cases hfill : bufFill c cut with
      | none =>
        have hp := bufFill_blocked hfill
        simp only [hfill] at h
        cases h
        exact ⟨herr', by simp [hp], fun _ => ⟨hend hp, hp⟩⟩
      | some rc =>
        obtain ⟨r, c₁⟩ := rc
        have hst := bufFill_stream hf hfill
        rw [← hst] at hs hl ⊢
        simp only [hfill] at h
        obtain ⟨h0, -, x, hx, hp, -⟩ | ⟨rfl, hp, rfl⟩ | ⟨rfl, rfl, rfl⟩ | ⟨-, rfl, -⟩ :=
          bufFill_cases hf hfill
        · rw [if_neg (by omega), if_neg (by omega)] at h
          refine ih hs hl herr' ?_ h
          have hx : 0 < x.length := length_pos_iff.mpr hx
          have hle : reads (cut :: cuts) ≤ reads cuts + 1 := by
            rw [reads, countP_cons]
            split <;> simp [reads]
          rw [hp, length_append] at hr
          omega
        · rw [if_pos rfl] at h
          cases h
          exact ⟨herr', by simp [hp], fun _ => ⟨hend hp, hp⟩⟩
        · rw [if_neg (by omega), if_neg (by simp)] at h
          exact ih hs hl herr' hr h
        · exact absurd mem_cons_self herr

/-! ## Repeated calls -/

/-- Every line returned has used up a newline of the stream, whatever its length. -/
theorem length_readLines_le (hn : yashBufSize ≤ n) (k : Nat) (cuts : List Cut) (c : Conn) :
    (readLines n k cuts c).1.length ≤ c.stream.count nl := by
  induction k generalizing cuts c with
  | zero => exact Nat.zero_le _
  | succ k ih =>
    have step : ∀ {c₁ c₂ : Conn} {cut : Cut} {r : Int}, c₁.stream.count nl ≤ c.stream.count nl →
        nl ∉ c₁.input.inbuf.bytes → bufFill c₁ cut = some (r, c₂) →
        c₂.stream.count nl ≤ c.stream.count nl := by
      intro c₁ c₂ cut r hI _ hfill
      by_cases hf : c₁.input.inbuf.full
      · simp only [bufFill, if_pos hf, some.injEq, Prod.mk.injEq] at hfill
        obtain ⟨-, rfl⟩ := hfill
        refine Nat.le_trans ?_ hI
        rw [Conn.stream, Conn.stream, count_append, count_append]
        exact Nat.add_le_add_right (Nat.zero_le _) _
      · rwa [bufFill_stream hf hfill]
    unfold readLines
    rcases hcall : sessionReadsocket n cuts c with ⟨ret, cuts₁, c₁⟩
    rcases readsocket_loop step le_rfl hcall with
      ⟨c₂, line, b, hI, htake, rfl, rfl⟩ | ⟨hret, -, -⟩
    · obtain ⟨raw, -, hbytes, -⟩ := bufTakeLine_inv hn htake
      have hrest := ih cuts₁ { c₂ with input.inbuf := b }
      rw [Conn.stream, count_append] at hI hrest
      rw [hbytes, count_append, count_cons_self] at hI
      dsimp only at hrest ⊢
      rw [length_cons]
      omega
    · cases ret with
      | line l => exact absurd rfl (hret l)
      | _ => exact Nat.zero_le _

/-- The lines returned are the first of the stream, and what is left of it is what follows them. -/
theorem readLines_spec (hn : yashBufSize ≤ n) {k : Nat} {ls : List (List Byte)}
    (hs : Short c.stream) (h : readLines n k cuts c = (ls, cuts', c')) :
    ls = ((lines nl c.stream).take ls.length).map stripCr ∧
    (ShortEnd c.stream →
      (((lines nl c.stream).take ls.length).flatMap fun l => l ++ [nl]) ++ c'.stream = c.stream ∧
      (nl ∉ c'.input.inbuf.bytes → ¬ c'.input.inbuf.full)) := by
  induction k generalizing cuts c ls with
  | zero =>
    cases h
    exact ⟨rfl, fun he => ⟨rfl, not_full hs he⟩⟩
  | succ k ih =>
    unfold readLines at h
    rcases hcall : sessionReadsocket n cuts c with ⟨ret, cuts₁, c₁⟩
    rcases readsocket_spec hn hs hcall with ⟨raw, hraw, hst, rfl⟩ | ⟨hret, hb, hst⟩
    · rw [hst] at hs ⊢
      rcases hrest : readLines n k cuts₁ c₁ with ⟨ls₁, cuts₂, c₂⟩
      simp only [hcall, hrest] at h
      cases h
      obtain ⟨hls, hend⟩ := ih (hs.tail hraw) hrest
      rw [lines_append_cons hraw, length_cons, take_succ_cons, map_cons, flatMap_cons, ← hls]
      refine ⟨rfl, fun he => ?_⟩
      obtain ⟨hrest, hfull⟩ := hend (he.tail hraw)
      refine ⟨?_, hfull⟩
      rw [append_assoc, hrest, append_assoc]
      rfl
    · have hls : ls = [] ∧ c' = c₁ := by
        cases ret <;> simp_all
      obtain ⟨rfl, rfl⟩ := hls
      refine ⟨rfl, fun he => ⟨hst (.inr he), fun hb => ?_⟩⟩
      rw [← hst (.inr he)] at hs he
      exact not_full hs he hb

/-- With enough `read`s every line asked for is returned, and the call after the last one reads the
stream to its end. -/
theorem readLines_returns (hn : yashBufSize ≤ n) {k : Nat} {ls : List (List Byte)}
    (hs : Short c.stream) (herr : .error ∉ cuts) (hr : c.wire.pending.length ≤ reads cuts)
    (h : readLines n k cuts c = (ls, cuts', c')) :
    ls.length = min k (lines nl c.stream).length ∧
    (ShortEnd c.stream → (lines nl c.stream).length < k → c'.wire.pending = []) := by
  induction k generalizing cuts c ls with
  | zero =>
    cases h
    exact ⟨by simp, fun _ h => absurd h (Nat.not_lt_zero _)⟩
  | succ k ih =>
    unfold readLines at h
    rcases hcall : sessionReadsocket n cuts c with ⟨ret, cuts₁, c₁⟩
    rcases readsocket_spec hn hs hcall with ⟨raw, hraw, hst, rfl⟩ | ⟨hret, -, -⟩
    · have hl : nl ∈ c.stream := by rw [hst]; exact mem_append_right _ mem_cons_self
      obtain ⟨herr₁, hr₁, -⟩ := readsocket_returns hs (.inl hl) herr hr hcall
      rw [hst] at hs ⊢
      rcases hrest : readLines n k cuts₁ c₁ with ⟨ls₁, cuts₂, c₂⟩
      simp only [hcall, hrest] at h
      cases h
      obtain ⟨hlen, hend⟩ := ih (hs.tail hraw) herr₁ hr₁ hrest
      rw [lines_append_cons hraw, length_cons, length_cons]
      exact ⟨by omega, fun he hk => hend (he.tail hraw) (by omega)⟩
    · have hls : ls = [] ∧ c' = c₁ := by
        cases ret <;> simp_all
      obtain ⟨rfl, rfl⟩ := hls
      have hl : nl ∉ c.stream := fun hm =>
        (readsocket_returns hs (.inl hm) herr hr hcall).2.2 hret |>.1 hm
      refine ⟨by simp [lines_of_not_mem hl], fun he _ => ?_⟩
      exact ((readsocket_returns hs (.inr he) herr hr hcall).2.2 hret).2

/-- **Framing does not depend on packet boundaries.** On a stream whose lines have at most 4095
bytes, `k` calls return the first lines of the stream, in order and each without its trailing
carriage return, and all `k` of them (or all there are) once the kernel has let enough `read`s
through. If the unterminated end is as short, the buffer followed by what has not been read is
always exactly what the calls have not returned; a `buf_fill` never finds the buffer full; and the
call after the last line leaves the unterminated end in the buffer. A script may stop before any
`buf_fill`, so the states quantified over include every one a `buf_fill` is made in. The truncation
in `buf_take_line` needs a newline past the end of the buffer. -/
theorem readsocket_frames (S : List Byte) (closed : Bool) (e : Errno)
    (hS : ∀ r ∈ lines nl S, r.length ≤ 4095) (k : Nat) (cuts : List Cut)
    {ls : List (List Byte)} {cuts' : List Cut} {c : Conn}
    (h : readLines yashBufSize k cuts ⟨⟨.empty, e⟩, ⟨S, closed⟩⟩ = (ls, cuts', c)) :
    ls = ((lines nl S).take ls.length).map stripCr ∧
    (.error ∉ cuts → S.length ≤ reads cuts → ls = ((lines nl S).take k).map stripCr) ∧
    ((remainder nl S).length ≤ 4095 →
      (((lines nl S).take ls.length).flatMap fun l => l ++ [nl]) ++
        (c.input.inbuf.bytes ++ c.wire.pending) = S ∧
      (nl ∉ c.input.inbuf.bytes → ¬ c.input.inbuf.full) ∧
      (.error ∉ cuts → S.length ≤ reads cuts → (lines nl S).length < k →
        c.input.inbuf.bytes = remainder nl S ∧ c.wire.pending = [])) ∧
    ∀ (b : InBuf) (i : Nat), b.newline = some i → ¬ yashBufSize ≤ i := by
  have hs : Short (Conn.stream ⟨⟨.empty, e⟩, ⟨S, closed⟩⟩) :=
    fun r hr => Nat.lt_succ_of_le (hS r hr)
  obtain ⟨hls, hrest⟩ := readLines_spec le_rfl hs h
  refine ⟨hls, fun herr hr => ?_, fun he => ?_, fun b i hi => Nat.not_le.mpr (newline_lt hi)⟩
  · obtain ⟨hlen, -⟩ := readLines_returns le_rfl hs herr hr h
    change ls.length = min k (lines nl S).length at hlen
    rw [hls, hlen]
    congr 1
    exact (take_eq_take_min).symm
  · obtain ⟨hst, hfull⟩ := hrest (Nat.lt_succ_of_le he)
    refine ⟨hst, hfull, fun herr hr hk => ?_⟩
    obtain ⟨hlen, hend⟩ := readLines_returns le_rfl hs herr hr h
    have hp : c.wire.pending = [] := hend (Nat.lt_succ_of_le he) hk
    refine ⟨?_, hp⟩
    change (((lines nl S).take ls.length).flatMap fun l => l ++ [nl]) ++
      (c.input.inbuf.bytes ++ c.wire.pending) = S at hst
    change ls.length = min k (lines nl S).length at hlen
    have hall : (lines nl S).take ls.length = lines nl S := take_of_length_le (by omega)
    rw [hall, hp, append_nil] at hst
    have := flatMap_lines_append (d := nl) S
    exact append_cancel_left (hst.trans this.symm)

/-- `CMD ls`, sent with a carriage return and the start of the next line, in threes. -/
theorem readsocket_frames_crlf :
    (readLines yashBufSize 2 (List.replicate 10 (.upTo 2))
      ⟨⟨.empty, .other⟩, ⟨str "CMD ls\r\nab", false⟩⟩).1 = [str "CMD ls"] := by
  obtain ⟨-, hall, -⟩ := readsocket_frames (str "CMD ls\r\nab") false .other (by decide) 2
    (List.replicate 10 (.upTo 2)) rfl
  exact (hall (by decide) (by decide)).trans (by decide)

/-- As many bytes as the buffer has, none of them a newline. -/
def fullBuffer : List Byte := List.replicate yashBufSize 97

theorem nl_not_mem_fullBuffer : nl ∉ fullBuffer := by
  intro h
  exact absurd (eq_of_mem_replicate h) (by decide)

theorem length_fullBuffer : fullBuffer.length = yashBufSize := length_replicate

theorem bufFill_fullBuffer : ∃ b : InBuf, b.bytes = fullBuffer ∧
    bufFill ⟨⟨.empty, .other⟩, ⟨fullBuffer, false⟩⟩ (.upTo 4095) =
      some ((yashBufSize : Int), ⟨⟨b, .other⟩, ⟨[], false⟩⟩) := by
  obtain ⟨bs, hbs⟩ : ∃ bs, bs = fullBuffer := ⟨_, rfl⟩
  have hlen : bs.length = yashBufSize := hbs ▸ length_fullBuffer
  have hne : bs ≠ [] := by
    rintro rfl
    cases hlen
  rw [← hbs]
  refine ⟨InBuf.empty.push bs, push_bytes (Nat.le_of_eq hlen), ?_⟩
  rw [bufFill, if_neg (show ¬ InBuf.empty.full by decide), Inbound.read, if_neg hne]
  show some (((bs.take yashBufSize).length : Int),
    Conn.mk ⟨InBuf.empty.push (bs.take yashBufSize), _⟩ ⟨bs.drop yashBufSize, _⟩) = _
  rw [take_of_length_le (Nat.le_of_eq hlen), drop_of_length_le (Nat.le_of_eq hlen), hlen]

/-- An unterminated end that fills the buffer is dropped: no line of the stream is long, the kernel
lets every read through, and the call after the last line leaves nothing in the buffer. -/
theorem long_remainder_is_dropped : ∃ cuts, .error ∉ cuts ∧ fullBuffer.length ≤ reads cuts ∧
    (∀ r ∈ lines nl fullBuffer, r.length ≤ 4095) ∧ remainder nl fullBuffer = fullBuffer ∧
    ∃ cuts' c, readLines yashBufSize 1 cuts ⟨⟨.empty, .other⟩, ⟨fullBuffer, false⟩⟩ =
      ([], cuts', c) ∧ c.input.inbuf.bytes = [] ∧ c.wire.pending = [] := by
  have hnl := nl_not_mem_fullBuffer
  obtain ⟨rest, hrest⟩ : ∃ rest, rest = List.replicate yashBufSize (Cut.upTo 0) := ⟨_, rfl⟩
  refine ⟨.upTo 4095 :: .upTo 0 :: rest, ?_, ?_, ?_, remainder_of_not_mem hnl, ?_⟩
  · simp [hrest]
  · have hreads : reads rest = yashBufSize := hrest ▸ reads_replicate yashBufSize 0
    rw [length_fullBuffer, ← hreads]
    exact ((sublist_cons_self _ _).trans (sublist_cons_self _ _)).countP_le
  · rw [lines_of_not_mem hnl]
    exact nofun
  · obtain ⟨b, hb, hfill⟩ := bufFill_fullBuffer
    have hfull : b.full := (congrArg List.length hb).trans length_fullBuffer
    have hdrop : bufFill ⟨⟨b, .other⟩, ⟨[], false⟩⟩ (.upTo 0) =
        some (-1, ⟨⟨.empty, .other⟩, ⟨[], false⟩⟩) := if_pos hfull
    refine ⟨rest, ⟨⟨.empty, .other⟩, ⟨[], false⟩⟩, ?_, rfl, rfl⟩
    rw [readLines, sessionReadsocket, bufTakeLine_eq_none.mpr not_mem_nil, hfill]
    dsimp only
    rw [if_neg (by decide), if_neg (by decide), sessionReadsocket,
      bufTakeLine_eq_none.mpr (hb ▸ hnl), hdrop]
    rfl

end SystemProg.Yashd
