import SystemProg.Data.Memory
import SystemProg.Seq.Panic
import SystemProg.Text.Pieces
import SystemProg.Yashd.Client

/-!
# The client's line buffer

Model of `client_run` (`client/src/client.c:165-281`) on its own variables: the array `inbuf` with
`inlen`, and one turn of the loop with its signals, `pselect`, the socket and stdin. The events of
`SystemProg.Yashd.Client` come in any order and have a buffer that cannot overflow; here a turn has
the order of the source, and an access outside the array is a fault.

* The kernel's answers are the `Turn`. `read` returns at most as many bytes as it is asked for;
  asked for none, it can only return 0 or fail.
* `send_line` is handed the C string at `inbuf`. The arguments are kept in `passed`, and what `read`
  returned on stdin in `reads`, where an empty entry is a return value of 0.
* On a terminal more can be typed after an end of file. `streams` cuts `reads` there.

Headline: `line_buffer_keeps`. The buffer has room at the top of every turn, no turn goes outside of
it, and if no line is overlong, the lines passed on are the lines read.
-/

namespace SystemProg.Yashd

open Text SystemProg.Seq Data List

/-- The variables of `client_run`. -/
structure Loop where
  tail : Tail
  /-- All bytes of the array. -/
  inbuf : List Byte
  inlen : Nat
  prompt : Bool
  stdinOpen : Bool
  done : Bool
  /-- The loop has been left with `break`. -/
  left : Bool
  sent : List Sent
  reads : List (List Byte)
  passed : List (List Byte)
  /-- `send_line` has returned 1. -/
  quit : Bool
  deriving Repr, DecidableEq

namespace Loop

/-- Before the first turn; `inbuf` is not initialised. -/
def start (inbuf : List Byte) : Loop where
  tail := promptTail
  inbuf := inbuf
  inlen := 0
  prompt := true
  stdinOpen := true
  done := false
  left := false
  sent := []
  reads := []
  passed := []
  quit := false

/-! ## The source -/

/-- `send_msg(sockfd, …)`. -/
def sendMsg (kind : Kind) (body : List Byte) : Panic Loop Unit :=
  modify fun s => { s with sent := s.sent ++ [⟨s.prompt, kind, body⟩] }

/-- `inbuf[i] = '\0'`. -/
def terminate (i : Nat) : Panic Loop Unit := do
  let s ← get
  assert (i < s.inbuf.length)
  modify fun s => { s with inbuf := s.inbuf.set i 0 }

/-- `send_line(sockfd, inbuf, &prompt)`. The string has to end inside the array. -/
def sendLine : Panic Loop Bool := do
  let s ← get
  assert (0 ∈ s.inbuf)
  modify fun s => { s with passed := s.passed ++ [cstr s.inbuf] }
  if s.prompt then
    if cstr s.inbuf = str "quit" then do
      modify fun s => { s with quit := true }
      pure true
    else do
      sendMsg .cmd (cstr s.inbuf)
      modify fun s => { s with prompt := false }
      pure false
  else do
    sendMsg .text (cstr s.inbuf)
    pure false

/-- The line of `len` bytes at the start of `inbuf` is passed on. -/
def takeLine (len : Nat) : Panic Loop Unit := do
  terminate len
  let done ← sendLine
  -- `memmove(inbuf, nl + 1, inlen - len - 1); inlen -= len + 1;`
  modify fun s => { s with
    done := done
    inbuf := splice s.inbuf 0 ((s.inbuf.drop (len + 1)).take (s.inlen - len - 1))
    inlen := s.inlen - (len + 1) }

/-- The loop over the complete lines. -/
def sendLines : (turns : Nat) → Panic Loop Unit
  | 0 => abort
  | turns + 1 => do
    let s ← get
    if s.done then pure ()
    else do
      assert (s.inlen ≤ s.inbuf.length)
      match (s.inbuf.take s.inlen).findIdx? (· == nl) with
      | none => pure ()
      | some len => do
        takeLine len
        sendLines turns

/-- An overlong line: flush what we have. -/
def flush (s : Loop) : Loop := if s.inlen = yashBufSize then { s with inlen := 0 } else s

/-- `read` on stdin has returned `bs`. -/
def onData (bs : List Byte) : Panic Loop Unit := do
  let s ← get
  assert (s.inlen + bs.length ≤ s.inbuf.length)
  modify fun s => { s with
    inbuf := splice s.inbuf s.inlen bs
    inlen := s.inlen + bs.length
    reads := s.reads ++ [bs] }
  sendLines (s.inlen + bs.length + 1)
  modify flush

/-- What has been typed before an end of file is passed on. -/
def sendRest : Panic Loop Unit := do
  let s ← get
  if 0 < s.inlen then do
    terminate s.inlen
    let done ← sendLine
    modify fun s => { s with done := done, inlen := 0 }
  else pure ()

/-- `read` on stdin has returned 0; `tty` is `isatty`. -/
def onEof (tty : Bool) : Panic Loop Unit := do
  modify fun s => { s with reads := s.reads ++ [[]] }
  sendRest
  sendMsg .ctl [ctlEof]
  modify fun s =>
    if s.prompt then { s with done := true } else if tty then s else { s with stdinOpen := false }

/-- `break`. -/
def leave : Panic Loop Unit := modify fun s => { s with left := true }

/-- The turn's part for stdin. -/
def onStdin (tty : Bool) : ReadRes → Panic Loop Unit
  | .data bs => onData bs
  | .eof => onEof tty
  | .fail .eintr => pure ()
  | .fail .other => leave

/-- The turn's part for the socket; `printed` is whether `send_all` to the terminal succeeds. The
value is whether the turn goes on. -/
def onSocket (printed : Bool) : ReadRes → Panic Loop Bool
  | .data bs =>
    if printed then do
      modify fun s => { s with tail := pushTail s.tail bs, prompt := atPrompt (pushTail s.tail bs) }
      pure true
    else do
      leave
      pure false
  | .eof => do
    leave
    pure false
  | .fail .eintr => pure false
  | .fail .other => do
    leave
    pure false

/-- What `pselect` returns, and what `read` returns on the descriptors that are ready. -/
inductive Select where
  | fail (e : Errno)
  | ready (socket stdin : Option ReadRes)
  deriving Repr, DecidableEq

/-- What the client meets in one turn of its loop. -/
structure Turn where
  gotInt : Bool
  gotStop : Bool
  select : Select
  printed : Bool
  tty : Bool
  deriving Repr, DecidableEq

/-- The turn after `pselect`. -/
def onReady (t : Turn) (socket stdin : Option ReadRes) : Panic Loop Unit := do
  let goesOn ← (match socket with
    | some res => onSocket t.printed res
    | none => pure true : Panic Loop Bool)
  let s ← get
  match stdin with
  | some res => if goesOn ∧ s.stdinOpen then onStdin t.tty res else pure ()
  | none => pure ()

/-- A signal that has come is told to the server. -/
def onSignal (flag : Bool) (b : Byte) : Panic Loop Unit :=
  if flag then sendMsg .ctl [b] else pure ()

/-- One turn of the loop. -/
def turn (t : Turn) : Panic Loop Unit := do
  onSignal t.gotInt ctlInt
  onSignal t.gotStop ctlStop
  match t.select with
  | .fail .eintr => pure ()
  | .fail .other => leave
  | .ready socket stdin => onReady t socket stdin

/-- An answer of `read` that was asked for `n` bytes. -/
def Answers (n : Nat) : ReadRes → Prop
  | .data bs => bs ≠ [] ∧ bs.length ≤ n
  | _ => True

/-- The kernel answers the turn's calls of `read`. -/
def Turn.Valid (t : Turn) (s : Loop) : Prop :=
  match t.select with
  | .fail _ => True
  | .ready socket stdin => (∀ res, socket = some res → Answers yashBufSize res) ∧
      ∀ res, stdin = some res → Answers (yashBufSize - s.inlen) res

/-- The states at the top of the loop. -/
inductive Reach (inbuf : List Byte) : Loop → Prop
  | start : Reach inbuf (start inbuf)
  | turn {s s' : Loop} {t : Turn} : Reach inbuf s → s.done = false → s.left = false → t.Valid s →
      Loop.turn t s = some ((), s') → Reach inbuf s'

/-! ## The lines that are read -/

/-- The streams that an end of file has ended, and the one that is read. -/
def streams (reads : List (List Byte)) : List (List Byte) × List Byte :=
  reads.foldl (fun p bs => if bs = [] then (p.1 ++ [p.2], []) else (p.1, p.2 ++ bs)) ([], [])

theorem streams_data (reads : List (List Byte)) {bs : List Byte} (h : bs ≠ []) :
    streams (reads ++ [bs]) = ((streams reads).1, (streams reads).2 ++ bs) := by
  rw [streams, foldl_append, ← streams, foldl_cons, foldl_nil, if_neg h]

theorem streams_eof (reads : List (List Byte)) :
    streams (reads ++ [[]]) = ((streams reads).1 ++ [(streams reads).2], []) := by
  rw [streams, foldl_append, ← streams, foldl_cons, foldl_nil, if_pos rfl]

/-- The lines that have been read, as C strings, and what was before an end of file. -/
def typed (reads : List (List Byte)) : List (List Byte) :=
  ((streams reads).1.flatMap (frames nl) ++ lines nl (streams reads).2).map cstr

/-- No line fills the buffer. -/
def Short (reads : List (List Byte)) : Prop :=
  ∀ l ∈ (streams reads).1 ++ [(streams reads).2], ∀ f ∈ frames nl l, f.length < yashBufSize

variable {s s' : Loop} {a b l bs : List Byte}

/-! ## Passing on lines -/

/-- One call of `send_line` with the line `l`, which returned `r`. -/
structure Sends (s s' : Loop) (l : List Byte) (r : Bool) : Prop where
  inbuf : s'.inbuf = s.inbuf
  inlen : s'.inlen = s.inlen
  done : s'.done = s.done
  reads : s'.reads = s.reads
  passed : s'.passed = s.passed ++ [l]
  quit : s'.quit = (s.quit || r)
  line : r = true → l = str "quit"

theorem sendLine_spec (h : 0 ∈ s.inbuf) :
    wp sendLine (fun r s' => Sends s s' (cstr s.inbuf) r) s := by
  refine wp_get (wp_assert h (wp_modify ?_))
  split
  · split
    · rename_i hquit
      exact wp_modify (wp_pure ⟨rfl, rfl, rfl, rfl, rfl, (Bool.or_true _).symm, fun _ => hquit⟩)
    · exact wp_modify (wp_modify (wp_pure ⟨rfl, rfl, rfl, rfl, rfl, (Bool.or_false _).symm, nofun⟩))
  · exact wp_modify (wp_pure ⟨rfl, rfl, rfl, rfl, rfl, (Bool.or_false _).symm, nofun⟩)

theorem cstr_set (h : i < a.length) : cstr (a.set i 0) = cstr (a.take i) := by
  rw [set_eq_take_append_cons_drop, if_pos h, cstr_append_zero]

theorem terminate_eq {i : Nat} (hi : i < s.inbuf.length) :
    terminate i s = some ((), { s with inbuf := s.inbuf.set i 0 }) := by
  rw [terminate, get_bind, bind_eq (assert_eq hi), modify_eq]

theorem findIdx_none (h : nl ∉ l) : l.findIdx? (· == nl) = none := by
  rw [findIdx?_eq_none_iff]
  intro x hx
  simpa using fun he : x = nl => h (he ▸ hx)

theorem findIdx_newline (h : nl ∉ a) : (a ++ nl :: b).findIdx? (· == nl) = some a.length := by
  rw [findIdx?_append, findIdx_none h, findIdx?_cons]
  simp

/-- The buffer holds `l`. -/
structure Holds (s : Loop) (l : List Byte) : Prop where
  size : s.inbuf.length = yashBufSize
  inlen : s.inlen = l.length
  take : s.inbuf.take s.inlen = l

theorem Holds.fits (h : Holds s l) : l.length ≤ yashBufSize := by
  have := congrArg List.length h.take
  rw [length_take, h.size] at this
  omega

/-- The line `a` was passed on, `b` is left, and `r` says whether it was the last. -/
structure Took (s s' : Loop) (a b : List Byte) (r : Bool) : Prop where
  holds : Holds s' b
  reads : s'.reads = s.reads
  passed : s'.passed = s.passed ++ [cstr a]
  done : s'.done = r
  quit : s'.quit = (s.quit || r)
  line : r = true → cstr a = str "quit"

theorem takeLine_spec (h : Holds s (a ++ nl :: b)) :
    wp (takeLine a.length) (fun _ s' => ∃ r, Took s s' a b r) s := by
  have hlen := h.inlen
  have hfits := h.fits
  have hsize := h.size
  rw [length_append, length_cons] at hlen hfits
  have ha : a.length < s.inbuf.length := by omega
  refine wp_call (terminate_eq ha) (wp_bind (sendLine_spec (mem_set ha 0)) fun r s1 h1 => ?_)
  refine wp_of_eq modify_eq ⟨r, ?_⟩
  -- the line is gone from the front of the array
  obtain ⟨z, hz⟩ : ∃ z, s.inbuf = a ++ nl :: (b ++ z) := by
    refine ⟨s.inbuf.drop s.inlen, ?_⟩
    rw [← cons_append, ← append_assoc, ← h.take, take_append_drop]
  have hset : s.inbuf.set a.length 0 = a ++ 0 :: (b ++ z) := by
    rw [hz]
    simp
  have hlen1 : s1.inlen = a.length + (b.length + 1) := h1.inlen.trans hlen
  have hdrop : (s1.inbuf.drop (a.length + 1)).take (s1.inlen - a.length - 1) = b := by
    rw [h1.inbuf, hset, hlen1, drop_length_add_append, drop_succ_cons, drop_zero,
      show a.length + (b.length + 1) - a.length - 1 = b.length by omega, take_left]
  have hsize1 : s1.inbuf.length = yashBufSize := by rw [h1.inbuf, length_set, hsize]
  have hline : cstr (s.inbuf.set a.length 0) = cstr a := by rw [hset, cstr_append_zero]
  have hinlen : s1.inlen - (a.length + 1) = b.length := by omega
  have hpassed := h1.passed
  have hquit := h1.line
  rw [hline] at hpassed hquit
  refine ⟨⟨?_, hinlen, ?_⟩, h1.reads, hpassed, rfl, h1.quit, hquit⟩
  · rw [hdrop, length_splice (by omega), hsize1]
  · rw [hdrop, hinlen, splice, take_zero, nil_append, take_left]

/-- What `sendLines` has done to a buffer that held `l`: it has passed on the lines of `l`, or those
of them up to one with which `send_line` returned 1. -/
structure Passes (s s' : Loop) (l : List Byte) : Prop where
  reads : s'.reads = s.reads
  done : s'.done = s'.quit
  goesOn : s'.quit = false →
    Holds s' (remainder nl l) ∧ s'.passed = s.passed ++ (lines nl l).map cstr
  quits : s'.quit = true →
    ∃ b p q, Holds s' b ∧ b.length < l.length ∧ p ++ q = (lines nl l).map cstr ∧
      s'.passed = s.passed ++ p ∧ p.getLast? = some (str "quit")

theorem Took.passes {s1 : Loop} (h : Took s s1 a b false) (ha : nl ∉ a) (h' : Passes s1 s' b) :
    Passes s s' (a ++ nl :: b) := by
  have hlines : (lines nl (a ++ nl :: b)).map cstr = cstr a :: (lines nl b).map cstr := by
    rw [lines_append_cons ha, map_cons]
  refine ⟨h'.reads.trans h.reads, h'.done, fun hq => ?_, fun hq => ?_⟩
  · obtain ⟨hholds, hpassed⟩ := h'.goesOn hq
    rw [remainder_append_cons ha, hlines, hpassed, h.passed, append_assoc]
    exact ⟨hholds, rfl⟩
  · obtain ⟨b', p, q, hholds, hlen, hpq, hpassed, hlast⟩ := h'.quits hq
    refine ⟨b', cstr a :: p, q, hholds, ?_, ?_, ?_, ?_⟩
    · rw [length_append, length_cons]
      omega
    · rw [hlines, ← hpq, cons_append]
    · rw [hpassed, h.passed, append_assoc]
      rfl
    · rw [getLast?_cons, hlast]
      rfl

theorem Took.passes_quit (h : Took s s' a b true) (ha : nl ∉ a) : Passes s s' (a ++ nl :: b) := by
  have hquit : s'.quit = true := h.quit.trans (Bool.or_true _)
  refine ⟨h.reads, h.done.trans hquit.symm, fun hq => ?_, fun _ =>
    ⟨b, [cstr a], (lines nl b).map cstr, h.holds, ?_, ?_, h.passed, ?_⟩⟩
  · rw [hquit] at hq
    cases hq
  · rw [length_append, length_cons]
    omega
  · rw [lines_append_cons ha, map_cons, singleton_append]
  · rw [getLast?_singleton, h.line rfl]

theorem sendLines_spec {turns : Nat} (hturns : l.length < turns) (h : Holds s l)
    (hdone : s.done = false) (hquit : s.quit = false) :
    wp (sendLines turns) (fun _ s' => Passes s s' l) s := by
  induction turns generalizing s l with
  | zero => omega
  | succ turns ih =>
    have hfits : s.inlen ≤ s.inbuf.length := by rw [h.inlen, h.size]; exact h.fits
    refine wp_get ?_
    rw [hdone, if_neg (by simp)]
    refine wp_assert hfits ?_
    rw [h.take]
    by_cases hnl : nl ∈ l
    · obtain ⟨a, b, rfl, ha⟩ := eq_append_cons_of_mem hnl
      rw [findIdx_newline ha]
      rw [length_append, length_cons] at hturns
      refine wp_bind (takeLine_spec h) fun _ s1 ⟨r, h1⟩ => ?_
      cases r with
      | true =>
        obtain ⟨turns, rfl⟩ : ∃ k, turns = k + 1 := ⟨turns - 1, by omega⟩
        refine wp_get ?_
        rw [h1.done, if_pos rfl]
        exact wp_pure (h1.passes_quit ha)
      | false =>
        refine wp_mono (ih (by omega) h1.holds h1.done ?_) fun _ s' h' => h1.passes ha h'
        rw [h1.quit, hquit, Bool.or_false]
    · rw [findIdx_none hnl]
      refine wp_pure ⟨rfl, hdone.trans hquit.symm, fun _ => ⟨?_, ?_⟩, fun hq => ?_⟩
      · rw [remainder_of_not_mem hnl]
        exact h
      · rw [lines_of_not_mem hnl, map_nil, append_nil]
      · rw [hquit] at hq
        cases hq

/-! ## Short lines -/

theorem length_lt_of_append {n : Nat} (h : ∀ f ∈ frames nl (a ++ b), f.length < n) :
    ∀ f ∈ frames nl a, f.length < n := by
  intro f hf
  rcases mem_append.mp hf with hf | hf
  · refine h f (mem_append_left _ ?_)
    rw [lines_append]
    exact mem_append_left _ hf
  · split at hf
    · cases hf
    · rename_i hne
      obtain rfl := mem_singleton.mp hf
      rcases remainder_prefix a b with ⟨r, hr, hpre⟩ | hpre
      · exact Nat.lt_of_le_of_lt hpre.length_le (h r (mem_append_left _ hr))
      · have hne' : remainder nl (a ++ b) ≠ [] := fun he => hne (prefix_nil.mp (he ▸ hpre))
        refine Nat.lt_of_le_of_lt hpre.length_le (h _ (mem_append_right _ ?_))
        rw [if_neg hne']
        exact mem_singleton_self _

theorem Short.of_data {reads : List (List Byte)} (hbs : bs ≠ []) (h : Short (reads ++ [bs])) :
    Short reads := by
  rw [Short, streams_data reads hbs] at h
  intro l hl
  rcases mem_append.mp hl with hl | hl
  · exact h l (mem_append_left _ hl)
  · obtain rfl := mem_singleton.mp hl
    exact length_lt_of_append (h _ (mem_append_right _ (mem_singleton_self _)))

theorem Short.of_eof {reads : List (List Byte)} (h : Short (reads ++ [[]])) : Short reads := by
  rw [Short, streams_eof reads] at h
  exact fun l hl => h l (mem_append_left _ hl)

theorem Short.remainder_lt {reads : List (List Byte)} (h : Short reads) :
    (remainder nl (streams reads).2).length < yashBufSize := by
  by_cases hne : remainder nl (streams reads).2 = []
  · rw [hne]
    decide
  · refine h _ (mem_append_right _ (mem_singleton_self _)) _ (mem_append_right _ ?_)
    rw [if_neg hne]
    exact mem_singleton_self _

theorem typed_data (reads : List (List Byte)) (hbs : bs ≠ []) : typed (reads ++ [bs]) =
    typed reads ++ (lines nl (remainder nl (streams reads).2 ++ bs)).map cstr := by
  rw [typed, streams_data reads hbs, lines_append, ← append_assoc, map_append]
  rfl

theorem typed_eof (reads : List (List Byte)) : typed (reads ++ [[]]) = typed reads ++
    if remainder nl (streams reads).2 = [] then []
      else [cstr (remainder nl (streams reads).2)] := by
  rw [typed, streams_eof, lines_of_not_mem not_mem_nil, append_nil, flatMap_append,
    flatMap_singleton, frames, ← append_assoc, map_append]
  split <;> rfl

/-! ## The invariant -/

/-- What holds at the top of the loop. -/
structure Inv (s : Loop) : Prop where
  room : ∃ l, Holds s l ∧ l.length < yashBufSize
  done : s.quit = true → s.done = true
  goesOn : Short s.reads → s.quit = false →
    Holds s (remainder nl (streams s.reads).2) ∧ s.passed = typed s.reads
  quits : Short s.reads → s.quit = true →
    ∃ q, s.passed ++ q = typed s.reads ∧ s.passed.getLast? = some (str "quit")

/-- The parts of the state that the invariant is about have not changed. -/
structure Same (s s' : Loop) : Prop where
  inbuf : s'.inbuf = s.inbuf
  inlen : s'.inlen = s.inlen
  done : s.done = true → s'.done = true
  reads : s'.reads = s.reads
  passed : s'.passed = s.passed
  quit : s'.quit = s.quit

theorem Holds.congr (h : Holds s l) (hbuf : s'.inbuf = s.inbuf) (hlen : s'.inlen = s.inlen) :
    Holds s' l :=
  ⟨by rw [hbuf, h.size], by rw [hlen, h.inlen], by rw [hbuf, hlen, h.take]⟩

theorem Holds.eq (h : Holds s a) (h' : Holds s b) : a = b := h.take.symm.trans h'.take

theorem Inv.congr (h : Inv s) (hs : Same s s') : Inv s' := by
  obtain ⟨l, hl, hroom⟩ := h.room
  refine ⟨⟨l, hl.congr hs.inbuf hs.inlen, hroom⟩, ?_, ?_, ?_⟩
  · rw [hs.quit]
    exact fun hq => hs.done (h.done hq)
  · rw [hs.reads, hs.quit, hs.passed]
    intro hshort hq
    obtain ⟨hholds, hpassed⟩ := h.goesOn hshort hq
    exact ⟨hholds.congr hs.inbuf hs.inlen, hpassed⟩
  · rw [hs.reads, hs.quit, hs.passed]
    exact h.quits

theorem Inv.not_quit (h : Inv s) (hdone : s.done = false) : s.quit = false := by
  cases hq : s.quit with
  | false => rfl
  | true =>
    rw [h.done hq] at hdone
    cases hdone

theorem start_inv {inbuf : List Byte} (h : inbuf.length = yashBufSize) : Inv (start inbuf) := by
  have hholds : Holds (start inbuf) [] := ⟨h, rfl, rfl⟩
  refine ⟨⟨[], hholds, by decide⟩, nofun, fun _ _ => ⟨hholds, rfl⟩, fun _ hq => by cases hq⟩

/-- The bytes that `read` has put into the buffer. -/
theorem Holds.push (h : Holds s l) (hbs : l.length + bs.length ≤ yashBufSize)
    (reads : List (List Byte)) :
    Holds { s with
      inbuf := splice s.inbuf s.inlen bs
      inlen := s.inlen + bs.length
      reads := reads }
      (l ++ bs) := by
  have hlen := h.inlen
  have hsize := h.size
  refine ⟨?_, ?_, ?_⟩
  · rw [← hsize]
    exact length_splice (by omega)
  · rw [length_append, ← hlen]
  · show (splice s.inbuf s.inlen bs).take (s.inlen + bs.length) = l ++ bs
    rw [splice, h.take, hlen, take_left' length_append]

theorem flush_holds (h : Holds s l) :
    ∃ l', Holds s.flush l' ∧ l'.length < yashBufSize ∧ (l.length < yashBufSize → l' = l) := by
  unfold flush
  by_cases hfull : s.inlen = yashBufSize
  · rw [if_pos hfull]
    have hlen := h.inlen
    exact ⟨[], ⟨h.size, rfl, rfl⟩, by decide, fun hlt => by omega⟩
  · rw [if_neg hfull]
    have hlen := h.inlen
    have hfits := h.fits
    exact ⟨l, h, by omega, fun _ => rfl⟩

theorem flush_same (s : Loop) : s.flush.done = s.done ∧ s.flush.reads = s.reads ∧
    s.flush.passed = s.passed ∧ s.flush.quit = s.quit := by
  unfold flush
  split <;> exact ⟨rfl, rfl, rfl, rfl⟩

/-- What becomes of the bytes that `read` has put after `l`. -/
theorem onData_spec (hl : Holds s l) (hdone : s.done = false) (hquit : s.quit = false)
    (hbs : l.length + bs.length ≤ yashBufSize) :
    wp (onData bs) (fun _ s' => ∃ s1, s' = s1.flush ∧
      Passes { s with reads := s.reads ++ [bs] } s1 (l ++ bs)) s := by
  have hlen := hl.inlen
  have hsize := hl.size
  refine wp_get (wp_assert (by omega) (wp_modify ?_))
  refine wp_bind (sendLines_spec ?_ (hl.push hbs (s.reads ++ [bs])) hdone hquit) fun _ s1 h1 =>
    wp_of_eq modify_eq ⟨s1, rfl, h1.reads, h1.done, h1.goesOn, h1.quits⟩
  rw [length_append, hlen]
  omega

theorem onData_inv (h : Inv s) (hdone : s.done = false) (hne : bs ≠ [])
    (hbs : bs.length ≤ yashBufSize - s.inlen) : wp (onData bs) (fun _ s' => Inv s') s := by
  obtain ⟨l, hl, hroom⟩ := h.room
  have hquit := h.not_quit hdone
  have hlen := hl.inlen
  refine wp_mono (onData_spec hl hdone hquit (by omega)) ?_
  rintro _ _ ⟨s', rfl, h'⟩
  have hreads : s'.reads = s.reads ++ [bs] := h'.reads
  have hrem : remainder nl (streams (s.reads ++ [bs])).2 =
      remainder nl (remainder nl (streams s.reads).2 ++ bs) := by
    rw [streams_data s.reads hne, remainder_append]
  -- if no line was overlong, the buffer held the unfinished line
  have hbefore : Short (s.reads ++ [bs]) →
      l = remainder nl (streams s.reads).2 ∧ s.passed = typed s.reads := fun hshort =>
    (h.goesOn (hshort.of_data hne) hquit).imp_left fun hholds => hl.eq hholds
  obtain ⟨hd, hr, hp, hq⟩ := flush_same s'
  refine ⟨?_, ?_, ?_, ?_⟩
  · obtain ⟨b, hb⟩ : ∃ b, Holds s' b := by
      rcases Bool.eq_false_or_eq_true s'.quit with hq' | hq'
      · obtain ⟨b, -, -, hb, -⟩ := h'.quits hq'
        exact ⟨b, hb⟩
      · exact ⟨_, (h'.goesOn hq').1⟩
    obtain ⟨l', hl', hlt, -⟩ := flush_holds hb
    exact ⟨l', hl', hlt⟩
  · rw [hq, hd, h'.done]
    exact id
  · rw [hq, hr, hp, hreads]
    intro hshort hq'
    obtain ⟨rfl, hpassed⟩ := hbefore hshort
    obtain ⟨hholds, hpassed'⟩ := h'.goesOn hq'
    obtain ⟨l', hl', -, heq⟩ := flush_holds hholds
    have hlt := hshort.remainder_lt
    rw [hrem] at hlt ⊢
    rw [heq hlt] at hl'
    refine ⟨hl', ?_⟩
    rw [hpassed', typed_data s.reads hne, ← hpassed]
  · rw [hq, hr, hp, hreads]
    intro hshort hq'
    obtain ⟨rfl, hpassed⟩ := hbefore hshort
    obtain ⟨-, p, q, -, -, hpq, hpassed', hlast⟩ := h'.quits hq'
    refine ⟨q, ?_, ?_⟩
    · rw [hpassed', append_assoc, hpq, typed_data s.reads hne, ← hpassed]
    · rw [hpassed', getLast?_append, hlast]
      rfl

/-- What is passed on at an end of file. -/
structure Rests (s s' : Loop) (l : List Byte) : Prop where
  holds : Holds s' []
  reads : s'.reads = s.reads
  passed : s'.passed = s.passed ++ if l = [] then [] else [cstr l]
  done : s'.quit = true → s'.done = true
  quits : s'.quit = true → s'.passed.getLast? = some (str "quit")

theorem sendRest_spec (h : Holds s l) (hroom : l.length < yashBufSize) (hquit : s.quit = false) :
    wp sendRest (fun _ s' => Rests s s' l) s := by
  refine wp_get ?_
  by_cases hl : l = []
  · subst hl
    rw [h.inlen, if_neg (by simp)]
    refine wp_pure ⟨h, rfl, (append_nil _).symm, fun hq => ?_, fun hq => ?_⟩
    · rw [hquit] at hq
      cases hq
    · rw [hquit] at hq
      cases hq
  · have hpos : 0 < s.inlen := by rw [h.inlen]; exact length_pos_of_ne_nil hl
    have hlt : s.inlen < s.inbuf.length := by rw [h.inlen, h.size]; exact hroom
    rw [if_pos hpos]
    refine wp_call (terminate_eq hlt) (wp_bind (sendLine_spec (mem_set hlt 0)) fun r s1 h1 =>
      ?_)
    have hline : cstr (s.inbuf.set s.inlen 0) = cstr l := by rw [cstr_set hlt, h.take]
    have hpassed := h1.passed
    rw [hline] at hpassed
    have hr : s1.quit = r := h1.quit.trans (by rw [hquit, Bool.false_or])
    refine wp_of_eq modify_eq ⟨⟨?_, rfl, rfl⟩, h1.reads, ?_, fun hq => ?_, fun hq => ?_⟩
    · rw [h1.inbuf, length_set, h.size]
    · rw [if_neg hl]
      exact hpassed
    · exact hr.symm.trans hq
    · rw [hpassed, getLast?_concat, ← h1.line (hr.symm.trans hq), hline]

theorem onEof_inv (h : Inv s) (hdone : s.done = false) (tty : Bool) :
    wp (onEof tty) (fun _ s' => Inv s') s := by
  obtain ⟨l, hl, hroom⟩ := h.room
  have hquit := h.not_quit hdone
  refine wp_modify (wp_bind (sendRest_spec (hl.congr rfl rfl) hroom hquit) fun _ s' h' => ?_)
  have hreads : s'.reads = s.reads ++ [[]] := h'.reads
  -- if no line was overlong, the buffer held the unfinished line
  have hpassed : Short (s.reads ++ [[]]) → s'.passed = typed (s.reads ++ [[]]) := by
    intro hshort
    obtain ⟨hholds, hpassed⟩ := h.goesOn hshort.of_eof hquit
    rw [h'.passed, typed_eof, ← hl.eq hholds, ← hpassed]
  have hinv : Inv s' := by
    refine ⟨⟨[], h'.holds, by decide⟩, h'.done, ?_, ?_⟩
    · rw [hreads]
      intro hshort _
      rw [streams_eof, remainder_of_not_mem not_mem_nil]
      exact ⟨h'.holds, hpassed hshort⟩
    · rw [hreads]
      intro hshort hq
      exact ⟨[], by rw [append_nil, hpassed hshort], h'.quits hq⟩
  refine wp_modify (wp_of_eq modify_eq (hinv.congr ?_))
  dsimp only
  split
  · exact ⟨rfl, rfl, fun _ => rfl, rfl, rfl, rfl⟩
  · split <;> exact ⟨rfl, rfl, id, rfl, rfl, rfl⟩

/-! ## A turn -/

theorem onSignal_same (flag : Bool) (b : Byte) (s : Loop) :
    ∃ s', onSignal flag b s = some ((), s') ∧ Same s s' ∧ s'.done = s.done := by
  cases flag with
  | true => exact ⟨_, rfl, ⟨rfl, rfl, id, rfl, rfl, rfl⟩, rfl⟩
  | false => exact ⟨s, rfl, ⟨rfl, rfl, id, rfl, rfl, rfl⟩, rfl⟩

theorem onSocket_same (printed : Bool) (res : ReadRes) (s : Loop) :
    ∃ r s', onSocket printed res s = some (r, s') ∧ Same s s' ∧ s'.done = s.done := by
  cases res with
  | data bs => cases printed <;> exact ⟨_, _, rfl, ⟨rfl, rfl, id, rfl, rfl, rfl⟩, rfl⟩
  | eof => exact ⟨_, _, rfl, ⟨rfl, rfl, id, rfl, rfl, rfl⟩, rfl⟩
  | fail e => cases e <;> exact ⟨_, _, rfl, ⟨rfl, rfl, id, rfl, rfl, rfl⟩, rfl⟩

theorem onStdin_inv (h : Inv s) (hdone : s.done = false) (tty : Bool) {res : ReadRes}
    (hres : Answers (yashBufSize - s.inlen) res) : wp (onStdin tty res) (fun _ s' => Inv s') s := by
  cases res with
  | data bs => exact onData_inv h hdone hres.1 hres.2
  | eof => exact onEof_inv h hdone tty
  | fail e =>
    cases e with
    | eintr => exact wp_pure h
    | other => exact wp_of_eq modify_eq (h.congr ⟨rfl, rfl, id, rfl, rfl, rfl⟩)

theorem onReady_inv (h : Inv s) (hdone : s.done = false) (t : Turn) (socket : Option ReadRes)
    {stdin : Option ReadRes}
    (hstdin : ∀ res, stdin = some res → Answers (yashBufSize - s.inlen) res) :
    wp (onReady t socket stdin) (fun _ s' => Inv s') s := by
  obtain ⟨r, s1, hrun, hsame, hdone1⟩ : ∃ r s', (match socket with
      | some res => onSocket t.printed res
      | none => pure true : Panic Loop Bool) s = some (r, s') ∧ Same s s' ∧ s'.done = s.done := by
    cases socket with
    | some res => exact onSocket_same t.printed res s
    | none => exact ⟨true, s, rfl, ⟨rfl, rfl, id, rfl, rfl, rfl⟩, rfl⟩
  have h1 := h.congr hsame
  refine wp_call hrun (wp_get ?_)
  cases stdin with
  | none => exact wp_pure h1
  | some res =>
    dsimp only
    split
    · refine onStdin_inv h1 (hdone1.trans hdone) t.tty ?_
      rw [hsame.inlen]
      exact hstdin res rfl
    · exact wp_pure h1

/-- **One turn** keeps the invariant, and does not go outside the buffer. -/
theorem turn_inv (h : Inv s) (hdone : s.done = false) {t : Turn} (ht : t.Valid s) :
    wp (turn t) (fun _ s' => Inv s') s := by
  obtain ⟨s1, hrun1, hsame1, hdone1⟩ := onSignal_same t.gotInt ctlInt s
  obtain ⟨s2, hrun2, hsame2, hdone2⟩ := onSignal_same t.gotStop ctlStop s1
  have h2 := (h.congr hsame1).congr hsame2
  refine wp_call hrun1 (wp_call hrun2 ?_)
  unfold Turn.Valid at ht
  split
  · exact wp_pure h2
  · exact wp_of_eq modify_eq (h2.congr ⟨rfl, rfl, id, rfl, rfl, rfl⟩)
  · rename_i socket stdin hselect
    rw [hselect] at ht
    refine onReady_inv h2 ((hdone2.trans hdone1).trans hdone) t socket ?_
    rw [hsame2.inlen, hsame1.inlen]
    exact ht.2

theorem Reach.inv {inbuf : List Byte} (hsize : inbuf.length = yashBufSize) (h : Reach inbuf s) :
    Inv s := by
  induction h with
  | start => exact start_inv hsize
  | turn _ hdone _ ht hrun ih => exact of_wp (turn_inv ih hdone ht) hrun

end Loop

open Loop

/-- **The client's line buffer.** At the top of each turn there is room in the buffer, so that
`read` is asked for at least one byte, and no turn goes outside the buffer, whatever it meets. If no
line that was read, and nothing that was read before an end of file, has more than 4095 bytes, then
what was passed to `send_line` are the lines that were read, in their order, and what was before an
end of file; or the first of them, up to the one with which `send_line` returned 1. -/
theorem line_buffer_keeps {inbuf : List Byte} (hsize : inbuf.length = yashBufSize) {s : Loop}
    (h : Reach inbuf s) :
    s.inlen < yashBufSize ∧
    (s.done = false → s.left = false → ∀ t : Turn, t.Valid s → ∃ s', turn t s = some ((), s')) ∧
    (Loop.Short s.reads →
      (s.quit = false → s.passed = typed s.reads) ∧
      (s.quit = true → s.done = true ∧ s.passed.getLast? = some (str "quit") ∧
        s.passed <+: typed s.reads)) := by
  have hinv := h.inv hsize
  obtain ⟨l, hl, hroom⟩ := hinv.room
  refine ⟨hl.inlen ▸ hroom, fun hdone _ t ht => ?_, fun hshort => ⟨fun hq => ?_, fun hq => ?_⟩⟩
  · obtain ⟨_, s', hrun, -⟩ := turn_inv hinv hdone ht
    exact ⟨s', hrun⟩
  · exact (hinv.goesOn hshort hq).2
  · obtain ⟨q, hpassed, hlast⟩ := hinv.quits hshort hq
    exact ⟨hinv.done hq, hlast, q, hpassed⟩

/-- A turn in which only stdin is ready. -/
def stdinTurn (res : ReadRes) : Turn := ⟨false, false, .ready none (some res), true, false⟩

theorem stdinTurn_valid {res : ReadRes} {s : Loop} (h : Answers (yashBufSize - s.inlen) res) :
    (stdinTurn res).Valid s := by
  refine ⟨nofun, fun r hr => ?_⟩
  cases hr
  exact h

theorem turn_stdin {res : ReadRes} {s : Loop} (h : s.stdinOpen = true) :
    turn (stdinTurn res) s = onStdin false res s := by
  have hturn : turn (stdinTurn res) s =
      (if true = true ∧ s.stdinOpen = true then onStdin false res else pure ()) s := rfl
  rw [hturn, if_pos ⟨rfl, h⟩]

theorem sendLines_idle {s : Loop} (turns : Nat) (hdone : s.done = false)
    (hfits : s.inlen ≤ s.inbuf.length) (hnl : nl ∉ s.inbuf.take s.inlen) :
    sendLines (turns + 1) s = some ((), s) := by
  rw [sendLines, get_bind, hdone, if_neg (by simp), bind_eq (assert_eq hfits), findIdx_none hnl]
  rfl

/-- The first bytes read fill the buffer and have no newline: they are dropped. -/
theorem onData_overlong {inbuf bs : List Byte} (hsize : inbuf.length = yashBufSize)
    (hlen : bs.length = yashBufSize) (hnl : nl ∉ bs) :
    onData bs (start inbuf) = some ((), { start inbuf with inbuf := bs, reads := [bs] }) := by
  have hread : splice inbuf 0 bs = bs := by
    rw [splice, take_zero, nil_append, Nat.zero_add, hlen, ← hsize, drop_length, append_nil]
  have hassert : (start inbuf).inlen + bs.length ≤ (start inbuf).inbuf.length := by
    show 0 + bs.length ≤ inbuf.length
    omega
  obtain ⟨s, hs⟩ : ∃ s : Loop, s = { start inbuf with
      inbuf := splice inbuf 0 bs
      inlen := 0 + bs.length
      reads := [] ++ [bs] } := ⟨_, rfl⟩
  have hinbuf : s.inbuf = bs := by rw [hs]; exact hread
  have hinlen : s.inlen = yashBufSize := by
    rw [hs]
    exact (Nat.zero_add _).trans hlen
  have hlines : sendLines (0 + bs.length + 1) s = some ((), s) := by
    refine sendLines_idle _ (by rw [hs]; rfl) (by rw [hinlen, hinbuf, hlen]) ?_
    rw [hinbuf]
    exact fun h => hnl (mem_of_mem_take h)
  rw [onData, get_bind, bind_eq (assert_eq hassert), bind_eq modify_eq]
  show (sendLines (0 + bs.length + 1) >>= fun _ => modify flush) ({ start inbuf with
      inbuf := splice inbuf 0 bs
      inlen := 0 + bs.length
      reads := [] ++ [bs] } : Loop) = _
  rw [← hs, bind_eq hlines, modify_eq, flush, if_pos hinlen, hs, hread]
  rfl

/-- Short lines that are read at once, none of them `quit`. -/
theorem reach_read (bs : List Byte) (hne : bs ≠ []) (hlen : bs.length ≤ yashBufSize)
    (hquit : str "quit" ∉ (lines nl bs).map cstr) :
    ∃ inbuf s, inbuf.length = yashBufSize ∧ Reach inbuf s ∧ s.reads = [bs] ∧ s.quit = false := by
  obtain ⟨inbuf, hsize⟩ : ∃ inbuf : List Byte, inbuf.length = yashBufSize :=
    ⟨fullBuffer, length_fullBuffer⟩
  have hholds : Holds (start inbuf) [] := ⟨hsize, rfl, rfl⟩
  obtain ⟨_, _, hrun, s, rfl, hs⟩ := onData_spec (s := start inbuf) (l := []) hholds rfl rfl
    ((Nat.zero_add _).trans_le hlen)
  obtain ⟨-, hreads, -, hsame⟩ := flush_same s
  have hdata : Answers (yashBufSize - (start inbuf).inlen) (.data bs) := ⟨hne, hlen⟩
  refine ⟨inbuf, s.flush, hsize,
    .turn .start rfl rfl (stdinTurn_valid hdata) ((turn_stdin rfl).trans hrun),
    hreads.trans hs.reads, hsame.trans (Bool.eq_false_iff.mpr fun hq => ?_)⟩
  obtain ⟨-, p, q, -, -, hpq, -, hlast⟩ := hs.quits hq
  exact hquit (hpq ▸ mem_append_left q (mem_of_getLast? hlast))

/-- One line is read. -/
theorem line_buffer_keeps_ls : ∃ inbuf s, inbuf.length = yashBufSize ∧ Reach inbuf s ∧
    s.reads = [str "ls\n"] ∧ Loop.Short s.reads ∧ s.inlen < yashBufSize ∧
      s.passed = [str "ls"] := by
  obtain ⟨inbuf, s, hsize, hr, hreads, hquit⟩ := reach_read (str "ls\n") (by decide) (by decide)
    (by decide)
  have hshort : Loop.Short s.reads := by
    rw [hreads]
    unfold Loop.Short
    decide
  obtain ⟨hinlen, -, hlines⟩ := line_buffer_keeps hsize hr
  refine ⟨inbuf, s, hsize, hr, hreads, hshort, hinlen, ?_⟩
  rw [(hlines hshort).1 hquit, hreads]
  decide

/-- An unfinished line that fills the buffer is dropped, and is not passed on at the end of file;
and of a line with a NUL in it only what is before the NUL is passed on. -/
theorem overlong_rest_is_dropped :
    (∃ s, Reach fullBuffer s ∧ s.reads = [fullBuffer, []] ∧
      s.quit = false ∧ (∀ l ∈ lines nl fullBuffer, l.length ≤ 4095) ∧
      remainder nl fullBuffer = fullBuffer ∧ fullBuffer ≠ [] ∧ s.passed = []) ∧
    ∃ inbuf s, inbuf.length = yashBufSize ∧ Reach inbuf s ∧ s.quit = false ∧
      s.reads = [str "a\x00b\n"] ∧ lines nl (str "a\x00b\n") = [str "a\x00b"] ∧
      s.passed = [str "a"] := by
  refine ⟨?_, ?_⟩
  rotate_left
  · obtain ⟨inbuf, s, hsize, hr, hreads, hquit⟩ := reach_read (str "a\x00b\n") (by decide)
      (by decide) (by decide)
    refine ⟨inbuf, s, hsize, hr, hquit, hreads, by decide, ?_⟩
    have hshort : Loop.Short s.reads := by
      rw [hreads]
      unfold Loop.Short
      decide
    rw [((hr.inv hsize).goesOn hshort hquit).2, hreads]
    decide
  obtain ⟨bs, hbs⟩ : ∃ bs, bs = fullBuffer := ⟨_, rfl⟩
  have hlen : bs.length = yashBufSize := hbs ▸ length_fullBuffer
  have hnl : nl ∉ bs := hbs ▸ nl_not_mem_fullBuffer
  have hne : bs ≠ [] := by
    rintro rfl
    cases hlen
  rw [← hbs]
  have hdata : Answers (yashBufSize - (start bs).inlen) (.data bs) := ⟨hne, Nat.le_of_eq hlen⟩
  have h1 := Reach.turn .start rfl rfl (stdinTurn_valid hdata)
    ((turn_stdin rfl).trans (onData_overlong hlen hlen hnl))
  have heof : turn (stdinTurn .eof) { start bs with inbuf := bs, reads := [bs] } =
      some ((), { start bs with
        inbuf := bs
        done := true
        sent := [⟨true, .ctl, [ctlEof]⟩]
        reads := [bs, []] }) := turn_stdin rfl
  have hanswer : Answers (yashBufSize - (start bs).inlen) .eof := trivial
  refine ⟨_, .turn h1 rfl rfl (stdinTurn_valid hanswer) heof, rfl, rfl, ?_,
    remainder_of_not_mem hnl, hne, rfl⟩
  rw [lines_of_not_mem hnl]
  exact nofun

end SystemProg.Yashd
