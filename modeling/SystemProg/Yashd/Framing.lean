import SystemProg.Yashd.Isolation

/-!
# Lines of the stream and lines taken

The world keeps the bytes a client has sent and the lines `buf_take_line` has popped from them. A
line that does not fit `inbuf` is not dropped whole: `buf_fill` empties a full buffer
(`server/src/session.c:130-133`) and then reads on in the middle of the line, so what is left of it
once whole buffers are gone is taken as a line of its own (`crop`).

* `Reachable.cropped`: the lines taken, for any stream and in any interleaving.
* `Reachable.framed`: if every piece of the stream is short enough, they are the lines of the
  stream.
* `dispatched_short_iff`: the lines taken are the short ones among them only if all of them are
  short.
-/

namespace SystemProg.Yashd

open Text Shell Conc Data Conc.Logic List

/-- Every piece that newlines cut a stream into fits the input buffer. -/
structure Brief (l : List Byte) : Prop where
  lines : Short l
  last : ShortEnd l

theorem Brief.of_append {a b : List Byte} (h : Brief (a ++ b)) : Brief a := by
  refine ⟨fun r hr => h.lines r ?_, ?_⟩
  · rw [lines_append]
    exact mem_append_left _ hr
  · rcases remainder_prefix (d := nl) a b with ⟨r, hr, hle⟩ | hle
    · exact Nat.lt_of_le_of_lt hle.length_le (h.lines r hr)
    · exact Nat.lt_of_le_of_lt hle.length_le h.last

theorem Brief.of_terminated {raws : List (List Byte)} {m : List Byte} (hr : ∀ r ∈ raws, nl ∉ r)
    (h : Brief ((raws.flatMap fun r => r ++ [nl]) ++ m)) : Brief m := by
  refine ⟨fun r hm => h.lines r ?_, ?_⟩
  · rw [lines_of_terminated hr]
    exact mem_append_right _ hm
  · have := h.last
    rwa [ShortEnd, remainder_of_terminated hr] at this

/-! ## Lines longer than the buffer -/

/-- What is left of a line once every full buffer of it has been dropped. -/
def crop (r : List Byte) : List Byte := r.drop (r.length / yashBufSize * yashBufSize)

theorem crop_append {a r : List Byte} (ha : yashBufSize ∣ a.length) (hr : r.length < yashBufSize) :
    crop (a ++ r) = r := by
  obtain ⟨m, hm⟩ := ha
  have hlen : (a ++ r).length / yashBufSize * yashBufSize = a.length := by
    rw [length_append, hm, Nat.mul_add_div (by decide), Nat.div_eq_of_lt hr, Nat.add_zero,
      Nat.mul_comm]
  rw [crop, hlen, drop_left]

theorem crop_of_lt {r : List Byte} (hr : r.length < yashBufSize) : crop r = r :=
  crop_append (a := []) (Nat.dvd_zero _) hr

/-- The lines taken from a connection so far are what is left of `raws`, `gone` is what has been
dropped of the line after them, and the rest of what was sent is in the buffer or on the wire. -/
structure Cropped (x : Sess) (raws : List (List Byte)) (gone : List Byte) : Prop where
  newline : ∀ r ∈ raws, nl ∉ r
  taken : x.taken.map Taken.line = raws.map fun r => stripCr (crop r)
  whole : yashBufSize ∣ gone.length
  inner : nl ∉ gone
  stream : (raws.flatMap fun r => r ++ [nl]) ++
    (gone ++ (x.mem.input.inbuf.bytes ++ x.wire.pending)) = x.heard

/-- The lines taken from a connection so far are `raws` without their carriage returns, and the rest
of what was sent is in the buffer or on the wire. -/
structure Framed (x : Sess) (raws : List (List Byte)) : Prop where
  newline : ∀ r ∈ raws, nl ∉ r
  taken : x.taken.map Taken.line = raws.map stripCr
  stream :
    (raws.flatMap fun r => r ++ [nl]) ++ (x.mem.input.inbuf.bytes ++ x.wire.pending) = x.heard

variable {x x' : Sess} {raws : List (List Byte)} {gone : List Byte}

theorem Framed.lines_heard (h : Framed x raws) :
    lines nl x.heard = raws ++ lines nl (x.mem.input.inbuf.bytes ++ x.wire.pending) := by
  rw [← h.stream, lines_of_terminated h.newline]

namespace Cropped

theorem start : Cropped Sess.create [] [] := ⟨by simp, rfl, Nat.dvd_zero _, not_mem_nil, rfl⟩

theorem lines_heard (h : Cropped x raws gone) : lines nl x.heard =
    raws ++ lines nl (gone ++ (x.mem.input.inbuf.bytes ++ x.wire.pending)) := by
  rw [← h.stream, lines_of_terminated h.newline]

/-- Nothing is dropped from a stream of short pieces. -/
theorem framed (h : Cropped x raws gone) (hb : Brief x.heard) : Framed x raws := by
  rw [← h.stream] at hb
  have hgone : gone = [] := by
    have hlast := (hb.of_terminated h.newline).of_append.last
    rw [ShortEnd, remainder_of_not_mem h.inner] at hlast
    exact length_eq_zero_iff.mp (Nat.eq_zero_of_dvd_of_lt h.whole hlast)
  refine ⟨h.newline, ?_, ?_⟩
  · rw [h.taken]
    refine map_congr_left fun r hr => congrArg stripCr (crop_of_lt (hb.lines r ?_))
    rw [lines_of_terminated h.newline]
    exact mem_append_left _ hr
  · simpa only [hgone, nil_append] using h.stream

theorem congr (h : Cropped x raws gone) (hi : x'.mem.input.inbuf = x.mem.input.inbuf)
    (hw : x'.wire.pending = x.wire.pending) (hh : x'.heard = x.heard) (ht : x'.taken = x.taken) :
    Cropped x' raws gone :=
  ⟨h.newline, ht ▸ h.taken, h.whole, h.inner, by rw [hi, hw, hh]; exact h.stream⟩

theorem take {site : Site} {line : List Byte} {b : InBuf} (h : Cropped x raws gone)
    (ht : bufTakeLine x.mem.input.inbuf yashBufSize = some (line, b)) :
    ∃ raws, Cropped (x.take site line b) raws [] := by
  obtain ⟨raw, hraw, hbytes, rfl⟩ := bufTakeLine_inv le_rfl ht
  have hlen : raw.length < yashBufSize := by
    have hfits := x.mem.input.inbuf.fits
    rw [hbytes, length_append, length_cons] at hfits
    omega
  refine ⟨raws ++ [gone ++ raw], fun r hr => ?_, ?_, Nat.dvd_zero _, not_mem_nil, ?_⟩
  · rcases mem_append.mp hr with hr | hr
    · exact h.newline r hr
    · rw [mem_singleton.mp hr]
      exact fun hm => (mem_append.mp hm).elim h.inner hraw
  · rw [Sess.take, map_append, map_append, h.taken, map_singleton,
      map_singleton, crop_append h.whole hlen]
  · have hstream := h.stream
    rw [hbytes] at hstream
    show _ ++ ([] ++ (b.bytes ++ x.wire.pending)) = x.heard
    rw [← hstream]
    simp

/-- A full buffer is dropped, and otherwise bytes only move. -/
theorem fill {cut : Cut} {r : Int} {c : Conn} (h : Cropped x raws gone)
    (hnl : nl ∉ x.mem.input.inbuf.bytes) (hf : bufFill ⟨x.mem.input, x.wire⟩ cut = some (r, c)) :
    ∃ gone, Cropped { x with mem.input := c.input, wire := c.wire } raws gone := by
  by_cases hfull : x.mem.input.inbuf.full
  · rw [bufFill, if_pos hfull] at hf
    cases hf
    refine ⟨gone ++ x.mem.input.inbuf.bytes, h.newline, h.taken, ?_, fun hm =>
      (mem_append.mp hm).elim h.inner hnl, ?_⟩
    · rw [length_append, show x.mem.input.inbuf.bytes.length = yashBufSize from hfull]
      exact Nat.dvd_add h.whole (Nat.dvd_refl _)
    · show _ ++ (_ ++ ([] ++ x.wire.pending)) = x.heard
      rw [← h.stream, append_assoc, nil_append]
  · refine ⟨gone, h.newline, h.taken, h.whole, h.inner, ?_⟩
    have hst := bufFill_stream hfull hf
    rw [Conn.stream, Conn.stream] at hst
    show _ ++ (_ ++ (c.input.inbuf.bytes ++ c.wire.pending)) = x.heard
    rw [hst]
    exact h.stream

theorem act {o : Op} {r : o.Res} {v : View} (h : Cropped x raws gone)
    (hv : v.jobs = x.mem.jobs) (hi : v.inbuf = x.mem.input.inbuf.bytes) (hpre : View.pre o v)
    (hact : Sess.act o x r x') : ∃ raws gone, Cropped x' raws gone := by
  cases o with
  | load =>
    rw [hact.2]
    exact ⟨raws, gone, h⟩
  | store f =>
    cases hact
    exact ⟨raws, gone, h.congr (congrArg Input.inbuf (hpre x.mem hv.symm).input) rfl rfl rfl⟩
  | takeLine site =>
    cases r with
    | none =>
      rw [hact.2]
      exact ⟨raws, gone, h⟩
    | some line =>
      obtain ⟨b, ht, rfl⟩ := hact
      obtain ⟨raws, h⟩ := h.take ht
      exact ⟨raws, [], h⟩
  | fill site =>
    obtain ⟨cut, c, hf, rfl⟩ := hact
    exact ⟨raws, h.fill (hi ▸ hpre.1) hf⟩
  | quit site =>
    cases hact
    exact ⟨raws, gone, h.congr rfl rfl rfl rfl⟩
  | write out bs =>
    cases r <;> cases hact <;> exact ⟨raws, gone, h.congr rfl rfl rfl rfl⟩
  | _ =>
    rcases hact with rfl | ⟨e, rfl⟩
    · exact ⟨raws, gone, h⟩
    · exact ⟨raws, gone, h.congr rfl rfl rfl rfl⟩

theorem env (h : Cropped x raws gone) (he : Sess.Env x x') : Cropped x' raws gone := by
  cases he with
  | refl => exact h
  | send bs =>
    refine ⟨h.newline, h.taken, h.whole, h.inner, ?_⟩
    show _ ++ (gone ++ (x.mem.input.inbuf.bytes ++ (x.wire.pending ++ bs))) = x.heard ++ bs
    simp only [← h.stream, append_assoc]
  | _ => exact h.congr rfl rfl rfl rfl

end Cropped

variable {S : System} {sid : Nat}

/-- **The lines taken, in any interleaving.** -/
theorem Reachable.cropped (h : Reachable S) (sid : Nat) :
    ∃ raws gone, Cropped (S.world.sess sid) raws gone := by
  refine h.induction (P := fun S => ∀ sid, ∃ raws gone, Cropped (S.world.sess sid) raws gone)
    (fun _ => ⟨[], [], .start⟩) (fun S e S' hS ih hstep i => ?_) sid
  obtain ⟨raws, gone, hc⟩ := ih i
  rcases System.step_sess hstep i with ⟨ch, o, k, r, -, ht, -, -, hact⟩ | ⟨-, hnew⟩ | henv
  · exact hc.act rfl rfl (hS.inv.threads.head ht) hact
  · rw [hnew]
    exact ⟨[], [], .start⟩
  · exact ⟨raws, gone, hc.env henv⟩

/-- **Framing, in any interleaving.** -/
theorem Reachable.framed {S : System} (h : Reachable S) (sid : Nat)
    (hb : Brief (S.world.sess sid).heard) : ∃ raws, Framed (S.world.sess sid) raws := by
  obtain ⟨raws, gone, hc⟩ := h.cropped sid
  exact ⟨raws, hc.framed hb⟩

/-- The caller for which `buf_fill` is about to read. -/
def System.filling (S : System) (sid : Nat) : Option Site :=
  match S.thread sid with
  | some (.call (.fill site) _) => some site
  | _ => none

theorem System.filling_eq_some {site : Site} (h : S.filling sid = some site) :
    ∃ k, S.thread sid = some (.call (.fill site) k) := by
  unfold System.filling at h
  split at h
  · cases h
    exact ⟨_, ‹_›⟩
  · cases h

/-- **Overlong lines.** Whenever a session is about to read more, from either caller, and all that
was sent has been read: the lines it has taken are the lines of at most 4095 bytes of the stream
exactly if the stream has no other lines. And if no piece of the stream is longer, `buf_fill` does
not find its buffer full. -/
theorem dispatched_short_iff (h : Reachable S) {site : Site} (hfill : S.filling sid = some site)
    (hp : (S.world.sess sid).wire.pending = []) :
    ((S.world.sess sid).taken.map Taken.line =
      ((lines nl (S.world.sess sid).heard).filter fun r => r.length ≤ 4095).map stripCr ↔
        ∀ r ∈ lines nl (S.world.sess sid).heard, r.length ≤ 4095) ∧
    (Brief (S.world.sess sid).heard → ¬ (S.world.mem sid).input.inbuf.full) := by
  obtain ⟨k, ht⟩ := System.filling_eq_some hfill
  have hnl : nl ∉ (S.world.mem sid).input.inbuf.bytes := (h.inv.threads.head ht).1
  obtain ⟨raws, gone, hc⟩ := h.cropped sid
  have hlines : lines nl (S.world.sess sid).heard = raws := by
    rw [hc.lines_heard, hp, append_nil, lines_of_not_mem, append_nil]
    exact fun hm => (mem_append.mp hm).elim hc.inner hnl
  refine ⟨?_, fun hb => ?_⟩
  · rw [hlines, hc.taken]
    constructor
    · intro he
      have hlen := congrArg List.length he
      rw [length_map, length_map] at hlen
      exact fun r hr => of_decide_eq_true (length_filter_eq_length_iff.mp hlen.symm r hr)
    · intro hs
      rw [filter_eq_self.mpr fun r hr => decide_eq_true (hs r hr)]
      refine map_congr_left fun r hr => congrArg stripCr (crop_of_lt ?_)
      exact Nat.lt_succ_of_le (hs r hr)
  · have hf := hc.framed hb
    have hrest : Brief ((S.world.mem sid).input.inbuf.bytes ++ (S.world.sess sid).wire.pending) :=
      Brief.of_terminated hf.newline (hf.stream ▸ hb)
    exact not_full (c := ⟨(S.world.mem sid).input, (S.world.sess sid).wire⟩) hrest.lines hrest.last
      hnl

/-- A client that has its first prompt. -/
def promptRun : List Event := [.accept 0] ++ steps 0 8 (.upTo 4095)

theorem dispatched_short_interrupt :
    ∃ S, Reachable S ∧ S.filling 0 = some .readsocket ∧
      (S.world.sess 0).heard = str "CTL c\n" ∧ (S.world.sess 0).taken.map Taken.line =
        [str "CTL c"] := by
  obtain ⟨S, hS, hp⟩ := reachable_of_any
    (promptRun ++ [.peerSend 0 (str "CTL c\n")] ++ steps 0 13 (.upTo 4095))
    (fun S => S.filling 0 = some .readsocket ∧ (S.world.sess 0).wire.pending = [] ∧
      (S.world.sess 0).heard = str "CTL c\n") (by decide +kernel)
  obtain ⟨hfill, hpend, hheard⟩ := of_decide_eq_true hp
  have htaken := (dispatched_short_iff hS hfill hpend).1.mpr (by rw [hheard]; decide)
  exact ⟨S, hS, hfill, hheard, htaken.trans (by rw [hheard]; decide)⟩

/-- As much as the input buffer holds, and no newline. -/
def overlong : List Byte := List.replicate 4096 120

set_option maxRecDepth 100000 in
/-- After an interrupted `read` the end of an overlong line is dispatched as a message; without one
the session ends while its client is still there. -/
theorem overlong_not_dropped :
    (∃ S, Reachable S ∧ S.filling 0 = some .readsocket ∧
      (S.world.sess 0).heard = overlong ++ str "CTL c\n" ∧
      (S.world.sess 0).taken.map Taken.line = [str "CTL c"]) ∧
    ∃ S, Reachable S ∧ S.thread 0 = some (.ret ()) ∧ (S.world.sess 0).heard = overlong ∧
      (S.world.sess 0).wire.closed = false := by
  constructor
  · obtain ⟨S, hS, hp⟩ := reachable_of_any (promptRun ++
      [.run 0 .eintr, .peerSend 0 (overlong ++ str "CTL c\n")] ++ steps 0 23 (.upTo 4095))
      (fun S => S.filling 0 = some .readsocket ∧
        (S.world.sess 0).heard = overlong ++ str "CTL c\n" ∧
        (S.world.sess 0).taken.map Taken.line = [str "CTL c"]) (by decide +kernel)
    exact ⟨S, hS, of_decide_eq_true hp⟩
  · obtain ⟨S, hS, hp⟩ := reachable_of_any
      (promptRun ++ [.peerSend 0 overlong] ++ steps 0 8 (.upTo 4095))
      (fun S => S.over 0 = true ∧ (S.world.sess 0).heard = overlong ∧
        (S.world.sess 0).wire.closed = false) (by decide +kernel)
    obtain ⟨hover, hrest⟩ := of_decide_eq_true hp
    exact ⟨S, hS, System.over_iff.mp hover, hrest⟩

end SystemProg.Yashd
