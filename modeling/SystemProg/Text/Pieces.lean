import SystemProg.Text.Lines

/-!
# Reading lines into a buffer

A reader with room for `n` items takes a stream in pieces: up to and including the next delimiter,
but no more than `n` items at a time (`fgets`). `pieces d n l` are the pieces of `l`, `uncut` what
is left of one without its delimiter.

* `pieces_append`: a piece does not depend on what follows, if it is complete.
* `shortPieces_frame`: of the pieces of a frame of any length exactly one is shorter than the
  buffer, its last.
* `shortPieces_iff`: the short pieces are the short frames exactly if there are no longer ones; a
  last frame without delimiter may be longer, if the buffer divides it evenly.
-/

namespace SystemProg.Text

open List

variable {α : Type} {n : Nat} {a : List α}

/-- What a frame of any length leaves for the last piece. -/
def lastPiece (n : Nat) (a : List α) : List α := a.drop (a.length / n * n)

theorem lastPiece_of_lt (h : a.length < n) : lastPiece n a = a := by
  rw [lastPiece, Nat.div_eq_of_lt h, Nat.zero_mul, drop_zero]

theorem lastPiece_drop (hn : 0 < n) (hle : n ≤ a.length) :
    lastPiece n (a.drop n) = lastPiece n a := by
  rw [lastPiece, lastPiece, drop_drop, length_drop, Nat.div_eq_sub_div hn hle,
    Nat.succ_mul, Nat.add_comm]

theorem length_lastPiece (n : Nat) (a : List α) : (lastPiece n a).length = a.length % n := by
  rw [lastPiece, length_drop]
  have := Nat.div_add_mod' a.length n
  omega

variable [DecidableEq α] {d : α} {l m : List α}

/-- Up to and including the first delimiter, but no more than `n` items. -/
def piece (d : α) (n : Nat) (l : List α) : List α :=
  if d ∈ l.take n then l.take (l.idxOf d + 1) else l.take n

/-- A piece without its delimiter. -/
def uncut (d : α) (l : List α) : List α := l.takeWhile (· ≠ d)

theorem piece_length_le : (piece d n l).length ≤ l.length := by
  unfold piece
  split <;> exact length_take_le' _ _

theorem piece_length_pos (hn : 0 < n) (hl : l ≠ []) : 0 < (piece d n l).length := by
  have := length_pos_of_ne_nil hl
  unfold piece
  split <;> rw [length_take] <;> omega

/-- The pieces of a stream. -/
def pieces (d : α) (n : Nat) (l : List α) : List (List α) :=
  if _ : l = [] ∨ n = 0 then [] else piece d n l :: pieces d n (l.drop (piece d n l).length)
termination_by l.length
decreasing_by
  rw [length_drop]
  have := length_pos_of_ne_nil (l := l) (by tauto)
  have := piece_length_pos (d := d) (n := n) (l := l) (by omega) (by tauto)
  omega

theorem pieces_nil : pieces d n [] = [] := by
  rw [pieces, dif_pos (.inl rfl)]

theorem pieces_cons (hn : 0 < n) (hl : l ≠ []) :
    pieces d n l = piece d n l :: pieces d n (l.drop (piece d n l).length) := by
  rw [pieces, dif_neg (by simp [hl]; omega)]

/-- A piece that is complete does not depend on what follows. -/
theorem piece_append (h : d ∈ l.take n ∨ n ≤ l.length) : piece d n (l ++ m) = piece d n l := by
  have hmem : d ∈ (l ++ m).take n ↔ d ∈ l.take n := by
    rcases h with h | h
    · refine iff_of_true ?_ h
      rw [take_append]
      exact mem_append_left _ h
    · rw [take_append_of_le_length h]
  unfold piece
  rw [if_congr hmem rfl rfl]
  split
  · rename_i hd
    have hd := mem_of_mem_take hd
    rw [idxOf_append_of_mem hd, take_append_of_le_length (idxOf_lt_length_of_mem hd)]
  · rename_i hd
    exact take_append_of_le_length (h.resolve_left hd)

/-- Reading a piece that is complete, or the last. -/
theorem pieces_append (hn : 0 < n) (hl : l ≠ []) (h : (d ∈ l.take n ∨ n ≤ l.length) ∨ m = []) :
    pieces d n (l ++ m) = piece d n l :: pieces d n (l.drop (piece d n l).length ++ m) := by
  rw [pieces_cons hn (by simp [hl])]
  rcases h with h | rfl
  · rw [piece_append h, drop_append_of_le_length piece_length_le]
  · simp only [append_nil]

theorem mem_of_mem_pieces {x : α} {p : List α} (hp : p ∈ pieces d n l) (hx : x ∈ p) : x ∈ l := by
  induction hlen : l.length using Nat.strongRecOn generalizing l with
  | _ k ih =>
    rw [pieces] at hp
    split at hp
    · cases hp
    · rename_i hne
      have hl := length_pos_of_ne_nil fun h => hne (.inl h)
      have hpos := piece_length_pos (d := d) (n := n) (l := l) (by omega) fun h => hne (.inl h)
      rcases mem_cons.mp hp with rfl | hp
      · unfold piece at hx
        split at hx <;> exact mem_of_mem_take hx
      · refine mem_of_mem_drop (ih _ ?_ hp rfl)
        rw [length_drop]
        omega

/-! ## Frames -/

theorem pieces_frame (ha : d ∉ a) (hn : a.length < n) (b : List α) :
    pieces d n (a ++ d :: b) = (a ++ [d]) :: pieces d n b := by
  have hsplit : a ++ d :: b = (a ++ [d]) ++ b := by simp
  have hmem : d ∈ (a ++ [d]).take n := by
    rw [take_of_length_le (by simp only [length_append, length_singleton]; omega)]
    simp
  have hpiece : piece d n (a ++ [d]) = a ++ [d] := by
    rw [piece, if_pos hmem, idxOf_append_of_notMem ha, idxOf_cons_self]
    exact take_of_length_le (by simp)
  rw [hsplit, pieces_append (by omega) (by simp) (.inl (.inl hmem)), hpiece, drop_length,
    nil_append]

theorem pieces_full (ha : d ∉ a) (hn : 0 < n) (hle : n ≤ a.length) (b : List α) :
    pieces d n (a ++ b) = a.take n :: pieces d n (a.drop n ++ b) := by
  have hne : a ≠ [] := by
    rintro rfl
    simp at hle
    omega
  have hpiece : piece d n a = a.take n := if_neg fun h => ha (mem_of_mem_take h)
  rw [pieces_append hn hne (.inl (.inr hle)), hpiece, length_take, Nat.min_eq_left hle]

theorem pieces_rest (ha : d ∉ a) (hn : a.length < n) :
    pieces d n a = if a = [] then [] else [a] := by
  split
  · rename_i h
    rw [h, pieces_nil]
  · rename_i h
    have hpiece : piece d n a = a := by
      rw [piece, if_neg fun h => ha (mem_of_mem_take h), take_of_length_le (Nat.le_of_lt hn)]
    rw [pieces_cons (by omega) h, hpiece, drop_length, pieces_nil]

theorem uncut_of_not_mem (h : d ∉ a) : uncut d a = a := by
  unfold uncut
  rw [← append_nil a, takeWhile_append_of_pos fun x hx => by
    simpa using fun e : x = d => h (e ▸ hx)]
  simp

theorem uncut_append_delim (h : d ∉ a) : uncut d (a ++ [d]) = a := by
  unfold uncut
  rw [takeWhile_append_of_pos fun x hx => by simpa using fun e : x = d => h (e ▸ hx)]
  simp

/-- The pieces shorter than the buffer, without their delimiters. -/
def shortPieces (d : α) (n : Nat) (l : List α) : List (List α) :=
  ((pieces d n l).map (uncut d)).filter fun p => p.length < n

/-- **A frame has one short piece**, its last. -/
theorem shortPieces_frame (hn : 0 < n) (ha : d ∉ a) (b : List α) :
    shortPieces d n (a ++ d :: b) = lastPiece n a :: shortPieces d n b := by
  induction hlen : a.length using Nat.strongRecOn generalizing a with
  | _ k ih =>
    rcases Nat.lt_or_ge a.length n with hlt | hle
    · rw [lastPiece_of_lt hlt, shortPieces, pieces_frame ha hlt, map_cons,
        uncut_append_delim ha, filter_cons_of_pos (by simpa using hlt)]
      rfl
    · have ha' : d ∉ a.drop n := fun h => ha (mem_of_mem_drop h)
      have hrest := ih (a.drop n).length (by rw [length_drop]; omega) ha' rfl
      rw [lastPiece_drop hn hle] at hrest
      rw [← hrest, shortPieces, pieces_full ha hn hle, map_cons,
        uncut_of_not_mem fun h => ha (mem_of_mem_take h), filter_cons_of_neg (by simp; omega)]
      rfl

/-- The end of a stream has one, unless the buffer divides it evenly. -/
theorem shortPieces_rest (hn : 0 < n) (ha : d ∉ a) :
    shortPieces d n a = if lastPiece n a = [] then [] else [lastPiece n a] := by
  induction hlen : a.length using Nat.strongRecOn generalizing a with
  | _ k ih =>
    rcases Nat.lt_or_ge a.length n with hlt | hle
    · rw [lastPiece_of_lt hlt, shortPieces, pieces_rest ha hlt]
      split
      · rfl
      · simp [uncut_of_not_mem ha, hlt]
    · have ha' : d ∉ a.drop n := fun h => ha (mem_of_mem_drop h)
      have hrest := ih (a.drop n).length (by rw [length_drop]; omega) ha' rfl
      rw [lastPiece_drop hn hle] at hrest
      have hfull := pieces_full ha hn hle []
      rw [append_nil, append_nil] at hfull
      rw [← hrest, shortPieces, hfull, map_cons, uncut_of_not_mem fun h => ha (mem_of_mem_take h),
        filter_cons_of_neg (by simp; omega)]
      rfl

/-- The frames of a stream, a last one without delimiter included. -/
def frames (d : α) (l : List α) : List (List α) :=
  lines d l ++ if remainder d l = [] then [] else [remainder d l]

/-- The short pieces of a stream: the tail of each frame. -/
theorem shortPieces_eq (hn : 0 < n) (l : List α) :
    shortPieces d n l = (lines d l).map (lastPiece n) ++
    if lastPiece n (remainder d l) = [] then [] else [lastPiece n (remainder d l)] := by
  induction l using frame_induction (d := d) with
  | rest l h => rw [shortPieces_rest hn h, lines_of_not_mem h, remainder_of_not_mem h]; rfl
  | frame a b ha ih =>
    rw [shortPieces_frame hn ha, ih, lines_append_cons ha, remainder_append_cons ha]
    rfl

/-- **When a reader sees the short frames and nothing else.** -/
theorem shortPieces_iff (hn : 0 < n) (l : List α) :
    shortPieces d n l = (frames d l).filter (fun a => a.length < n) ↔
      (∀ a ∈ lines d l, a.length < n) ∧
        ((remainder d l).length < n ∨ n ∣ (remainder d l).length) := by
  rw [shortPieces_eq hn, frames, filter_append]
  obtain ⟨r, hr⟩ : ∃ r, r = remainder d l := ⟨_, rfl⟩
  rw [← hr]
  -- the end of the stream: what is seen of it, and what should be
  have hend : (if lastPiece n r = [] then [] else [lastPiece n r]).length =
      ((if r = [] then [] else [r]).filter fun a => a.length < n).length +
        if r.length < n ∨ n ∣ r.length then 0 else 1 := by
    have htail : lastPiece n r = [] ↔ n ∣ r.length := by
      rw [← length_eq_zero_iff, length_lastPiece, Nat.dvd_iff_mod_eq_zero]
    rcases Nat.lt_or_ge r.length n with hlt | hge
    · rw [lastPiece_of_lt hlt, if_pos (Or.inl hlt : r.length < n ∨ n ∣ r.length)]
      split <;> simp [hlt]
    · have hne : r ≠ [] := by
        rintro rfl
        simp at hge
        omega
      have hnlt : ¬ r.length < n := Nat.not_lt.mpr hge
      simp only [htail, hne, if_false, hnlt, false_or]
      by_cases hdvd : n ∣ r.length <;> simp [hdvd, hnlt]
  constructor
  · intro h
    have hlen := congrArg List.length h
    rw [length_append, length_append, length_map, hend] at hlen
    have hle := length_filter_le (fun a : List α => decide (a.length < n)) (lines d l)
    refine ⟨fun a ha => ?_, ?_⟩
    · have heq : ((lines d l).filter fun a => a.length < n).length = (lines d l).length := by omega
      exact of_decide_eq_true (length_filter_eq_length_iff.mp heq a ha)
    · by_contra hnot
      rw [if_neg hnot] at hlen
      omega
  · rintro ⟨hshort, hrest⟩
    congr 1
    · rw [filter_eq_self.mpr fun a ha => decide_eq_true (hshort a ha)]
      conv_rhs => rw [← map_id (lines d l)]
      exact map_congr_left fun a ha => lastPiece_of_lt (hshort a ha)
    · rcases Nat.lt_or_ge r.length n with hlt | hge
      · rw [lastPiece_of_lt hlt]
        split <;> simp [hlt]
      · have hdvd := hrest.resolve_left (Nat.not_lt.mpr hge)
        have htail : lastPiece n r = [] := by
          rw [← length_eq_zero_iff, length_lastPiece, ← Nat.dvd_iff_mod_eq_zero]
          exact hdvd
        rw [if_pos htail]
        split <;> simp [Nat.not_lt.mpr hge]

end SystemProg.Text
