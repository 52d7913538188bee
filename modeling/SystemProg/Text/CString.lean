import SystemProg.Text.Runs

/-!
# C strings in a byte buffer

A `char` buffer is a list of bytes and a pointer into it is an offset. The string at an offset runs
up to the next NUL (`strAt`). The functions below are the C library's, over such a buffer:
`strspn`, `strcspn` and the in-place splitter `strtok_r`, whose saved position is returned with the
buffer it has written into.

* `strtokR_none`, `strtokR_some`: one call of `strtok_r` on a buffer that still holds the
  unscanned text `rest` at the saved position.
* `tokenize_spec`: repeated calls leave pointers to exactly the maximal runs of the text
  (`Text.runs`), and every earlier byte of the buffer is as it was.
-/

namespace SystemProg.Text

open List

/-- A `char`. -/
abbrev Byte := UInt8

/-- The bytes of an ASCII string literal. -/
def str (s : String) : List Byte := s.toList.map fun c => c.toNat.toUInt8

/-- The byte of an ASCII character. -/
abbrev ch (c : Char) : Byte := c.toNat.toUInt8

/-- What holds of each byte of a literal, by evaluation. -/
theorem forall_mem_of_all {p : Byte → Prop} [DecidablePred p] {l : List Byte}
    (h : l.all (fun b => decide (p b)) = true) : ∀ b ∈ l, p b := fun b hb =>
  of_decide_eq_true (List.all_eq_true.mp h b hb)

/-- `isspace`. -/
def isspace (c : Byte) : Bool :=
  c == 32 || c == 12 || c == 10 || c == 13 || c == 9 || c == 11

/-- `isdigit`. -/
def isdigit (c : Byte) : Bool := 48 ≤ c && c ≤ 57

/-- The C string held in a buffer: everything before the first NUL. -/
def cstr (buf : List Byte) : List Byte := buf.takeWhile fun b => b != 0

/-- The C string at offset `off` of `buf`. -/
def strAt (buf : List Byte) (off : Nat) : List Byte := cstr (buf.drop off)

/-- `strspn` at offset `s`: the length of the leading run of delimiters. -/
def strspn (delim : Byte → Bool) (buf : List Byte) (s : Nat) : Nat :=
  ((strAt buf s).takeWhile delim).length

/-- `strcspn` at offset `s`: the length of the leading run of non-delimiters. -/
def strcspn (delim : Byte → Bool) (buf : List Byte) (s : Nat) : Nat :=
  ((strAt buf s).takeWhile fun b => !delim b).length

/-- `strtok_r`, resumed at the saved position `s`: the token found, the buffer with the delimiter
after it overwritten by NUL, and the new saved position. -/
def strtokR (delim : Byte → Bool) (buf : List Byte) (s : Nat) : Option Nat × List Byte × Nat :=
  let b := s + strspn delim buf s
  if strAt buf b = [] then (none, buf, b)
  else
    let e := b + strcspn delim buf b
    if strAt buf e = [] then (some b, buf, e) else (some b, buf.set e 0, e + 1)

/-- The `strtok_r` loop: collect at most `room` token pointers; `none` when there is one more. -/
def tokenize (delim : Byte → Bool) (buf : List Byte) (s room : Nat) :
    Option (List Nat) × List Byte :=
  match strtokR delim buf s with
  | (none, buf', _) => (some [], buf')
  | (some t, buf', s') =>
    match room with
    | 0 => (none, buf')
    | room + 1 =>
      let r := tokenize delim buf' s' room
      (r.1.map (t :: ·), r.2)

/-! ## Strings at an offset -/

theorem cstr_of_not_mem {l : List Byte} (h : 0 ∉ l) : cstr l = l := by
  unfold cstr
  rw [← append_nil l, takeWhile_append_of_pos fun b hb => by
    simp; rintro rfl; exact h hb]
  simp

theorem cstr_append_zero (l z : List Byte) : cstr (l ++ 0 :: z) = cstr l := by
  induction l with
  | nil => rfl
  | cons b l ih =>
    by_cases hb : b = 0
    · subst hb
      rfl
    · unfold cstr at ih ⊢
      simp [hb, ih]

theorem cstr_append_nul {l : List Byte} (h : 0 ∉ l) (z : List Byte) : cstr (l ++ 0 :: z) = l := by
  rw [cstr_append_zero, cstr_of_not_mem h]

/-- The string at `off` is settled by the bytes up to its NUL. -/
theorem strAt_congr {buf buf' : List Byte} {off n : Nat} (h : buf'.take n = buf.take n)
    (hn : off + (strAt buf off).length < n) : strAt buf' off = strAt buf off := by
  have h1 : (strAt buf' off).take (n - off) = (strAt buf off).take (n - off) := by
    unfold strAt cstr
    rw [take_takeWhile, take_takeWhile, ← drop_take, ← drop_take, h]
  rw [take_of_length_le (by omega : (strAt buf off).length ≤ n - off)] at h1
  have h2 := congrArg List.length h1
  rw [length_take] at h2
  rwa [take_of_length_le (by omega)] at h1

/-- `Rest buf s rest`: the buffer holds the NUL-terminated text `rest` at offset `s`. -/
def Rest (buf : List Byte) (s : Nat) (rest : List Byte) : Prop :=
  0 ∉ rest ∧ ∃ z, buf.drop s = rest ++ 0 :: z

variable {delim : Byte → Bool} {buf rest : List Byte} {s : Nat}

theorem Rest.strAt_eq (h : Rest buf s rest) : strAt buf s = rest := by
  obtain ⟨h0, z, hz⟩ := h
  unfold strAt
  rw [hz, cstr_append_nul h0]

/-- Moving the pointer over a prefix of the text leaves the remainder. -/
theorem Rest.advance {a b : List Byte} (h : Rest buf s (a ++ b)) : Rest buf (s + a.length) b := by
  obtain ⟨h0, z, hz⟩ := h
  refine ⟨fun hm => h0 (mem_append_right a hm), z, ?_⟩
  rw [← drop_drop, hz, append_assoc, drop_left]

/-- Overwriting an earlier byte leaves the text alone. -/
theorem Rest.set (h : Rest buf s rest) {i : Nat} (hi : i < s) : Rest (buf.set i 0) s rest := by
  obtain ⟨h0, z, hz⟩ := h
  exact ⟨h0, z, by rw [drop_set_of_lt hi, hz]⟩

/-- Overwriting a byte of the text by NUL cuts the string there. -/
theorem strAt_set {a b : List Byte} {d : Byte} (h : Rest buf s (a ++ d :: b)) :
    strAt (buf.set (s + a.length) 0) s = a := by
  obtain ⟨h0, z, hz⟩ := h
  have hd : (buf.set (s + a.length) 0).drop s = a ++ 0 :: (b ++ 0 :: z) := by
    rw [drop_set, if_neg (by omega), hz, Nat.add_sub_cancel_left]
    simp
  unfold strAt
  rw [hd, cstr_append_nul fun hm => h0 (mem_append_left _ hm)]

/-! ## `strtok_r` -/

theorem strspn_eq (h : Rest buf s rest) : strspn delim buf s = (rest.takeWhile delim).length := by
  unfold strspn
  rw [h.strAt_eq]

theorem strcspn_eq (delim : Byte → Bool) (h : Rest buf s rest) :
    strcspn delim buf s = (rest.takeWhile fun b => !delim b).length := by
  unfold strcspn
  rw [h.strAt_eq]

theorem Rest.skip (delim : Byte → Bool) (h : Rest buf s rest) :
    Rest buf (s + strspn delim buf s) (rest.dropWhile delim) := by
  rw [strspn_eq h]
  apply Rest.advance
  rwa [takeWhile_append_dropWhile]

theorem Rest.span (delim : Byte → Bool) (h : Rest buf s rest) :
    Rest buf (s + strcspn delim buf s) (rest.dropWhile fun b => !delim b) := by
  rw [strcspn_eq delim h]
  apply Rest.advance
  rwa [takeWhile_append_dropWhile]

/-- Only delimiters left: no token, and the buffer is not written. -/
theorem strtokR_none (h : Rest buf s rest) (hr : rest.dropWhile delim = []) :
    strtokR delim buf s = (none, buf, s + strspn delim buf s) := by
  have hs := (h.skip delim).strAt_eq
  unfold strtokR
  rw [hr] at hs
  rw [if_pos hs]

/-- **One token.** The pointer returned is to the first run of the text, everything up to and
including the byte at the old position is as it was, and the new position holds what follows the
delimiter that ended the run. -/
theorem strtokR_some (h : Rest buf s rest) {d : Byte} {t : List Byte}
    (hr : rest.dropWhile delim = d :: t) :
    ∃ off buf' s', strtokR delim buf s = (some off, buf', s') ∧
      buf'.take (s + 1) = buf.take (s + 1) ∧ s ≤ s' ∧
      strAt buf' off = (d :: t).takeWhile (fun b => !delim b) ∧
      off + ((d :: t).takeWhile fun b => !delim b).length ≤ s' ∧
      Rest buf' s' ((d :: t).dropWhile fun b => !delim b).tail := by
  have hd : delim d = false := head_dropWhile hr
  have hskip := h.skip delim
  rw [hr] at hskip
  have hspan := hskip.span delim
  have hlen := strcspn_eq delim hskip
  have hpos : 0 < strcspn delim buf (s + strspn delim buf s) := by
    rw [hlen]; simp [hd]
  unfold strtokR
  rw [if_neg (by rw [hskip.strAt_eq]; simp)]
  cases hw : (d :: t).dropWhile fun b => !delim b with
  | nil =>
    -- the run reaches the end of the text: nothing is overwritten
    rw [hw] at hspan
    rw [if_pos hspan.strAt_eq]
    refine ⟨_, _, _, rfl, rfl, by omega, ?_, by omega, hspan⟩
    rw [hskip.strAt_eq]
    conv_lhs => rw [← takeWhile_append_dropWhile (p := fun b => !delim b) (l := d :: t)]
    rw [hw, append_nil]
  | cons e r =>
    rw [hw] at hspan
    rw [if_neg (by rw [hspan.strAt_eq]; simp)]
    refine ⟨_, _, _, rfl, take_set_of_le (by omega), by omega, ?_, by omega, ?_⟩
    · rw [hlen]
      refine strAt_set (b := r) (d := e) ?_
      rw [← hw, takeWhile_append_dropWhile]
      exact hskip
    · exact (Rest.advance (a := [e]) hspan).set (Nat.lt_succ_self _)

/-- Only delimiters left: no pointer is collected, whatever the room. -/
theorem tokenize_none (h : Rest buf s rest) (hr : rest.dropWhile delim = []) (room : Nat) :
    tokenize delim buf s room = (some [], buf) := by
  cases room <;> simp only [tokenize, strtokR_none h hr]

/-- **The tokenizer finds the maximal runs.** With room for all of them, the pointers collected
from the text at `s` are to its runs in order, and no byte up to `s` has changed. -/
theorem tokenize_spec (delim : Byte → Bool) :
    ∀ (room : Nat) {buf rest : List Byte} {s : Nat}, Rest buf s rest →
      (runs delim rest).length ≤ room →
      ∃ ts buf', tokenize delim buf s room = (some ts, buf') ∧
        buf'.take (s + 1) = buf.take (s + 1) ∧ ts.map (strAt buf') = runs delim rest := by
  intro room
  induction room with
  | zero =>
    intro buf rest s h hroom
    have hr : rest.dropWhile delim = [] := by
      cases hr : rest.dropWhile delim with
      | nil => rfl
      | cons d t => rw [runs_of_dropWhile hr] at hroom; simp at hroom
    exact ⟨[], buf, tokenize_none h hr 0, rfl, by rw [runs_eq_nil_of_all hr]; rfl⟩
  | succ room ih =>
    intro buf rest s h hroom
    cases hr : rest.dropWhile delim with
    | nil =>
      exact ⟨[], buf, tokenize_none h hr _, rfl, by rw [runs_eq_nil_of_all hr]; rfl⟩
    | cons d t =>
      obtain ⟨off, buf₁, s₁, htok, hframe, hs, hstr, hoff, hrest⟩ := strtokR_some h hr
      rw [runs_of_dropWhile hr, length_cons] at hroom
      obtain ⟨ts, buf', hts, hframe', hmap⟩ := ih hrest (by omega)
      refine ⟨off :: ts, buf', ?_, ?_, ?_⟩
      · unfold tokenize
        rw [htok]
        simp only [hts, Option.map_some]
      · have := congrArg (List.take (s + 1)) hframe'
        rwa [take_take, take_take, Nat.min_eq_left (by omega), hframe] at this
      · -- later calls write past the NUL that ends this token
        rw [runs_of_dropWhile hr, map_cons, hmap, strAt_congr hframe' (by rw [hstr]; omega), hstr]

end SystemProg.Text
