import Mathlib.Data.List.Basic

/-!
# Delimited frames in a stream

A stream is cut at every delimiter `d`. `lines d l` lists the pieces that a delimiter ends, in
order, and `remainder d l` is the unfinished piece after the last of them. A reader that buffers its
input sees the stream one chunk at a time, so the laws say how the two behave under appending:

* `lines_append_cons`, `remainder_append_cons`: the first frame comes off the front.
* `lines_append`, `remainder_append`: only the unfinished piece matters for what follows.
* `lines_of_terminated`: a sequence of frames, each ended by its delimiter, is read back.
-/

namespace SystemProg.Text

open List

variable {α : Type} [DecidableEq α] {d : α}

/-- The pieces of `l` that the delimiter `d` ends. -/
def lines (d : α) (l : List α) : List (List α) := (l.splitOn d).dropLast

/-- What follows the last delimiter of `l`. -/
def remainder (d : α) (l : List α) : List α := (l.splitOn d).getLast (splitOn_ne_nil d l)

theorem splitOn_of_not_mem {l : List α} (h : d ∉ l) : l.splitOn d = [l] := by
  rw [splitOn_eq_splitOnP]
  exact splitOnP_eq_singleton fun x hx => by simpa using fun e : x = d => h (e ▸ hx)

theorem splitOn_append_cons {a : List α} (h : d ∉ a) (b : List α) :
    (a ++ d :: b).splitOn d = a :: b.splitOn d := by
  rw [splitOn_eq_splitOnP, splitOn_eq_splitOnP]
  exact splitOnP_append_cons_of_forall_mem
    (fun x hx => by simpa using fun e : x = d => h (e ▸ hx)) d (by simp) b

theorem lines_of_not_mem {l : List α} (h : d ∉ l) : lines d l = [] := by
  simp [lines, splitOn_of_not_mem h]

theorem remainder_of_not_mem {l : List α} (h : d ∉ l) : remainder d l = l := by
  simp [remainder, splitOn_of_not_mem h]

theorem lines_append_cons {a : List α} (h : d ∉ a) (b : List α) :
    lines d (a ++ d :: b) = a :: lines d b := by
  rw [lines, splitOn_append_cons h, dropLast_cons_of_ne_nil (splitOn_ne_nil d b)]
  rfl

theorem remainder_append_cons {a : List α} (h : d ∉ a) (b : List α) :
    remainder d (a ++ d :: b) = remainder d b := by
  simp only [remainder, splitOn_append_cons h]
  exact getLast_cons (splitOn_ne_nil d b)

theorem frame_induction {P : List α → Prop} (rest : ∀ l, d ∉ l → P l)
    (frame : ∀ a b, d ∉ a → P b → P (a ++ d :: b)) (l : List α) : P l := by
  induction hn : l.length using Nat.strongRecOn generalizing l with
  | _ n ih =>
    by_cases h : d ∈ l
    · obtain ⟨a, b, rfl, ha⟩ := eq_append_cons_of_mem h
      refine frame a b ha (ih b.length ?_ b rfl)
      rw [← hn]
      simp only [length_append, length_cons]
      omega
    · exact rest l h

theorem not_mem_remainder (l : List α) : d ∉ remainder d l := by
  induction l using frame_induction (d := d) with
  | rest l h => rwa [remainder_of_not_mem h]
  | frame a b ha ih => rwa [remainder_append_cons ha]

theorem not_mem_of_mem_lines {l r : List α} (hr : r ∈ lines d l) : d ∉ r := by
  induction l using frame_induction (d := d) with
  | rest l h => rw [lines_of_not_mem h] at hr; exact absurd hr not_mem_nil
  | frame a b ha ih =>
    rw [lines_append_cons ha] at hr
    rcases mem_cons.mp hr with rfl | hr
    · exact ha
    · exact ih hr

/-- Only the unfinished piece of the first part matters for the second. -/
theorem lines_append (l m : List α) :
    lines d (l ++ m) = lines d l ++ lines d (remainder d l ++ m) := by
  induction l using frame_induction (d := d) with
  | rest l h => rw [lines_of_not_mem h, remainder_of_not_mem h, nil_append]
  | frame a b ha ih =>
    rw [append_assoc, cons_append, lines_append_cons ha, lines_append_cons ha,
      remainder_append_cons ha, ih, cons_append]

theorem remainder_append (l m : List α) :
    remainder d (l ++ m) = remainder d (remainder d l ++ m) := by
  induction l using frame_induction (d := d) with
  | rest l h => rw [remainder_of_not_mem h]
  | frame a b ha ih =>
    rw [append_assoc, cons_append, remainder_append_cons ha, remainder_append_cons ha, ih]

/-- The frames and the remainder are the whole stream. -/
theorem flatMap_lines_append (l : List α) :
    ((lines d l).flatMap fun a => a ++ [d]) ++ remainder d l = l := by
  induction l using frame_induction (d := d) with
  | rest l h => rw [lines_of_not_mem h, remainder_of_not_mem h]; rfl
  | frame a b ha ih =>
    rw [lines_append_cons ha, remainder_append_cons ha, flatMap_cons, append_assoc, ih,
      append_assoc]
    rfl

/-- Frames written one after the other, each with its delimiter, are read back. -/
theorem lines_of_terminated {fs : List (List α)} (h : ∀ f ∈ fs, d ∉ f) (m : List α) :
    lines d ((fs.flatMap fun f => f ++ [d]) ++ m) = fs ++ lines d m := by
  induction fs with
  | nil => rfl
  | cons f fs ih =>
    have hf : d ∉ f := h f mem_cons_self
    rw [flatMap_cons, append_assoc, append_assoc, singleton_append,
      lines_append_cons hf, ih fun g hg => h g (mem_cons_of_mem f hg), cons_append]

theorem remainder_of_terminated {fs : List (List α)} (h : ∀ f ∈ fs, d ∉ f) (m : List α) :
    remainder d ((fs.flatMap fun f => f ++ [d]) ++ m) = remainder d m := by
  induction fs with
  | nil => rfl
  | cons f fs ih =>
    have hf : d ∉ f := h f mem_cons_self
    rw [flatMap_cons, append_assoc, append_assoc, singleton_append,
      remainder_append_cons hf, ih fun g hg => h g (mem_cons_of_mem f hg)]

theorem frames_of_terminated {fs : List (List α)} (h : ∀ f ∈ fs, d ∉ f) :
    lines d (fs.flatMap fun f => f ++ [d]) = fs ∧
      remainder d (fs.flatMap fun f => f ++ [d]) = [] := by
  have hl := lines_of_terminated h []
  have hr := remainder_of_terminated h []
  rw [append_nil] at hl hr
  rw [lines_of_not_mem not_mem_nil, append_nil] at hl
  rw [remainder_of_not_mem not_mem_nil] at hr
  exact ⟨hl, hr⟩

/-- The unfinished piece of a stream is the start of a piece of any continuation. -/
theorem remainder_prefix (l m : List α) :
    (∃ r ∈ lines d (l ++ m), remainder d l <+: r) ∨ remainder d l <+: remainder d (l ++ m) := by
  by_cases hd : d ∈ m
  · obtain ⟨a, b, rfl, ha⟩ := eq_append_cons_of_mem hd
    refine .inl ⟨remainder d l ++ a, ?_, prefix_append _ _⟩
    rw [lines_append, ← append_assoc,
      lines_append_cons fun h => (mem_append.mp h).elim (not_mem_remainder l) ha]
    exact mem_append_right _ mem_cons_self
  · refine .inr ?_
    rw [remainder_append, remainder_of_not_mem fun h =>
      (mem_append.mp h).elim (not_mem_remainder l) hd]
    exact prefix_append _ _

end SystemProg.Text
