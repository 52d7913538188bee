import Mathlib.Data.List.Basic
import Mathlib.Data.List.DropRight
import Mathlib.Order.Basic

/-!
# Maximal runs between separators

`runs p l` lists the maximal non-empty runs of elements of `l` that do not satisfy the separator
predicate `p`. It is `List.splitOnP` with the empty pieces dropped, which is what a tokenizer that
treats adjacent separators as one computes.

* `runs_eq_nil_of_all`, `runs_of_dropWhile`: the runs of a list read off its leading separators,
  its first run and what follows the separator that ends it.
* `two_mul_length_runs_le`: a list of `n` elements has at most `(n + 1) / 2` runs.
* `runs_append_sep`, `exists_last_run`: the runs read off the other end of the list.
* `flatten_runs`: the runs hold every element that is no separator.
-/

namespace SystemProg.Text

open List

variable {α : Type} {p : α → Bool}

/-- The maximal non-empty runs of elements not satisfying `p`. -/
def runs (p : α → Bool) (l : List α) : List (List α) :=
  (l.splitOnP p).filter fun r => !r.isEmpty

theorem runs_nil (p : α → Bool) : runs p [] = [] := by
  simp [runs]

theorem runs_cons_sep {a : α} (ha : p a = true) (l : List α) : runs p (a :: l) = runs p l := by
  simp [runs, splitOnP_cons_eq_if_modifyHead, ha]

theorem runs_sep_append : ∀ {b : List α}, (∀ x ∈ b, p x = true) → ∀ l, runs p (b ++ l) = runs p l
  | [], _, _ => rfl
  | a :: b, h, l => by
    rw [cons_append, runs_cons_sep (h a mem_cons_self)]
    exact runs_sep_append (fun x hx => h x (mem_cons_of_mem a hx)) l

/-- A run ends at the end of the list or at the first separator after it. -/
theorem runs_run_append {w t : List α} (hw : w ≠ []) (h : ∀ x ∈ w, p x = false)
    (ht : ∀ d, t.head? = some d → p d = true) : runs p (w ++ t) = w :: runs p t.tail := by
  cases t with
  | nil => simp [runs, splitOnP_eq_singleton h, hw]
  | cons d t => simp [runs, splitOnP_append_cons_of_forall_mem h d (ht d rfl), hw]

theorem runs_of_run {w : List α} (hw : w ≠ []) (h : ∀ x ∈ w, p x = false) : runs p w = [w] := by
  simpa [runs_nil] using runs_run_append (t := []) hw h (by simp)

/-- Every element of the `takeWhile` prefix satisfies the predicate. -/
theorem takeWhile_forall (p : α → Bool) (l : List α) : ∀ x ∈ l.takeWhile p, p x = true :=
  fun x hx => List.all_eq_true.mp all_takeWhile x hx

/-- The element that stops a `dropWhile` fails the predicate. -/
theorem head_dropWhile {l : List α} {d : α} {t : List α} (h : l.dropWhile p = d :: t) :
    p d = false := by
  have := head?_dropWhile_not p l
  rw [h] at this
  exact this

theorem runs_eq_nil_of_all {l : List α} (h : l.dropWhile p = []) : runs p l = [] := by
  have e := takeWhile_append_dropWhile (p := p) (l := l)
  rw [h] at e
  rw [← e, runs_sep_append (takeWhile_forall p l), runs_nil]

/-- The first run of a list starts where its leading separators end. -/
theorem runs_of_dropWhile {l : List α} {d : α} {t : List α} (h : l.dropWhile p = d :: t) :
    runs p l = (d :: t).takeWhile (fun x => !p x) ::
      runs p ((d :: t).dropWhile fun x => !p x).tail := by
  have hd : p d = false := head_dropWhile h
  have e := takeWhile_append_dropWhile (p := p) (l := l)
  rw [h] at e
  rw [← e, runs_sep_append (takeWhile_forall p l)]
  conv_lhs => rw [← takeWhile_append_dropWhile (p := fun x => !p x) (l := d :: t)]
  refine runs_run_append (by simp [hd]) (fun x hx => ?_) fun x hx => ?_
  · simpa using takeWhile_forall (fun x => !p x) (d :: t) x hx
  · obtain ⟨t', ht'⟩ := head?_eq_some_iff.mp hx
    simpa using head_dropWhile ht'

/-- A list has at most half as many runs as elements, rounded up. -/
theorem two_mul_length_runs_le (p : α → Bool) (l : List α) :
    2 * (runs p l).length ≤ l.length + 1 := by
  -- strong induction on the length: the first run and its separator take at least two elements
  induction hn : l.length using Nat.strongRecOn generalizing l with
  | _ n ih =>
    cases h : l.dropWhile p with
    | nil =>
      rw [runs_eq_nil_of_all h]
      simp
    | cons d t =>
      have hd : p d = false := head_dropWhile h
      have hlen : (d :: t).length ≤ l.length := by
        rw [← h]; exact (dropWhile_suffix p).length_le
      have hrest := (dropWhile_suffix (l := t) fun x => !p x).length_le
      rw [length_cons] at hlen
      rw [runs_of_dropWhile h, length_cons,
        dropWhile_cons_of_pos (p := fun x => !p x) (by simp [hd])]
      cases hr : t.dropWhile fun x => !p x with
      | nil =>
        rw [tail_nil, runs_nil, length_nil]
        omega
      | cons e r =>
        rw [hr, length_cons] at hrest
        have := ih r.length (by omega) r rfl
        rw [tail_cons]
        omega

/-! ## From the other end -/

theorem runs_append_sep {a : α} (ha : p a = true) (l m : List α) :
    runs p (l ++ a :: m) = runs p l ++ runs p m := by
  rw [runs, splitOnP_append_cons l m ha, filter_append]
  rfl

theorem runs_append_seps {b : List α} (hb : ∀ x ∈ b, p x = true) (l : List α) :
    runs p (l ++ b) = runs p l := by
  cases b with
  | nil => rw [append_nil]
  | cons a b =>
    have hnil : runs p b = [] := by
      rw [← append_nil b, runs_sep_append (fun x hx => hb x (mem_cons_of_mem a hx)), runs_nil]
    rw [runs_append_sep (hb a mem_cons_self), hnil, append_nil]

/-- A list ends in a longest run of elements satisfying `q`. -/
theorem exists_rspan (q : α → Bool) (l : List α) :
    ∃ u w, l = u ++ w ∧ (∀ y ∈ w, q y = true) ∧ ∀ v a, u = v ++ [a] → q a = false := by
  refine ⟨l.rdropWhile q, l.rtakeWhile q, rdropWhile_append_rtakeWhile.symm,
    fun y hy => mem_rtakeWhile_imp hy, fun v a h => ?_⟩
  have := rdropWhile_last_not q l (by rw [h]; simp)
  simpa [h] using this

/-- The last run is followed by separators only, and nothing else precedes it directly. -/
theorem exists_last_run {l : List α} {T : List (List α)} {x : List α} (h : runs p l = T ++ [x]) :
    ∃ u b, l = u ++ x ++ b ∧ (∀ y ∈ b, p y = true) ∧ runs p u = T ∧
      ∀ v a, u = v ++ [a] → p a = true := by
  -- `b` are the trailing separators and `w` the run before them
  obtain ⟨m, b, rfl, hb, hm⟩ := exists_rspan p l
  obtain ⟨u, w, rfl, hw, hu⟩ := exists_rspan (fun y => !p y) m
  rw [runs_append_seps hb] at h
  have hw' : ∀ y ∈ w, p y = false := fun y hy => by simpa using hw y hy
  have hu' : ∀ v a, u = v ++ [a] → p a = true := fun v a e => by simpa using hu v a e
  have hne : w ≠ [] := by
    rintro rfl
    rcases eq_nil_or_concat' u with rfl | ⟨v, a, rfl⟩
    · exact absurd h (by simp [runs_nil])
    · exact absurd (hu' v a rfl) (by simp [hm v a (by simp)])
  have hruns : runs p (u ++ w) = runs p u ++ [w] := by
    rcases eq_nil_or_concat' u with rfl | ⟨v, a, rfl⟩
    · rw [nil_append, runs_nil, runs_of_run hne hw', nil_append]
    · have ha := hu' v a rfl
      rw [append_assoc, singleton_append, runs_append_sep ha, runs_append_sep ha,
        runs_nil, append_nil, runs_of_run hne hw']
  obtain ⟨hT, hx⟩ := append_inj' (hruns.symm.trans h) rfl
  cases hx
  exact ⟨u, b, rfl, hb, hT, hu'⟩

/-- The runs hold every element that is no separator, in order. -/
theorem flatten_runs (p : α → Bool) (l : List α) :
    (runs p l).flatten = l.filter fun x => !p x := by
  rw [runs, flatten_filter_not_isEmpty]
  induction l with
  | nil => simp
  | cons a l ih =>
    rw [splitOnP_cons_eq_if_modifyHead]
    cases ha : p a with
    | true => simp [ha, ih]
    | false =>
      obtain ⟨r, rs, hr⟩ := exists_cons_of_ne_nil (splitOnP_ne_nil p l)
      rw [hr] at ih ⊢
      simpa [ha] using ih

end SystemProg.Text
