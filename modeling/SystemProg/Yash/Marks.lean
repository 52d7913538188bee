import SystemProg.Yash.Walk

/-!
# The `+` of a job line

Three functions print job lines, and each decides for itself which one gets the `+`. `jobs_print`
asks `jobs_current`, `do_bg` prints `+` whatever else there is, and the sweep of `jobs_reap` prints
`+` if nothing is running or stopped ("it only earns + when it is the last one left",
`yash/src/jobs.c:183`). `fg` takes `jobs_current`, so a mark says which job `fg` will take only
where the three agree with it.

* **`mark_iff`**: `+` is on the current job, or on the last job left where that is done, exactly if:
  for `jobs` always; for `bg` if no newer job is running; for a Done line if some job is running or
  stopped, or the table has no other job.
* `plus_unique`: there, one listing or sweep has at most one `+`.
* `marked_wrong`: `bg` on a job older than a running one, and two jobs done at once.
-/

namespace SystemProg.Yash

open Text Shell Conc Data Conc.Logic List
open Yashd (Signal WaitFlags WaitRes Choice)

/-- What is known where a job line is printed. -/
def Marked (site : Site) (e : Entry) (mark : Mark) (js : Jobs) : Prop :=
  js.Sorted ∧ e ∈ js ∧
    match site with
    | .listing => mark = .plus ↔ js.current = some e
    | .bg => mark = .plus ∧ e.job.state = .running ∧ ∀ d ∈ js, e.jid < d.jid →
        d.job.state ≠ .stopped
    | .sweep => e.job.state = .done ∧ (mark = .plus ↔ js.current = none)

/-- What each operation needs. -/
def markPre : Op → Jobs → Prop
  | .line site e mark _, js => Marked site e mark js
  | _, _ => True

/-- What it does to the table. -/
def markAct : (o : Op) → Jobs → o.Res → Jobs → Prop
  | .load, js, r, js' => r = js ∧ js' = js
  | .store f, js, _, js' => js' = f js
  | _, js, _, js' => js' = js

/-- The logic of the marks. -/
def marks : Logic calls Jobs := sequential markPre markAct

/-! ## `jobs_current` and `jobs_recent_stopped` -/

variable {js : Jobs} {e d : Entry} {jid : Nat}

theorem Jobs.mem_of_current (h : js.current = some e) : e ∈ js :=
  (mem_filter.mp (mem_of_getLast? h)).1

theorem Jobs.mem_of_recentStopped (h : js.recentStopped = some e) : e ∈ js :=
  (mem_filter.mp (mem_of_getLast? h)).1

/-- No job past the last of a kind is of that kind. -/
theorem Jobs.Sorted.le_last (hs : js.Sorted) {p : Entry → Bool}
    (h : (js.filter p).getLast? = some e)
    (hd : d ∈ js) (hp : p d = true) : d.jid ≤ e.jid :=
  Nat.le_of_lt_succ (lt_succ_last (hs.sublist (filter_sublist.map _))
    (mem_filter.mpr ⟨hd, hp⟩) h)

theorem Jobs.Sorted.eq_of_jid (hs : js.Sorted) (he : e ∈ js) (hd : d ∈ js) (h : e.jid = d.jid) :
    e = d :=
  inj_on_of_nodup_map hs.nodup he hd h

theorem Jobs.current_ne_of_done (h : e.job.state = .done) : js.current ≠ some e := by
  intro hc
  have := (mem_filter.mp (mem_of_getLast? hc)).2
  simp [h] at this

/-- A running job that no stopped one follows is current exactly if no running one follows. -/
theorem Jobs.Sorted.current_iff (hs : js.Sorted) (he : e ∈ js) (hr : e.job.state = .running)
    (hstop : ∀ d ∈ js, e.jid < d.jid → d.job.state ≠ .stopped) :
    js.current = some e ↔ ∀ d ∈ js, e.jid < d.jid → d.job.state ≠ .running := by
  refine ⟨fun hc d hd hlt hrun => ?_, fun hrun => ?_⟩
  · have := hs.le_last hc hd (by simp [hrun])
    omega
  · cases hc : js.current with
    | none =>
      have := filter_eq_nil_iff.mp (getLast?_eq_none_iff.mp hc) e he
      simp [hr] at this
    | some d =>
      have hd := Jobs.mem_of_current hc
      have hle := hs.le_last hc he (by simp [hr])
      rcases Nat.lt_or_eq_of_le hle with hlt | heq
      · have := (mem_filter.mp (mem_of_getLast? hc)).2
        simp [hrun d hd hlt, hstop d hd hlt] at this
      · rw [hs.eq_of_jid hd he heq.symm]

/-! ## The code -/

namespace Code

open Prog

variable {α : Type} {Q : α → Jobs → Prop}

theorem marks_load {g : Jobs → C α} (h : marks.wp (g js) Q js) : marks.wp (load >>= g) Q js := by
  refine seq_call.mpr ⟨trivial, ?_⟩
  rintro _ _ ⟨rfl, rfl⟩
  exact h

theorem marks_deref {g : Entry → C α} (h : ∀ e ∈ js, e.jid = jid → marks.wp (g e) Q js) :
    marks.wp (deref jid >>= g) Q js := by
  refine wp_seq (P := fun e js' => (e ∈ js ∧ e.jid = jid) ∧ js' = js) ?_ ?_
  · refine marks_load ?_
    split
    · exact seq_pure.mpr ⟨mem_of_lookup ‹_›, rfl⟩
    · exact seq_call.mpr ⟨trivial, fun e => (show Empty from e).elim⟩
  · rintro e _ ⟨⟨he, hjid⟩, rfl⟩
    exact h e he hjid

theorem marks_line {site : Site} {mark : Mark} {status : Status} {g : Unit → C α}
    (h : Marked site e mark js) (hg : marks.wp (g ()) Q js) :
    marks.wp (jobsPrintOne site e mark status >>= g) Q js := by
  refine seq_call.mpr ⟨h, ?_⟩
  rintro _ _ rfl
  exact hg

theorem marks_plain {p : C α} (hp : p.All Op.Plain) (h : js.Sorted) :
    marks.wp p (fun _ => Jobs.Sorted) js := by
  refine wp_inv (fun _ _ hr h => hr ▸ h) (hp.imp fun o ho js h => ?_) h
  cases o with
  | fgets | parse _ | line _ _ _ _ => exact ho.elim
  | load =>
    refine ⟨trivial, ?_⟩
    rintro _ _ ⟨-, rfl⟩
    exact h
  | store f =>
    refine ⟨trivial, ?_⟩
    rintro _ _ rfl
    exact ho js h
  | _ =>
    refine ⟨trivial, ?_⟩
    rintro _ _ rfl
    exact h

theorem marks_reapSweep (jids : List Nat) (h : js.Sorted) :
    marks.wp (reapSweep jids) (fun _ => Jobs.Sorted) js := by
  induction jids generalizing js with
  | nil => exact seq_pure.mpr h
  | cons jid rest ih =>
    refine marks_deref fun e he _ => ?_
    split
    · rename_i hdone
      refine marks_load (marks_line ⟨h, he, hdone, ?_⟩ ?_)
      · cases js.current <;> simp
      · refine wp_seq (P := fun _ => Jobs.Sorted) (seq_perform trivial ?_) fun _ _ h => ih h
        rintro _ _ rfl
        exact h.remove jid
    · exact ih h

theorem marks_jobsReap (h : js.Sorted) : marks.wp jobsReap (fun _ => Jobs.Sorted) js :=
  wp_seq (marks_plain (all_reapPoll fun _ h => h) h) fun _ _ h => marks_load (marks_reapSweep _ h)

theorem marks_printEach {cur : Option Nat} (hcur : cur = js.current.map Entry.jid) (h : js.Sorted)
    (rest : Jobs) (hrest : ∀ e ∈ rest, e ∈ js) :
      marks.wp (printEach cur rest) (fun _ => Jobs.Sorted) js := by
  induction rest with
  | nil => exact seq_pure.mpr h
  | cons e rest ih =>
    have he := hrest e mem_cons_self
    refine marks_line ⟨h, he, ?_⟩ (ih fun d hd => hrest d (mem_cons_of_mem e hd))
    cases hc : js.current with
    | none => simp [hcur, hc]
    | some d =>
      have hd := Jobs.mem_of_current hc
      have : d.jid = e.jid ↔ d = e := ⟨h.eq_of_jid hd he, fun h => by rw [h]⟩
      simp [hcur, hc, this]

/-- `bg` takes the last stopped job: those that follow are not stopped. -/
theorem marks_doBg (h : js.Sorted) : marks.wp doBg (fun _ => Jobs.Sorted) js := by
  refine marks_load ?_
  split
  · exact seq_pure.mpr h
  · rename_i e hstop
    have he := Jobs.mem_of_recentStopped hstop
    refine wp_seq (P := fun _ js' => js' = js) (seq_perform trivial fun _ _ ha => ha) ?_
    rintro _ js rfl
    refine wp_seq (P := fun _ js' => js' = js.setJob e.jid fun j =>
      { j with state := .running, background := true }) ?_ ?_
    · refine marks_deref fun _ _ _ => ?_
      exact seq_perform trivial fun _ _ ha => ha
    rintro _ _ rfl
    have hsorted := h.setJob e.jid (f := fun j => { j with state := .running, background := true })
      fun _ => rfl
    refine marks_deref fun e' he' hjid' => ?_
    refine seq_perform ⟨hsorted, he', rfl, ?_, fun d hd hlt hs => ?_⟩ ?_
    · rcases mem_update he' with ⟨x, -, -, rfl⟩ | ⟨-, hne⟩
      · rfl
      · exact absurd hjid' hne
    · rcases mem_update hd with ⟨x, -, hx, rfl⟩ | ⟨hd, -⟩
      · cases hs
      · have := h.le_last hstop hd (by simp [hs])
        omega
    · rintro _ _ rfl
      exact hsorted

theorem marks_builtinTry (job : Job) (h : js.Sorted) :
    marks.wp (builtinTry job) (fun _ => Jobs.Sorted) js := by
  unfold builtinTry
  split
  · exact seq_pure.mpr h
  split
  · refine wp_seq (marks_load (marks_printEach rfl h _ fun _ he => he)) fun _ _ h => seq_pure.mpr h
  split
  · exact wp_seq (marks_plain (all_doFg fun _ h => h) h) fun _ _ h => seq_pure.mpr h
  split
  · exact wp_seq (marks_doBg h) fun _ _ h => seq_pure.mpr h
  · exact seq_pure.mpr h

theorem marks_serve (call : Nat) (line : List Byte) (h : js.Sorted) :
    marks.wp (serve call line) (fun _ => Jobs.Sorted) js := by
  refine wp_seq (P := fun _ => Jobs.Sorted) (seq_perform trivial ?_) fun r js h => ?_
  · rintro _ _ rfl
    exact h
  cases r with
  | ok job =>
    refine wp_seq (marks_builtinTry job h) fun b js h => ?_
    split
    · exact seq_pure.mpr h
    · exact marks_plain (all_execJob fun _ h => h) h
  | _ => exact seq_pure.mpr h

theorem marks_turnMain (call : Nat) (h : js.Sorted) :
    marks.wp (turnMain call) (Sum.elim (fun _ => Jobs.Sorted) fun _ => Jobs.Sorted) js := by
  refine wp_seq (marks_jobsReap h) fun _ js h => ?_
  refine wp_seq (P := fun _ => Jobs.Sorted) (marks_plain (all_op trivial) h) fun _ js h => ?_
  refine wp_seq (P := fun _ => Jobs.Sorted) (seq_perform trivial ?_) fun r js h => ?_
  · rintro _ _ rfl
    exact h
  cases r with
  | eof => exact seq_pure.mpr h
  | error => exact wp_seq (marks_plain (all_op trivial) h) fun _ _ h => seq_pure.mpr h
  | line line => exact wp_seq (marks_serve call line h) fun _ _ h => seq_pure.mpr h

theorem marks_main : marks.wp main (fun _ => Jobs.Sorted) [] := by
  refine wp_seq (seq_iter (fun _ => Jobs.Sorted) List.Pairwise.nil fun c js h => marks_turnMain c h)
    ?_
  intro _ js h
  exact marks_plain (All.bind (all_op trivial) fun _ => all_jobsKillAll fun _ h => h) h

end Code

/-! ## The shell -/

variable {S : System}

theorem marks_exec {ch : Choice} {o : Op} {r : o.Res} {w w' : World}
    (h : exec ch o w = some (r, w')) :
    markAct o w.jobs r w'.jobs := by
  cases o with
  | load =>
    cases h
    exact ⟨rfl, rfl⟩
  | store f =>
    cases h
    rfl
  | _ => exact (exec_frame h).1 (by simp)

theorem jobs_env (w : World) (e : Event) : (w.env e).jobs = w.jobs := by
  cases e with
  | input bs =>
    simp only [World.env]
    split <;> rfl
  | _ => rfl

theorem Reachable.marked {site : Site} {mark : Mark} {status : Status} (h : Reachable S)
    (hp : S.printing = some (site, e, mark, status)) : Marked site e mark S.world.jobs := by
  have hup : S.Upholds markPre markAct Jobs.Sorted World.jobs :=
    h.upholds Code.marks_main (fun _ _ _ _ _ _ _ _ hx => marks_exec hx) fun _ _ _ => jobs_env _ _
  exact hup.head (System.next_of_printing hp)

/-- The mark a line should have: `+` for the job that `fg` would take, and for the last one left
where that is done. -/
def Deserves (site : Site) (e : Entry) (js : Jobs) : Prop :=
  js.current = some e ∨ (site = .sweep ∧ js = [e])

/-- Where the three printers agree with `fg`. -/
def Agreeing (site : Site) (e : Entry) (js : Jobs) : Prop :=
  match site with
  | .listing => True
  | .bg => ∀ d ∈ js, e.jid < d.jid → d.job.state ≠ .running
  | .sweep => js.current ≠ none ∨ js = [e]

/-- **When a job line is marked right.** -/
theorem mark_iff {site : Site} {mark : Mark} {status : Status} (h : Reachable S)
    (hp : S.printing = some (site, e, mark, status)) :
    (mark = .plus ↔ Deserves site e S.world.jobs) ↔ Agreeing site e S.world.jobs := by
  obtain ⟨hsorted, he, hm⟩ := h.marked hp
  cases site with
  | listing => simpa [Deserves, Agreeing] using hm
  | bg =>
    obtain ⟨hplus, hrun, hstop⟩ := hm
    simp only [Deserves, Agreeing, hplus, true_iff, reduceCtorEq, false_and, or_false]
    exact hsorted.current_iff he hrun hstop
  | sweep =>
    obtain ⟨hdone, hplus⟩ := hm
    have hne : S.world.jobs.current ≠ some e := Jobs.current_ne_of_done hdone
    have hlast : S.world.jobs = [e] → S.world.jobs.current = none := by
      intro hjs
      rw [hjs]
      simp [Jobs.current, hdone]
    simp only [Deserves, Agreeing, hplus, hne, true_and, false_or]
    constructor
    · exact fun hiff => (em (S.world.jobs.current = none)).elim (fun hn => .inr (hiff.mp hn)) .inl
    · rintro (hn | hjs)
      · exact iff_of_false hn fun hjs => hn (hlast hjs)
      · exact iff_of_true (hlast hjs) hjs

/-- **At most one `+`** in one listing, during which the table stays as it is, and in one sweep
whose lines are marked right: the job that gets it is the only one left. -/
theorem plus_unique {site : Site} {status : Status} (h : Reachable S)
    (hp : S.printing = some (site, e, .plus, status)) (hagree : Agreeing site e S.world.jobs) :
    match site with
    | .listing => ∀ S' d status', Reachable S' → S'.world.jobs = S.world.jobs →
        S'.printing = some (.listing, d, .plus, status') → d = e
    | .bg => S.world.jobs.current = some e
    | .sweep => S.world.jobs = [e] := by
  obtain ⟨hsorted, he, hm⟩ := h.marked hp
  cases site with
  | listing =>
    intro S' d status' h' hjobs hp'
    have hd := (h'.marked hp').2.2.mp rfl
    rw [hjobs, hm.mp rfl] at hd
    exact (Option.some.inj hd).symm
  | bg => exact (hsorted.current_iff he hm.2.1 hm.2.2).mpr hagree
  | sweep => exact hagree.resolve_left fun hne => hne (hm.2.mp rfl)

/-- `a &` and `b &`, then another line, with the pids 100 and 101. -/
def twoRun (line : String) : List Event :=
  [.input (str "a &\nb &\n" ++ str line)] ++ steps 8 .go ++ [.run (.pid 100)] ++ steps 14 .go ++
    [.run (.pid 101)]

theorem mark_iff_listing : ∃ S e, Reachable S ∧ S.printing = some (.listing, e, .plus, .running) ∧
    e.jid = 2 ∧ S.world.jobs.length = 2 ∧ Deserves .listing e S.world.jobs := by
  obtain ⟨S, hS, hp⟩ := reachableIf_of_any (fun _ _ => true) (twoRun "jobs\n" ++ steps 16 .go)
    (fun S => ∃ e ∈ S.world.jobs, S.printing = some (.listing, e, .plus, .running) ∧ e.jid = 2 ∧
      S.world.jobs.length = 2) (by decide +kernel)
  obtain ⟨e, -, hprint, hjid, hlen⟩ := of_decide_eq_true hp
  exact ⟨S, e, hS, hprint, hjid, hlen, ((mark_iff hS hprint).mpr trivial).mp rfl⟩

/-- `a` is stopped, `b &` is running, and `bg` marks `a`, though `fg` would take `b`. And where both
of two jobs are done at once, both Done lines have the `+`. -/
theorem marked_wrong :
    (∃ S e, Reachable S ∧ S.printing = some (.bg, e, .plus, .running) ∧ e.jid = 1 ∧
      S.world.jobs.current.map Entry.jid = some 2) ∧
    ∃ S e, Reachable S ∧ S.printing = some (.sweep, e, .plus, .done) ∧ S.world.jobs = [e] ∧
      S.world.lines = [⟨.sweep, 1, .plus, .done⟩] := by
  constructor
  · obtain ⟨S, hS, hp⟩ := reachableIf_of_any (fun _ _ => true)
      ([.input (str "a\nb &\nbg\n")] ++ steps 8 .go ++ [.run (.pid 100)] ++ steps 8 .go ++
        [.stop 100, .run (.pid 100)] ++ steps 13 .go ++ [.run (.pid 101)] ++ steps 19 .go)
      (fun S => ∃ e ∈ S.world.jobs, S.printing = some (.bg, e, .plus, .running) ∧ e.jid = 1 ∧
        S.world.jobs.current.map Entry.jid = some 2) (by decide +kernel)
    obtain ⟨e, -, hp⟩ := of_decide_eq_true hp
    exact ⟨S, e, hS, hp⟩
  · obtain ⟨S, hS, hp⟩ := reachableIf_of_any (fun _ _ => true)
      (twoRun "\n" ++ [.exit 100, .exit 101] ++ steps 7 .go ++ [.run (.pid 100)] ++ steps 4 .go ++
        [.run (.pid 101)] ++ steps 12 .go)
      (fun S => ∃ e ∈ S.world.jobs, S.printing = some (.sweep, e, .plus, .done) ∧
        S.world.jobs = [e] ∧
        S.world.lines = [⟨.sweep, 1, .plus, .done⟩]) (by decide +kernel)
    obtain ⟨e, -, hp⟩ := of_decide_eq_true hp
    exact ⟨S, e, hS, hp⟩

end SystemProg.Yash
