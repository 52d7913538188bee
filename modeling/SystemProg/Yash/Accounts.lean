import SystemProg.Yash.Ledger

/-!
# The shell keeps its books

`Sound` holds wherever the shell is between two calls of `exec_job`, and `Forking` inside one, up to
`jobs_add`. Each lemma is the specification of the function of that name.
-/

namespace SystemProg.Yash

open Text Shell Conc Data Conc.Logic List
open Yashd (Signal WaitFlags WaitRes livePids)

namespace Code

open Prog

variable {α : Type} {Q : α → Ledger → Prop} {full : Bool} {c i pgid jid : Nat} {v : Ledger}
  {e : Entry}
  {k : Kid} {f : Job → Job} {proto : Job}

theorem ledger_load {g : Jobs → C α} (h : (ledger full).wp (g v.jobs) Q v) :
    (ledger full).wp (load >>= g) Q v := by
  refine seq_call.mpr ⟨trivial, ?_⟩
  rintro js _ ⟨rfl, rfl⟩
  exact h

theorem ledger_deref {g : Entry → C α}
    (h : ∀ e ∈ v.jobs, e.jid = jid → (ledger full).wp (g e) Q v) :
    (ledger full).wp (deref jid >>= g) Q v := by
  refine wp_seq (P := fun e v' => (e ∈ v.jobs ∧ e.jid = jid) ∧ v' = v) ?_ ?_
  · refine ledger_load ?_
    split
    · exact seq_pure.mpr ⟨mem_of_lookup ‹_›, rfl⟩
    · exact seq_call.mpr ⟨trivial, fun e => (show Empty from e).elim⟩
  · rintro e _ ⟨⟨he, hjid⟩, rfl⟩
    exact h e he hjid

theorem ledger_modifyJob {Q : Unit → Ledger → Prop}
    (h : Q () { v with jobs := v.jobs.setJob jid f }) :
    (ledger full).wp (modifyJob jid f) Q v := by
  refine ledger_deref fun e _ _ => seq_perform trivial ?_
  rintro _ _ rfl
  exact h

/-- An operation that is no matter of the ledger. -/
theorem ledger_quiet {o : Op} {g : o.Res → C α} (h : Sound full c v)
    (hpre : v.Agrees → (full = true → v.Tracked) → Ledger.pre full o v)
    (hact : ∀ r v', Ledger.act full o v r v' → v' = v)
    (hg : ∀ r, (ledger full).wp (g r) Q v) :
      (ledger full).wp (perform (S := calls) o >>= g) Q v := by
  refine seq_call.mpr ⟨hpre h.agrees h.pre_tracked, fun r v' ha => ?_⟩
  cases hact r v' ha
  exact hg r

theorem ledger_waitpid {g : Option Nat} {flags : WaitFlags} {q : WaitRes → C α} (h : Sound full c v)
    (hq : ∀ r v', Ledger.act full (.waitpid g flags) v r v' → (ledger full).wp (q r) Q v') :
    (ledger full).wp (waitpid g flags >>= q) Q v :=
  seq_call.mpr ⟨⟨h.agrees, h.pre_tracked⟩, hq⟩

/-- `jobs_find_pid` finds the job whose child it is. -/
theorem findPid_call (h : Sound full c v) (hk : k ∈ v.kids) :
    match v.jobs.findPid k.pid with
    | none => ∀ e ∈ v.jobs, k.call ≠ e.call
    | some e => e ∈ v.jobs ∧ k.call = e.call := by
  have hpid := h.books.nonzero k hk
  split
  · rename_i hnone
    intro e he hc
    have := find?_eq_none.mp hnone e he
    exact this (by simpa [Entry.mem_pids hpid] using (h.books.owner k hk e he).mp hc)
  · rename_i e hsome
    have he := mem_of_find?_eq_some hsome
    have hp : k.pid ∈ e.pids := by simpa using find?_some hsome
    exact ⟨he, (h.books.owner k hk e he).mpr ((Entry.mem_pids hpid).mp hp)⟩

theorem ledger_creditState {st : JobState} (h : Sound full c v) (hst : st ≠ .done) (pid : Nat) :
    (ledger full).wp (credit pid fun j => { j with state := st }) (fun _ => Sound full c) v := by
  refine ledger_load ?_
  split
  · exact seq_pure.mpr h
  · exact ledger_modifyJob (h.setJob ⟨fun _ => rfl, fun _ => rfl, fun _ => rfl⟩ (fun _ => rfl)
      (by exact fun _ _ _ hs => absurd hs hst))

/-- **An exit is credited to the job that forked the child.** -/
theorem ledger_creditExit (h : Sound full c v) (hk : k ∈ v.kids) :
    (ledger full).wp (credit k.pid reaped) (fun _ => Sound full c)
      { v with kids := remove Kid.pid v.kids k.pid } := by
  refine ledger_load ?_
  have hfind := findPid_call h hk
  show (ledger full).wp (match v.jobs.findPid k.pid with
    | none => pure ()
    | some e => modifyJob e.jid reaped) _ _
  split
  · rename_i hnone
    rw [hnone] at hfind
    exact seq_pure.mpr (h.lost hk hfind)
  · rename_i e hsome
    rw [hsome] at hfind
    refine ledger_modifyJob (h.reap hk hfind.1 hfind.2 ⟨fun _ => rfl, fun _ => rfl, fun _ => rfl⟩
      (fun _ => rfl) fun hs => ?_)
    by_cases h1 : e.job.nlive = 1
    · omega
    · simp only [reaped, if_neg h1] at hs
      have := (h.agrees e hfind.1).2 hs
      omega

theorem ledger_reapPoll (h : Sound full c v) :
    (ledger full).wp reapPoll (fun _ => Sound full c) v := by
  refine seq_iter (fun _ => Sound full c) h fun _ v h => ?_
  refine ledger_waitpid h fun r v' ha => ?_
  cases r with
  | stopped pid =>
    cases ha
    exact wp_seq (ledger_creditState h (by decide) pid) fun _ _ h => seq_pure.mpr h
  | continued pid =>
    obtain ⟨-, rfl⟩ := ha
    exact wp_seq (ledger_creditState h (by decide) pid) fun _ _ h => seq_pure.mpr h
  | exited pid =>
    obtain ⟨k, hk, rfl, -, rfl⟩ := ha
    exact wp_seq (ledger_creditExit h hk) fun _ _ h => seq_pure.mpr h
  | none =>
    obtain ⟨-, rfl⟩ := ha
    exact seq_pure.mpr h
  | eintr =>
    cases ha
    exact seq_pure.mpr h
  | echild =>
    obtain ⟨-, rfl⟩ := ha
    exact seq_pure.mpr h

theorem ledger_reapSweep (jids : List Nat) (h : Sound full c v) :
    (ledger full).wp (reapSweep jids) (fun _ => Sound full c) v := by
  induction jids generalizing v with
  | nil => exact seq_pure.mpr h
  | cons jid rest ih =>
    refine ledger_deref fun e he hjid => ?_
    split
    · rename_i hdone
      refine ledger_load (ledger_quiet h (fun ha ht => ⟨⟨ha, ht⟩, fun _ => h.of_done he hdone⟩)
        (fun _ _ ha => ha) fun _ => ?_)
      refine wp_seq (P := fun _ => Sound full c) (seq_perform trivial ?_) fun _ _ h => ih h
      rintro _ _ rfl
      refine h.remove fun d hd hd' => ?_
      rwa [inj_on_of_nodup_map h.books.nodup hd he (hd'.trans hjid.symm)]
    · exact ih h

theorem ledger_jobsReap (h : Sound full c v) :
    (ledger full).wp jobsReap (fun _ => Sound full c) v :=
  wp_seq (ledger_reapPoll h) fun _ _ h => ledger_load (ledger_reapSweep _ h)

/-- **`jobs_wait_fg`** collects the children of its own job only. -/
theorem ledger_jobsWaitFg (jid : Nat) (h : Sound full c v) :
    (ledger full).wp (jobsWaitFg jid) (fun _ => Sound full c) v := by
  refine wp_seq (P := fun stopped v => Sound full c v ∧
    (stopped = false → ∀ e ∈ v.jobs, e.jid = jid → e.job.nlive = 0)) ?_ ?_
  · refine seq_iter (fun _ => Sound full c) h fun _ v h => ledger_deref fun e he hjid => ?_
    split
    · rename_i hn
      refine seq_pure.mpr ⟨h, fun _ d hd hd' => ?_⟩
      rwa [inj_on_of_nodup_map h.books.nodup hd he (hd'.trans hjid.symm)]
    rename_i hn
    refine ledger_waitpid h fun r v' ha => ?_
    cases r with
    | eintr =>
      cases ha
      exact seq_pure.mpr h
    | echild =>
      obtain ⟨k, hk, hg⟩ := h.exists_kid he hn
      exact absurd (fun g hg' => hg.trans (Option.some.inj hg')) (ha.1 k hk)
    | stopped pid =>
      cases ha
      refine wp_seq (ledger_modifyJob (Q := fun _ => Sound full c) (h.setJob ⟨fun _ => rfl,
        fun _ => rfl, fun _ => rfl⟩ (fun _ => rfl) (by simp))) fun _ _ h => ?_
      exact seq_pure.mpr ⟨h, by simp⟩
    | exited pid =>
      obtain ⟨k, hk, rfl, hg, rfl⟩ := ha
      subst hjid
      have hc := (h.books.group k hk e he).mpr (hg _ rfl)
      refine wp_seq (ledger_modifyJob (Q := fun _ => Sound full c) (h.reap hk he hc ⟨fun _ => rfl,
        fun _ => rfl, fun _ => rfl⟩ (fun _ => rfl) fun hs => ?_)) fun _ _ h => seq_pure.mpr h
      have := (h.agrees e he).2 hs
      omega
    | none => exact absurd ha.1 (by simp)
    | continued pid => exact absurd ha.1 (by simp)
  · rintro stopped v ⟨h, hn⟩
    cases stopped with
    | true => exact seq_pure.mpr h
    | false =>
      exact ledger_modifyJob (h.setJob ⟨fun _ => rfl, fun _ => rfl, fun _ => rfl⟩ (fun _ => rfl)
        fun e he hjid _ => hn rfl e he hjid)

theorem ledger_waitAndRemove (jid : Nat) (h : Sound full c v) :
    (ledger full).wp (waitAndRemove jid) (fun _ => Sound full c) v := by
  refine wp_seq (ledger_jobsWaitFg jid h) fun _ v h => ?_
  refine ledger_quiet h (fun ha ht => ⟨ha, ht⟩) (fun _ _ ha => ha) fun _ => ?_
  refine ledger_deref fun e he hjid => ?_
  split
  · rename_i hdone
    refine seq_perform trivial ?_
    rintro _ _ rfl
    refine h.remove fun d hd hd' => ?_
    rwa [inj_on_of_nodup_map h.books.nodup hd he (hd'.trans hjid.symm)]
  · exact seq_pure.mpr h

theorem ledger_forkLoop (h : Sound full c v) (hp : Yashd.Fresh proto) :
    (ledger full).wp (forkLoop c proto) (fun x v' => ∃ i, Forking full c i x.1 x.2 v') v := by
  refine seq_iter (fun x v' => Forking full c x.1 x.2.1 x.2.2 v') (Forking.start h hp) ?_
  rintro ⟨i, pgid, proto⟩ v h
  show (ledger full).wp (if proto.ncmds ≤ i then _ else _) _ v
  split
  · exact seq_pure.mpr ⟨i, h⟩
  · rename_i hi
    refine seq_call.mpr ⟨h.agrees, fun r v' ha => ?_⟩
    cases r with
    | none =>
      cases ha
      refine seq_call.mpr ⟨h.agrees, ?_⟩
      rintro _ _ rfl
      exact seq_pure.mpr ⟨i, h⟩
    | some n => exact seq_pure.mpr (h.fork (Nat.lt_of_not_le hi) ha)

theorem ledger_jobsAdd (h : Forking full c i pgid proto v) (hi : i ≠ 0) :
    (ledger full).wp (jobsAdd { proto with pgid := pgid } c) (fun _ => Sound full (c + 1)) v := by
  refine ledger_load ?_
  split
  · rename_i hfull
    cases full with
    | true => exact absurd (h.room rfl hi) (Nat.not_lt.mpr hfull)
    | false => exact seq_pure.mpr h.sound_lost
  · refine seq_call.mpr ⟨h.agrees, ?_⟩
    rintro r _ ⟨hr, rfl⟩
    cases r with
    | false =>
      cases full with
      | true => exact absurd (hr rfl) Bool.false_ne_true
      | false => exact seq_pure.mpr h.sound_lost
    | true =>
      refine seq_call.mpr ⟨trivial, ?_⟩
      rintro _ _ rfl
      exact seq_pure.mpr (h.add hi)

theorem ledger_trackJob (h : Forking full c i pgid proto v) :
    (ledger full).wp (trackJob c pgid proto) (fun _ => Sound full (c + 1)) v := by
  unfold trackJob
  split
  · rename_i hn
    rw [h.nlive] at hn
    subst hn
    exact seq_pure.mpr h.sound_zero
  · rename_i hn
    rw [h.nlive] at hn
    refine wp_seq (ledger_jobsAdd h hn) fun r v h => ?_
    cases r with
    | none =>
      refine seq_perform h.agrees ?_
      rintro _ _ rfl
      exact h
    | some jid =>
      refine ledger_deref fun e _ _ => ?_
      split
      · exact seq_pure.mpr h
      · refine ledger_quiet h (fun ha ht => ⟨ha, ht⟩) (fun _ _ ha => ha) fun _ => ?_
        exact ledger_waitAndRemove jid h

theorem ledger_launchJob (h : Sound full c v) (hp : Yashd.Fresh proto) :
    (ledger full).wp (launchJob c proto) (fun _ => Sound full (c + 1)) v :=
  wp_seq (ledger_forkLoop h hp) fun _ _ ⟨_, h⟩ => ledger_trackJob h

theorem ledger_execJob (h : Sound full c v) (hp : Yashd.Fresh proto) :
    (ledger full).wp (execJob c proto) (fun _ => Sound full (c + 1)) v := by
  unfold execJob
  split
  · refine ledger_quiet h (fun ha _ => ha) (fun _ _ ha => ha) fun r => ?_
    split
    · exact ledger_launchJob h hp
    · refine seq_perform h.agrees ?_
      rintro _ _ rfl
      exact h.mono
  · exact ledger_launchJob h hp

theorem ledger_kill {g : Nat} {sig : Signal} {q : Unit → C α} (h : Sound full c v)
    (hq : (ledger full).wp (q ()) Q { v with signals := v.signals ++ [(g, sig)] }) :
    (ledger full).wp (kill g sig >>= q) Q v := by
  refine seq_call.mpr ⟨⟨h.agrees, h.pre_tracked⟩, ?_⟩
  rintro _ _ rfl
  exact hq

theorem ledger_resume {f : Job → Job} {q : Unit → C α} (h : Sound full c v) (hf : Outlined f)
    (hn : ∀ j, (f j).nlive = j.nlive) (hdone : ∀ j, (f j).state = .done → j.state = .done)
    (hq : ∀ v, Sound full c v → (ledger full).wp (q ()) Q v) :
    (ledger full).wp (modifyJob jid f >>= q) Q v :=
  wp_seq (ledger_modifyJob (Q := fun _ => Sound full c) (h.setJob hf hn fun e he _ hs =>
    (h.agrees e he).2 (hdone _ hs))) fun _ v h => hq v h

theorem ledger_doFg (h : Sound full c v) : (ledger full).wp doFg (fun _ => Sound full c) v := by
  refine ledger_load ?_
  split
  · exact seq_pure.mpr h
  · rename_i e _
    refine ledger_quiet h (fun ha ht => ⟨ha, ht⟩) (fun _ _ ha => ha) fun _ => ?_
    refine ledger_resume h ⟨fun _ => rfl, fun _ => rfl, fun _ => rfl⟩ (fun _ => rfl) (fun _ => id)
      fun v h => ?_
    refine ledger_quiet h (fun ha ht => ⟨ha, ht⟩) (fun _ _ ha => ha) fun _ => ?_
    refine ledger_deref fun e' _ _ => ?_
    split
    · refine ledger_kill h ?_
      exact ledger_resume (h.signal _ _) ⟨fun _ => rfl, fun _ => rfl, fun _ => rfl⟩ (fun _ => rfl)
        (by simp) fun _ h => ledger_waitAndRemove _ h
    · exact ledger_resume h ⟨fun _ => rfl, fun _ => rfl, fun _ => rfl⟩ (fun _ => rfl)
        (by simp) fun _ h => ledger_waitAndRemove _ h

theorem ledger_doBg (h : Sound full c v) : (ledger full).wp doBg (fun _ => Sound full c) v := by
  refine ledger_load ?_
  split
  · exact seq_pure.mpr h
  · rename_i e _
    refine ledger_kill h (ledger_resume (h.signal _ _) ⟨fun _ => rfl, fun _ => rfl, fun _ => rfl⟩
      (fun _ => rfl) (by simp) fun v h => ledger_deref fun e' _ _ => ?_)
    refine seq_perform ⟨⟨h.agrees, h.pre_tracked⟩, by simp⟩ ?_
    rintro _ _ rfl
    exact h

theorem ledger_printEach (cur : Option Nat) (js : Jobs) (h : Sound full c v) :
    (ledger full).wp (printEach cur js) (fun _ => Sound full c) v := by
  induction js with
  | nil => exact seq_pure.mpr h
  | cons e rest ih =>
    exact ledger_quiet h (fun ha ht => ⟨⟨ha, ht⟩, by simp⟩) (fun _ _ ha => ha) fun _ => ih

theorem ledger_builtinTry (job : Job) (h : Sound full c v) :
    (ledger full).wp (builtinTry job) (fun _ => Sound full c) v := by
  unfold builtinTry
  split
  · exact seq_pure.mpr h
  split
  · exact wp_seq (ledger_load (ledger_printEach _ _ h)) fun _ _ h => seq_pure.mpr h
  split
  · exact wp_seq (ledger_doFg h) fun _ _ h => seq_pure.mpr h
  split
  · exact wp_seq (ledger_doBg h) fun _ _ h => seq_pure.mpr h
  · exact seq_pure.mpr h

theorem ledger_parse {line : List Byte} {q : ParseResult → C α} (h : Sound full c v)
    (hq : (ledger full).wp (q (parseLine (some line))) Q v) :
    (ledger full).wp (parse line >>= q) Q v := by
  refine seq_call.mpr ⟨⟨h.agrees, h.pre_tracked⟩, ?_⟩
  rintro _ _ ⟨rfl, rfl⟩
  exact hq

theorem ledger_serve (line : List Byte) (h : Sound full c v) :
    (ledger full).wp (serve c line) (fun _ => Sound full (c + 1)) v := by
  refine ledger_parse h ?_
  split
  · rename_i job hr
    refine wp_seq (ledger_builtinTry job h) fun b v h => ?_
    split
    · exact seq_pure.mpr h.mono
    · exact ledger_execJob h (Yashd.fresh_of_parseLine hr)
  · exact seq_pure.mpr h.mono

/-- **One turn of the shell.** -/
theorem ledger_turnMain (h : Sound full c v) :
    (ledger full).wp (turnMain c)
      (Sum.elim (fun c => Sound full c) fun _ v => ∃ c, Sound full c v) v := by
  refine wp_seq (ledger_jobsReap h) fun _ v h => ?_
  refine ledger_quiet h (fun ha ht => ⟨ha, ht⟩) (fun _ _ ha => ha) fun _ => ?_
  refine ledger_quiet h (fun ha ht => ⟨ha, ht⟩) (fun _ _ ha => ha) fun r => ?_
  cases r with
  | eof => exact seq_pure.mpr ⟨c, h⟩
  | error =>
    refine ledger_quiet h (fun ha ht => ⟨ha, ht⟩) (fun _ _ ha => ha) fun _ => ?_
    exact seq_pure.mpr h
  | line line => exact wp_seq (ledger_serve line h) fun _ _ h => seq_pure.mpr h

/-- `jobs_kill_all` signals the group of every job. -/
theorem ledger_killEach (js : Jobs) (h : Sound full c v) :
    (ledger full).wp (killEach js) (fun _ v' => v'.jobs = v.jobs ∧ v'.kids = v.kids ∧
      v'.signals = v.signals ++ js.map fun e => (e.job.pgid, .kill)) v := by
  induction js generalizing v with
  | nil => exact seq_pure.mpr ⟨rfl, rfl, (append_nil _).symm⟩
  | cons e rest ih =>
    refine ledger_kill h (wp_mono ?_ (ih (h.signal _ _)))
    rintro _ v' ⟨hj, hk, hs⟩
    exact ⟨hj, hk, by rw [hs, append_assoc]; rfl⟩

theorem ledger_jobsKillAll (h : Sound full c v) :
    (ledger full).wp jobsKillAll (fun _ v => full = true → v.Killed) v := by
  refine ledger_load (wp_seq (ledger_killEach v.jobs h) ?_)
  rintro _ v' ⟨-, hk, hs⟩
  refine seq_perform trivial ?_
  rintro _ _ rfl hf k hkid
  rw [hk] at hkid
  obtain ⟨e, he, hc⟩ := h.tracked hf k hkid
  refine hs ▸ mem_append_right _ (mem_map.mpr ⟨e, he, ?_⟩)
  rw [(h.books.group k hkid e he).mp hc]

theorem ledger_main : (ledger full).wp main (fun _ v => full = true → v.Killed) ⟨[], [], []⟩ := by
  have h0 : Sound full 0 ⟨[], [], []⟩ :=
    ⟨⟨List.Pairwise.nil, by simp, by simp, by simp, by simp, by simp, by simp, by simp⟩,
      by simp [Ledger.Agrees], by simp⟩
  refine wp_seq (seq_iter (fun c => Sound full c) h0 fun c v h => ledger_turnMain h) ?_
  rintro _ v ⟨c, h⟩
  refine ledger_quiet h (fun ha ht => ⟨ha, ht⟩) (fun _ _ ha => ha) fun _ => ?_
  exact ledger_jobsKillAll h

end Code

end SystemProg.Yash
