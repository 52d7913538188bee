import SystemProg.Conc.Wp
import SystemProg.Yashd.JobTable

/-!
# Specifications of the session's functions

What each function of the session thread does to its job table and its children, in the logic
`table`: the state is the session's `View`, which nobody else changes. The `pre` of an operation is
what has to hold whenever the session performs it:

* `kill(-pgid)` and `waitpid(-pgid)` are for a group with an unreaped child of the session;
* a `fork` into an existing group is into such a group;
* a prompt is written only where the table is `Ready` with no foreground job;
* a write to the session adds at most one job to its list, with the next `jid`, and takes none from
  it that has a child;
* `handle_ctl` sets `quit` only if no foreground job has its stdin open;
* `buf_fill` is called only on a buffer without a complete line;
* no dangling `job_t *` is ever followed.

`spec_sessionMain` is the whole thread.
-/

namespace SystemProg.Yashd

open Text Shell Conc Data Conc.Logic List

/-- What an operation may do to the view. -/
def View.act : (o : Op) → View → o.Res → View → Prop
  | .load, v, s, v' => s.jobs = v.jobs ∧ s.fgJob = v.fgJob ∧ v' = v
  | .store f, v, _, v' => ∃ s : Session, s.jobs = v.jobs ∧ s.fgJob = v.fgJob ∧
      v' = ⟨(f s).jobs, (f s).fgJob, v.kids, v.inbuf⟩
  | .takeLine _, v, r, v' =>
    match r with
    | none => nl ∉ v.inbuf ∧ v' = v
    | some _ => ∃ b, v' = { v with inbuf := b }
  | .fill _, v, _, v' => ∃ b, v' = { v with inbuf := b }
  | .fork g, v, r, v' =>
    match r with
    | none => v' = v
    | some n => n ≠ 0 ∧ (∀ k ∈ v.kids, k.1 ≠ n ∧ k.2 ≠ n) ∧
        v' = { v with kids := v.kids ++ [(n, if g = 0 then n else g)] }
  | .waitpid g _, v, r, v' =>
    match r with
    | .exited n => (n, g) ∈ v.kids ∧ v' = { v with kids := remove Prod.fst v.kids n }
    | .echild => (∀ k ∈ v.kids, k.2 ≠ g) ∧ v' = v
    | _ => v' = v
  | _, v, _, v' => v' = v

/-- A job list that grows by one job at most, which is numbered after the last one. -/
def Numbered (js js' : List Job) : Prop :=
  js'.length ≤ js.length ∨ ∃ j, js' = js ++ [j] ∧ j.jid = (js.getLast?.map Job.jid).getD 0 + 1

/-- A write to the session that leaves its input alone, and no child of a job without one. -/
structure Stores (kids : List (Nat × Nat)) (s s' : Session) : Prop where
  jobs : Numbered s.jobs s'.jobs
  input : s'.input = s.input
  owned : ∀ k ∈ kids, ∀ j ∈ s.jobs, j.pgid = k.2 → ∃ j' ∈ s'.jobs, j'.pgid = k.2

/-- A write to the session that leaves its jobs alone. -/
theorem Stores.same {kids : List (Nat × Nat)} {s s' : Session} (hj : s'.jobs = s.jobs)
    (hi : s'.input = s.input) : Stores kids s s' :=
  ⟨.inl (hj ▸ le_rfl), hi, fun _ _ j hm he => ⟨j, hj ▸ hm, he⟩⟩

/-- What has to hold where an operation is performed. -/
def View.pre : Op → View → Prop
  | .store f, v => ∀ s : Session, s.jobs = v.jobs → Stores v.kids s (f s)
  | .quit .ctl, v => ∀ jid j, v.fgJob = some jid → lookup Job.jid v.jobs jid = some j →
      j.infd = none
  | .fill site, v => nl ∉ v.inbuf ∧ (site = .readsocket → v.fgJob = none)
  | .kill g _, v => ∃ k ∈ v.kids, k.2 = g
  | .waitpid g _, v => ∃ k ∈ v.kids, k.2 = g
  | .fork g, v => g = 0 ∨ ∃ k ∈ v.kids, k.2 = g
  | .write .prompt _, v => Ready none v
  | .fault, _ => False
  | _, _ => True

/-- The logic of the job table. -/
def table : Logic sys View := sequential View.pre View.act

namespace Code

variable {v : View} {α : Type} {Q : α → View → Prop} {x : Option Nat} {jid g : Nat} {j : Job}
  {K : List Nat → Prop} {R : Job → Prop}

/-! ## Operations -/

theorem spec_pure {a : α} (h : Q a v) : table.wp (pure a : C α) Q v := seq_pure.mpr h

theorem spec_load {f : Session → C α}
    (hf : ∀ s : Session, s.jobs = v.jobs → s.fgJob = v.fgJob → table.wp (f s) Q v) :
    table.wp (load >>= f) Q v := by
  refine seq_call.mpr ⟨trivial, ?_⟩
  rintro s _ ⟨hjobs, hfg, rfl⟩
  exact hf s hjobs hfg

theorem spec_store {f : Session → Session} {P : View → Prop}
    (hf : ∀ s : Session, s.jobs = v.jobs → Stores v.kids s (f s))
    (h : ∀ s : Session, s.jobs = v.jobs → s.fgJob = v.fgJob →
      P ⟨(f s).jobs, (f s).fgJob, v.kids, v.inbuf⟩) :
    table.wp (store f) (fun _ => P) v := by
  refine seq_perform hf ?_
  rintro _ v' ⟨s, hjobs, hfg, rfl⟩
  exact h s hjobs hfg

theorem spec_store_seq {f : Session → Session} {k : Unit → C α}
    (hf : ∀ s : Session, s.jobs = v.jobs → Stores v.kids s (f s))
    (h : ∀ s : Session, s.jobs = v.jobs → s.fgJob = v.fgJob →
      table.wp (k ()) Q ⟨(f s).jobs, (f s).fgJob, v.kids, v.inbuf⟩) :
    table.wp (store f >>= k) Q v :=
  wp_seq (spec_store hf h) fun _ _ h => h

theorem spec_kill {sig : Signal} (h : ∃ k ∈ v.kids, k.2 = g) :
    table.wp (kill g sig) (fun _ v' => v' = v) v :=
  seq_perform h fun _ _ h => h

theorem spec_same {β : Type} {p : C β} {f : β → C α} (hp : table.wp p (fun _ v' => v' = v) v)
    (hf : ∀ b, table.wp (f b) Q v) : table.wp (p >>= f) Q v :=
  wp_seq hp fun b _ h => by subst h; exact hf b

theorem spec_deref {f : Job → C α} (h : lookup Job.jid v.jobs jid = some j)
    (hf : table.wp (f j) Q v) : table.wp (deref jid >>= f) Q v := by
  refine wp_seq (P := fun r v' => r = j ∧ v' = v) (spec_load fun s hjobs _ => ?_) ?_
  · simp only [Session.job?, hjobs, h]
    exact spec_pure ⟨rfl, rfl⟩
  · rintro _ _ ⟨rfl, rfl⟩
    exact hf

theorem spec_modifyJob {f : Job → Job} (h : lookup Job.jid v.jobs jid = some j)
    (hpgid : ∀ j, (f j).pgid = j.pgid) :
    table.wp (modifyJob jid f)
      (fun _ v' => v' = { v with jobs := update Job.jid v.jobs jid f }) v := by
  refine spec_deref h
    (spec_store (fun s _ => ⟨.inl ?_, rfl, fun k _ i hi he => ?_⟩) fun s hjobs hfg => ?_)
  · simp only [Session.setJob, update, length_map, Nat.le_refl]
  · have hgroup : k.2 ∈ (update Job.jid s.jobs jid f).map Job.pgid := by
      rw [map_update hpgid]
      exact mem_map.mpr ⟨i, hi, he⟩
    exact mem_map.mp hgroup
  · simp only [Session.setJob, hjobs, hfg]

/-- A program whose operations all leave the view alone. -/
theorem spec_quiet {p : C α}
    (h : p.All fun o => View.pre o v ∧ ∀ r v', View.act o v r v' → v' = v) :
    table.wp p (fun _ v' => v' = v) v :=
  wp_inv (fun _ _ hr h => hr ▸ h)
    (h.imp fun o ho w hw => by subst hw; exact ho) rfl

/-! ## Output -/

theorem all_sessionWrite {P : Op → Prop} {out : Out} (hw : ∀ bs, P (.write out bs))
    (hq : P (.quit .write)) (buf : List Byte) : (sessionWrite out buf).All P := by
  refine ⟨fun rest => ?_, fun _ => trivial⟩
  by_cases h : rest = []
  · simp only [if_pos h]
    trivial
  · simp only [if_neg h]
    refine ⟨hw rest, fun r => ?_⟩
    match r with
    | .wrote n => trivial
    | .fail .eintr => trivial
    | .fail .other => exact ⟨hq, fun _ => trivial⟩

theorem spec_sessionPrintf (text : List Byte) :
    table.wp (sessionPrintf text) (fun _ v' => v' = v) v :=
  spec_quiet (all_sessionWrite (fun _ => ⟨trivial, fun _ _ h => h⟩) ⟨trivial, fun _ _ h => h⟩ _)

theorem spec_sessionPrompt (h : Ready none v) : table.wp sessionPrompt (fun _ v' => v' = v) v :=
  spec_quiet (all_sessionWrite (fun _ => ⟨h, fun _ _ h => h⟩) ⟨trivial, fun _ _ h => h⟩ _)

theorem spec_jobsPrintOne (job : Job) (mark status : String) :
    table.wp (jobsPrintOne job mark status) (fun _ v' => v' = v) v :=
  spec_same (spec_sessionPrintf _) fun _ => spec_pure rfl

/-! ## Messages -/

theorem spec_close (fd : Nat) : table.wp (close fd) (fun _ v' => v' = v) v :=
  seq_perform trivial fun _ _ h => h

theorem spec_setQuit {site : QuitSite} (h : View.pre (.quit site) v) :
    table.wp (setQuit site) (fun _ v' => v' = v) v :=
  seq_perform h fun _ _ h => h

theorem spec_closeInfd (h : Ready (some jid) v) (fd : Nat) :
    table.wp (do close fd; modifyJob jid fun j => { j with infd := none })
      (fun _ => Ready (some jid)) v := by
  refine spec_same (spec_close fd) fun _ => ?_
  obtain ⟨j, -, -, hj⟩ := h.table.deref (h.ptr jid rfl)
  refine wp_mono ?_ (spec_modifyJob hj (by exact fun _ => rfl))
  rintro _ _ rfl
  exact h.setJob (fun _ => rfl) (fun _ => rfl) (fun _ => rfl) (fun _ => rfl) fun _ hl => hl.state

theorem spec_killFg (h : Ready (some jid) v) (sig : Signal) :
    table.wp (do let j ← deref jid; kill j.pgid sig) (fun _ v' => v' = v) v := by
  obtain ⟨j, hmem, -, hj⟩ := h.table.deref (h.ptr jid rfl)
  exact spec_deref hj (spec_kill (h.exists_kid hmem))

theorem spec_handleCtl (h : Ready x v) (arg : List Byte) :
    table.wp (handleCtl arg) (fun _ => Ready x) v := by
  have keep : ∀ (_ : Unit) (v' : View), v' = v → Ready x v' := by
    rintro _ _ rfl
    exact h
  refine spec_load fun s _ hfg => ?_
  rw [h.fg] at hfg
  cases arg.head? with
  | none => exact spec_pure h
  | some c =>
    simp only [hfg]
    cases x with
    | none =>
      -- at the prompt only `CTL d` does anything
      dsimp only
      split_ifs
      · exact spec_pure h
      · exact spec_pure h
      · refine wp_mono keep (spec_setQuit fun jid j he _ => ?_)
        rw [h.fg] at he
        cases he
      · exact spec_pure h
    | some jid =>
      dsimp only
      split_ifs
      · exact wp_mono keep (spec_killFg h _)
      · exact wp_mono keep (spec_killFg h _)
      · obtain ⟨j, -, -, hj⟩ := h.table.deref (h.ptr jid rfl)
        refine spec_deref hj ?_
        split
        · rename_i hinfd
          refine wp_mono keep (spec_setQuit fun jid' j' he hj' => ?_)
          rw [h.fg] at he
          cases he
          rw [hj] at hj'
          cases hj'
          exact hinfd
        · exact spec_closeInfd h _
      · exact spec_pure h

theorem spec_writePipe (fd : Nat) (bs : List Byte) :
    table.wp (writePipe fd bs) (fun _ v' => v' = v) v :=
  seq_perform trivial fun _ _ h => h

theorem spec_handleText (h : Ready x v) (line : List Byte) :
    table.wp (handleText line) (fun _ => Ready x) v := by
  refine spec_load fun s _ hfg => ?_
  rw [h.fg] at hfg
  simp only [hfg]
  cases x with
  | none => exact spec_pure h
  | some jid =>
    obtain ⟨j, -, -, hj⟩ := h.table.deref (h.ptr jid rfl)
    refine spec_deref hj ?_
    split
    · exact spec_pure h
    · rename_i fd _
      refine spec_same (spec_writePipe fd line) fun ok => ?_
      split
      · refine spec_same (spec_writePipe fd [nl]) fun ok => ?_
        split
        · exact spec_closeInfd h fd
        · exact spec_pure h
      · exact spec_closeInfd h fd

theorem spec_dispatchRunning (h : Ready x v) (line : List Byte) :
    table.wp (dispatchRunning line) (fun _ => Ready x) v := by
  unfold dispatchRunning
  dsimp only
  split
  · exact spec_handleCtl h _
  · exact spec_handleText h _

theorem spec_takeLine {site : Site} {f : Option (List Byte) → C α}
    (hnone : nl ∉ v.inbuf → table.wp (f none) Q v)
    (hsome : ∀ line b, table.wp (f (some line)) Q { v with inbuf := b }) :
    table.wp (takeLine site >>= f) Q v := by
  refine seq_call.mpr ⟨trivial, fun r v' hr => ?_⟩
  cases r with
  | none =>
    obtain ⟨hb, rfl⟩ := hr
    exact hnone hb
  | some line =>
    obtain ⟨b, rfl⟩ := hr
    exact hsome line b

theorem spec_fill {site : Site} {f : Int → C α} (hb : nl ∉ v.inbuf)
    (hfg : site = .readsocket → v.fgJob = none)
    (hf : ∀ r b, table.wp (f r) Q { v with inbuf := b }) : table.wp (fill site >>= f) Q v := by
  refine seq_call.mpr ⟨⟨hb, hfg⟩, fun r v' hr => ?_⟩
  obtain ⟨b, rfl⟩ := hr
  exact hf r b

theorem spec_drain (h : Ready x v) :
    table.wp drain (fun _ v' => Ready x v' ∧ nl ∉ v'.inbuf) v := by
  refine seq_iter (fun _ => Ready x) h fun _ v h => ?_
  refine spec_takeLine (fun hb => spec_pure ⟨h, hb⟩) fun line b => ?_
  exact wp_seq (spec_dispatchRunning (h.setInbuf b) line) fun _ _ h => spec_pure h

theorem spec_sessionPump (h : Ready x v) : table.wp sessionPump (fun _ => Ready x) v := by
  refine wp_seq (spec_drain h) ?_
  rintro _ v ⟨h, hb⟩
  refine spec_same (seq_perform trivial fun _ _ h => h) fun ready => ?_
  split
  · exact spec_pure h
  · refine spec_fill hb (fun hs => by cases hs) fun r b => ?_
    split
    · exact spec_pure (h.setInbuf b)
    · exact wp_seq (spec_drain (h.setInbuf b)) fun _ _ h => spec_pure h.1

/-! ## Polling -/

theorem spec_waitpid {flags : WaitFlags} (h : ∃ k ∈ v.kids, k.2 = g) :
    table.wp (waitpid g flags) (fun r v' => View.act (.waitpid g flags) v r v') v :=
  seq_perform h fun _ _ h => h

theorem spec_setState (h : Polling jid x K R v) {st : JobState} (hst : st ≠ .done) :
    table.wp (modifyJob jid fun j => { j with state := st })
      (fun _ v' => Polling jid x K R v' ∧
        ((∀ j ∈ v.jobs, j.jid = jid → 0 < j.nlive) → ∀ j ∈ v'.jobs, j.jid = jid → 0 < j.nlive))
        v := by
  obtain ⟨j, -, -, hj⟩ := h.table.deref h.mem
  refine wp_mono ?_ (spec_modifyJob hj (by exact fun _ => rfl))
  rintro _ _ rfl
  refine ⟨h.update (h.table.setJob (fun _ => rfl) (fun _ => rfl) (fun _ => rfl) fun _ => rfl)
    (fun _ => rfl) fun _ _ _ => hst, fun hn j hj hjid => ?_⟩
  rcases mem_update hj with ⟨i, hi, hi', rfl⟩ | ⟨-, hne⟩
  · exact hn i hi hi'
  · exact absurd hjid hne

/-- **`poll_job`** keeps the agreement, touches no other job, and leaves a job it reports as stopped
with a child. -/
theorem spec_pollJob (h : Polling jid x K R v) (block : Bool) :
    table.wp (pollJob jid block)
      (fun stopped v' => Polling jid x K R v' ∧
        (stopped = true → ∀ j ∈ v'.jobs, j.jid = jid → 0 < j.nlive)) v := by
  refine seq_iter (fun _ => Polling jid x K R) h fun _ v h => ?_
  obtain ⟨j, hmem, rfl, hj⟩ := h.table.deref h.mem
  have huniq : ∀ i ∈ v.jobs, i.jid = j.jid → i = j := fun i hi he =>
    inj_on_of_nodup_map h.table.nodup hi hmem he
  refine spec_deref hj ?_
  split
  · exact spec_pure ⟨h, by simp⟩
  · rename_i hn
    have hpos : 0 < j.nlive := Nat.pos_of_ne_zero hn
    have hkid := (h.table.tracks j hmem).exists_kid hpos
    refine wp_seq (spec_waitpid hkid) fun r v' hr => ?_
    cases r with
    | none => cases hr; exact spec_pure ⟨h, by simp⟩
    | eintr => cases hr; exact spec_pure h
    | echild =>
      -- `nlive > 0`, so the group has a child left
      obtain ⟨k, hk, he⟩ := hkid
      exact absurd he (hr.1 k hk)
    | stopped n =>
      cases hr
      refine wp_seq (spec_setState h (by simp)) fun _ _ h => spec_pure ⟨h.1, fun _ => h.2 ?_⟩
      intro i hi he
      rwa [huniq i hi he]
    | continued n =>
      cases hr
      exact wp_seq (spec_setState h (by simp)) fun _ _ h => spec_pure h.1
    | exited n =>
      obtain ⟨hk, rfl⟩ := hr
      refine wp_seq (spec_modifyJob (v := { v with kids := _ }) hj (by exact fun _ => rfl)) ?_
      rintro _ _ rfl
      exact spec_pure (h.update (h.table.reap hmem hk) (fun _ => rfl) fun _ _ h => h)

/-! ## Removing finished jobs -/

theorem spec_jobsRemove (h : lookup Job.jid v.jobs jid = some j) (hfg : v.fgJob = none)
    (hover : ∀ i ∈ v.jobs, i.jid = jid → ∀ k ∈ v.kids, k.2 ≠ i.pgid) :
    table.wp (jobsRemove jid)
      (fun _ v' => v' = { v with jobs := remove Job.jid v.jobs jid }) v := by
  refine spec_load fun s hjobs _ => ?_
  simp only [Session.job?, hjobs, h]
  refine spec_store_seq
    (fun s hjobs => ⟨.inl remove_sublist.length_le, rfl, fun k hk i hi he => ?_⟩)
    fun s hjobs hfg' => ?_
  · -- a job with a child is another one
    have hne : i.jid ≠ jid := fun hjid => hover i (hjobs ▸ hi) hjid k hk he.symm
    exact ⟨i, mem_remove.mpr ⟨hi, hne⟩, he⟩
  simp only [hjobs, hfg', hfg]
  have hend : table.wp (store fun s => if s.fgJob = some jid then { s with fgJob := none } else s)
      (fun _ v' => v' = ⟨remove Job.jid v.jobs jid, none, v.kids, v.inbuf⟩)
      ⟨remove Job.jid v.jobs jid, none, v.kids, v.inbuf⟩ := by
    refine spec_store (fun s _ => ?_) fun s hjobs hfg => ?_
    · split <;> exact .same rfl rfl
    · rw [if_neg (by rw [hfg]; simp)]
      simp only [hjobs, hfg]
  split
  · exact spec_same (spec_close _) fun _ => hend
  · exact hend

theorem spec_setDone (h : Around jid x K R v) (hn : ∀ j ∈ v.jobs, j.jid = jid → j.nlive = 0) :
    table.wp (modifyJob jid fun j => { j with state := .done })
      (fun _ v' => Around jid x K R v' ∧
        ∀ j ∈ v'.jobs, j.jid = jid → j.state = .done ∧ j.nlive = 0) v := by
  obtain ⟨j, -, -, hj⟩ := h.table.deref h.mem
  refine wp_mono ?_ (spec_modifyJob hj (by exact fun _ => rfl))
  rintro _ _ rfl
  exact ⟨h.update (h.table.setJob (fun _ => rfl) (fun _ => rfl) (fun _ => rfl) fun _ => rfl)
    fun _ => rfl, mem_update_self fun i hi he => ⟨rfl, hn i hi he⟩⟩

theorem spec_reapPoll : ∀ {todo : List Nat} {v : View}, Reaping todo v →
    table.wp (reapPoll todo) (fun _ => Reaping []) v
  | [], _, h => spec_pure h
  | jid :: rest, v, h => by
    obtain ⟨j, hmem, rfl, hj⟩ := h.table.deref (h.mem jid mem_cons_self)
    have hlive := h.live j hmem mem_cons_self
    refine spec_deref hj ?_
    rw [if_pos ⟨hlive.state, hlive.nlive⟩]
    refine wp_seq (spec_pollJob h.polling false) ?_
    rintro stopped v ⟨hp, hst⟩
    cases stopped with
    | true =>
      refine spec_reapPoll (hp.toAround.reaping h.nodup fun i hi he => .inr ?_)
      exact ⟨hst rfl i hi he, hp.cur i hi he⟩
    | false =>
      obtain ⟨i, himem, hi, hlook⟩ := hp.table.deref hp.mem
      refine spec_deref hlook ?_
      split
      · rename_i hn
        refine wp_seq (spec_setDone hp.toAround fun i' hi' he => ?_) ?_
        · obtain rfl := inj_on_of_nodup_map hp.table.nodup hi' himem (he.trans hi.symm)
          exact hn
        rintro _ v ⟨ha, hd⟩
        exact spec_reapPoll (ha.reaping h.nodup fun i hi he => .inl (hd i hi he))
      · rename_i hn
        refine spec_reapPoll (hp.toAround.reaping h.nodup fun i' hi' he => .inr ?_)
        obtain rfl := inj_on_of_nodup_map hp.table.nodup hi' himem (he.trans hi.symm)
        exact ⟨Nat.pos_of_ne_zero hn, hp.cur i' hi' he⟩

theorem spec_reapSweep : ∀ {todo : List Nat} {v : View}, Sweeping todo v →
    table.wp (reapSweep todo) (fun _ => Ready none) v
  | [], _, h => spec_pure h.ready
  | jid :: rest, v, h => by
    obtain ⟨j, hmem, rfl, hj⟩ := h.table.deref (h.mem jid mem_cons_self)
    refine spec_deref hj ?_
    split
    · rename_i hs
      refine spec_load fun s _ _ => spec_same (spec_jobsPrintOne _ _ _) fun _ => ?_
      refine wp_seq (spec_jobsRemove hj h.fg fun i hi he => ?_) ?_
      · obtain rfl := inj_on_of_nodup_map h.table.nodup hi hmem he
        have hover := (h.settled i hi mem_cons_self).resolve_right fun hl => hl.state hs
        exact (h.table.tracks i hi).group_empty hover.2
      rintro _ _ rfl
      exact spec_reapSweep h.remove
    · rename_i hs
      refine spec_reapSweep (h.next fun i hi he => ?_)
      obtain rfl := inj_on_of_nodup_map h.table.nodup hi hmem he
      exact (h.settled i hi mem_cons_self).resolve_left fun ho => hs ho.1

/-- **`jobs_reap`** leaves every job of the list alive. -/
theorem spec_jobsReap (h : Ready none v) : table.wp jobsReap (fun _ => Ready none) v := by
  refine spec_load fun s hjobs _ => ?_
  rw [hjobs]
  refine wp_seq (spec_reapPoll h.reaping) fun _ v h => spec_load fun s hjobs _ => ?_
  rw [hjobs]
  exact spec_reapSweep h.sweeping

/-! ## The foreground -/

theorem spec_pollFg (h : Ready (some jid) v) (block : Bool) :
    table.wp (do if ← pollJob jid block then return .inr true
                 return .inl ())
      (Sum.elim (fun _ : Unit => Polling jid (some jid) (fun _ => True) Live)
        fun stopped v' => Polling jid (some jid) (fun _ => True) Live v' ∧
          ∀ j ∈ v'.jobs, j.jid = jid → (0 < j.nlive ↔ stopped = true)) v := by
  refine wp_seq (spec_pollJob h.polling block) ?_
  rintro stopped v ⟨hp, hst⟩
  cases stopped with
  | true => exact spec_pure ⟨hp, fun j hj he => iff_of_true (hst rfl j hj he) rfl⟩
  | false => exact spec_pure hp

/-- **`jobs_wait_fg`** returns with the job stopped, or over and marked so. -/
theorem spec_jobsWaitFg (h : Ready (some jid) v) :
    table.wp (jobsWaitFg jid) (fun _ => Waited jid) v := by
  refine wp_seq (P := fun stopped v => Polling jid (some jid) (fun _ => True) Live v ∧
    ∀ j ∈ v.jobs, j.jid = jid → (0 < j.nlive ↔ stopped = true)) ?_ ?_
  · refine seq_iter (fun _ => Polling jid (some jid) (fun _ => True) Live) h.polling
      fun _ v h => ?_
    obtain ⟨j, hmem, rfl, hj⟩ := h.table.deref h.mem
    refine spec_deref hj ?_
    split
    · rename_i hn
      refine spec_pure ⟨h, fun i hi he => ?_⟩
      obtain rfl := inj_on_of_nodup_map h.table.nodup hi hmem he
      exact iff_of_false (by omega) (by simp)
    · rename_i hn
      have hr : Ready (some j.jid) v := h.ready fun i hi he => by
        obtain rfl := inj_on_of_nodup_map h.table.nodup hi hmem he
        exact Nat.pos_of_ne_zero hn
      refine spec_load fun s _ _ => ?_
      split
      · refine wp_seq (spec_sessionPump hr) fun there v hr => ?_
        split
        · refine spec_same (spec_setQuit trivial) fun _ => ?_
          obtain ⟨i, himem, hi, hlook⟩ := hr.table.deref (hr.ptr _ rfl)
          refine spec_deref hlook (spec_same (spec_kill (hr.exists_kid himem)) fun _ => ?_)
          exact spec_pollFg hr false
        · exact spec_pollFg hr false
      · exact spec_pollFg hr true
  · rintro stopped v ⟨hp, hst⟩
    cases stopped with
    | true =>
      exact spec_pure ⟨hp.toAround, fun j hj he => .inr ⟨(hst j hj he).mpr rfl, hp.cur j hj he⟩⟩
    | false =>
      refine wp_mono ?_ (spec_setDone hp.toAround fun j hj he => ?_)
      swap
      · exact Nat.eq_zero_of_not_pos fun hpos => Bool.false_ne_true ((hst j hj he).mp hpos)
      rintro _ v ⟨ha, hd⟩
      exact ⟨ha, fun j hj he => .inl (hd j hj he)⟩

theorem spec_foreground (h : Ready none v) (hjid : jid ∈ v.jobs.map Job.jid) :
    table.wp (foreground jid) (fun _ => Ready none) v := by
  refine spec_store_seq (fun _ _ => Stores.same rfl rfl) fun s hjobs _ => ?_
  rw [hjobs]
  refine wp_seq (spec_jobsWaitFg (h.setFg hjid)) fun _ v h => ?_
  refine spec_store_seq (fun _ _ => Stores.same rfl rfl) fun s hjobs _ => ?_
  rw [hjobs]
  obtain ⟨j, hmem, rfl, hj⟩ := h.table.deref h.mem
  refine spec_deref (v := ⟨v.jobs, none, v.kids, v.inbuf⟩) hj ?_
  split
  · rename_i hs
    refine wp_mono ?_ (spec_jobsRemove (v := ⟨v.jobs, none, v.kids, v.inbuf⟩) hj rfl fun i hi he =>
      ?_)
    · rintro _ _ rfl
      exact h.remove
    · obtain rfl := inj_on_of_nodup_map h.table.nodup hi hmem he
      have hover := (h.settled i hi rfl).resolve_right fun hl => hl.state hs
      exact (h.table.tracks i hi).group_empty hover.2
  · rename_i hs
    refine spec_pure (h.ready fun i hi he => ?_)
    obtain rfl := inj_on_of_nodup_map h.table.nodup hi hmem he
    exact hs

/-! ## Builtins -/

theorem spec_printEach (cur : Option Job) : ∀ js : List Job,
    table.wp (printEach cur js) (fun _ v' => v' = v) v
  | [] => spec_pure rfl
  | _ :: js => spec_same (spec_jobsPrintOne _ _ _) fun _ => spec_printEach cur js

theorem spec_jobsPrint : table.wp jobsPrint (fun _ v' => v' = v) v :=
  spec_load fun _ _ _ => spec_printEach _ _

/-- `state = JOB_RUNNING`, and whatever else a builtin writes. -/
theorem spec_resume (h : Ready none v) (hj : lookup Job.jid v.jobs jid = some j) {f : Job → Job}
    (hjid : ∀ j, (f j).jid = j.jid) (hpgid : ∀ j, (f j).pgid = j.pgid)
    (hslots : ∀ j, livePids (f j) = livePids j) (hlive : ∀ j, (f j).nlive = j.nlive)
    (hstate : ∀ j, Live j → (f j).state ≠ .done) :
    table.wp (modifyJob jid f)
      (fun _ v' => Ready none v' ∧ v'.jobs.map Job.jid = v.jobs.map Job.jid) v := by
  refine wp_mono ?_ (spec_modifyJob hj hpgid)
  rintro _ _ rfl
  exact ⟨h.setJob hjid hpgid hslots hlive hstate, map_update hjid⟩

theorem mem_of_jobsCurrent {s : Session} (h : s.jobsCurrent = some j) : j ∈ s.jobs :=
  (mem_filter.mp (mem_of_getLast? h)).1

theorem mem_of_jobsRecentStopped {s : Session} (h : s.jobsRecentStopped = some j) : j ∈ s.jobs :=
  (mem_filter.mp (mem_of_getLast? h)).1

theorem spec_doFg (h : Ready none v) : table.wp doFg (fun _ => Ready none) v := by
  refine spec_load fun s hjobs _ => ?_
  cases hc : s.jobsCurrent with
  | none => exact spec_pure h
  | some j =>
    have hmem : j ∈ v.jobs := hjobs ▸ mem_of_jobsCurrent hc
    refine spec_same (spec_sessionPrintf _) fun _ => ?_
    refine wp_seq (spec_resume h (h.table.lookup hmem) (fun _ => rfl) (fun _ => rfl) (fun _ => rfl)
      (fun _ => rfl) fun _ hl => hl.state) ?_
    rintro _ v₁ ⟨h₁, hjids₁⟩
    have hin₁ : j.jid ∈ v₁.jobs.map Job.jid := hjids₁ ▸ mem_map_of_mem hmem
    obtain ⟨i, himem, -, hi⟩ := h₁.table.deref hin₁
    have hend :
        table.wp (do modifyJob j.jid fun j => { j with state := .running }; foreground j.jid)
        (fun _ => Ready none) v₁ := by
      refine wp_seq (spec_resume h₁ hi (fun _ => rfl) (fun _ => rfl) (fun _ => rfl)
        (fun _ => rfl) fun _ _ => by simp) ?_
      rintro _ v₂ ⟨h₂, hjids₂⟩
      exact spec_foreground h₂ (hjids₂ ▸ hin₁)
    refine spec_deref hi ?_
    split
    · exact spec_same (spec_kill (h₁.exists_kid himem)) fun _ => hend
    · exact hend

theorem spec_doBg (h : Ready none v) : table.wp doBg (fun _ => Ready none) v := by
  refine spec_load fun s hjobs _ => ?_
  cases hc : s.jobsRecentStopped with
  | none => exact spec_pure h
  | some j =>
    have hmem : j ∈ v.jobs := hjobs ▸ mem_of_jobsRecentStopped hc
    refine spec_same (spec_kill (h.exists_kid hmem)) fun _ => ?_
    refine wp_seq (spec_resume h (h.table.lookup hmem) (fun _ => rfl) (fun _ => rfl) (fun _ => rfl)
      (fun _ => rfl) fun _ _ => by simp) ?_
    rintro _ v₁ ⟨h₁, hjids₁⟩
    obtain ⟨i, -, -, hi⟩ := h₁.table.deref (hjids₁ ▸ mem_map_of_mem hmem)
    refine spec_deref hi (wp_mono ?_ (spec_jobsPrintOne _ _ _))
    rintro _ _ rfl
    exact h₁

theorem spec_builtinTry (h : Ready none v) (job : Job) :
    table.wp (builtinTry job) (fun _ => Ready none) v := by
  unfold builtinTry
  split
  · exact spec_pure h
  split
  · exact spec_same spec_jobsPrint fun _ => spec_pure h
  split
  · exact wp_seq (spec_doFg h) fun _ _ h => spec_pure h
  split
  · exact wp_seq (spec_doBg h) fun _ _ h => spec_pure h
  · exact spec_pure h

/-! ## Starting a job -/

theorem spec_forkLoop {proto : Job}
    (h : Ready none v) (hp : Fresh proto) :
    table.wp (forkLoop proto)
      (fun r v' => ∃ i, Forking i r.1 r.2 v' ∧ r.2.background = proto.background) v := by
  refine seq_iter (fun s v => Forking s.1 s.2.1 s.2.2 v ∧ s.2.2.background = proto.background)
    ⟨.start h hp, rfl⟩ ?_
  rintro ⟨i, pgid, proto'⟩ v ⟨h, hbg⟩
  dsimp only
  split
  · exact spec_pure ⟨i, h, hbg⟩
  · rename_i hi
    have hpre : pgid = 0 ∨ ∃ k ∈ v.kids, k.2 = pgid := by
      by_cases h0 : pgid = 0
      · exact .inl h0
      · refine .inr (h.tracks.exists_kid ?_)
        show 0 < proto'.nlive
        rw [h.nlive]
        exact Nat.pos_of_ne_zero fun he => h0 (h.zero.mpr he)
    refine seq_call.mpr ⟨hpre, fun r v' hr => ?_⟩
    cases r with
    | none => cases hr; exact spec_pure ⟨i, h, hbg⟩
    | some n =>
      obtain ⟨hn, hfresh, rfl⟩ := hr
      exact spec_pure ⟨h.fork (Nat.not_le.mp hi) hn hfresh, hbg⟩

/-- **`jobs_add`** appends the job with the next `jid`, or leaves the table alone. -/
theorem spec_jobsAdd {proto : Job} (h : Ready none v) (ht : Tracks v.kids proto)
    (hgroup : ∀ j ∈ v.jobs, j.pgid ≠ proto.pgid) (hlive : Live proto) :
    table.wp (jobsAdd proto)
      (fun r v' => match r with
        | none => v' = v
        | some jid => Ready none v' ∧ ∃ j, v'.jobs = v.jobs ++ [j] ∧ j.jid = jid ∧
            j.background = proto.background) v := by
  refine spec_load fun s hjobs _ => ?_
  split
  · exact spec_pure rfl
  · rename_i hcap
    refine spec_same (seq_perform trivial fun _ _ h => h) fun ok => ?_
    split
    · exact spec_pure rfl
    · refine spec_store_seq (fun s' hjobs' => ⟨.inr ⟨_, rfl, ?_⟩, rfl, fun k _ i hi he =>
        ⟨i, mem_append_left _ hi, he⟩⟩) fun s' hjobs' hfg' => spec_pure ?_
      · rw [hjobs', ← hjobs]
        exact s.nextJid_eq
      rw [hjobs', hfg']
      rw [hjobs] at hcap
      have hsorted : (s.jobs.map Job.jid).Pairwise (· < ·) := hjobs ▸ h.table.sorted
      refine ⟨⟨?_, ?_, h.fg, fun _ he => absurd he (by simp)⟩, _, rfl, rfl, rfl⟩
      · exact h.table.add (Nat.not_le.mp hcap) (nextJid_pos s) (hjobs ▸ lt_nextJid hsorted) hgroup
          ⟨ht.perm, ht.nlive⟩
      · intro j hj
        rcases mem_append.mp hj with hj | hj
        · exact h.live j hj
        · rw [mem_singleton.mp hj]
          exact ⟨hlive.nlive, hlive.state⟩

theorem spec_trackJob {pgid : Nat} {proto : Job} (h : Ready none v) (ht : Tracks v.kids proto)
    (hgroup : ∀ j ∈ v.jobs, j.pgid ≠ proto.pgid) (hlive : Live proto) (hpgid : proto.pgid = pgid) :
    table.wp (trackJob pgid proto) (fun _ => Ready none) v := by
  refine wp_seq (spec_jobsAdd h ht hgroup hlive) fun r v' hr => ?_
  cases r with
  | none =>
    cases hr
    refine spec_same (spec_kill (hpgid ▸ ht.exists_kid hlive.nlive)) fun _ => ?_
    split
    · refine wp_mono ?_ (spec_close _)
      rintro _ _ rfl
      exact h
    · exact spec_pure h
  | some jid =>
    obtain ⟨h, j, hjobs, rfl, -⟩ := hr
    have hmem : j ∈ v'.jobs := by simp [hjobs]
    refine spec_deref (h.table.lookup hmem) ?_
    split
    · exact spec_pure h
    · exact spec_foreground h (mem_map_of_mem hmem)

theorem spec_startJob {i pgid inw : Nat} {proto : Job} (h : Forking i pgid proto v) :
    table.wp (startJob inw pgid proto) (fun _ => Ready none) v := by
  have keep : ∀ (_ : Unit) (v' : View), v' = v → Ready none v' := by
    rintro _ _ rfl
    exact h.ready
  have htrack : proto.nlive ≠ 0 → ∀ infd,
      table.wp (trackJob pgid { proto with pgid := pgid, infd := infd }) (fun _ => Ready none) v :=
    fun hn infd => spec_trackJob h.ready ⟨h.tracks.perm, h.tracks.nlive⟩ h.group
      ⟨Nat.pos_of_ne_zero hn, h.state⟩ rfl
  unfold startJob
  split
  · exact wp_mono keep (spec_close _)
  · rename_i hn
    split
    · exact spec_same (spec_close _) fun _ => htrack hn none
    · exact htrack hn (some inw)

theorem spec_launchJob {inr inw : Nat} {fds : Option (Nat × Nat)} {proto : Job}
    (h : Ready none v) (hp : Fresh proto) :
    table.wp (launchJob inr inw fds proto) (fun _ => Ready none) v := by
  refine wp_seq (spec_forkLoop h hp) ?_
  rintro ⟨pgid, proto'⟩ v ⟨i, hf, -⟩
  have hend : table.wp (do close inr; startJob inw pgid proto') (fun _ => Ready none) v :=
    spec_same (spec_close _) fun _ => spec_startJob hf
  cases fds with
  | none => exact hend
  | some p => exact spec_same (spec_close _) fun _ => spec_same (spec_close _) fun _ => hend

/-- **`exec_job`**, whichever of its `pipe`s and `fork`s fail. -/
theorem spec_execJob {proto : Job} (h : Ready none v) (hp : Fresh proto) :
    table.wp (execJob proto) (fun _ => Ready none) v := by
  have hp' : Fresh { proto with infd := none } := ⟨hp.pids, hp.ncmds, hp.nlive, hp.state⟩
  have hpipe : ∀ p, table.wp (pipe p) (fun _ v' => v' = v) v := fun _ =>
    seq_perform trivial fun _ _ h => h
  refine spec_same (hpipe _) fun r => ?_
  cases r with
  | none => exact spec_pure h
  | some p =>
    dsimp only
    split
    · refine spec_same (hpipe _) fun fds => ?_
      cases fds with
      | none =>
        refine spec_same (spec_close _) fun _ => wp_mono ?_ (spec_close _)
        rintro _ _ rfl
        exact h
      | some fds => exact spec_launchJob h hp'
    · exact spec_launchJob h hp'

/-! ## Commands -/

theorem spec_handleCmd (h : Ready none v) (cmdline : List Byte) :
    table.wp (handleCmd cmdline) (fun _ => Ready none) v := by
  unfold handleCmd
  split
  · rename_i job hjob
    refine spec_same (seq_perform trivial fun _ _ h => h) fun _ => ?_
    split
    · exact spec_same (spec_setQuit trivial) fun _ => spec_pure h
    · refine wp_seq (spec_builtinTry h job) fun built v h => ?_
      split
      · exact spec_pure h
      · exact spec_execJob h (fresh_of_parseLine hjob)
  · exact spec_pure h

theorem spec_dispatch (h : Ready none v) (line : List Byte) :
    table.wp (dispatch line) (fun _ => Ready none) v := by
  unfold dispatch
  dsimp only
  split
  · exact spec_handleCmd h _
  split
  · exact spec_handleCtl h _
  · exact spec_handleText h _

theorem spec_sessionReadsocket (h : Ready none v) :
    table.wp sessionReadsocket (fun _ => Ready none) v := by
  refine seq_iter (fun _ => Ready none) h fun _ v h => ?_
  refine spec_takeLine (fun hb => ?_) fun line b => spec_pure (h.setInbuf b)
  refine spec_fill hb (fun _ => h.fg) fun r b => ?_
  have h := h.setInbuf b
  split
  · exact spec_pure h
  split
  · refine spec_load fun s _ _ => ?_
    split
    · exact spec_pure h
    · exact spec_pure h
  · exact spec_pure h

/-! ## The thread -/

theorem spec_killWait {todo : List Nat} (h : Draining jid todo v) :
    table.wp (killWait jid) (fun _ => Killing none todo) v := by
  refine seq_iter (fun _ => Draining jid todo) h fun _ v h => ?_
  obtain ⟨j, hmem, rfl⟩ := mem_map.mp h.ptr
  have hj := lookup_of_mem h.nodup hmem
  refine spec_deref hj ?_
  split
  · rename_i hn
    refine spec_pure (h.killing fun i hi he => ?_)
    obtain rfl := inj_on_of_nodup_map h.nodup hi hmem he
    rw [h.count i hi rfl, length_eq_zero_iff] at hn
    rintro ⟨n, g⟩ hk rfl
    exact absurd (mem_members.mpr hk) (hn ▸ not_mem_nil)
  · rename_i hn
    have hkid : ∃ k ∈ v.kids, k.2 = j.pgid := by
      rw [h.count j hmem rfl] at hn
      obtain ⟨n, hn⟩ := exists_mem_of_length_pos (Nat.pos_of_ne_zero hn)
      exact ⟨(n, j.pgid), mem_members.mp hn, rfl⟩
    refine wp_seq (spec_waitpid hkid) fun r v' hr => ?_
    cases r with
    | exited n =>
      obtain ⟨hk, rfl⟩ := hr
      refine wp_seq (spec_modifyJob (v := { v with kids := _ }) hj (by exact fun _ => rfl)) ?_
      rintro _ _ rfl
      exact spec_pure (h.reap hmem hk)
    | echild =>
      -- `nlive > 0`, so the group has a child left
      obtain ⟨k, hk, he⟩ := hkid
      exact absurd he (hr.1 k hk)
    | _ =>
      cases hr
      exact spec_pure h

theorem spec_killEach : ∀ {todo : List Nat} {v : View}, Killing none todo v →
    table.wp (killEach todo) (fun _ => Killing none []) v
  | [], _, h => spec_pure h
  | jid :: rest, v, h => by
    obtain ⟨j, hmem, rfl⟩ := mem_map.mp (h.mem jid mem_cons_self)
    have hkid : ∃ k ∈ v.kids, k.2 = j.pgid := by
      obtain ⟨hcount, hpos⟩ := h.counts j hmem mem_cons_self
      obtain ⟨n, hn⟩ := exists_mem_of_length_pos (hcount ▸ hpos)
      exact ⟨(n, j.pgid), mem_members.mp hn, rfl⟩
    have hend : table.wp (do killWait j.jid; killEach rest) (fun _ => Killing none []) v :=
      wp_seq (spec_killWait h.draining) fun _ _ h => spec_killEach h
    refine spec_deref (lookup_of_mem h.nodup hmem) (spec_same (spec_kill hkid) fun _ => ?_)
    split
    · exact spec_same (spec_close _) fun _ => hend
    · exact hend

theorem spec_sessionDestroy (h : Ready none v) :
    table.wp sessionDestroy (fun _ _ => True) v := by
  refine wp_seq (P := fun _ _ => True) ?_ fun _ v _ => seq_perform trivial fun _ _ _ => trivial
  refine spec_load fun s hjobs _ => ?_
  rw [hjobs]
  refine wp_seq (spec_killEach h.killing) fun _ v h => ?_
  refine spec_store (fun s hjobs => ⟨.inl (Nat.zero_le _), rfl, fun k hk j hj he => ?_⟩)
    fun _ _ _ => trivial
  exact absurd he.symm (h.emptied j (hjobs ▸ hj) not_mem_nil (by simp) k hk)

theorem spec_serve (h : Ready none v) : table.wp serve (fun _ => Ready none) v := by
  refine spec_same (spec_sessionPrompt h) fun ok => ?_
  split
  · exact spec_pure h
  · refine wp_seq (spec_sessionReadsocket h) fun r v h => ?_
    cases r with
    | line line =>
      refine wp_seq (spec_dispatch h line) fun _ v h => ?_
      exact spec_load fun _ _ _ => spec_pure h
    | _ => exact spec_pure h

/-- **The thread**, from a fresh session on. -/
theorem spec_sessionMain : table.wp sessionMain (fun _ _ => True) ⟨[], none, [], []⟩ := by
  have hinit : Ready none ⟨[], none, [], []⟩ :=
    ⟨⟨nodup_nil, by simp, List.Pairwise.nil, by simp, by simp, nodup_nil, by simp⟩,
      by simp, rfl, by simp⟩
  refine wp_seq (P := fun _ => Ready none) ?_ fun _ _ h => spec_sessionDestroy h
  refine seq_iter (fun _ => Ready none) hinit fun _ v h => ?_
  refine wp_seq (spec_jobsReap h) fun _ v h => ?_
  refine wp_seq (spec_serve h) fun again v h => ?_
  cases again <;> exact spec_pure h

end Code

end SystemProg.Yashd
