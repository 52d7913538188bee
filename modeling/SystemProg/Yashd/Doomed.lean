import SystemProg.Yashd.Isolation
import SystemProg.Yashd.Keeps

/-!
# The wait that nothing interrupts

`jobs_wait_fg` alternates between the socket and the job, so that a `CTL` message or the end of the
connection reaches it, until `s->quit` is set. From then on it blocks in `waitpid`
(`server/src/jobs.c:214-230`). Where it sets `quit` itself, it kills the job first. But `quit` is
set elsewhere, too: by `handle_ctl` on a `CTL d` that finds the job's stdin closed, and by a failed
write of `session_write` before the job is in the foreground.

The logic `doom` is about `quit`, `fg_job`, the job table and which children have been sent
`SIGKILL`.

* `blocks_on_killed`: where no job is put in the foreground with `quit` set, and `handle_ctl` does
  not set `quit` with a job there, the blocking `waitpid` is for a group that has been killed.
-/

namespace SystemProg.Yashd

open Text Shell Conc Data Conc.Logic List

/-- A session's `quit`, its jobs, and its children by their group and whether they have been sent
`SIGKILL`. -/
structure Doom where
  quit : Bool
  fgJob : Option Nat
  jobs : List Job
  kids : List (Nat × Bool)

/-- Every child in a group has been sent `SIGKILL`. -/
def Doom.Killed (v : Doom) (g : Nat) : Prop := ∀ k ∈ v.kids, k.1 = g → k.2 = true

/-- `kill(-g, sig)`. -/
def Doom.kill (v : Doom) (g : Nat) (sig : Signal) : Doom :=
  { v with kids := v.kids.map fun k => if k.1 = g ∧ sig = .kill then (k.1, true) else k }

/-- The blocking `waitpid` of `poll_job` is for the foreground job, which has been killed. -/
def Doom.pre : Op → Doom → Prop
  | .waitpid g flags, v => flags = ⟨false, true, true⟩ → v.quit = true ∧ v.Killed g ∧
      ∃ jid j, v.fgJob = some jid ∧ lookup Job.jid v.jobs jid = some j ∧ j.pgid = g
  | _, _ => True

/-- What an operation does to `quit`, the jobs and the children, as long as `fg_job` is set only
with `quit` clear, and `handle_ctl` sets `quit` only with `fg_job` NULL. -/
def Doom.act : (o : Op) → Doom → o.Res → Doom → Prop
  | .load, v, s, v' => s.quit = v.quit ∧ s.fgJob = v.fgJob ∧ s.jobs = v.jobs ∧ v' = v
  | .store f, v, _, v' => ∃ s : Session, s.quit = v.quit ∧ s.fgJob = v.fgJob ∧ s.jobs = v.jobs ∧
      v' = ⟨(f s).quit, (f s).fgJob, (f s).jobs, v.kids⟩ ∧
      (v.fgJob = none → v'.fgJob ≠ none → v.quit = false)
  | .quit site, v, _, v' => v' = { v with quit := true } ∧ (site = .ctl → v.fgJob = none)
  | .fork _, v, _, v' => ∃ new, v' = { v with kids := v.kids ++ new }
  | .waitpid _ _, v, _, v' => ∃ kids, kids.Sublist v.kids ∧ v' = { v with kids := kids }
  | .kill g sig, v, _, v' => v' = v.kill g sig
  | _, v, _, v' => v' = v

/-- The logic of the end. -/
def doom : Logic sys Doom := sequential Doom.pre Doom.act

variable {v v' : Doom} {jid g : Nat}

/-! ## Without a job in the foreground -/

theorem pre_of_loose {o : Op} (ho : o.Loose) : Doom.pre o v := by
  cases o with
  | waitpid g flags => exact fun he => absurd he ho
  | _ => trivial

/-- Such an operation leaves `quit` and `fg_job` alone. -/
theorem act_of_loose {o : Op} {r : o.Res} (ho : o.Loose) (h : Doom.act o v r v') :
    v'.quit = v.quit ∧ v'.fgJob = v.fgJob := by
  cases o with
  | load =>
    obtain ⟨-, -, -, rfl⟩ := h
    exact ⟨rfl, rfl⟩
  | store f =>
    obtain ⟨s, hq, hfg, -, rfl, -⟩ := h
    exact ⟨(ho.quit s).trans hq, (ho.fgJob s).trans hfg⟩
  | quit site | fork g => exact ho.elim
  | waitpid g flags =>
    obtain ⟨kids, -, rfl⟩ := h
    exact ⟨rfl, rfl⟩
  | _ =>
    cases h
    exact ⟨rfl, rfl⟩

theorem doom_stable (P : Bool → Option Nat → Prop) : Stable doom fun v => P v.quit v.fgJob := by
  refine .intro (fun _ _ hr h => hr ▸ h) fun o ho v h => ⟨pre_of_loose ho, fun r v' hact => ?_⟩
  obtain ⟨hq, hfg⟩ := act_of_loose ho hact
  rwa [hq, hfg]

/-- No job is in the foreground. -/
def Idle (v : Doom) : Prop := v.fgJob = none

/-- Reading a line, logging and forking are nothing to `quit` and `fg_job`. -/
theorem idle_op {o : Op} (hpre : ∀ v, Doom.pre o v)
    (hact : ∀ v r v', Doom.act o v r v' → v'.fgJob = v.fgJob) :
    Keeps doom Idle (Prog.perform (S := sys) o) :=
  (doom_stable fun _ fg => fg = none).op fun v h =>
    ⟨hpre v, fun r v' ha => (hact v r v' ha).trans h⟩

theorem idle_steady : Steady doom Idle := by
  refine (doom_stable fun _ fg => fg = none).steady
    (fun _ _ => idle_op (fun _ => trivial) (by rintro v _ _ ⟨rfl, -⟩; rfl)) fun f hf => ?_
  refine (doom_stable fun _ fg => fg = none).op fun v h => ⟨trivial, ?_⟩
  rintro _ _ ⟨s, -, hfg, -, rfl, -⟩
  rcases hf.fgJob s with he | he
  · exact he.trans (hfg.trans h)
  · exact he

/-! ## The foreground wait -/

/-- A job in the foreground with `quit` clear. -/
def Attended (jid : Nat) (v : Doom) : Prop := v.quit = false ∧ v.fgJob = some jid

/-- A job in the foreground that has been killed, with `quit` set. -/
structure Doomed (jid : Nat) (v : Doom) : Prop where
  quit : v.quit = true
  fg : v.fgJob = some jid
  killed : ∀ j, lookup Job.jid v.jobs jid = some j → v.Killed j.pgid

theorem Doom.Killed.sublist {kids : List (Nat × Bool)} (h : v.Killed g) (hs : kids.Sublist v.kids) :
    Doom.Killed { v with kids := kids } g := fun k hk => h k (hs.mem hk)

theorem Doom.killed_kill (v : Doom) (g : Nat) : (v.kill g .kill).Killed g := by
  intro k hk
  obtain ⟨k₀, -, rfl⟩ := mem_map.mp hk
  split
  · exact fun _ => rfl
  · rename_i hne
    exact fun he => absurd ⟨he, rfl⟩ hne

namespace Code

variable {α : Type} {Q : α → Doom → Prop}

theorem doom_load {f : Session → C α} (hf : ∀ s : Session, s.quit = v.quit → s.fgJob = v.fgJob →
      s.jobs = v.jobs → doom.wp (f s) Q v) : doom.wp (load >>= f) Q v := by
  refine seq_call.mpr ⟨trivial, ?_⟩
  rintro s _ ⟨hq, hfg, hjobs, rfl⟩
  exact hf s hq hfg hjobs

theorem doom_deref {f : Job → C α}
    (hf : ∀ j, lookup Job.jid v.jobs jid = some j → doom.wp (f j) Q v) :
    doom.wp (deref jid >>= f) Q v := by
  refine wp_seq (P := fun j v' => lookup Job.jid v.jobs jid = some j ∧ v' = v) ?_ ?_
  · refine doom_load fun s _ _ hjobs => ?_
    unfold Session.job?
    rw [hjobs]
    split
    · exact seq_pure.mpr ⟨‹_›, rfl⟩
    · exact seq_call.mpr ⟨trivial, fun e => (show Empty from e).elim⟩
  · rintro j _ ⟨hj, rfl⟩
    exact hf j hj

theorem doomed_modifyJob {f : Job → Job} (hjid : ∀ j, (f j).jid = j.jid)
    (hpgid : ∀ j, (f j).pgid = j.pgid) : Keeps doom (Doomed jid) (modifyJob jid f) := by
  refine fun v h => doom_deref fun j hj => seq_perform trivial ?_
  rintro _ _ ⟨s, hq, hfg, hjobs, rfl, -⟩
  refine ⟨hq.trans h.quit, hfg.trans h.fg, fun j' hj' => ?_⟩
  rw [show (s.setJob jid f).jobs = update Job.jid v.jobs jid f from hjobs ▸ rfl,
    lookup_update hjid hj] at hj'
  cases hj'
  rw [hpgid]
  exact h.killed j hj

theorem doomed_pollJob (block : Bool) : Keeps doom (Doomed jid) (pollJob jid block) := by
  refine fun v h => seq_iter (fun _ => Doomed jid) h fun _ v h => doom_deref fun j hj => ?_
  split
  · exact seq_pure.mpr h
  · refine wp_seq (P := fun _ => Doomed jid) (seq_perform
      (fun _ => ⟨h.quit, h.killed j hj, jid, j, h.fg, hj, rfl⟩) ?_) fun r v h => ?_
    · rintro r _ ⟨kids, hsub, rfl⟩
      exact ⟨h.quit, h.fg, fun j hj => (h.killed j hj).sublist hsub⟩
    have hend : ∀ (f : Job → Job) (x : Unit ⊕ Bool), (∀ j, (f j).jid = j.jid) →
        (∀ j, (f j).pgid = j.pgid) → doom.wp (do modifyJob jid f; return x)
          (Sum.elim (fun _ => Doomed jid) fun _ => Doomed jid) v := by
      intro f x hjid hpgid
      refine wp_seq (doomed_modifyJob hjid hpgid v h) fun _ _ h => seq_pure.mpr ?_
      cases x <;> exact h
    cases r with
    | none | eintr => exact seq_pure.mpr h
    | _ => exact hend _ _ (fun _ => rfl) fun _ => rfl

theorem doom_pollFg {block : Bool} {I : Doom → Prop} (hI : ∀ v, I v → Attended jid v ∨ Doomed jid v)
    (hpoll : Keeps doom I (pollJob jid block)) (h : I v) :
    doom.wp (do if ← pollJob jid block then return .inr true
                return (.inl () : Unit ⊕ Bool))
      (Sum.elim (fun _ v => Attended jid v ∨ Doomed jid v) fun _ _ => True) v := by
  refine wp_seq (hpoll v h) fun stopped v h => ?_
  cases stopped with
  | true => exact seq_pure.mpr trivial
  | false => exact seq_pure.mpr (hI v h)

theorem attended_stable : Stable doom (Attended jid) :=
  doom_stable fun quit fg => quit = false ∧ fg = some jid

/-- With a job in the foreground `handle_ctl` does not set `quit`. -/
theorem attended_sessionPump : Keeps doom (Attended jid) sessionPump := by
  refine attended_stable.sessionPump (attended_stable.pump ?_ ?_)
  · refine attended_stable.op fun v h => ⟨trivial, ?_⟩
    rintro _ _ ⟨-, hnone⟩
    rw [h.2] at hnone
    cases hnone rfl
  · refine attended_stable.op fun v h => ⟨trivial, ?_⟩
    rintro _ _ rfl
    exact h

theorem doom_jobsWaitFg (h : Attended jid v) : doom.wp (jobsWaitFg jid) (fun _ _ => True) v := by
  have hany : Stable doom fun _ => True := doom_stable fun _ _ => True
  refine wp_seq (P := fun _ _ => True) (seq_iter (fun _ v => Attended jid v ∨ Doomed jid v) (.inl h)
    fun _ v h => doom_deref fun j hj => ?_) fun stopped v _ => ?_
  · split
    · exact seq_pure.mpr trivial
    refine doom_load fun s hq _ _ => ?_
    rcases h with h | h
    · rw [if_pos (by rw [hq, h.1]; rfl)]
      refine wp_seq (attended_sessionPump v h) fun there v h => ?_
      split
      · refine seq_call.mpr ⟨trivial, ?_⟩
        rintro _ _ ⟨rfl, -⟩
        refine doom_deref fun j hj => seq_call.mpr ⟨trivial, ?_⟩
        rintro _ _ rfl
        refine doom_pollFg (fun _ => .inr) (doomed_pollJob false) ⟨rfl, h.2, fun j' hj' => ?_⟩
        cases hj.symm.trans hj'
        exact Doom.killed_kill _ _
      · exact doom_pollFg (fun _ => .inl) (attended_stable.peekJob jid) h
    · rw [if_neg (by rw [hq, h.quit]; decide)]
      exact doom_pollFg (fun _ => .inr) (doomed_pollJob true) h
  · split
    · exact hany.modifyJob _ _ v trivial
    · exact hany.pure () v trivial

theorem idle_foreground (jid : Nat) : Keeps doom Idle (foreground jid) := by
  refine fun v h => wp_seq (P := fun _ => Attended jid) (seq_perform trivial ?_) fun _ v h => ?_
  · rintro _ _ ⟨s, hq, -, -, rfl, hquit⟩
    exact ⟨hq.trans (hquit h (by simp)), rfl⟩
  refine wp_seq (doom_jobsWaitFg h) fun _ v _ => ?_
  refine wp_seq (P := fun _ => Idle) (seq_perform trivial ?_) fun _ v h => doom_deref fun j _ => ?_
  · rintro _ _ ⟨s, -, -, -, rfl, -⟩
    rfl
  · split
    · exact idle_steady.remove jid v h
    · exact idle_steady.pure () v h

theorem idle_handleCmd (cmdline : List Byte) : Keeps doom Idle (handleCmd cmdline) := by
  have hfork : ∀ pgid, Keeps doom Idle (fork pgid) := fun _ =>
    idle_op (fun _ => trivial) (by rintro v _ _ ⟨new, rfl⟩; rfl)
  unfold handleCmd
  split
  · refine Keeps.bind (idle_op (o := .log cmdline) (fun _ => trivial) (by rintro v _ _ rfl; rfl))
      fun _ => ?_
    exact idle_steady.afterLog idle_foreground
      (idle_steady.execJob fun _ _ _ => idle_steady.launchJob idle_foreground hfork _ _ _ _)
  · exact idle_steady.pure ()

/-- **The thread**: it blocks on no job that has not been killed. -/
theorem idle_sessionMain (h : Idle v) : doom.wp sessionMain (fun _ _ => True) v := by
  have hread : Keeps doom Idle sessionReadsocket :=
    idle_steady.sessionReadsocket (idle_op (fun _ => trivial) (by rintro v _ _ rfl; rfl))
      (idle_op (fun _ => trivial) (by rintro v _ _ rfl; rfl))
  have hctl : Keeps doom Idle (setQuit .ctl) :=
    idle_op (fun _ => trivial) (by rintro v _ _ ⟨rfl, -⟩; rfl)
  have hloop := idle_steady.loop hread (idle_steady.dispatch hctl idle_handleCmd)
  exact wp_mono (fun _ _ _ => trivial)
    (wp_seq (hloop v h) fun _ v h => idle_steady.sessionDestroy v h)

end Code

/-! ## In any interleaving -/

/-- A session's children: group, and whether they have been sent `SIGKILL`. -/
def World.wards (w : World) (sid : Nat) : List (Nat × Bool) :=
  (w.procs.filter fun p => p.owner = sid).map fun p => (p.pgid, p.killed)

/-- What it is about. -/
def World.doom (w : World) (sid : Nat) : Doom :=
  ⟨(w.mem sid).quit, (w.mem sid).fgJob, (w.mem sid).jobs, w.wards sid⟩

variable {w w' : World} {sid i : Nat} {S S' : System} {e : Event}

theorem wards_congr (h : w'.procs = w.procs) : w'.wards sid = w.wards sid := by
  rw [World.wards, h]
  rfl

theorem wards_map {f : Proc → Proc} (hf : ∀ p, (f p).owner = p.owner) :
    World.wards { w with procs := w.procs.map f } sid =
      (w.procs.filter fun p => p.owner = sid).map fun p => ((f p).pgid, (f p).killed) := by
  simp only [World.wards, filter_map, map_map, Function.comp_def, hf]

/-- A change to processes that leaves those of session `sid` in their groups, and sends them
nothing. -/
theorem wards_map_of_eq {f : Proc → Proc} (hf : ∀ p, (f p).owner = p.owner)
    (h : ∀ p ∈ w.procs, p.owner = sid → (f p).pgid = p.pgid ∧ (f p).killed = p.killed) :
    World.wards { w with procs := w.procs.map f } sid = w.wards sid := by
  rw [wards_map hf]
  refine map_congr_left fun p hp => ?_
  obtain ⟨hp, ho⟩ := mem_filter.mp hp
  obtain ⟨hg, hk⟩ := h p hp (of_decide_eq_true ho)
  rw [hg, hk]

theorem wards_kill (w : World) (g : Nat) (sig : Signal) :
    (w.kill g sig).wards sid = ((w.doom sid).kill g sig).kids := by
  refine (wards_map fun p => ?_).trans ?_
  · split <;> rfl
  · rw [Doom.kill, World.doom, World.wards, map_map]
    refine map_congr_left fun p _ => ?_
    by_cases hp : p.pgid = g ∧ sig = .kill
    · simp [hp]
    · simp [hp]

theorem wards_reported (w : World) (p : Proc) :
    (w.reported p).wards sid = w.wards sid ∨ p.state = .zombie ∧
      (w.reported p).procs = w.procs.filter fun q => q.pid ≠ p.pid := by
  unfold World.reported
  split
  · exact .inr ⟨‹_›, rfl⟩
  · refine .inl (wards_map_of_eq (fun q => ?_) fun q _ _ => ?_)
    · split <;> rfl
    · split <;> exact ⟨rfl, rfl⟩

theorem wards_env (hacc : ∀ i, e ≠ .accept i) : (w.env e).wards sid = w.wards sid := by
  have hset : ∀ (pid : Nat) (f : Proc → Proc), (∀ p, (f p).owner = p.owner ∧ (f p).pgid = p.pgid ∧
      (f p).killed = p.killed) → (w.setProc pid f).wards sid = w.wards sid := by
    intro pid f hf
    refine wards_map_of_eq (fun p => ?_) fun p _ _ => ?_
    · split
      · exact (hf p).1
      · rfl
    · split
      · exact (hf p).2
      · exact ⟨rfl, rfl⟩
  cases e with
  | accept i => exact absurd rfl (hacc i)
  | exit pid => exact hset _ _ fun _ => ⟨rfl, rfl, rfl⟩
  | stop pid => exact hset _ _ fun _ => ⟨rfl, rfl, rfl⟩
  | cont pid => exact hset _ _ fun _ => ⟨rfl, rfl, rfl⟩
  | _ => rfl

theorem wards_exec {ch : Choice} {o : Op} {r : o.Res} (hok : w.Ok) (hpre : View.pre o (w.view i))
    (hx : exec i ch o w = some (r, w')) (hi : i ≠ sid) : w'.wards sid = w.wards sid := by
  cases o with
  | fork g =>
    rcases fork_cases hx with ⟨n, -, -, -, rfl⟩ | ⟨-, rfl⟩
    · rw [World.wards, World.wards, filter_append]
      simp [hi]
    · rfl
  | waitpid g flags =>
    rcases waitpid_cases hx with ⟨p, hp, hg, -, rfl⟩ | ⟨-, -, rfl⟩ | ⟨-, rfl⟩ | ⟨-, rfl⟩
    · rcases wards_reported w p with h | ⟨-, h⟩
      · exact h
      · -- the child reaped is the other session's
        have howner : p.owner = i := owner_of_group hok hpre hp hg
        rw [World.wards, h, filter_filter]
        refine congrArg _ (filter_congr fun q hq => ?_)
        by_cases ho : q.owner = sid
        · have hne : q.pid ≠ p.pid := by
            intro he
            have := inj_on_of_nodup_map hok.pids (mem_map_of_mem hq)
              (mem_map_of_mem hp) he
            exact hi (howner.symm.trans ((congrArg Ident.owner this).symm.trans ho))
          simp [ho, hne]
        · simp [ho]
    · rfl
    · rfl
    · rfl
  | kill g sig =>
    cases hx
    refine wards_map_of_eq (fun p => ?_) fun p hp ho => ?_
    · split <;> rfl
    · rw [if_neg fun h => hi ((owner_of_group hok hpre hp h.1).symm.trans ho)]
      exact ⟨rfl, rfl⟩
  | _ => exact wards_congr ((exec_local hx).procs rfl)

/-- The condition on an operation: a job is put in the foreground only with `quit` clear, and
`handle_ctl` sets `quit` only with none there. -/
def Op.orderly : Op → Session → Bool
  | .quit .ctl, s => s.fgJob.isNone
  | .store f, s => s.fgJob.isSome || (f s).fgJob.isNone || !s.quit
  | _, _ => true

/-- The operations that write neither `quit` nor the jobs. -/
theorem doom_of_sess {x x' : Sess} {o : Op} {r : o.Res} (h : Sess.act o x r x')
    (hstore : ∀ f, o ≠ .store f) (hquit : ∀ site, o ≠ .quit site) :
    x'.mem.quit = x.mem.quit ∧ x'.mem.fgJob = x.mem.fgJob ∧ x'.mem.jobs = x.mem.jobs := by
  cases o with
  | load =>
    obtain ⟨-, rfl⟩ := h
    exact ⟨rfl, rfl, rfl⟩
  | store f => exact absurd rfl (hstore f)
  | quit site => exact absurd rfl (hquit site)
  | takeLine site =>
    cases r with
    | none =>
      obtain ⟨-, rfl⟩ := h
      exact ⟨rfl, rfl, rfl⟩
    | some line =>
      obtain ⟨b, -, rfl⟩ := h
      exact ⟨rfl, rfl, rfl⟩
  | fill site =>
    obtain ⟨cut, c, -, rfl⟩ := h
    exact ⟨rfl, rfl, rfl⟩
  | write out bs => cases r <;> cases h <;> exact ⟨rfl, rfl, rfl⟩
  | _ => rcases h with rfl | ⟨e, rfl⟩ <;> exact ⟨rfl, rfl, rfl⟩

theorem exec_doom {ch : Choice} {o : Op} {r : o.Res} (hord : o.orderly (w.mem sid) = true)
    (hx : exec sid ch o w = some (r, w')) : Doom.act o (w.doom sid) r (w'.doom sid) := by
  have hown := (exec_local hx).own
  have hsame : (∀ f, o ≠ .store f) → (∀ site, o ≠ .quit site) →
      w'.doom sid = { w.doom sid with kids := w'.wards sid } := fun hs hq => by
    obtain ⟨h₁, h₂, h₃⟩ := doom_of_sess hown hs hq
    exact Doom.mk.injEq .. ▸ ⟨h₁, h₂, h₃, rfl⟩
  have hkids : o.onProcs = false → (∀ f, o ≠ .store f) → (∀ site, o ≠ .quit site) →
      w'.doom sid = w.doom sid := fun ho hs hq => by
    rw [hsame hs hq, wards_congr ((exec_local hx).procs ho)]
    rfl
  cases o with
  | load =>
    cases hx
    exact ⟨rfl, rfl, rfl, rfl⟩
  | store f =>
    cases hx
    have hmem : (w.setMem sid f).mem sid = f (w.mem sid) := congrArg Sess.mem (sess_setSess_self _)
    refine ⟨w.mem sid, rfl, rfl, rfl, by rw [World.doom, hmem]; rfl, fun hnone hsome => ?_⟩
    replace hnone : (w.mem sid).fgJob = none := hnone
    replace hsome : (f (w.mem sid)).fgJob ≠ none := hmem ▸ hsome
    have hquit : (w.mem sid).quit = false := by simpa [Op.orderly, hnone, hsome] using hord
    exact hquit
  | quit site =>
    cases hx
    have hsess := (sess_setSess_self ((w.sess sid).quit site) : (w.setSess sid _).sess sid = _)
    refine ⟨by rw [World.doom, World.mem, hsess]; rfl, ?_⟩
    rintro rfl
    exact Option.isNone_iff_eq_none.mp hord
  | fork g =>
    rcases fork_cases hx with ⟨n, -, -, -, rfl⟩ | ⟨-, rfl⟩
    · exact ⟨_, (hsame (by simp) (by simp)).trans (by
        rw [World.wards, filter_append, map_append]; rfl)⟩
    · exact ⟨[], (hsame (by simp) (by simp)).trans (by rw [append_nil]; rfl)⟩
  | waitpid g flags =>
    refine ⟨w'.wards sid, ?_, hsame (by simp) (by simp)⟩
    rcases waitpid_cases hx with ⟨p, -, -, -, rfl⟩ | ⟨-, -, rfl⟩ | ⟨-, rfl⟩ | ⟨-, rfl⟩
    · rcases wards_reported w p with h | ⟨-, h⟩
      · rw [h]
        exact List.Sublist.refl _
      · rw [World.wards, h]
        exact (filter_sublist.filter _).map _
    · exact List.Sublist.refl _
    · exact List.Sublist.refl _
    · exact List.Sublist.refl _
  | kill g sig =>
    cases hx
    exact (hsame (by simp) (by simp)).trans (by rw [wards_kill]; rfl)
  | _ => exact hkids rfl (by simp) (by simp)

theorem System.Inv.doom_of_step (h : S.Inv) (hstep : S.step e = some S') (hacc : e ≠ .accept sid)
    (hrun : ∀ ch o k, e = .run sid ch → S.thread sid ≠ some (.call o k)) :
    S'.world.doom sid = S.world.doom sid := by
  have hmem : S'.world.mem sid = S.world.mem sid := by
    rcases System.step_sess hstep sid with ⟨ch, o, k, r, he, ht, -⟩ | ⟨he, -⟩ | he
    · exact absurd ht (hrun ch o k he)
    · exact absurd he hacc
    · exact he.mem
  have hwards : S'.world.wards sid = S.world.wards sid := by
    rcases System.step_cases hstep with ⟨i, rfl, -, rfl⟩ | ⟨i, ch, p, p', w', rfl, ht, hp, rfl⟩ |
      ⟨he, rfl⟩
    · rfl
    · rcases Prog.step_cases hp with ⟨o, k, r, rfl, hx, -⟩ | rfl
      · exact wards_exec h.ok (h.threads.head ht) hx fun hi => hrun ch o k (hi ▸ rfl) (hi ▸ ht)
      · rfl
    · exact wards_env he
  rw [World.doom, hmem, hwards]
  rfl

/-- The condition on a step of session `sid`. -/
def orderly (sid : Nat) (S : System) : Event → Bool
  | .run i _ =>
    if i = sid then
      match S.thread sid with
      | some (.call o _) => o.orderly (S.world.mem sid)
      | _ => true
    else true
  | _ => true

theorem ReachableIf.doom (h : ReachableIf (orderly sid) S) :
    S.Upholds sid Doom.pre Doom.act (fun _ => True) (S.world.doom sid) := by
  refine h.induction (P := fun S => S.Upholds sid Doom.pre Doom.act (fun _ => True)
    (S.world.doom sid)) (fun p hp => by cases hp) fun S e S' hS ih hok hstep => ?_
  refine ih.step hstep ?_ ?_ fun hacc hrun => hS.inv.doom_of_step hstep hacc hrun
  · rintro rfl ht
    cases System.step_accept ht hstep
    refine Code.idle_sessionMain ?_
    exact congrArg (fun x : Sess => x.mem.fgJob) (sess_setSess_self Sess.create)
  · rintro ch o k r rfl ht - hx
    simp only [orderly, if_true, ht] at hok
    exact exec_doom hok hx

/-- The group for which `poll_job(job, 1)` is about to wait. -/
def System.blocking (S : System) (sid : Nat) : Option Nat :=
  match S.thread sid with
  | some (.call (.waitpid g ⟨false, true, true⟩) _) => some g
  | _ => none

theorem System.blocking_eq_some (h : S.blocking sid = some g) :
    ∃ k, S.thread sid = some (.call (.waitpid g ⟨false, true, true⟩) k) := by
  unfold System.blocking at h
  split at h
  · cases h
    exact ⟨_, ‹_›⟩
  · cases h

/-- **Only a dead job is waited for blindly.** In a run in which session `sid` puts no job in the
foreground with `quit` set, and its `handle_ctl` does not set `quit` with a job there: whenever
`jobs_wait_fg` is about to block in `waitpid`, it is for the group of the foreground job, which has
an unreaped child, and all of whose children have been sent `SIGKILL`. -/
theorem blocks_on_killed (h : ReachableIf (orderly sid) S) (hb : S.blocking sid = some g) :
    (∃ jid j, (S.world.mem sid).fgJob = some jid ∧ (S.world.mem sid).job? jid = some j ∧
      j.pgid = g) ∧
    (∃ p ∈ S.world.procs, p.pgid = g ∧ p.owner = sid) ∧
    ∀ p ∈ S.world.procs, p.pgid = g → p.killed = true := by
  obtain ⟨k, ht⟩ := System.blocking_eq_some hb
  have hinv := h.reachable.inv
  have hkid : ∃ k ∈ S.world.kids sid, k.2 = g := hinv.threads.head ht
  obtain ⟨-, hkilled, hfg⟩ := h.doom.head ht rfl
  refine ⟨hfg, exists_proc hkid, fun p hp hg => ?_⟩
  have ho : p.owner = sid := owner_of_group hinv.ok hkid hp hg
  exact hkilled (p.pgid, p.killed)
    (mem_map_of_mem (mem_filter.mpr ⟨hp, decide_eq_true ho⟩)) hg

/-- `cat` is in the foreground, with what its client has sent, after `n` steps more. -/
def frontRun (sent : String) (n : Nat) : List Event :=
  [.accept 0, .peerSend 0 (str sent)] ++ steps 0 12 (.upTo 4095) ++
    [.run 0 (.fds 3 4), .run 0 .go, .run 0 (.pid 7)] ++ steps 0 n .go

/-- The client disconnects. -/
theorem blocks_on_killed_gone :
    ∃ S, ReachableIf (orderly 0) S ∧ S.blocking 0 = some 7 ∧
      ∀ p ∈ S.world.procs, p.pgid = 7 → p.killed = true := by
  obtain ⟨S, hS, hb⟩ := reachableIf_of_any (orderly 0)
    (frontRun "CMD cat\n" 12 ++ [.peerClose 0] ++ steps 0 2 (.upTo 4095) ++ steps 0 11 .go)
    (fun S => S.blocking 0 = some 7) (by decide +kernel)
  exact ⟨S, hS, of_decide_eq_true hb, (blocks_on_killed hS (of_decide_eq_true hb)).2.2⟩

/-- The client sends `CTL d` twice. -/
theorem second_eof_blocks :
    ∃ S, Reachable S ∧ S.blocking 0 = some 7 ∧
      S.world.procs = [⟨7, 7, 0, .running, none, false⟩] := by
  obtain ⟨S, hS, hp⟩ := reachable_of_any (frontRun "CMD cat\nCTL d\nCTL d\n" 33)
    (fun S => S.blocking 0 = some 7 ∧ S.world.procs = [⟨7, 7, 0, .running, none, false⟩])
    (by decide +kernel)
  exact ⟨S, hS, of_decide_eq_true hp⟩

end SystemProg.Yashd
