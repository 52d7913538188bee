import SystemProg.Yashd.Isolation
import SystemProg.Yashd.Keeps

/-!
# Children that outlive their session

`exec_job` forks before `jobs_add` decides whether there is room for the job
(`server/src/exec.c:50-141`). As long as there is, every child of a session is in the group of one
of its jobs (`Owned`) whenever `exec_job` is not at work: the table hands a job with children to
nobody (`Stores.owned`), and `jobs_kill_all` waits for the children of each job. Children of a job
that finds no room are killed, but nobody waits for them. A child that leaves its group
(`System.happen`) is not waited for either: `waitpid(-pgid)` fails with `ECHILD`, and the job goes.

* `no_child_survives`: where there always was room and no child left its group, a session that has
  ended has no child left, and a child leaves the process table only by a `waitpid` of its own
  session.
-/

namespace SystemProg.Yashd

open Text Shell Conc Data Conc.Logic List

/-- Every child is in the group of a job. -/
def Owned (v : View) : Prop := ∀ k ∈ v.kids, ∃ j ∈ v.jobs, j.pgid = k.2

/-- A child is forked only while there is room for one more job, and `malloc` does not fail. -/
def Roomy : (o : Op) → View → o.Res → Prop
  | .fork _, v, r => r.isSome → v.jobs.length < yashMaxJobs
  | .malloc, _, r => r = true
  | _, _, _ => True

/-- An operation of a session, as the job table's specification says it, with room for its jobs. -/
structure Roomy.Act (o : Op) (v : View) (r : o.Res) (v' : View) : Prop where
  pre : View.pre o v
  act : View.act o v r v'
  room : Roomy o v r

/-- The logic of the children. -/
def roomy : Logic sys View := sequential (fun _ _ => True) Roomy.Act

variable {v v' : View}

theorem Owned.of_eq (h : Owned v) (he : v' = v) : Owned v' := he ▸ h

theorem Owned.remove (h : Owned v) (n : Nat) :
    Owned { v with kids := Data.remove Prod.fst v.kids n } :=
  fun k hk => h k (mem_remove.mp hk).1

theorem Owned.act {o : Op} {r : o.Res} (h : Owned v) (ho : ∀ g, o ≠ .fork g)
    (hact : Roomy.Act o v r v') : Owned v' := by
  obtain ⟨hpre, hact, -⟩ := hact
  cases o with
  | fork g => exact absurd rfl (ho g)
  | load => exact h.of_eq hact.2.2
  | store f =>
    obtain ⟨s, hjobs, -, rfl⟩ := hact
    intro k hk
    obtain ⟨j, hj, he⟩ := h k hk
    exact (hpre s hjobs).owned k hk j (hjobs ▸ hj) he
  | takeLine site =>
    cases r with
    | none => exact h.of_eq hact.2
    | some line =>
      obtain ⟨b, rfl⟩ := hact
      exact h
  | fill site =>
    obtain ⟨b, rfl⟩ := hact
    exact h
  | waitpid g flags =>
    cases r with
    | exited n =>
      obtain ⟨-, rfl⟩ := hact
      exact h.remove n
    | echild => exact h.of_eq hact.2
    | _ => exact h.of_eq hact
  | _ => exact h.of_eq hact

/-! ## The thread -/

theorem owned_stable : Stable roomy Owned := by
  refine .intro (fun _ _ hr h => hr ▸ h) fun o ho v h => ⟨trivial, fun r v' hact => h.act ?_ hact⟩
  rintro g rfl
  exact ho

theorem owned_op {o : Op} (ho : ∀ g, o ≠ .fork g) :
    Keeps roomy Owned (Prog.perform (S := sys) o) :=
  owned_stable.op fun _ h => ⟨trivial, fun _ _ hact => h.act ho hact⟩

theorem owned_steady : Steady roomy Owned :=
  owned_stable.steady (fun _ _ => owned_op (by simp)) fun _ _ => owned_op (by simp)

theorem owned_pumped : Pumped roomy Owned :=
  owned_steady.pumped (owned_stable.pump (owned_op (by simp)) (owned_op (by simp)))
    (fun _ => owned_op (by simp)) fun _ => owned_op (by simp)

/-- `exec_job` forking: the children without a job are those in the group `pgid`, for which there is
room. -/
structure Launching (pgid : Nat) (proto : Job) (v : View) : Prop where
  owned : ∀ k ∈ v.kids, (∃ j ∈ v.jobs, j.pgid = k.2) ∨ k.2 = pgid
  first : pgid = 0 → Owned v
  none : proto.nlive = 0 → Owned v
  room : proto.nlive ≠ 0 → v.jobs.length < yashMaxJobs

namespace Code

theorem owned_forkLoop {proto : Job} (h : Owned v)
    (hn : proto.nlive = 0) :
    roomy.wp (forkLoop proto) (fun r => Launching r.1 r.2) v := by
  refine seq_iter (fun s => Launching s.2.1 s.2.2)
    ⟨fun k hk => .inl (h k hk), fun _ => h, fun _ => h, fun hne => absurd hn hne⟩ ?_
  rintro ⟨i, pgid, proto⟩ v h
  dsimp only
  split
  · exact seq_pure.mpr h
  · refine seq_call.mpr ⟨trivial, ?_⟩
    rintro r v' ⟨-, hact, hroom⟩
    cases r with
    | none =>
      cases hact
      exact seq_pure.mpr h
    | some n =>
      obtain ⟨hn0, -, rfl⟩ := hact
      refine seq_pure.mpr ⟨fun k hk => ?_, fun hp => ?_, fun hl => absurd hl (Nat.succ_ne_zero _),
        fun _ => hroom rfl⟩
      · rcases mem_append.mp hk with hk | hk
        · by_cases hp : pgid = 0
          · exact .inl (h.first hp k hk)
          · rw [if_neg hp]
            exact h.owned k hk
        · rw [mem_singleton.mp hk]
          exact .inr rfl
      · by_cases h0 : pgid = 0
        · rw [if_pos h0] at hp
          exact absurd hp hn0
        · rw [if_neg h0] at hp
          exact absurd hp h0

theorem owned_close {α : Type} {f : Unit → C α} {Q : α → View → Prop} {fd : Nat}
    (h : roomy.wp (f ()) Q v) : roomy.wp (close fd >>= f) Q v := by
  refine seq_call.mpr ⟨trivial, ?_⟩
  rintro r v' ⟨-, hact, -⟩
  cases hact
  exact h

theorem owned_trackJob {pgid : Nat} {proto : Job}
    (h : ∀ k ∈ v.kids, (∃ j ∈ v.jobs, j.pgid = k.2) ∨ k.2 = pgid) (hp : proto.pgid = pgid)
    (hroom : v.jobs.length < yashMaxJobs) : roomy.wp (trackJob pgid proto) (fun _ => Owned) v := by
  refine wp_seq (P := fun r v => r ≠ none ∧ Owned v) ?_ ?_
  · refine seq_call.mpr ⟨trivial, ?_⟩
    rintro s v' ⟨-, ⟨hjobs, -, rfl⟩, -⟩
    simp only [Prog.bind]
    rw [if_neg (by rw [hjobs]; exact Nat.not_le.mpr hroom)]
    refine seq_call.mpr ⟨trivial, ?_⟩
    rintro _ v' ⟨-, hact, rfl⟩
    cases hact
    refine seq_call.mpr ⟨trivial, ?_⟩
    rintro _ _ ⟨-, ⟨s', hjobs', -, rfl⟩, -⟩
    refine seq_pure.mpr ⟨by simp, fun k hk => ?_⟩
    rcases h k hk with ⟨j, hj, he⟩ | he
    · exact ⟨j, mem_append_left _ (hjobs' ▸ hj), he⟩
    · exact ⟨_, mem_append_right _ (mem_singleton.mpr rfl), hp.trans he.symm⟩
  · rintro r v ⟨hr, hv⟩
    cases r with
    | none => exact absurd rfl hr
    | some jid =>
      refine wp_seq (owned_stable.deref jid v hv) fun j v hv => ?_
      split
      · exact seq_pure.mpr hv
      · exact owned_pumped.foreground jid v hv

theorem owned_startJob {inw pgid : Nat} {proto : Job} (h : Launching pgid proto v) :
    roomy.wp (startJob inw pgid proto) (fun _ => Owned) v := by
  unfold startJob
  split
  · rename_i hn
    exact owned_op (o := .close inw) (by simp) v (h.none hn)
  · rename_i hn
    split
    · exact owned_close (owned_trackJob h.owned rfl (h.room hn))
    · exact owned_trackJob h.owned rfl (h.room hn)

theorem owned_launchJob {proto : Job} (hn : proto.nlive = 0) (inr inw : Nat)
    (fds : Option (Nat × Nat)) : Keeps roomy Owned (launchJob inr inw fds proto) := by
  refine fun v h => wp_seq (owned_forkLoop h hn) fun r v h => ?_
  cases fds with
  | none => exact owned_close (owned_startJob h)
  | some p => exact owned_close (owned_close (owned_close (owned_startJob h)))

theorem owned_handleCmd (cmdline : List Byte) : Keeps roomy Owned (handleCmd cmdline) := by
  unfold handleCmd
  split
  · rename_i job hjob
    have hlog : Keeps roomy Owned (logCommand cmdline) := owned_op (by simp)
    exact hlog.bind fun _ => owned_steady.afterLog owned_pumped.foreground
      (owned_steady.execJob fun _ _ _ => owned_launchJob
        (show ({ job with infd := none } : Job).nlive = 0 from (fresh_of_parseLine hjob).nlive) _ _
        _)
  · exact owned_stable.pure ()

/-- `jobs_kill_all` empties the table, and takes no job with a child from it. -/
theorem owned_sessionDestroy (h : Owned v) :
    roomy.wp sessionDestroy (fun _ v => v.kids = []) v := by
  refine wp_seq (P := fun _ v => v.kids = []) ?_ ?_
  · refine wp_seq (owned_op (o := .load) (by simp) v h) fun s v h => ?_
    refine wp_seq (owned_stable.killEach _ v h) fun _ v h => ?_
    refine seq_perform trivial fun _ v' hact => ?_
    have hv' := h.act (by simp) hact
    obtain ⟨-, ⟨s, -, -, rfl⟩, -⟩ := hact
    refine eq_nil_iff_forall_not_mem.mpr fun k hk => ?_
    obtain ⟨j, hj, -⟩ := hv' k hk
    exact absurd hj not_mem_nil
  · intro _ v h
    refine seq_perform trivial ?_
    rintro _ v' ⟨-, hact, -⟩
    cases hact
    exact h

/-- **The thread**, as long as there is room for its jobs. -/
theorem owned_sessionMain : roomy.wp sessionMain (fun _ v => v.kids = []) ⟨[], none, [], []⟩ := by
  have hread := owned_steady.sessionReadsocket (owned_op (by simp)) (owned_op (by simp))
  have hloop := owned_steady.loop hread
    (owned_steady.dispatch (owned_op (by simp)) owned_handleCmd)
  exact wp_seq (hloop _ (fun k hk => absurd hk not_mem_nil)) fun _ _ h =>
    owned_sessionDestroy h

end Code

/-! ## In any interleaving -/

/-- The condition on a step: session `sid` forks a child only while its table has room for one more
job, and its `malloc`s do not fail. -/
def hasRoom (sid : Nat) (S : System) : Event → Bool
  | .run i ch =>
    if i = sid then
      match S.thread sid with
      | some (.call (.fork _) _) => ch == .error || (S.world.mem sid).jobs.length < yashMaxJobs
      | some (.call .malloc _) => ch != .error
      | _ => true
    else true
  | _ => true

variable {sid : Nat} {S S' : System} {e : Event}

theorem roomy_of_hasRoom {ch : Choice} {o : Op} {k : o.Res → Code.C Unit} {r : o.Res} {w' : World}
    (ht : S.thread sid = some (.call o k)) (hroom : hasRoom sid S (.run sid ch) = true)
    (hx : exec sid ch o S.world = some (r, w')) : Roomy o (S.world.view sid) r := by
  simp only [hasRoom, if_true, ht] at hroom
  cases o with
  | fork g =>
    intro hr
    rcases fork_cases hx with ⟨n, rfl, -⟩ | ⟨rfl, -⟩
    · cases ch with
      | pid n => exact of_decide_eq_true ((Bool.false_or _).symm.trans hroom)
      | error => cases hx
      | _ => exact absurd hx (by simp [exec, World.fork])
    · cases hr
  | malloc =>
    cases ch with
    | go =>
      cases hx
      rfl
    | error => cases hroom
    | _ => cases hx
  | _ => trivial

theorem ReachableIf.owned (h : ReachableIf (hasRoom sid) S) :
    S.Upholds sid (fun _ _ => True) Roomy.Act (fun v => v.kids = []) (S.world.view sid) := by
  refine h.induction (P := fun S => S.Upholds sid (fun _ _ => True) Roomy.Act
    (fun v => v.kids = []) (S.world.view sid))
    (fun p hp => by cases hp) fun S e S' hS ih hok hstep => ?_
  refine ih.step hstep ?_ ?_ fun hacc hrun => hS.inv.view_of_step hstep hacc hrun
  · rintro rfl ht
    rw [hS.inv.view_of_accept ht hstep]
    exact Code.owned_sessionMain
  · rintro ch o k r rfl ht - hx
    have hpre : View.pre o (S.world.view sid) := hS.inv.threads.head ht
    exact ⟨hpre, (exec_acts hS.inv.ok hpre hx).own, roomy_of_hasRoom ht hok hx⟩

/-! ## How a child leaves the process table -/

/-- A `waitpid` takes a child from the table when it reports its exit. -/
theorem waitpid_ident {w w' : World} {ch : Choice} {g : Nat} {flags : WaitFlags} {r : WaitRes}
    (hx : w.waitpid sid g flags ch = some (r, w')) {p : Proc} (hp : p ∈ w.procs) :
    p.ident ∈ w'.idents ∨ r = .exited p.pid ∧ ∃ q ∈ w.procs, q.pgid = g ∧ q.pid = p.pid := by
  have hmem : p.ident ∈ w.idents := mem_map_of_mem hp
  rcases waitpid_cases hx with ⟨q, hq, hg, hr, rfl⟩ | ⟨-, -, rfl⟩ | ⟨-, rfl⟩ | ⟨-, rfl⟩
  · rcases pid_of_reports hr with ⟨rfl, hz⟩ | ⟨-, hz⟩
    · by_cases he : q.pid = p.pid
      · exact .inr ⟨congrArg WaitRes.exited he, q, hq, hg, he⟩
      · refine .inl (mem_map_of_mem ?_)
        simp only [World.reported, hz]
        exact mem_filter.mpr ⟨hp, by simpa using Ne.symm he⟩
    · refine .inl ?_
      unfold World.reported
      split
      · exact absurd ‹_› hz
      · rw [World.idents, World.Quiet.idents_map]
        · exact hmem
        · intro q
          split <;> rfl
  · exact .inl hmem
  · exact .inl hmem
  · exact .inl hmem

/-- No other operation takes a child from the table. -/
theorem exec_ident {w w' : World} {ch : Choice} {o : Op} {r : o.Res}
    (ho : ∀ g flags, o ≠ .waitpid g flags) (hx : exec sid ch o w = some (r, w')) {p : Proc}
    (hp : p ∈ w.procs) : p.ident ∈ w'.idents := by
  have hmem : p.ident ∈ w.idents := mem_map_of_mem hp
  cases o with
  | waitpid g flags => exact absurd rfl (ho g flags)
  | fork g =>
    rcases fork_cases hx with ⟨n, -, -, -, rfl⟩ | ⟨-, rfl⟩
    · exact mem_map_of_mem (mem_append_left _ hp)
    · exact hmem
  | kill g sig =>
    cases hx
    rw [World.idents, World.kill, World.Quiet.idents_map]
    · exact hmem
    · intro q
      split <;> rfl
  | _ =>
    rw [World.idents, (exec_local hx).procs rfl]
    exact hmem

/-- What can happen, with children that change their group. -/
inductive Happening where
  | event (e : Event)
  /-- `setsid` or `setpgid` in a child. -/
  | regroup (pid pgid : Nat)

/-- One such step. -/
def System.happen (S : System) : Happening → Option System
  | .event e => S.step e
  | .regroup pid pgid =>
    some { S with world := S.world.setProc pid fun p => { p with pgid := pgid } }

/-- The condition on it: `hasRoom`, and no child leaves its group. -/
def orderlyRoom (sid : Nat) (S : System) : Happening → Bool
  | .event e => hasRoom sid S e
  | .regroup _ _ => false

/-- The states that such runs lead to all of whose steps meet a condition. -/
def HappensIf (ok : System → Happening → Bool) (S : System) : Prop :=
  ∃ xs : List Happening,
    xs.foldlM (fun S x => if ok S x then S.happen x else none) System.init = some S

theorem HappensIf.reachableIf (h : HappensIf (orderlyRoom sid) S) :
    ReachableIf (hasRoom sid) S := by
  obtain ⟨xs, h⟩ := h
  refine foldlM_invariant (fun S x S' hS hs => ?_) ⟨[], rfl⟩ h
  obtain ⟨hok, hs⟩ := (Option.ite_none_right_eq_some ..).mp hs
  cases x with
  | event e => exact hS.step hok hs
  | regroup pid pgid => cases hok

/-- **No child survives its session.** In a run in which session `sid` forks only while its table
has room for one more job, its `malloc`s succeed, and no child leaves its group: once the session
has ended, none of its children is left, not even as a zombie. And no step takes a child of the
session from the process table but a `waitpid` of the session itself that reports its exit. -/
theorem no_child_survives (h : HappensIf (orderlyRoom sid) S) :
    (S.thread sid = some (.ret ()) → ∀ p ∈ S.world.procs, p.owner ≠ sid) ∧
    ∀ e S', S.step e = some S' → ∀ p ∈ S.world.procs, p.owner = sid →
      p.ident ∈ S'.world.idents ∨
      ∃ ch flags k w', e = .run sid ch ∧ S.thread sid = some (.call (.waitpid p.pgid flags) k) ∧
        exec sid ch (.waitpid p.pgid flags) S.world = some (.exited p.pid, w') := by
  have hinv := h.reachableIf.reachable.inv
  refine ⟨fun ht p hp ho => ?_, fun e S' hstep p hp ho => ?_⟩
  · have hkids : S.world.kids sid = [] := h.reachableIf.owned.returned ht
    have hkid : (p.pid, p.pgid) ∈ S.world.kids sid := mem_kids.mpr (ho ▸ mem_map_of_mem hp)
    exact absurd hkid (hkids ▸ not_mem_nil)
  · rcases System.step_cases hstep with ⟨i, rfl, -, rfl⟩ | ⟨i, ch, q, q', w', rfl, ht, hq, rfl⟩ |
      ⟨he, rfl⟩
    · exact .inl (mem_map_of_mem hp)
    · rcases Prog.step_cases hq with ⟨o, k, r, rfl, hx, -⟩ | rfl
      · cases o with
        | waitpid g flags =>
          rcases waitpid_ident hx hp with hin | ⟨rfl, z, hz, rfl, hpid⟩
          · exact .inl hin
          · -- pids are distinct, and the group is the waiting session's
            have hzp : z.ident = p.ident := inj_on_of_nodup_map hinv.ok.pids
              (mem_map_of_mem hz) (mem_map_of_mem hp) hpid
            have hkid : ∃ k ∈ S.world.kids i, k.2 = z.pgid := hinv.threads.head ht
            have howner : z.owner = i := owner_of_group hinv.ok hkid hz rfl
            have hgroup : z.pgid = p.pgid := congrArg Ident.pgid hzp
            obtain rfl : i = sid := howner.symm.trans ((congrArg Ident.owner hzp).trans ho)
            rw [hgroup] at hx ht
            exact .inr ⟨ch, flags, k, w', rfl, ht, hx⟩
        | _ => exact .inl (exec_ident (by simp) hx hp)
      · exact .inl (mem_map_of_mem hp)
    · refine .inl ?_
      show p.ident ∈ (S.world.env e).idents
      rw [(World.env_quiet he).idents]
      exact mem_map_of_mem hp

/-- The `k`-th background job of a session with `k` of them, and back to the prompt. -/
def backgroundJob (k : Nat) : List Event :=
  [.peerSend 0 (str "CMD a &\n")] ++ steps 0 4 (.upTo 4095) ++
    [.run 0 (.fds 3 4), .run 0 .go, .run 0 (.pid (7 + k))] ++ steps 0 (16 + 6 * k) .go ++
    steps 0 6 (.upTo 4095)

/-- A client starts `n` background jobs. -/
def backgroundJobs (n : Nat) : List Event :=
  [.accept 0] ++ steps 0 8 (.upTo 4095) ++ (List.range n).flatMap backgroundJob

/-- The client disconnects, all children exit, and `session_destroy` waits for those of `n` jobs. -/
def disconnect (n children : Nat) : List Event :=
  [.peerClose 0] ++ (List.range children).map (fun k => .exit (7 + k)) ++
    [.run 0 (.upTo 4095), .run 0 .go] ++
    (List.range n).flatMap (fun k => steps 0 4 .go ++ [.run 0 (.pid (7 + k))] ++ steps 0 4 .go) ++
    steps 0 2 .go

theorem no_child_survives_two :
    ∃ S, HappensIf (orderlyRoom 0) S ∧ S.world.signals = [(7, .kill), (8, .kill)] ∧
      ∀ p ∈ S.world.procs, p.owner ≠ 0 := by
  obtain ⟨xs, hxs⟩ : ∃ xs, xs = (backgroundJobs 2 ++ disconnect 2 2).map Happening.event := ⟨_, rfl⟩
  have hrun : (xs.foldlM (fun S x => if orderlyRoom 0 S x then S.happen x else none)
      System.init).any (fun S => S.over 0 &&
        decide (S.world.signals = [(7, .kill), (8, .kill)])) = true := by
    subst hxs
    decide +kernel
  obtain ⟨S, hS, hp⟩ := (Option.any_eq_true _ _).mp hrun
  obtain ⟨hover, hsig⟩ := (Bool.and_eq_true_iff ..).mp hp
  have hS : HappensIf (orderlyRoom 0) S := ⟨xs, hS⟩
  exact ⟨S, hS, of_decide_eq_true hsig, (no_child_survives hS).1 (System.over_iff.mp hover)⟩

/-- The client starts a job more than the table has room for. -/
def crowdedRun : List Event :=
  backgroundJobs 20 ++ [.peerSend 0 (str "CMD a &\n")] ++ steps 0 4 (.upTo 4095) ++
    [.run 0 (.fds 3 4), .run 0 .go, .run 0 (.pid 27)] ++ steps 0 128 .go ++
      steps 0 6 (.upTo 4095) ++
    disconnect 20 21

/-- Its child is killed, and is left as a zombie. -/
theorem crowded_child_survives :
    ∃ S, Reachable S ∧ S.thread 0 = some (.ret ()) ∧
      S.world.procs = [⟨27, 27, 0, .zombie, none, true⟩] := by
  obtain ⟨S, hS, hp⟩ := reachable_of_any crowdedRun (fun S => S.over 0 &&
    decide (S.world.procs = [⟨27, 27, 0, .zombie, none, true⟩])) (by decide +kernel)
  obtain ⟨hover, hprocs⟩ := (Bool.and_eq_true_iff ..).mp hp
  exact ⟨S, hS, System.over_iff.mp hover, of_decide_eq_true hprocs⟩

end SystemProg.Yashd
