import SystemProg.Yashd.SessionSpec
import SystemProg.Yashd.System

/-!
# Sessions that share one process table

`SessionSpec` verifies a session against its own view, which nobody else changes. Here the views are
cut out of the world: the children of a session are the rows of the process table that its `fork`s
made. Three facts of the table hold throughout (`World.Ok`): pids are distinct, no pid and no group
is 0, and a group has children of one session only. They make an operation of a session act on the
session's own view as the specification says, and on no other's (`exec_view`). Any interleaving of
sessions, children and clients therefore keeps every thread's specification (`Reachable.inv`), and
the theorems about the daemon are read off the operation a thread is about to perform:

* `jobTable_at_prompt`: the job table whenever `jobs_reap` returns, and how jobs are numbered;
* `signals_isolated`: whom `kill` reaches and of whom `waitpid` reports.
-/

namespace SystemProg.Yashd

open Text Shell Conc Data Conc.Logic List

/-- What of a child never changes. -/
structure Ident where
  pid : Nat
  pgid : Nat
  owner : Nat

/-- Of a child. -/
def Proc.ident (p : Proc) : Ident := ⟨p.pid, p.pgid, p.owner⟩

/-- Of all children. -/
def World.idents (w : World) : List Ident := w.procs.map Proc.ident

/-- The unreaped children of a session. -/
def World.kids (w : World) (sid : Nat) : List (Nat × Nat) :=
  (w.idents.filter fun x => x.owner = sid).map fun x => (x.pid, x.pgid)

/-- What a session sees. -/
def World.view (w : World) (sid : Nat) : View :=
  ⟨(w.mem sid).jobs, (w.mem sid).fgJob, w.kids sid, (w.mem sid).input.inbuf.bytes⟩

/-- What holds of all children. -/
structure World.Ok (w : World) : Prop where
  pids : (w.idents.map Ident.pid).Nodup
  nonzero : ∀ x ∈ w.idents, x.pid ≠ 0 ∧ x.pgid ≠ 0
  owner : ∀ x ∈ w.idents, ∀ y ∈ w.idents, x.pgid = y.pgid → x.owner = y.owner

variable {w w' : World} {sid i n g : Nat}

theorem mem_kids : (n, g) ∈ w.kids sid ↔ ⟨n, g, sid⟩ ∈ w.idents := by
  simp only [World.kids, mem_map, mem_filter, decide_eq_true_eq, Prod.mk.injEq]
  constructor
  · rintro ⟨⟨n', g', o⟩, ⟨h, rfl⟩, rfl, rfl⟩
    exact h
  · exact fun h => ⟨_, ⟨h, rfl⟩, rfl, rfl⟩

/-! ## What leaves every view alone -/

/-- No child is forked or reaped, and no job table or input buffer is written to. -/
structure World.Quiet (w w' : World) : Prop where
  idents : w'.idents = w.idents
  jobs : ∀ i, (w'.mem i).jobs = (w.mem i).jobs
  fgJob : ∀ i, (w'.mem i).fgJob = (w.mem i).fgJob
  inbuf : ∀ i, (w'.mem i).input.inbuf = (w.mem i).input.inbuf

namespace World.Quiet

theorem view (h : Quiet w w') (i : Nat) : w'.view i = w.view i := by
  simp only [World.view, World.kids, h.idents, h.jobs, h.fgJob, h.inbuf]

theorem ok (h : Quiet w w') (hok : w.Ok) : w'.Ok := by
  obtain ⟨hp, hn, ho⟩ := hok
  rw [← h.idents] at hp hn ho
  exact ⟨hp, hn, ho⟩

theorem refl (w : World) : Quiet w w := ⟨rfl, fun _ => rfl, fun _ => rfl, fun _ => rfl⟩

/-- What holds of a session's memory before and after a change of one session. -/
theorem mem_setSess {P : Session → Session → Prop} (hrefl : ∀ s, P s s) {x : Sess}
    (hx : P x.mem (w.mem sid)) (i : Nat) : P ((w.setSess sid x).mem i) (w.mem i) := by
  by_cases hi : i = sid
  · subst hi
    simpa [World.mem, World.setSess] using hx
  · simpa [World.mem, World.setSess, hi] using hrefl _

theorem setSess {x : Sess} (hj : x.mem.jobs = (w.mem sid).jobs)
    (hf : x.mem.fgJob = (w.mem sid).fgJob) (hb : x.mem.input.inbuf = (w.mem sid).input.inbuf) :
    Quiet w (w.setSess sid x) :=
  ⟨rfl, mem_setSess (P := fun s s' => s.jobs = s'.jobs) (fun _ => rfl) hj,
    mem_setSess (P := fun s s' => s.fgJob = s'.fgJob) (fun _ => rfl) hf,
    mem_setSess (P := fun s s' => s.input.inbuf = s'.input.inbuf) (fun _ => rfl) hb⟩

theorem setErrno (e : Errno) : Quiet w (w.setErrno sid e) := setSess rfl rfl rfl

theorem idents_map {f : Proc → Proc} (hf : ∀ p, (f p).ident = p.ident) :
    (w.procs.map f).map Proc.ident = w.idents := by
  rw [map_map]
  exact map_congr_left fun p _ => hf p

/-- A change to processes that keeps who they are. -/
theorem procs {f : Proc → Proc} (hf : ∀ p, (f p).ident = p.ident) :
    Quiet w { w with procs := w.procs.map f } :=
  ⟨idents_map hf, fun _ => rfl, fun _ => rfl, fun _ => rfl⟩

theorem setProc {f : Proc → Proc} (hf : ∀ p, (f p).ident = p.ident) (pid : Nat) :
    Quiet w (w.setProc pid f) := by
  refine procs fun p => ?_
  split
  · exact hf p
  · rfl

end World.Quiet

/-- Nothing that happens outside the sessions changes a view. -/
theorem World.env_quiet {e : Event} (h : ∀ sid, e ≠ .accept sid) : Quiet w (w.env e) := by
  cases e with
  | accept sid => exact absurd rfl (h sid)
  | run sid ch => exact .refl w
  | exit pid => exact .setProc (by exact fun _ => rfl) pid
  | stop pid => exact .setProc (by exact fun _ => rfl) pid
  | cont pid => exact .setProc (by exact fun _ => rfl) pid
  | output sid bs => exact .setSess rfl rfl rfl
  | peerSend sid bs => exact .setSess rfl rfl rfl
  | peerRecv sid n => exact .setSess rfl rfl rfl
  | peerClose sid => exact .setSess rfl rfl rfl

/-! ## What a session's own operations do -/

/-- An operation of session `sid`: it acts on its own view as specified, and on no other. -/
structure Acts (sid : Nat) (o : Op) (w : World) (r : o.Res) (w' : World) : Prop where
  own : View.act o (w.view sid) r (w'.view sid)
  ok : w'.Ok
  others : ∀ i, i ≠ sid → w'.view i = w.view i

theorem World.Quiet.acts {o : Op} {r : o.Res} (h : Quiet w w') (hok : w.Ok)
    (hact : View.act o (w.view sid) r (w.view sid)) : Acts sid o w r w' :=
  ⟨by rw [h.view]; exact hact, h.ok hok, fun i _ => h.view i⟩

theorem view_setSess_self (x : Sess) : (w.setSess sid x).view sid =
    ⟨x.mem.jobs, x.mem.fgJob, w.kids sid, x.mem.input.inbuf.bytes⟩ := by
  simp only [World.view, World.mem, World.setSess, if_true]
  rfl

theorem view_setSess_of_ne (x : Sess) (hi : i ≠ sid) : (w.setSess sid x).view i = w.view i := by
  simp only [World.view, World.mem, World.setSess, if_neg hi]
  rfl

theorem setSess_acts {o : Op} {r : o.Res} {x : Sess} (hok : w.Ok)
    (hact : View.act o (w.view sid) r ⟨x.mem.jobs, x.mem.fgJob, w.kids sid,
      x.mem.input.inbuf.bytes⟩) :
    Acts sid o w r (w.setSess sid x) :=
  ⟨by rw [view_setSess_self]; exact hact, ⟨hok.pids, hok.nonzero, hok.owner⟩,
    fun i hi => view_setSess_of_ne x hi⟩

theorem kids_append {o : Nat} (h : w'.idents = w.idents ++ [⟨n, g, o⟩]) :
    w'.kids i = w.kids i ++ if o = i then [(n, g)] else [] := by
  by_cases ho : o = i <;> simp [World.kids, h, ho]

theorem kids_remove (h : w'.idents = remove Ident.pid w.idents n) :
    w'.kids i = remove Prod.fst (w.kids i) n := by
  simp only [World.kids, h, remove, filter_filter, filter_map]
  congr 1
  refine filter_congr fun x _ => ?_
  simp [Bool.and_comm]

theorem World.Ok.append (hok : w.Ok) (hn : n ≠ 0) (hg : g ≠ 0) (hfresh : ∀ x ∈ w.idents, x.pid ≠ n)
    (howner : ∀ x ∈ w.idents, x.pgid = g → x.owner = sid)
    (h : w'.idents = w.idents ++ [⟨n, g, sid⟩]) : w'.Ok := by
  refine ⟨?_, ?_, ?_⟩
  · rw [h, map_append, nodup_append]
    refine ⟨hok.pids, by simp, ?_⟩
    simpa using hfresh
  · rw [h]
    intro x hx
    rcases mem_append.mp hx with hx | hx
    · exact hok.nonzero x hx
    · rw [mem_singleton.mp hx]
      exact ⟨hn, hg⟩
  · rw [h]
    intro x hx y hy he
    rcases mem_append.mp hx with hx | hx <;> rcases mem_append.mp hy with hy | hy
    · exact hok.owner x hx y hy he
    · rw [mem_singleton.mp hy] at he ⊢
      exact howner x hx he
    · rw [mem_singleton.mp hx] at he ⊢
      exact (howner y hy he.symm).symm
    · rw [mem_singleton.mp hx, mem_singleton.mp hy]

theorem World.Ok.remove (hok : w.Ok) (h : w'.idents = Data.remove Ident.pid w.idents n) :
    w'.Ok := by
  have hsub : w'.idents.Sublist w.idents := h ▸ remove_sublist
  exact ⟨hok.pids.sublist (hsub.map _), fun x hx => hok.nonzero x (hsub.mem hx),
    fun x hx y hy => hok.owner x (hsub.mem hx) y (hsub.mem hy)⟩

/-- A group that one of the session's children is in. -/
theorem exists_proc (h : ∃ k ∈ w.kids sid, k.2 = g) :
    ∃ p ∈ w.procs, p.pgid = g ∧ p.owner = sid := by
  obtain ⟨⟨n, g'⟩, hk, rfl⟩ := h
  obtain ⟨p, hp, he⟩ := mem_map.mp (mem_kids.mp hk)
  exact ⟨p, hp, congrArg Ident.pgid he, congrArg Ident.owner he⟩

/-- Such a group has no other session's children. -/
theorem owner_of_group (hok : w.Ok) (h : ∃ k ∈ w.kids sid, k.2 = g) {p : Proc} (hp : p ∈ w.procs)
    (hg : p.pgid = g) : p.owner = sid := by
  obtain ⟨q, hq, hqg, rfl⟩ := exists_proc h
  exact hok.owner p.ident (mem_map_of_mem hp) q.ident (mem_map_of_mem hq)
    (hg.trans hqg.symm)

/-- A new child belongs to the session that forked it, in a group of its own or of that session. -/
theorem fork_acts {ch : Choice} {r : Option Nat} (hok : w.Ok)
    (hpre : View.pre (.fork g) (w.view sid)) (h : w.fork sid g ch = some (r, w')) :
    Acts sid (.fork g) w r w' := by
  rcases fork_cases h with ⟨n, rfl, hn, hfresh, h⟩ | ⟨rfl, rfl⟩
  · have hfresh : ∀ x ∈ w.idents, x.pid ≠ n ∧ x.pgid ≠ n := by
      intro x hx
      obtain ⟨p, hp, rfl⟩ := mem_map.mp hx
      exact hfresh p hp
    -- the group to join is still there, so `setpgid` does what `exec_job` asks
    have hgroup :
        (if g = 0 then n else if w.group g = [] then 0 else g) = if g = 0 then n else g := by
      split
      · rfl
      · rename_i hg
        obtain ⟨p, hp, hpg, -⟩ := exists_proc (hpre.resolve_left hg)
        exact if_neg (ne_nil_of_mem (mem_filter.mpr ⟨hp, by simpa using hpg⟩))
    have hg0 : (if g = 0 then n else g) ≠ 0 := by
      split
      · exact hn
      · assumption
    have howner : ∀ x ∈ w.idents, x.pgid = (if g = 0 then n else g) → x.owner = sid := by
      intro x hx he
      obtain ⟨p, hp, rfl⟩ := mem_map.mp hx
      split at he
      · exact absurd he (hfresh _ hx).2
      · rename_i hg
        exact owner_of_group hok (hpre.resolve_left hg) hp he
    rw [hgroup] at h
    subst h
    have hids : World.idents { w with procs := w.procs ++
        [⟨n, if g = 0 then n else g, sid, .running, none, false⟩] } =
        w.idents ++ [⟨n, if g = 0 then n else g, sid⟩] := by
      simp [World.idents, Proc.ident]
    refine ⟨⟨hn, ?_, ?_⟩, hok.append hn hg0 (fun x hx => (hfresh x hx).1) howner hids,
      fun i hi => ?_⟩
    · rintro ⟨m, g'⟩ hk
      exact hfresh _ (mem_kids.mp hk)
    · simp only [World.view, kids_append hids, if_true]
      rfl
    · simp only [World.view, kids_append hids, if_neg (Ne.symm hi), append_nil]
      rfl
  · exact (World.Quiet.setErrno _).acts hok rfl

/-- **`waitpid`** on a group of the session reports one of its children, and only an exit changes
the table. -/
theorem waitpid_acts {flags : WaitFlags} {ch : Choice} {r : WaitRes} (hok : w.Ok)
    (hpre : ∃ k ∈ w.kids sid, k.2 = g) (h : w.waitpid sid g flags ch = some (r, w')) :
    Acts sid (.waitpid g flags) w r w' := by
  rcases waitpid_cases h with ⟨p, hp, rfl, hr, rfl⟩ | ⟨-, hnil, -⟩ | ⟨rfl, rfl⟩ | ⟨rfl, rfl⟩
  · rcases pid_of_reports hr with ⟨rfl, hz⟩ | ⟨hr, hz⟩
    · have hids : (w.reported p).idents = remove Ident.pid w.idents p.pid := by
        simp only [World.reported, hz, World.idents, remove, filter_map]
        rfl
      have howner := owner_of_group hok hpre hp rfl
      have hkid : (⟨p.pid, p.pgid, sid⟩ : Ident) ∈ w.idents := howner ▸ mem_map_of_mem hp
      have hmem : ∀ i, (w.reported p).mem i = w.mem i := by
        simp only [World.reported, hz]
        exact fun _ => rfl
      refine ⟨⟨mem_kids.mpr hkid, ?_⟩, hok.remove hids, fun i hi => ?_⟩
      · simp only [World.view, hmem, kids_remove hids]
      · simp only [World.view, hmem, kids_remove hids, View.mk.injEq, true_and, and_true]
        refine filter_eq_self.mpr ?_
        rintro ⟨m, g'⟩ hk
        have : m ≠ p.pid := by
          rintro rfl
          have := inj_on_of_nodup_map hok.pids (mem_kids.mp hk) hkid rfl
          exact hi (congrArg Ident.owner this)
        simpa using this
    · have hquiet : w.Quiet (w.reported p) := by
        unfold World.reported
        split
        · exact absurd ‹_› hz
        · refine .procs fun q => ?_
          split <;> rfl
      rcases hr with rfl | rfl
      · exact hquiet.acts hok rfl
      · exact hquiet.acts hok rfl
  · obtain ⟨p, hp, hpg, -⟩ := exists_proc hpre
    exact absurd (mem_filter.mpr ⟨hp, by simpa using hpg⟩) (hnil ▸ not_mem_nil)
  · exact (World.Quiet.setErrno _).acts hok rfl
  · exact (World.Quiet.refl _).acts hok rfl

/-- The operations that are not about children, the job table or input. -/
def Op.Plain : Op → Prop
  | .load | .store _ | .fault | .takeLine _ | .fill _ | .fork _ | .waitpid _ _ => False
  | _ => True

/-- Such an operation at most fails, sets `quit` or sends bytes. -/
theorem Op.Plain.mem {o : Op} {r : o.Res} {x x' : Sess} (ho : o.Plain) (h : Sess.act o x r x') :
    x'.mem.jobs = x.mem.jobs ∧ x'.mem.fgJob = x.mem.fgJob ∧
      x'.mem.input.inbuf = x.mem.input.inbuf := by
  cases o with
  | load | store f | fault | takeLine site | fill site | fork g | waitpid g flags =>
      exact ho.elim
  | quit site =>
    cases h
    exact ⟨rfl, rfl, rfl⟩
  | write out bs => cases r <;> cases h <;> exact ⟨rfl, rfl, rfl⟩
  | _ => rcases h with rfl | ⟨e, rfl⟩ <;> exact ⟨rfl, rfl, rfl⟩

theorem exec_quiet {ch : Choice} {o : Op} {r : o.Res} (ho : o.Plain)
    (h : exec sid ch o w = some (r, w')) : w.Quiet w' := by
  have hl := exec_local h
  have hids : w'.idents = w.idents := by
    cases o with
    | load | store f | fault | takeLine site | fill site | fork g | waitpid g flags =>
        exact ho.elim
    | kill g sig =>
      cases h
      refine World.Quiet.idents_map fun p => ?_
      split <;> rfl
    | _ => exact congrArg (List.map Proc.ident) (hl.procs rfl)
  have hmem := ho.mem hl.own
  have hall : ∀ i, (w'.mem i).jobs = (w.mem i).jobs ∧ (w'.mem i).fgJob = (w.mem i).fgJob ∧
      (w'.mem i).input.inbuf = (w.mem i).input.inbuf := by
    intro i
    by_cases hi : i = sid
    · exact hi ▸ hmem
    · rw [World.mem, World.mem, hl.others i hi]
      exact ⟨rfl, rfl, rfl⟩
  exact ⟨hids, fun i => (hall i).1, fun i => (hall i).2.1, fun i => (hall i).2.2⟩

/-- **Every operation** of a session acts as specified on its own view, and on no other. -/
theorem exec_acts {ch : Choice} {o : Op} {r : o.Res} (hok : w.Ok) (hpre : View.pre o (w.view sid))
    (h : exec sid ch o w = some (r, w')) : Acts sid o w r w' := by
  cases o with
  | load =>
    cases h
    exact (World.Quiet.refl w).acts hok ⟨rfl, rfl, rfl⟩
  | store f =>
    cases h
    refine setSess_acts hok ⟨w.mem sid, rfl, rfl, ?_⟩
    rw [View.mk.injEq]
    exact ⟨rfl, rfl, rfl, congrArg (·.inbuf.bytes) (hpre (w.mem sid) rfl).input⟩
  | fault => exact absurd h (by simp [exec])
  | takeLine site =>
    simp only [exec, World.takeLine] at h
    split at h <;> cases h
    · exact (World.Quiet.refl w).acts hok ⟨bufTakeLine_eq_none.mp ‹_›, rfl⟩
    · exact setSess_acts hok ⟨_, rfl⟩
  | fill site =>
    obtain ⟨cut, -, h⟩ := Option.bind_eq_some_iff.mp h
    obtain ⟨⟨r', c⟩, -, h⟩ := Option.map_eq_some_iff.mp h
    cases h
    exact setSess_acts hok ⟨_, rfl⟩
  | fork g => exact fork_acts hok hpre h
  | waitpid g flags => exact waitpid_acts hok hpre h
  | _ => exact World.Quiet.acts (exec_quiet (by trivial) h) hok rfl

/-! ## Every interleaving -/

/-- What holds of the daemon at any time. -/
structure System.Inv (S : System) : Prop where
  ok : S.world.Ok
  idle : ∀ sid, S.thread sid = none → S.world.kids sid = []
  threads : S.Meets View.pre View.act fun sid w => w.view sid

theorem System.Inv.init : System.init.Inv :=
  ⟨⟨nodup_nil, by simp [World.idents, System.init, World.init],
    by simp [World.idents, System.init, World.init]⟩, fun _ _ => rfl, fun _ _ h => by cases h⟩

variable {S S' : System} {e : Event}

theorem System.Inv.step_threads (h : S.Inv) (hstep : S.step e = some S') :
    S'.Meets View.pre View.act fun sid w => w.view sid := by
  refine h.threads.step hstep (fun sid ht => ⟨?_, fun i hi => view_setSess_of_ne _ hi⟩)
    (fun sid ch o r w' hpre hx => ?_) fun he i => (World.env_quiet he).view i
  · -- a new session has an empty table and no children
    rw [view_setSess_self, h.idle sid ht]
    exact Code.spec_sessionMain
  · have hacts := exec_acts h.ok hpre hx
    exact ⟨hacts.own, hacts.others⟩

theorem System.Inv.step (h : S.Inv) (hstep : S.step e = some S') : S'.Inv := by
  have hthreads := h.step_threads hstep
  rcases System.step_cases hstep with ⟨sid, rfl, ht, rfl⟩ | ⟨sid, ch, p, p', w', rfl, ht, hp, rfl⟩ |
    ⟨he, rfl⟩
  · refine ⟨⟨h.ok.pids, h.ok.nonzero, h.ok.owner⟩, fun i hi => ?_, hthreads⟩
    by_cases he : i = sid
    · subst he
      rw [System.setThread_self] at hi
      cases hi
    · rw [System.setThread_of_ne _ _ he] at hi
      exact h.idle i hi
  · have hrest : w'.Ok ∧ ∀ i, i ≠ sid → w'.view i = S.world.view i := by
      rcases Prog.step_cases hp with ⟨o, k, r, rfl, hx, -⟩ | rfl
      · have hacts := exec_acts h.ok (h.threads.head ht) hx
        exact ⟨hacts.ok, hacts.others⟩
      · exact ⟨h.ok, fun _ _ => rfl⟩
    refine ⟨hrest.1, fun i hi => ?_, hthreads⟩
    by_cases he : i = sid
    · subst he
      rw [System.setThread_self] at hi
      cases hi
    · rw [System.setThread_of_ne _ _ he] at hi
      exact (congrArg View.kids (hrest.2 i he)).trans (h.idle i hi)
  · have hq : S.world.Quiet (S.world.env e) := World.env_quiet he
    exact ⟨hq.ok h.ok, fun i hi => (congrArg View.kids (hq.view i)).trans (h.idle i hi), hthreads⟩

/-- **Every reachable state** satisfies the invariant. -/
theorem Reachable.inv (h : Reachable S) : S.Inv :=
  h.induction System.Inv.init fun _ _ _ _ hS hstep => hS.step hstep

/-- The steps that are not a session's own leave its view alone. -/
theorem System.Inv.view_of_step (h : S.Inv) (hstep : S.step e = some S') (hacc : e ≠ .accept i)
    (hrun : ∀ ch o k, e = .run i ch → S.thread i ≠ some (.call o k)) :
    S'.world.view i = S.world.view i := by
  rcases System.step_cases hstep with ⟨sid, rfl, -, rfl⟩ | ⟨sid, ch, p, p', w', rfl, ht, hp, rfl⟩ |
    ⟨he, rfl⟩
  · exact view_setSess_of_ne _ fun hi => hacc (hi ▸ rfl)
  · rcases Prog.step_cases hp with ⟨o, k, r, rfl, hx, -⟩ | rfl
    · exact (exec_acts h.ok (h.threads.head ht) hx).others i fun hi =>
        hrun ch o k (hi ▸ rfl) (hi ▸ ht)
    · rfl
  · exact (World.env_quiet he).view i

theorem System.Inv.view_of_accept (h : S.Inv) (ht : S.thread sid = none)
    (hstep : S.step (.accept sid) = some S') : S'.world.view sid = ⟨[], none, [], []⟩ := by
  cases System.step_accept ht hstep
  show (S.world.setSess sid Sess.create).view sid = _
  rw [view_setSess_self, h.idle sid ht]
  rfl

/-! ## The job table -/

/-- The unreaped children of a session's job. -/
def World.children (w : World) (sid : Nat) (j : Job) : List Proc :=
  w.procs.filter fun p => p.owner = sid ∧ p.pgid = j.pgid

theorem length_children (w : World) (sid : Nat) (j : Job) :
    (w.children sid j).length = (members (w.kids sid) j.pgid).length := by
  simp only [World.children, members, World.kids, World.idents, length_map, filter_map,
    filter_filter]
  congr 1
  refine filter_congr fun p _ => ?_
  rw [Bool.eq_iff_iff, Bool.and_eq_true, decide_eq_true_iff, and_comm]
  exact and_congr decide_eq_true_iff.symm decide_eq_true_iff.symm

/-- What the specification of `prompting` requires of the table it starts from. -/
theorem ready_of_prompting {v : View} (h : table.wp Code.prompting (fun _ _ => True) v) :
    Ready none v :=
  -- the prompt's first write is one turn of a loop away
  (wp_loop_turn rfl h v rfl).1

theorem Numbered.of_eq {js js' : List Job} (h : js' = js) : Numbered js js' :=
  .inl (h ▸ le_rfl)

theorem numbered_of_act {o : Op} {r : o.Res} {v v' : View} (hpre : View.pre o v)
    (h : View.act o v r v') : Numbered v.jobs v'.jobs := by
  cases o with
  | load => exact .of_eq (by rw [h.2.2])
  | store f =>
    obtain ⟨s, hjobs, -, rfl⟩ := h
    exact hjobs ▸ (hpre s hjobs).jobs
  | takeLine site =>
    cases r with
    | none => exact .of_eq (by rw [h.2])
    | some line =>
      obtain ⟨b, rfl⟩ := h
      exact .of_eq rfl
  | fill site =>
    obtain ⟨b, rfl⟩ := h
    exact .of_eq rfl
  | fork g =>
    cases r with
    | none => exact .of_eq (by rw [h])
    | some n => exact .of_eq (by rw [h.2.2])
  | waitpid g flags =>
    cases r with
    | exited n => exact .of_eq (by rw [h.2])
    | echild => exact .of_eq (by rw [h.2])
    | _ => exact .of_eq (by rw [h])
  | _ => exact .of_eq (by rw [h])

theorem numbered_of_step (h : S.Inv) (hstep : S.step e = some S') (i : Nat) :
    Numbered (S.world.view i).jobs (S'.world.view i).jobs := by
  rcases System.step_cases hstep with ⟨sid, rfl, -, rfl⟩ | ⟨sid, ch, p, p', w', rfl, ht, hp, rfl⟩ |
    ⟨he, rfl⟩
  · by_cases hi : i = sid
    · subst hi
      refine .inl ?_
      show ((S.world.setSess i Sess.create).view i).jobs.length ≤ _
      rw [view_setSess_self]
      exact Nat.zero_le _
    · exact .of_eq (congrArg View.jobs (view_setSess_of_ne _ hi))
  · rcases Prog.step_cases hp with ⟨o, k, r, rfl, hexec, -⟩ | rfl
    · have hpre := h.threads.head ht
      have hacts := exec_acts h.ok hpre hexec
      by_cases hi : i = sid
      · subst hi
        exact numbered_of_act hpre hacts.own
      · exact .of_eq (congrArg View.jobs (hacts.others i hi))
    · exact .of_eq rfl
  · exact .of_eq (congrArg View.jobs ((World.env_quiet he).view i))

/-- **The job table.** Whenever `jobs_reap` returns, before a prompt, `fg_job` is NULL and the list
has at most 20 jobs with positive, strictly increasing `jid`s, all of them running or stopped, each
with as many children left as `nlive` and its pid slots say, which is one at least and `ncmds` at
most. And no step ever adds more than one job to a session's list, which is numbered 1 after the
last one. -/
theorem jobTable_at_prompt (h : Reachable S) (sid : Nat) :
    (S.thread sid = some Code.prompting →
      (S.world.mem sid).fgJob = none ∧
      (S.world.mem sid).jobs.length ≤ 20 ∧
      ((S.world.mem sid).jobs.map Job.jid).Pairwise (· < ·) ∧
      ∀ j ∈ (S.world.mem sid).jobs,
        0 < j.jid ∧ (j.state = .running ∨ j.state = .stopped) ∧
        1 ≤ j.nlive ∧ j.nlive ≤ j.ncmds ∧ j.nlive = (livePids j).length ∧
        j.nlive = (S.world.children sid j).length) ∧
    ∀ e S', S.step e = some S' →
      Numbered (S.world.mem sid).jobs (S'.world.mem sid).jobs := by
  refine ⟨fun ht => ?_, fun e S' hstep => ?_⟩
  · have hr : Ready none (S.world.view sid) := ready_of_prompting (h.inv.threads sid _ ht)
    refine ⟨hr.fg, hr.table.cap, hr.table.sorted, fun j hj => ?_⟩
    have ht := hr.table.tracks j hj
    have hl := hr.live j hj
    refine ⟨hr.table.positive j hj, ?_, hl.nlive, ht.nlive ▸ livePids_length_le j, ht.nlive, ?_⟩
    · cases hs : j.state with
      | running => exact .inl rfl
      | stopped => exact .inr rfl
      | done => exact absurd hs hl.state
    · rw [length_children]
      exact ht.nlive_eq
  · exact numbered_of_step h.inv hstep sid

/-- A client sends `CMD cat &`; the session is back at its prompt. -/
def backgroundRun : List Event :=
  [.accept 0, .peerSend 0 (str "CMD cat &\n")] ++ steps 0 12 (.upTo 4095) ++
    [.run 0 (.fds 3 4), .run 0 .go, .run 0 (.pid 7)] ++ steps 0 17 .go

theorem jobTable_at_prompt_background :
    ∃ S, Reachable S ∧ S.thread 0 = some Code.prompting ∧ (S.world.mem 0).jobs.length = 1 ∧
      ∀ j ∈ (S.world.mem 0).jobs, 1 ≤ j.nlive ∧ j.nlive = (S.world.children 0 j).length := by
  have hrun : (System.init.run backgroundRun).isSome := by decide +kernel
  refine ⟨_, reachable_get hrun, rfl, rfl, fun j hj => ?_⟩
  obtain ⟨-, -, -, htable⟩ := (jobTable_at_prompt (reachable_get hrun) 0).1 rfl
  obtain ⟨-, -, hlive, -, -, hcount⟩ := htable j hj
  exact ⟨hlive, hcount⟩

/-! ## Signals and statuses -/

/-- The child a status is of. -/
def WaitRes.child? : WaitRes → Option Nat
  | .exited n | .stopped n | .continued n => some n
  | _ => Option.none

/-- **Isolation.** Whatever the sessions, their children and the clients do, a `kill(-pgid)` is for
a group that at that moment has an unreaped child of the session that issues it, and no other
session's; and what a `waitpid` reports is the status of a child of the session that called it. -/
theorem signals_isolated (h : Reachable S) (sid : Nat) :
    (∀ pgid sig k, S.thread sid = some (.call (Op.kill pgid sig) k) →
      pgid ≠ 0 ∧ (∃ p ∈ S.world.procs, p.pgid = pgid ∧ p.owner = sid) ∧
      ∀ p ∈ S.world.procs, p.pgid = pgid → p.owner = sid) ∧
    ∀ pgid flags k, S.thread sid = some (.call (Op.waitpid pgid flags) k) →
      ∀ ch r w', exec sid ch (.waitpid pgid flags) S.world = some (r, w') →
        ∀ n, WaitRes.child? r = some n →
          ∃ p ∈ S.world.procs, p.pid = n ∧ p.pgid = pgid ∧ p.owner = sid := by
  have hok := h.inv.ok
  refine ⟨fun pgid sig k ht => ?_, fun pgid flags k ht ch r w' hexec n hn => ?_⟩
  · have hkid : ∃ k ∈ S.world.kids sid, k.2 = pgid := h.inv.threads.head ht
    obtain ⟨p, hp, hpg, howner⟩ := exists_proc hkid
    exact ⟨hpg ▸ (hok.nonzero p.ident (mem_map_of_mem hp)).2, ⟨p, hp, hpg, howner⟩,
      fun q hq hqg => owner_of_group hok hkid hq hqg⟩
  · have hkid : ∃ k ∈ S.world.kids sid, k.2 = pgid := h.inv.threads.head ht
    rcases waitpid_cases hexec with ⟨p, hp, hpg, hr, -⟩ | ⟨rfl, -⟩ | ⟨rfl, -⟩ | ⟨rfl, -⟩
    · refine ⟨p, hp, ?_, hpg, owner_of_group hok hkid hp hpg⟩
      rcases pid_of_reports hr with ⟨rfl, -⟩ | ⟨rfl | rfl, -⟩ <;> exact Option.some.inj hn
    · cases hn
    · cases hn
    · cases hn

/-- A client sends `CMD cat` and `CTL c`; the session is about to signal the job. -/
def interruptRun : List Event :=
  [.accept 0, .peerSend 0 (str "CMD cat\nCTL c\n")] ++ steps 0 12 (.upTo 4095) ++
    [.run 0 (.fds 3 4), .run 0 .go, .run 0 (.pid 7)] ++ steps 0 14 .go

theorem signals_isolated_interrupt :
    ∃ S k, Reachable S ∧ S.thread 0 = some (.call (Op.kill 7 .int) k) ∧
      ∃ p ∈ S.world.procs, p.pgid = 7 ∧ p.owner = 0 := by
  have hrun : (System.init.run interruptRun).isSome := by decide +kernel
  refine ⟨_, _, reachable_get hrun, rfl, ?_⟩
  exact ((signals_isolated (reachable_get hrun) 0).1 7 .int _ rfl).2.1

end SystemProg.Yashd
