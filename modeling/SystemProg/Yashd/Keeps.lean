import SystemProg.Conc.Wp
import SystemProg.Yashd.Session

/-!
# What the functions of a session keep

One walk over the code of the session thread, for any logic and any property of its states.

A property is `Tamed` if every calm operation keeps it, `Tidy` if it is also indifferent to `quit`
being set and survives `jobs_remove`, and `Fronted` if it survives the steps of a foreground wait.
The other operations, taking a line, reading at the prompt, logging, forking, opening and closing
descriptors, the `quit` of `handle_ctl`, going to the foreground and blocking there, are where such
properties differ, and are left to them.

Properties that are not about the jobs' descriptors need less: they are `Stable` if they survive any
write to the jobs and any descriptor being opened or closed, `Steady` and `Pumped` as above.
-/

namespace SystemProg.Yashd

open Text Shell Conc Data Conc.Logic

/-- What of a job only `jobs_add` and the closing of its stdin write. -/
def pinned (j : Job) : Nat × Nat × Option Nat := (j.jid, j.pgid, j.infd)

/-- A write to the session that is only about its jobs. -/
structure OnJobs (f : Session → Session) : Prop where
  quit : ∀ s, (f s).quit = s.quit
  input : ∀ s, (f s).input = s.input
  fgJob : ∀ s, (f s).fgJob = s.fgJob

/-- One that may clear `fg_job`, too. -/
structure Clears (f : Session → Session) : Prop where
  quit : ∀ s, (f s).quit = s.quit
  input : ∀ s, (f s).input = s.input
  fgJob : ∀ s, (f s).fgJob = s.fgJob ∨ (f s).fgJob = none

/-- One that is only about the progress of its jobs. -/
structure Tame (f : Session → Session) : Prop extends OnJobs f where
  jobs : ∀ s, (f s).jobs.map pinned = s.jobs.map pinned

/-- An operation that a wait may perform. -/
def Op.Calm : Op → Prop
  | .takeLine _ | .fill .readsocket | .log _ | .quit _ | .fork _ | .close _ | .pipe _ | .hangup =>
      False
  | .store f => Tame f
  | .waitpid _ flags => flags ≠ ⟨false, true, true⟩
  | _ => True

/-- The calm operations, with any write to the jobs, and those on descriptors. -/
def Op.Loose : Op → Prop
  | .takeLine _ | .fill .readsocket | .log _ | .quit _ | .fork _ => False
  | .store f => OnJobs f
  | .waitpid _ flags => flags ≠ ⟨false, true, true⟩
  | _ => True

theorem Op.Calm.loose {o : Op} (h : o.Calm) : o.Loose := by
  cases o with
  | store f => exact Tame.toOnJobs h
  | fill site =>
    cases site with
    | readsocket => exact h
    | pump => trivial
  | takeLine site | log cmdline | quit site | fork pgid | waitpid pgid flags => exact h
  | _ => trivial

variable {V α β σ : Type} {L : Logic sys V} {I : V → Prop}

/-- From any state with `I`, the program performs only what the logic allows and ends with `I`. -/
def Keeps (L : Logic sys V) (I : V → Prop) (p : Code.C α) : Prop :=
  ∀ v, I v → L.wp p (fun _ => I) v

theorem Keeps.bind {p : Code.C α} {f : α → Code.C β} (hp : Keeps L I p)
    (hf : ∀ a, Keeps L I (f a)) : Keeps L I (p >>= f) :=
  fun v hv => wp_seq (hp v hv) fun a v hv => hf a v hv

/-- Calm operations keep `I`. -/
structure Tamed (L : Logic sys V) (I : V → Prop) : Prop where
  rely : ∀ v v', L.rely v v' → I v → I v'
  calm : ∀ o : Op, o.Calm → ∀ v, I v → L.pre o v ∧ ∀ r v', L.act o v r v' → I v'

/-- So do the ends of a session and its jobs. -/
structure Tidy (L : Logic sys V) (I : V → Prop) : Prop extends Tamed L I where
  quit : ∀ site, site ≠ .ctl → Keeps L I (Code.setQuit site)
  remove : ∀ jid, Keeps L I (Code.jobsRemove jid)

/-- So does a job in the foreground. -/
structure Fronted (L : Logic sys V) (I : V → Prop) : Prop extends Tidy L I where
  drain : Keeps L I Code.drain
  front : ∀ jid, Keeps L I (Code.store fun s => { s with fgJob := some jid })
  back : Keeps L I (Code.store fun s => { s with fgJob := none })
  block : ∀ pgid, Keeps L I (Code.waitpid pgid ⟨false, true, true⟩)

namespace Tamed

theorem pure (h : Tamed L I) (a : α) : Keeps L I (Pure.pure a : Code.C α) :=
  fun v hv v' hr => h.rely v v' hr hv

theorem op (h : Tamed L I) {o : Op}
    (ho : ∀ v, I v → L.pre o v ∧ ∀ r v', L.act o v r v' → I v') :
    Keeps L I (Prog.perform (S := sys) o) := by
  intro v hv v' hr
  obtain ⟨hpre, hact⟩ := ho v' (h.rely v v' hr hv)
  exact ⟨hpre, fun r v₂ ha v₃ hr₂ => h.rely v₂ v₃ hr₂ (hact r v₂ ha)⟩

theorem call (h : Tamed L I) {o : Op} (ho : o.Calm) : Keeps L I (Prog.perform (S := sys) o) :=
  h.op (h.calm o ho)

theorem iter (h : Tamed L I) {body : σ → Code.C (σ ⊕ β)} (hbody : ∀ s, Keeps L I (body s)) (s : σ) :
    Keeps L I (Prog.iter body s) := by
  refine fun v hv => wp_iter (fun _ => I) (fun _ => h.rely) hv (fun _ => h.rely) fun s v hv => ?_
  refine wp_mono (fun x v hx => ?_) (hbody s v hv)
  cases x <;> exact hx

theorem deref (h : Tamed L I) (jid : Nat) : Keeps L I (Code.deref jid) := by
  refine (h.call (o := .load) trivial).bind fun s => ?_
  split
  · exact h.pure _
  · exact (h.call (o := .fault) trivial).bind fun e => nomatch (e : Empty)

theorem progress (h : Tamed L I) (jid : Nat) {f : Job → Job} (hf : ∀ j, pinned (f j) = pinned j) :
    Keeps L I (Code.modifyJob jid f) :=
  (h.deref jid).bind fun _ => h.call (o := .store _)
    ⟨⟨fun _ => rfl, fun _ => rfl, fun _ => rfl⟩, fun _ => map_update hf⟩

/-! ## `session.c` and `jobs.c` -/

theorem drain (h : Tamed L I) (hctl : ∀ arg, Keeps L I (Code.handleCtl arg))
    (htext : ∀ line, Keeps L I (Code.handleText line)) (htake : Keeps L I (Code.takeLine .pump)) :
    Keeps L I Code.drain := by
  refine h.iter (fun _ => htake.bind fun line => ?_) ()
  cases line with
  | none => exact h.pure _
  | some line =>
    refine Keeps.bind ?_ fun _ => h.pure _
    unfold Code.dispatchRunning
    dsimp only
    split
    · exact hctl _
    · exact htext _

theorem sessionPump (h : Tamed L I) (hdrain : Keeps L I Code.drain) :
    Keeps L I Code.sessionPump := by
  refine hdrain.bind fun _ => (h.call (o := .select) trivial).bind fun ready => ?_
  split
  · exact h.pure _
  · refine (h.call (o := .fill .pump) trivial).bind fun r => ?_
    split
    · exact h.pure _
    · exact hdrain.bind fun _ => h.pure _

theorem pollJob (h : Tamed L I) (jid : Nat) {block : Bool}
    (hwait : ∀ pgid, Keeps L I (Code.waitpid pgid ⟨!block, true, true⟩)) :
    Keeps L I (Code.pollJob jid block) := by
  refine h.iter (fun _ => (h.deref jid).bind fun j => ?_) ()
  split
  · exact h.pure _
  · refine (hwait j.pgid).bind fun r => ?_
    cases r with
    | none | eintr => exact h.pure _
    | _ => exact (h.progress _ fun _ => by rfl).bind fun _ => h.pure _

theorem peekJob (h : Tamed L I) (jid : Nat) : Keeps L I (Code.pollJob jid false) :=
  h.pollJob jid fun _ => h.call (by simp [Op.Calm])

theorem reapPoll (h : Tamed L I) : ∀ jids : List Nat, Keeps L I (Code.reapPoll jids)
  | [] => h.pure ()
  | jid :: rest => by
    refine (h.deref jid).bind fun j => ?_
    split
    · refine (h.peekJob jid).bind fun stopped => ?_
      split
      · refine (h.deref jid).bind fun j => ?_
        split
        · exact (h.progress _ fun _ => by rfl).bind fun _ => reapPoll h rest
        · exact reapPoll h rest
      · exact reapPoll h rest
    · exact reapPoll h rest

theorem killWait (h : Tamed L I) (jid : Nat) : Keeps L I (Code.killWait jid) := by
  refine h.iter (fun _ => (h.deref jid).bind fun j => ?_) ()
  split
  · exact h.pure _
  · refine (h.call (o := .waitpid j.pgid _) (by simp [Op.Calm])).bind fun r => ?_
    cases r with
    | exited n => exact (h.progress _ fun _ => by rfl).bind fun _ => h.pure _
    | _ => exact h.pure _

theorem forkLoop (h : Tamed L I) (hfork : ∀ pgid, Keeps L I (Code.fork pgid)) (proto : Job) :
    Keeps L I (Code.forkLoop proto) := by
  refine h.iter (fun s => ?_) _
  obtain ⟨i, pgid, proto⟩ := s
  dsimp only
  split
  · exact h.pure _
  · refine (hfork pgid).bind fun r => ?_
    cases r <;> exact h.pure _

end Tamed

/-! ## Between two lines -/

namespace Tidy

theorem sessionWrite (h : Tidy L I) (out : Out) (buf : List Byte) :
    Keeps L I (Code.sessionWrite out buf) := by
  refine h.iter (fun rest => ?_) buf
  by_cases hrest : rest = []
  · rw [if_pos hrest]
    exact h.pure _
  · rw [if_neg hrest]
    refine (h.call (o := .write out rest) trivial).bind fun r => ?_
    split
    · exact h.pure _
    · exact h.pure _
    · exact (h.quit .write (by decide)).bind fun _ => h.pure _

theorem jobsPrintOne (h : Tidy L I) (job : Job) (mark status : String) :
    Keeps L I (Code.jobsPrintOne job mark status) :=
  (h.sessionWrite _ _).bind fun _ => h.pure ()

theorem reapSweep (h : Tidy L I) : ∀ jids : List Nat, Keeps L I (Code.reapSweep jids)
  | [] => h.pure ()
  | jid :: rest => by
    refine (h.deref jid).bind fun j => ?_
    split
    · exact (h.call (o := .load) trivial).bind fun s => (h.jobsPrintOne _ _ _).bind fun _ =>
        (h.remove jid).bind fun _ => reapSweep h rest
    · exact reapSweep h rest

theorem jobsReap (h : Tidy L I) : Keeps L I Code.jobsReap :=
  (h.call (o := .load) trivial).bind fun _ => (h.reapPoll _).bind fun _ =>
    (h.call (o := .load) trivial).bind fun _ => h.reapSweep _

theorem printEach (h : Tidy L I) (cur : Option Job) :
    ∀ js : List Job, Keeps L I (Code.printEach cur js)
  | [] => h.pure ()
  | _ :: js => (h.jobsPrintOne _ _ _).bind fun _ => printEach h cur js

theorem doBg (h : Tidy L I) : Keeps L I Code.doBg := by
  refine (h.call (o := .load) trivial).bind fun s => ?_
  split
  · exact h.pure ()
  · exact (h.call (o := .kill _ _) trivial).bind fun _ =>
      (h.progress _ fun _ => by rfl).bind fun _ => (h.deref _).bind fun _ => h.jobsPrintOne _ _ _

section Foreground

variable (hfg : ∀ jid, Keeps L I (Code.foreground jid))
include hfg

theorem doFg (h : Tidy L I) : Keeps L I Code.doFg := by
  refine (h.call (o := .load) trivial).bind fun s => ?_
  split
  · exact h.pure ()
  · refine (h.sessionWrite _ _).bind fun _ => (h.progress _ fun _ => by rfl).bind fun _ =>
      (h.deref _).bind fun j => ?_
    split
    · exact (h.call (o := .kill _ _) trivial).bind fun _ =>
        (h.progress _ fun _ => by rfl).bind fun _ => hfg _
    · exact (h.progress _ fun _ => by rfl).bind fun _ => hfg _

theorem builtinTry (h : Tidy L I) (job : Job) : Keeps L I (Code.builtinTry job) := by
  unfold Code.builtinTry
  split
  · exact h.pure _
  split
  · exact Keeps.bind ((h.call (o := .load) trivial).bind fun _ => h.printEach _ _) fun _ => h.pure _
  split
  · exact (h.doFg hfg).bind fun _ => h.pure _
  split
  · exact h.doBg.bind fun _ => h.pure _
  · exact h.pure _

/-- What `handle_cmd` does once it has logged the command. -/
theorem afterLog (h : Tidy L I) {job : Job} (hexec : Keeps L I (Code.execJob job)) : Keeps L I (do
    if Code.name job = some (str "quit") ∧ job.ncmds = 1 then
      Code.setQuit .cmd
      return ()
    if ← Code.builtinTry job then return ()
    Code.execJob job) := by
  split
  · exact (h.quit .cmd (by decide)).bind fun _ => h.pure ()
  · refine (h.builtinTry hfg job).bind fun built => ?_
    split
    · exact h.pure ()
    · exact hexec

end Foreground

/-! ## The loop of `session_main` -/

theorem sessionReadsocket (h : Tidy L I) (htake : Keeps L I (Code.takeLine .readsocket))
    (hfill : Keeps L I (Code.fill .readsocket)) : Keeps L I Code.sessionReadsocket := by
  refine h.iter (fun _ => htake.bind fun line => ?_) ()
  cases line with
  | some line => exact h.pure _
  | none =>
    refine hfill.bind fun r => ?_
    split
    · exact h.pure _
    split
    · refine (h.call (o := .load) trivial).bind fun s => ?_
      split <;> exact h.pure _
    · exact h.pure _

theorem loop (h : Tidy L I) (hread : Keeps L I Code.sessionReadsocket)
    (hdispatch : ∀ line, Keeps L I (Code.dispatch line)) :
    Keeps L I (Prog.iter (fun _ : Unit => do Code.jobsReap; Code.serveTurn) ()) := by
  have hserve : Keeps L I Code.serve := by
    refine (h.sessionWrite _ _).bind fun ok => ?_
    split
    · exact h.pure _
    · refine hread.bind fun r => ?_
      cases r with
      | line line =>
        exact (hdispatch line).bind fun _ => (h.call (o := .load) trivial).bind fun _ => h.pure _
      | _ => exact h.pure _
  refine h.iter (fun _ => h.jobsReap.bind fun _ => hserve.bind fun again => ?_) ()
  cases again <;> exact h.pure _

end Tidy

/-! ## With a job in the foreground -/

namespace Fronted

theorem jobsWaitFg (h : Fronted L I) (jid : Nat) : Keeps L I (Code.jobsWaitFg jid) := by
  have hpoll : ∀ block, Keeps L I (do
      if ← Code.pollJob jid block then return .inr true
      return (.inl () : Unit ⊕ Bool)) := by
    intro block
    refine Keeps.bind ?_ fun stopped => ?_
    · cases block with
      | true => exact h.pollJob jid h.block
      | false => exact h.peekJob jid
    · split <;> exact h.pure _
  refine (h.iter (fun _ => (h.deref jid).bind fun j => ?_) ()).bind fun stopped => ?_
  · split
    · exact h.pure _
    · refine (h.call (o := .load) trivial).bind fun s => ?_
      split
      · refine (h.sessionPump h.drain).bind fun there => ?_
        split
        · exact (h.quit .gone (by decide)).bind fun _ => (h.deref jid).bind fun j =>
            (h.call (o := .kill _ _) trivial).bind fun _ => hpoll false
        · exact hpoll false
      · exact hpoll true
  · split
    · exact h.progress _ fun _ => by rfl
    · exact h.pure ()

theorem foreground (h : Fronted L I) (jid : Nat) : Keeps L I (Code.foreground jid) := by
  refine (h.front jid).bind fun _ => (h.jobsWaitFg jid).bind fun _ => h.back.bind fun _ =>
    (h.deref jid).bind fun j => ?_
  split
  · exact h.remove jid
  · exact h.pure ()

end Fronted

/-! ## Properties that are not about descriptors -/

/-- Loose operations keep `I`. -/
structure Stable (L : Logic sys V) (I : V → Prop) : Prop extends Tamed L I where
  loose : ∀ o : Op, o.Loose → ∀ v, I v → L.pre o v ∧ ∀ r v', L.act o v r v' → I v'

/-- So do writes that clear `fg_job`. -/
structure Steady (L : Logic sys V) (I : V → Prop) : Prop extends Stable L I, Tidy L I where
  clear : ∀ f, Clears f → Keeps L I (Code.store f)

/-- So do both. -/
structure Pumped (L : Logic sys V) (I : V → Prop) : Prop extends Steady L I, Fronted L I

namespace Stable

theorem intro (hrely : ∀ v v', L.rely v v' → I v → I v')
    (hloose : ∀ o : Op, o.Loose → ∀ v, I v → L.pre o v ∧ ∀ r v', L.act o v r v' → I v') :
    Stable L I :=
  ⟨⟨hrely, fun o ho => hloose o ho.loose⟩, hloose⟩

theorem any (h : Stable L I) {o : Op} (ho : o.Loose) : Keeps L I (Prog.perform (S := sys) o) :=
  h.op (h.loose o ho)

theorem store (h : Stable L I) {f : Session → Session} (hf : OnJobs f) :
    Keeps L I (Code.store f) := h.any (o := .store f) hf

theorem modifyJob (h : Stable L I) (jid : Nat) (f : Job → Job) : Keeps L I (Code.modifyJob jid f) :=
  (h.deref jid).bind fun _ => h.store ⟨fun _ => rfl, fun _ => rfl, fun _ => rfl⟩

theorem close (h : Stable L I) (fd : Nat) : Keeps L I (Code.close fd) :=
  h.any (o := .close fd) trivial

theorem closeInfd (h : Stable L I) (fd jid : Nat) :
    Keeps L I (do Code.close fd; Code.modifyJob jid fun j => { j with infd := none }) :=
  (h.close fd).bind fun _ => h.modifyJob _ _

theorem handleCtl (h : Stable L I) (hquit : Keeps L I (Code.setQuit .ctl)) (arg : List Byte) :
    Keeps L I (Code.handleCtl arg) := by
  have hkill : ∀ jid sig, Keeps L I (do let j ← Code.deref jid; Code.kill j.pgid sig) :=
    fun jid sig => (h.deref jid).bind fun j => h.call (o := .kill j.pgid sig) trivial
  refine (h.call (o := .load) trivial).bind fun s => ?_
  split
  · exact h.pure ()
  split
  · split
    · exact h.pure ()
    · exact hkill _ _
  split
  · split
    · exact h.pure ()
    · exact hkill _ _
  split
  · split
    · exact hquit
    · refine (h.deref _).bind fun j => ?_
      split
      · exact hquit
      · exact h.closeInfd _ _
  · exact h.pure ()

theorem handleText (h : Stable L I) (line : List Byte) : Keeps L I (Code.handleText line) := by
  refine (h.call (o := .load) trivial).bind fun s => ?_
  split
  · exact h.pure ()
  · rename_i jid _
    refine (h.deref jid).bind fun j => ?_
    split
    · exact h.pure ()
    · rename_i fd _
      have hend : ∀ ok, Keeps L I (do
          if !ok then
            Code.close fd
            Code.modifyJob jid fun j => { j with infd := none }) := by
        intro ok
        split
        · exact h.closeInfd _ _
        · exact h.pure ()
      refine (h.call (o := .writePipe fd line) trivial).bind fun ok => ?_
      dsimp only
      split
      · exact (h.call (o := .writePipe fd [nl]) trivial).bind hend
      · exact (h.pure false).bind hend

/-- Where `handle_ctl` and taking a line are no exceptions. -/
theorem pump (h : Stable L I) (hquit : Keeps L I (Code.setQuit .ctl))
    (htake : Keeps L I (Code.takeLine .pump)) : Keeps L I Code.drain :=
  h.drain (h.handleCtl hquit) h.handleText htake

theorem jobsAdd (h : Stable L I) (proto : Job) : Keeps L I (Code.jobsAdd proto) := by
  refine (h.call (o := .load) trivial).bind fun s => ?_
  split
  · exact h.pure _
  · refine (h.call (o := .malloc) trivial).bind fun ok => ?_
    split
    · exact h.pure _
    · exact Keeps.bind (h.store (by exact ⟨fun _ => rfl, fun _ => rfl, fun _ => rfl⟩))
        fun _ => h.pure _

theorem jobsRemove (h : Stable L I) (hclear : ∀ f, Clears f → Keeps L I (Code.store f))
    (jid : Nat) :
    Keeps L I (Code.jobsRemove jid) := by
  have hend : Keeps L I (Code.store fun s =>
      if s.fgJob = some jid then { s with fgJob := none } else s) := by
    refine hclear _ ⟨fun s => ?_, fun s => ?_, fun s => ?_⟩
    · split <;> rfl
    · split <;> rfl
    · split
      · exact .inr rfl
      · exact .inl rfl
  refine (h.call (o := .load) trivial).bind fun s => ?_
  split
  · exact h.pure ()
  · refine Keeps.bind (h.store (by exact ⟨fun _ => rfl, fun _ => rfl, fun _ => rfl⟩)) fun _ => ?_
    split
    · exact (h.close _).bind fun _ => hend
    · exact hend

theorem killEach (h : Stable L I) : ∀ jids : List Nat, Keeps L I (Code.killEach jids)
  | [] => h.pure ()
  | jid :: rest => by
    refine (h.deref jid).bind fun j => (h.call (o := .kill j.pgid .kill) trivial).bind fun _ => ?_
    split
    · exact (h.close _).bind fun _ => (h.killWait jid).bind fun _ => killEach h rest
    · exact (h.killWait jid).bind fun _ => killEach h rest

theorem steady (h : Stable L I) (hquit : ∀ site, site ≠ .ctl → Keeps L I (Code.setQuit site))
    (hclear : ∀ f, Clears f → Keeps L I (Code.store f)) : Steady L I :=
  ⟨h, hquit, h.jobsRemove hclear, hclear⟩

end Stable

namespace Steady

theorem sessionDestroy (h : Steady L I) : Keeps L I Code.sessionDestroy := by
  have hkill : Keeps L I Code.jobsKillAll :=
    (h.call (o := .load) trivial).bind fun _ => (h.killEach _).bind fun _ =>
      h.clear _ ⟨fun _ => rfl, fun _ => rfl, fun _ => .inr rfl⟩
  exact hkill.bind fun _ => h.any (o := .hangup) trivial

theorem dispatch (h : Steady L I) (hctl : Keeps L I (Code.setQuit .ctl))
    (hcmd : ∀ cmdline, Keeps L I (Code.handleCmd cmdline)) (line : List Byte) :
    Keeps L I (Code.dispatch line) := by
  unfold Code.dispatch
  dsimp only
  split
  · exact hcmd _
  split
  · exact h.handleCtl hctl _
  · exact h.handleText _

/-- `exec_job`, if what it does once its pipes are open keeps `I`. -/
theorem execJob (h : Steady L I) {proto : Job}
    (hlaunch : ∀ inr inw fds, Keeps L I (Code.launchJob inr inw fds { proto with infd := none })) :
    Keeps L I (Code.execJob proto) := by
  refine (h.any (o := .pipe .input) trivial).bind fun r => ?_
  cases r with
  | none => exact h.pure ()
  | some p =>
    dsimp only
    split
    · refine (h.any (o := .pipe .bar) trivial).bind fun fds => ?_
      cases fds with
      | none => exact (h.close _).bind fun _ => h.close _
      | some fds => exact hlaunch _ _ _
    · exact hlaunch _ _ _

section Foreground

variable (hfg : ∀ jid, Keeps L I (Code.foreground jid))
include hfg

theorem trackJob (h : Steady L I) (pgid : Nat) (proto : Job) :
    Keeps L I (Code.trackJob pgid proto) := by
  refine (h.jobsAdd proto).bind fun r => ?_
  cases r with
  | none =>
    refine (h.call (o := .kill pgid .kill) trivial).bind fun _ => ?_
    split
    · exact h.close _
    · exact h.pure ()
  | some jid =>
    refine (h.deref jid).bind fun j => ?_
    split
    · exact h.pure ()
    · exact hfg jid

theorem startJob (h : Steady L I) (inw pgid : Nat) (proto : Job) :
    Keeps L I (Code.startJob inw pgid proto) := by
  unfold Code.startJob
  split
  · exact h.close inw
  split
  · exact (h.close inw).bind fun _ => h.trackJob hfg _ _
  · exact h.trackJob hfg _ _

theorem launchJob (h : Steady L I) (hfork : ∀ pgid, Keeps L I (Code.fork pgid))
    (inr inw : Nat) (fds : Option (Nat × Nat)) (proto : Job) :
    Keeps L I (Code.launchJob inr inw fds proto) := by
  have hend : ∀ pgid proto, Keeps L I (do Code.close inr; Code.startJob inw pgid proto) :=
    fun _ _ => (h.close inr).bind fun _ => h.startJob hfg _ _ _
  refine (h.forkLoop hfork proto).bind fun r => ?_
  cases fds with
  | none => exact hend _ _
  | some p => exact (h.close _).bind fun _ => (h.close _).bind fun _ => hend _ _

end Foreground

theorem pumped (h : Steady L I) (hdrain : Keeps L I Code.drain)
    (hfront : ∀ jid, Keeps L I (Code.store fun s => { s with fgJob := some jid }))
    (hblock : ∀ pgid, Keeps L I (Code.waitpid pgid ⟨false, true, true⟩)) : Pumped L I :=
  ⟨h, hdrain, hfront, h.clear _ ⟨fun _ => rfl, fun _ => rfl, fun _ => .inr rfl⟩, hblock⟩

end Steady

theorem Pumped.command (h : Pumped L I) (hfork : ∀ pgid, Keeps L I (Code.fork pgid))
    (job : Job) : Keeps L I (do
    if Code.name job = some (str "quit") ∧ job.ncmds = 1 then
      Code.setQuit .cmd
      return ()
    if ← Code.builtinTry job then return ()
    Code.execJob job) :=
  h.afterLog h.foreground (h.execJob fun _ _ _ => h.launchJob h.foreground hfork _ _ _ _)

end SystemProg.Yashd
