import SystemProg.Yash.System

/-!
# What the functions of the shell perform

Reading and parsing are for `main`, printing job lines for three functions (`jobs_reap`,
`jobs_print`, `do_bg`). `Op.Plain` are the other operations, with writes to the list that keep it
ordered; one walk over the code says which functions perform nothing else.
-/

namespace SystemProg.Yash

open Text Shell Conc Data

/-- Job numbers increase along the list. -/
def Jobs.Sorted (js : Jobs) : Prop := (js.map Entry.jid).Pairwise (· < ·)

/-- The operations that neither read, parse nor print a job line, and keep the list ordered. -/
def Op.Plain : Op → Prop
  | .fgets | .parse _ | .line _ _ _ _ => False
  | .store f => ∀ js, Jobs.Sorted js → Jobs.Sorted (f js)
  | _ => True

theorem Jobs.lt_nextJid {js : Jobs} (h : js.Sorted) : ∀ e ∈ js, e.jid < js.nextJid := by
  intro e he
  unfold Jobs.nextJid
  cases hlast : js.getLast? with
  | none =>
    rw [List.getLast?_eq_none_iff.mp hlast] at he
    cases he
  | some tail => exact lt_succ_last h he hlast

theorem Jobs.Sorted.setJob {js : Jobs} (h : js.Sorted) (jid : Nat) {f : Job → Job}
    (hf : ∀ j, (f j).jid = j.jid) : (js.setJob jid f).Sorted := by
  unfold Jobs.Sorted Jobs.setJob
  rw [map_update fun e => hf e.job]
  exact h

theorem Jobs.Sorted.remove {js : Jobs} (h : js.Sorted) (jid : Nat) :
    Jobs.Sorted (remove Entry.jid js jid) :=
  h.sublist (remove_sublist.map _)

theorem Jobs.Sorted.append {js : Jobs} (h : js.Sorted) (proto : Job) (call : Nat) :
    (js.append proto call).Sorted := by
  unfold Jobs.Sorted Jobs.append
  rw [List.map_append, List.pairwise_append]
  refine ⟨h, by simp, ?_⟩
  simpa [Entry.jid] using Jobs.lt_nextJid h

theorem Jobs.Sorted.nodup {js : Jobs} (h : js.Sorted) : (js.map Entry.jid).Nodup :=
  h.imp Nat.ne_of_lt

namespace Code

open Prog

variable {P : Op → Prop} {α : Type} {c jid : Nat} {proto : Job}

theorem all_op {o : Op} (h : P o) : (perform (S := calls) o).All P := ⟨h, fun _ => trivial⟩

section

variable (hP : ∀ o : Op, o.Plain → P o)
include hP

theorem all_deref : (deref jid).All P := by
  refine All.bind (all_op (hP .load trivial)) fun js => ?_
  split
  · trivial
  · exact ⟨hP .fault trivial, fun e => (show Empty from e).elim⟩

theorem all_modifyJob {f : Job → Job} (hf : ∀ j, (f j).jid = j.jid) : (modifyJob jid f).All P :=
  All.bind (all_deref hP) fun _ => all_op (hP (.store _) fun _ h => h.setJob jid hf)

theorem all_jobsRemove : (jobsRemove jid).All P := all_op (hP (.store _) fun _ h => h.remove jid)

theorem all_credit {pid : Nat} {f : Job → Job} (hf : ∀ j, (f j).jid = j.jid) :
    (credit pid f).All P := by
  refine All.bind (all_op (hP .load trivial)) fun js => ?_
  split
  · trivial
  · exact all_modifyJob hP hf

theorem all_reapPoll : reapPoll.All P := by
  refine ⟨fun _ => All.bind (all_op (hP (.waitpid _ _) trivial)) fun r => ?_, fun _ => trivial⟩
  cases r with
  | stopped pid => exact All.bind (all_credit hP (by exact fun _ => rfl)) fun _ => trivial
  | continued pid => exact All.bind (all_credit hP (by exact fun _ => rfl)) fun _ => trivial
  | exited pid => exact All.bind (all_credit hP (by exact fun _ => rfl)) fun _ => trivial
  | _ => trivial

theorem all_jobsWaitFg : (jobsWaitFg jid).All P := by
  refine All.bind ⟨fun _ => All.bind (all_deref hP) fun e => ?_, fun _ => trivial⟩ fun stopped => ?_
  · split
    · trivial
    · refine All.bind (all_op (hP (.waitpid _ _) trivial)) fun r => ?_
      cases r with
      | eintr | echild => trivial
      | stopped pid => exact All.bind (all_modifyJob hP (by exact fun _ => rfl)) fun _ => trivial
      | _ => exact All.bind (all_modifyJob hP (by exact fun _ => rfl)) fun _ => trivial
  · split
    · exact all_modifyJob hP (by exact fun _ => rfl)
    · trivial

theorem all_waitAndRemove : (waitAndRemove jid).All P := by
  refine All.bind (all_jobsWaitFg hP) fun _ =>
    All.bind (all_op (hP (.giveTerminal _) trivial)) fun _ => ?_
  refine All.bind (all_deref hP) fun e => ?_
  split
  · exact all_jobsRemove hP
  · trivial

theorem all_forkLoop : (forkLoop c proto).All P := by
  refine ⟨fun s => ?_, fun _ => trivial⟩
  obtain ⟨i, pgid, proto⟩ := s
  show (if proto.ncmds ≤ i then _ else _ : C _).All P
  split
  · trivial
  · refine All.bind (all_op (hP (.fork _ _) trivial)) fun r => ?_
    cases r with
    | none => exact ⟨hP (.complain _) trivial, fun _ => trivial⟩
    | some n => trivial

theorem all_jobsAdd : (jobsAdd proto c).All P := by
  refine All.bind (all_op (hP .load trivial)) fun js => ?_
  split
  · trivial
  · refine All.bind (all_op (hP .malloc trivial)) fun r => ?_
    cases r with
    | false => trivial
    | true => exact ⟨hP (.store _) fun _ h => h.append proto c, fun _ => trivial⟩

theorem all_trackJob {pgid : Nat} : (trackJob c pgid proto).All P := by
  unfold trackJob
  split
  · trivial
  · refine All.bind (all_jobsAdd hP) fun r => ?_
    cases r with
    | none => exact all_op (hP (.complain _) trivial)
    | some jid =>
      refine All.bind (all_deref hP) fun e => ?_
      split
      · trivial
      · exact All.bind (all_op (hP (.giveTerminal _) trivial)) fun _ => all_waitAndRemove hP

theorem all_execJob : (execJob c proto).All P := by
  have hlaunch : (launchJob c proto).All P := All.bind (all_forkLoop hP) fun _ => all_trackJob hP
  unfold execJob
  split
  · refine All.bind (all_op (hP .pipe trivial)) fun r => ?_
    cases r with
    | false => exact all_op (hP (.complain _) trivial)
    | true => exact hlaunch
  · exact hlaunch

theorem all_doFg : doFg.All P := by
  have hresume (jid : Nat) : (do
      modifyJob jid fun j => { j with state := .running }
      waitAndRemove jid).All P :=
    All.bind (all_modifyJob hP (by exact fun _ => rfl)) fun _ => all_waitAndRemove hP
  refine All.bind (all_op (hP .load trivial)) fun js => ?_
  split
  · trivial
  · refine All.bind (all_op (hP (.print _) trivial)) fun _ => ?_
    refine All.bind (all_modifyJob hP (by exact fun _ => rfl)) fun _ => ?_
    refine All.bind (all_op (hP (.giveTerminal _) trivial)) fun _ =>
      All.bind (all_deref hP) fun e => ?_
    split
    · exact All.bind (all_op (hP (.kill _ _) trivial)) fun _ => hresume _
    · exact hresume _

theorem all_jobsKillAll : jobsKillAll.All P := by
  have heach : ∀ js : Jobs, (killEach js).All P := by
    intro js
    induction js with
    | nil => trivial
    | cons e rest ih => exact All.bind (all_op (hP (.kill _ _) trivial)) fun _ => ih
  refine All.bind (all_op (hP .load trivial)) fun js => All.bind (heach js) fun _ => ?_
  exact all_op (hP (.store _) fun _ _ => List.Pairwise.nil)

/-! ## The functions that print job lines -/

variable (hline : ∀ site e mark status, P (.line site e mark status))
include hline

theorem all_jobsReap : jobsReap.All P := by
  have hsweep : ∀ jids : List Nat, (reapSweep jids).All P := by
    intro jids
    induction jids with
    | nil => trivial
    | cons jid rest ih =>
      refine All.bind (all_deref hP) fun e => ?_
      split
      · refine All.bind (all_op (hP .load trivial)) fun js => All.bind (all_op (hline ..)) fun _ =>
          ?_
        exact All.bind (all_jobsRemove hP) fun _ => ih
      · exact ih
  exact All.bind (all_reapPoll hP) fun _ => All.bind (all_op (hP .load trivial)) fun js => hsweep _

theorem all_doBg : doBg.All P := by
  refine All.bind (all_op (hP .load trivial)) fun js => ?_
  split
  · trivial
  · refine All.bind (all_op (hP (.kill _ _) trivial)) fun _ => ?_
    refine All.bind (all_modifyJob hP (by exact fun _ => rfl)) fun _ =>
      All.bind (all_deref hP) fun e => ?_
    exact all_op (hline ..)

theorem all_jobsPrint : jobsPrint.All P := by
  have heach (cur : Option Nat) (js : Jobs) : (printEach cur js).All P := by
    induction js with
    | nil => trivial
    | cons e rest ih => exact All.bind (all_op (hline ..)) fun _ => ih
  exact All.bind (all_op (hP .load trivial)) fun js => heach _ js

theorem all_builtinTry : (builtinTry proto).All P := by
  unfold builtinTry
  split
  · trivial
  split
  · exact All.bind (all_jobsPrint hP hline) fun _ => trivial
  split
  · exact All.bind (all_doFg hP) fun _ => trivial
  split
  · exact All.bind (all_doBg hP hline) fun _ => trivial
  · trivial

end

end Code

end SystemProg.Yash
