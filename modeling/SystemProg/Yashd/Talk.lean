import SystemProg.Yashd.Keeps
import SystemProg.Yashd.System

/-!
# What a session says, and when it listens

A second set of specifications of the session thread, about its conversation with the client: the
lines it has taken from the connection, the command lines it has logged, and the bytes it has
written itself. Between two prompts the commands logged stay those of the lines returned to the
session (`Caught`).

The walk over the code is for any conditions on the operations that the state they are performed in
meets anyway (`Heeded`), up to the whole thread (`heeded_sessionMain`). `talk_sessionMain` is one
case: whenever `session_readsocket` looks for a line or reads, the last thing the session wrote is
the prompt, it was written after every line taken so far, and the commands logged are those of the
lines that `session_readsocket` has returned.
-/

namespace SystemProg.Yashd

open Text Shell Conc Data Conc.Logic List

/-- A session's conversation. -/
structure Talk where
  taken : List Taken
  /-- The command lines logged. -/
  cmds : List (List Byte)
  /-- The bytes the session itself has written. -/
  shell : List Byte

/-- The command line `handle_cmd` is called with for a message, if `parse_line` accepts it. -/
def commandOf (line : List Byte) : Option (List Byte) :=
  let line := cstr line
  if line.take msgPrefixLen = msgCmd then
    match parseLine (some (line.drop msgPrefixLen)) with
    | .ok _ => some (line.drop msgPrefixLen)
    | _ => none
  else none

/-- The commands among the lines that `session_readsocket` returned. -/
def handled (taken : List Taken) : List (List Byte) :=
  taken.filterMap fun t => if t.site = .readsocket then commandOf t.line else none

/-- What an operation does to it. -/
def Talk.act : (o : Op) → Talk → o.Res → Talk → Prop
  | .takeLine site, v, r, v' =>
    match r with
    | none => v' = v
    | some line => ∃ b, v' = { v with taken := v.taken ++ [⟨site, line, v.shell.length, b⟩] }
  | .log cmdline, v, _, v' => v' = { v with cmds := v.cmds ++ [cmdline] }
  | .write _ bs, v, r, v' =>
    match r with
    | .wrote n => v' = { v with shell := v.shell ++ bs.take n }
    | .fail _ => v' = v
  | _, v, _, v' => v' = v

/-- The session at its prompt. -/
structure Listening (v : Talk) : Prop where
  prompt : yashPrompt <:+ v.shell
  fresh : ∀ t ∈ v.taken, t.shell < v.shell.length
  cmds : v.cmds = handled v.taken

/-- What it needs. -/
def Talk.pre : Op → Talk → Prop
  | .takeLine .readsocket, v => Listening v
  | .fill .readsocket, v => Listening v
  | _, _ => True

/-- The logic of conversations. -/
def talk : Logic sys Talk := sequential Talk.pre Talk.act

/-- Every command returned to the session so far has been logged. -/
structure Caught (v : Talk) : Prop where
  marks : ∀ t ∈ v.taken, t.shell ≤ v.shell.length
  cmds : v.cmds = handled v.taken

theorem Listening.caught {v : Talk} (h : Listening v) : Caught v :=
  ⟨fun t ht => Nat.le_of_lt (h.fresh t ht), h.cmds⟩

/-- Conditions that the code meets: at the prompt they may ask for `Listening`, of `log_command`
that the command is the one missing from the log, and else for `Caught`. -/
structure Heeded (pre : Op → Talk → Prop) : Prop where
  take : ∀ v, Listening v → pre (.takeLine .readsocket) v
  fill : ∀ v, Listening v → pre (.fill .readsocket) v
  log : ∀ v c, handled v.taken = v.cmds ++ [c] → pre (.log c) v
  other : ∀ o v, o ≠ .takeLine .readsocket → o ≠ .fill .readsocket → (∀ c, o ≠ .log c) →
    Caught v → pre o v

theorem talk_heeded : Heeded Talk.pre where
  take _ h := h
  fill _ h := h
  log _ _ _ := trivial
  other o v htake hfill _ _ := by
    unfold Talk.pre
    split
    · exact absurd rfl htake
    · exact absurd rfl hfill
    · trivial

/-! ## Between two prompts -/

variable {v : Talk}

theorem Caught.of_eq {v' : Talk} (h : Caught v) (he : v' = v) : Caught v' := he ▸ h

/-- A line that `session_pump` takes is no command. -/
theorem Caught.pump {line : List Byte} {b : Bool} (h : Caught v) :
    Caught { v with taken := v.taken ++ [⟨.pump, line, v.shell.length, b⟩] } := by
  refine ⟨fun t ht => ?_, ?_⟩
  · rcases mem_append.mp ht with ht | ht
    · exact h.marks t ht
    · rw [mem_singleton.mp ht]
  · show v.cmds = handled (v.taken ++ _)
    rw [h.cmds, handled, handled, filterMap_append]
    exact (append_nil _).symm

theorem Caught.write (h : Caught v) (bs : List Byte) :
    Caught { v with shell := v.shell ++ bs } := by
  refine ⟨fun t ht => (h.marks t ht).trans ?_, h.cmds⟩
  rw [length_append]
  exact Nat.le_add_right _ _

section Heeded

variable {pre : Op → Talk → Prop} (hpre : Heeded pre)
include hpre

/-- Most operations say nothing and hear nothing. -/
theorem caught_op {o : Op} (ho : ∀ v r v', Talk.act o v r v' → v' = v)
    (hother : o ≠ .takeLine .readsocket ∧ o ≠ .fill .readsocket ∧ ∀ c, o ≠ .log c) :
    ∀ v, Caught v → pre o v ∧ ∀ r v', Talk.act o v r v' → Caught v' :=
  fun v h =>
    ⟨hpre.other o v hother.1 hother.2.1 hother.2.2 h, fun r v' hr => h.of_eq (ho v r v' hr)⟩

theorem caught_stable : Stable (sequential pre Talk.act) Caught := by
  refine .intro (fun _ _ hr h => hr ▸ h) fun o ho v h => ?_
  cases o with
  | takeLine site | log cmdline | quit site | fork pgid => exact ho.elim
  | fill site =>
    cases site with
    | readsocket => exact ho.elim
    | pump =>
      exact ⟨hpre.other _ v (by simp) (by simp) (by simp) h, fun _ _ => h.of_eq⟩
  | write out bs =>
    refine ⟨hpre.other _ v (by simp) (by simp) (by simp) h, fun r v' hr => ?_⟩
    cases r with
    | wrote n =>
      cases hr
      exact h.write _
    | fail e => exact h.of_eq hr
  | _ => exact ⟨hpre.other _ v (by simp) (by simp) (by simp) h, fun _ _ => h.of_eq⟩

theorem caught_quit (site : QuitSite) :
    Keeps (sequential pre Talk.act) Caught (Code.setQuit site) :=
  (caught_stable hpre).op (caught_op hpre (fun _ _ _ h => h) (by simp))

theorem caught_store (f : Session → Session) :
    Keeps (sequential pre Talk.act) Caught (Code.store f) :=
  (caught_stable hpre).op (caught_op hpre (fun _ _ _ h => h) (by simp))

theorem caught_fork (pgid : Nat) :
    Keeps (sequential pre Talk.act) Caught (Code.fork pgid) :=
  (caught_stable hpre).op (caught_op hpre (fun _ _ _ h => h) (by simp))

theorem caught_steady : Steady (sequential pre Talk.act) Caught :=
  (caught_stable hpre).steady (fun site _ => caught_quit hpre site) fun f _ => caught_store hpre f

theorem caught_pumped : Pumped (sequential pre Talk.act) Caught := by
  refine (caught_steady hpre).pumped ?_ (fun _ => caught_store hpre _) fun _ =>
    (caught_stable hpre).op (caught_op hpre (fun _ _ _ h => h) (by simp))
  refine (caught_stable hpre).pump (caught_quit hpre .ctl) ((caught_stable hpre).op fun v h =>
    ⟨hpre.other _ v (by simp) (by simp) (by simp) h, fun r v' hr => ?_⟩)
  cases r with
  | none => exact h.of_eq hr
  | some line =>
    obtain ⟨b, rfl⟩ := hr
    exact h.pump

end Heeded

/-! ## A line at the prompt -/

/-- A line has been returned to the session. -/
def Talk.take (v : Talk) (line : List Byte) (b : Bool) : Talk :=
  { v with taken := v.taken ++ [⟨.readsocket, line, v.shell.length, b⟩] }

theorem handled_append (taken : List Taken) (line : List Byte) (n : Nat) (b : Bool) :
    handled (taken ++ [⟨.readsocket, line, n, b⟩]) = handled taken ++ (commandOf line).toList := by
  rw [handled, handled, filterMap_append]
  cases hc : commandOf line <;> simp [hc]

/-- Once the command the line is, if any, has been logged. -/
theorem Listening.take {line : List Byte} {b : Bool} {cs : List (List Byte)} (h : Listening v)
    (hc : v.cmds ++ (commandOf line).toList = cs) : Caught { v.take line b with cmds := cs } := by
  refine ⟨fun t ht => ?_, ?_⟩
  · rcases mem_append.mp ht with ht | ht
    · exact Nat.le_of_lt (h.fresh t ht)
    · rw [mem_singleton.mp ht]
      exact le_rfl
  · show cs = handled (v.taken ++ _)
    rw [handled_append, ← h.cmds, hc]

namespace Code

open Prog

/-! ## At the prompt -/

variable {pre : Op → Talk → Prop} (hpre : Heeded pre)
include hpre

/-- The whole prompt is written, or the client is gone. -/
theorem heeded_sessionPrompt (h : Caught v) :
    (sequential pre Talk.act).wp sessionPrompt
      (fun ok v' => Caught v' ∧ (ok = true → Listening v')) v := by
  refine seq_iter (fun rest v' => ∃ done, done ++ rest = yashPrompt ∧
    v' = { v with shell := v.shell ++ done }) ⟨[], rfl, by simp⟩ ?_
  rintro rest _ ⟨done, hdone, rfl⟩
  by_cases hrest : rest = []
  · rw [if_pos hrest]
    rw [hrest, append_nil] at hdone
    subst hdone
    refine seq_pure.mpr ⟨h.write _, fun _ => ⟨suffix_append _ _, fun t ht => ?_, h.cmds⟩⟩
    rw [length_append]
    exact Nat.lt_of_le_of_lt (h.marks t ht) (Nat.lt_add_of_pos_right (by decide))
  · rw [if_neg hrest]
    refine seq_call.mpr ⟨hpre.other _ _ (by simp) (by simp) (by simp) (h.write done),
      fun r v' hr => ?_⟩
    cases r with
    | wrote n =>
      cases hr
      refine seq_pure.mpr ⟨done ++ rest.take n, ?_, ?_⟩
      · rw [append_assoc, take_append_drop, hdone]
      · rw [append_assoc]
    | fail e =>
      cases hr
      cases e with
      | eintr => exact seq_pure.mpr ⟨done, hdone, rfl⟩
      | other =>
        refine seq_call.mpr ⟨hpre.other _ _ (by simp) (by simp) (by simp) (h.write done),
          fun _ v' hr => ?_⟩
        cases hr
        exact seq_pure.mpr ⟨h.write done, by simp⟩

theorem heeded_sessionReadsocket (h : Listening v) :
    (sequential pre Talk.act).wp sessionReadsocket (fun r v' => match r with
      | .line line => ∃ b, v' = v.take line b
      | _ => Listening v') v := by
  refine seq_iter (fun _ v' => v' = v) rfl ?_
  rintro _ _ rfl
  refine seq_call.mpr ⟨hpre.take _ h, fun r v' hr => ?_⟩
  cases r with
  | some line => exact seq_pure.mpr hr
  | none =>
    cases hr
    refine seq_call.mpr ⟨hpre.fill _ h, fun r v' hr => ?_⟩
    cases hr
    simp only [Prog.bind]
    split
    · exact seq_pure.mpr h
    split
    · refine seq_call.mpr ⟨hpre.other _ _ (by simp) (by simp) (by simp) h.caught, fun s v' hr => ?_⟩
      cases hr
      simp only [Prog.bind]
      split
      · exact seq_pure.mpr rfl
      · exact seq_pure.mpr h
    · exact seq_pure.mpr rfl

theorem heeded_dispatch (h : Listening v) (line : List Byte) (b : Bool) :
    (sequential pre Talk.act).wp (dispatch line) (fun _ => Caught) (v.take line b) := by
  unfold dispatch
  dsimp only
  by_cases hcmd : (cstr line).take msgPrefixLen = msgCmd
  · rw [if_pos hcmd]
    unfold handleCmd
    split
    · rename_i job hjob
      have hc : commandOf line = some ((cstr line).drop msgPrefixLen) := by
        simp only [commandOf, if_pos hcmd, hjob]
      have hmiss : handled (v.take line b).taken = v.cmds ++ [(cstr line).drop msgPrefixLen] := by
        rw [Talk.take, handled_append, ← h.cmds, hc]
        rfl
      refine seq_call.mpr ⟨hpre.log _ _ hmiss, fun _ v' hr => ?_⟩
      cases hr
      exact (caught_pumped hpre).command (caught_fork hpre) job _ (h.take (by rw [hc]; rfl))
    · refine seq_pure.mpr (h.take ?_)
      simp only [commandOf, if_pos hcmd]
      exact append_nil _
  · rw [if_neg hcmd]
    have hnone : v.cmds ++ (commandOf line).toList = v.cmds := by
      simp only [commandOf, if_neg hcmd]
      exact append_nil _
    have hskip : Caught (v.take line b) := h.take hnone
    split
    · exact (caught_stable hpre).handleCtl (caught_quit hpre .ctl) _ _ hskip
    · exact (caught_stable hpre).handleText _ _ hskip

theorem heeded_serve (h : Caught v) : (sequential pre Talk.act).wp serve (fun _ => Caught) v := by
  refine wp_seq (heeded_sessionPrompt hpre h) ?_
  rintro ok v ⟨h, hlisten⟩
  cases ok with
  | false => exact seq_pure.mpr h
  | true =>
    have hlisten := hlisten rfl
    refine wp_seq (heeded_sessionReadsocket hpre hlisten) fun r v' hr => ?_
    cases r with
    | line line =>
      obtain ⟨b, rfl⟩ := hr
      refine wp_seq (heeded_dispatch hpre hlisten line b) fun _ v h => ?_
      exact wp_seq ((caught_stable hpre).call (o := .load) trivial v h) fun _ _ h => seq_pure.mpr h
    | _ => exact seq_pure.mpr hr.caught

/-- **The thread**, from a fresh connection on. -/
theorem heeded_sessionMain :
    (sequential pre Talk.act).wp sessionMain (fun _ => Caught) ⟨[], [], []⟩ := by
  refine wp_seq (P := fun _ => Caught) ?_ fun _ _ h => (caught_steady hpre).sessionDestroy _ h
  refine seq_iter (fun _ => Caught) ⟨by simp, rfl⟩ fun _ v h => ?_
  refine wp_seq ((caught_steady hpre).jobsReap v h) fun _ v h => ?_
  refine wp_seq (heeded_serve hpre h) fun again v h => ?_
  cases again <;> exact seq_pure.mpr h

omit hpre in
theorem talk_sessionMain : talk.wp sessionMain (fun _ _ => True) ⟨[], [], []⟩ :=
  wp_mono (fun _ _ _ => trivial) (heeded_sessionMain talk_heeded)

end Code

end SystemProg.Yashd
