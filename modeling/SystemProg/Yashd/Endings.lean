import SystemProg.Yashd.Keeps
import SystemProg.Yashd.System

/-!
# What `CTL d` ends

A third set of specifications of the session thread: which of the lines it has taken made
`handle_ctl` set `s->quit`. The branch `server/src/session.c:179-186` asks whether a job is in the
foreground with its `infd` open. Nothing happens to either between the `buf_take_line` that pops a
line and the test, so the answer is the one at the time the line was taken.

`Reachable.answered`: in every reachable state, whenever the session waits for input, looks for a
line or hangs up, the lines that have set `quit` are exactly the `CTL d` taken without such a job.
-/

namespace SystemProg.Yashd

open Text Shell Conc Data Conc.Logic List

/-- A line that `handle_ctl` gets as `CTL_EOF`. -/
def isEof (line : List Byte) : Bool :=
  (cstr line).take msgPrefixLen = msgCtl ∧ ((cstr line).drop msgPrefixLen).head? = some ctlEof

/-- A line that ends the session: `CTL d`, with no job in the foreground that has its `infd`
open. -/
def Taken.ends (t : Taken) : Bool := isEof t.line && !t.input

/-- A session, its lines and its ends. -/
structure Ends where
  mem : Session
  taken : List Taken
  ended : List Nat

/-- What an operation does to it. -/
def Ends.act : (o : Op) → Ends → o.Res → Ends → Prop
  | .load, v, s, v' => s = v.mem ∧ v' = v
  | .store f, v, _, v' => v' = { v with mem := f v.mem }
  | .quit site, v, _, v' => v' = { v with
      mem.quit := true
      ended := if site = .ctl then v.ended ++ [v.taken.length - 1] else v.ended }
  | .takeLine site, v, r, v' =>
    match r with
    | none => v' = v
    | some line => ∃ b n, v' = { v with
        mem.input.inbuf := b
        taken := v.taken ++ [⟨site, line, n, v.mem.fgInput⟩] }
  | _, v, _, v' => ∃ input, v' = { v with mem.input := input }

/-- Every line taken has been handled. -/
structure Answered (taken : List Taken) (ended : List Nat) : Prop where
  bound : ∀ i ∈ ended, i < taken.length
  iff : ∀ i t, taken[i]? = some t → (i ∈ ended ↔ t.ends = true)

/-- Every line but the last has been handled, and that one has not. -/
structure Due (v : Ends) (line : List Byte) : Prop where
  last : ∃ ts t, v.taken = ts ++ [t] ∧ Answered ts v.ended ∧ t.line = line ∧ t.input = v.mem.fgInput

/-- What it needs. -/
def Ends.pre : Op → Ends → Prop
  | .takeLine _, v | .fill _, v | .select, v | .hangup, v => Answered v.taken v.ended
  | .quit .ctl, v => ∃ line, Due v line ∧ isEof line = true ∧ v.mem.fgInput = false
  | _, _ => True

/-- The logic of the ends. -/
def ends : Logic sys Ends := sequential Ends.pre Ends.act

variable {v : Ends} {line : List Byte} {ts : List Taken} {is : List Nat} {t : Taken}

theorem getElem?_snoc_cases {i : Nat} {u : Taken} (h : (ts ++ [t])[i]? = some u) :
    ts[i]? = some u ∧ i < ts.length ∨ i = ts.length ∧ u = t := by
  rw [getElem?_append] at h
  split at h
  · exact .inl ⟨h, ‹_›⟩
  · obtain ⟨hlt, hu⟩ := List.getElem?_eq_some_iff.mp h
    rw [length_singleton] at hlt
    exact .inr ⟨by omega, by simpa using hu.symm⟩

theorem Answered.append (h : Answered ts is) (ht : t.ends = false) : Answered (ts ++ [t]) is := by
  refine ⟨fun i hi => ?_, fun i u hu => ?_⟩
  · rw [length_append]
    exact Nat.lt_add_right _ (h.bound i hi)
  · rcases getElem?_snoc_cases hu with ⟨hu, -⟩ | ⟨rfl, rfl⟩
    · exact h.iff i u hu
    · exact iff_of_false (fun hi => absurd (h.bound _ hi) (Nat.lt_irrefl _)) (by rw [ht]; decide)

theorem Answered.quit (h : Answered ts is) (ht : t.ends = true) :
    Answered (ts ++ [t]) (is ++ [(ts ++ [t]).length - 1]) := by
  have hlen : (ts ++ [t]).length - 1 = ts.length := by simp
  rw [hlen]
  refine ⟨fun i hi => ?_, fun i u hu => ?_⟩
  · rw [length_append, length_singleton, Nat.lt_succ_iff]
    rcases mem_append.mp hi with hi | hi
    · exact Nat.le_of_lt (h.bound i hi)
    · exact Nat.le_of_eq (mem_singleton.mp hi)
  · rcases getElem?_snoc_cases hu with ⟨hu, hlt⟩ | ⟨rfl, rfl⟩
    · rw [← h.iff i u hu, mem_append, mem_singleton]
      exact or_iff_left (Nat.ne_of_lt hlt)
    · exact iff_of_true (mem_append_right _ (mem_singleton.mpr rfl)) ht

/-- A line that does not end the session needs nothing done. -/
theorem Due.answered (h : Due v line) (hne : isEof line = true → v.mem.fgInput = true) :
    Answered v.taken v.ended := by
  obtain ⟨ts, t, htaken, hs, rfl, hin⟩ := h.last
  rw [htaken]
  refine hs.append ?_
  rw [Taken.ends, hin]
  cases he : isEof t.line with
  | false => rfl
  | true => rw [hne he]; rfl

theorem Due.quit (h : Due v line) (he : isEof line = true) (hin : v.mem.fgInput = false) :
    Answered v.taken (v.ended ++ [v.taken.length - 1]) := by
  obtain ⟨ts, t, htaken, hs, rfl, hti⟩ := h.last
  rw [htaken]
  refine hs.quit ?_
  rw [Taken.ends, hti, he, hin]
  rfl

/-! ## The thread -/

/-- Most of what the thread does is of no consequence for the lines taken. -/
theorem answered_op {o : Op} (ho : ∀ site, o ≠ .takeLine site) (hq : o ≠ .quit .ctl)
    (hs : Answered v.taken v.ended) :
    ends.pre o v ∧ ∀ r v', ends.act o v r v' → Answered v'.taken v'.ended := by
  cases o with
  | takeLine site => exact absurd rfl (ho site)
  | quit site =>
    refine ⟨?_, fun r v' hr => ?_⟩
    · cases site with
      | ctl => exact absurd rfl hq
      | _ => trivial
    · cases hr
      rw [if_neg fun he => hq (congrArg Op.quit he)]
      exact hs
  | load => exact ⟨trivial, fun r v' hr => by rw [hr.2]; exact hs⟩
  | store f => exact ⟨trivial, fun r v' hr => by cases hr; exact hs⟩
  | fill site | select | hangup =>
    refine ⟨hs, ?_⟩
    rintro r _ ⟨input, rfl⟩
    exact hs
  | _ =>
    refine ⟨trivial, ?_⟩
    rintro r _ ⟨input, rfl⟩
    exact hs

theorem answered_stable : Stable ends fun v => Answered v.taken v.ended := by
  refine .intro (fun _ _ hr h => hr ▸ h) fun o ho v h => answered_op ?_ ?_ h
  · rintro site rfl
    exact ho
  · rintro rfl
    exact ho

theorem answered_steady : Steady ends fun v => Answered v.taken v.ended :=
  answered_stable.steady
    (fun _ hs => answered_stable.op fun _ => answered_op (by simp) fun he => hs (Op.quit.inj he))
    fun _ _ => answered_stable.op fun _ => answered_op (by simp) (by simp)

theorem answered_fork (pgid : Nat) :
    Keeps ends (fun v => Answered v.taken v.ended) (Code.fork pgid) :=
  answered_stable.op fun v h => answered_op (by simp) (by simp) h

namespace Code

open Prog

theorem ends_deref {α : Type} {jid : Nat} {f : Job → C α} {Q : α → Ends → Prop}
    (h : ∀ j, v.mem.job? jid = some j → ends.wp (f j) Q v) : ends.wp (deref jid >>= f) Q v := by
  refine seq_call.mpr ⟨trivial, ?_⟩
  rintro s v' ⟨rfl, hv⟩
  rw [hv]
  cases hj : v.mem.job? jid with
  | none =>
    simp only [Prog.bind, hj]
    exact seq_call.mpr ⟨trivial, fun e => (show Empty from e).elim⟩
  | some j =>
    simp only [Prog.bind, hj]
    exact h j hj

theorem ends_setQuit (h : Due v line) (he : isEof line = true) (hin : v.mem.fgInput = false) :
    ends.wp (setQuit .ctl) (fun _ v => Answered v.taken v.ended) v := by
  refine seq_perform ⟨line, h, he, hin⟩ ?_
  rintro _ _ rfl
  exact h.quit he hin

/-- `handle_ctl` settles the line it is called for. -/
theorem ends_handleCtl {arg : List Byte} (h : Due v line)
    (heof : isEof line = true ↔ arg.head? = some ctlEof) :
    ends.wp (handleCtl arg) (fun _ v => Answered v.taken v.ended) v := by
  refine seq_call.mpr ⟨trivial, ?_⟩
  rintro s v' ⟨rfl, hv⟩
  rw [hv]
  by_cases hd : arg.head? = some ctlEof
  · have he := heof.mpr hd
    simp only [Prog.bind, hd, if_neg (show ctlEof ≠ ctlInt by decide),
      if_neg (show ctlEof ≠ ctlStop by decide), if_true]
    cases hfg : v.mem.fgJob with
    | none => exact ends_setQuit h he (by rw [Session.fgInput, hfg]; rfl)
    | some jid =>
      refine ends_deref fun j hj => ?_
      have hin : v.mem.fgInput = j.infd.isSome := by
        rw [Session.fgInput, hfg, Option.bind_some, hj]
      cases hfd : j.infd with
      | none => exact ends_setQuit h he (by rw [hin, hfd]; rfl)
      | some fd =>
          exact answered_stable.closeInfd fd jid v (h.answered fun _ => by rw [hin, hfd]; rfl)
  · -- any other control message leaves the line as it is
    have hs := h.answered fun he => absurd (heof.mp he) hd
    have hkill : ∀ jid sig, ends.wp (do let j ← deref jid; kill j.pgid sig)
        (fun _ v => Answered v.taken v.ended) v := fun jid sig =>
      (answered_stable.deref jid).bind
        (fun j => answered_stable.call (o := .kill j.pgid sig) trivial) v hs
    simp only [Prog.bind]
    split
    · exact seq_pure.mpr hs
    · rename_i c hc
      split
      · split
        · exact seq_pure.mpr hs
        · exact hkill _ .int
      split
      · split
        · exact seq_pure.mpr hs
        · exact hkill _ .tstp
      split
      · rename_i hcd
        exact absurd (hcd ▸ hc) hd
      · exact seq_pure.mpr hs

theorem ends_takeLine {α : Type} {site : Site} {f : Option (List Byte) → C α} {Q : α → Ends → Prop}
    (h : Answered v.taken v.ended) (hnone : ends.wp (f none) Q v)
    (hsome : ∀ line v', Due v' line → ends.wp (f (some line)) Q v') :
    ends.wp (takeLine site >>= f) Q v := by
  refine seq_call.mpr ⟨h, fun r v' hr => ?_⟩
  cases r with
  | none =>
    cases hr
    exact hnone
  | some line =>
    obtain ⟨b, n, rfl⟩ := hr
    exact hsome line _ ⟨_, _, rfl, h, rfl, rfl⟩

theorem isEof_iff (hctl : (cstr line).take msgPrefixLen = msgCtl) :
    isEof line = true ↔ ((cstr line).drop msgPrefixLen).head? = some ctlEof := by
  simp only [isEof, hctl, true_and, decide_eq_true_eq]

theorem isEof_of_ne (hctl : (cstr line).take msgPrefixLen ≠ msgCtl) : ¬ isEof line = true := by
  simp only [isEof, hctl, false_and, decide_false, Bool.false_eq_true, not_false_eq_true]

theorem ends_dispatchRunning (h : Due v line) :
    ends.wp (dispatchRunning line) (fun _ v => Answered v.taken v.ended) v := by
  unfold dispatchRunning
  dsimp only
  split
  · rename_i hctl
    exact ends_handleCtl h (isEof_iff hctl)
  · rename_i hctl
    exact answered_stable.handleText _ v (h.answered fun he => absurd he (isEof_of_ne hctl))

theorem answered_pumped : Pumped ends fun v => Answered v.taken v.ended := by
  refine answered_steady.pumped (fun v h => ?_)
    (fun _ => answered_stable.op fun _ => answered_op (by simp) (by simp))
    fun _ => answered_stable.op fun _ => answered_op (by simp) (by simp)
  refine seq_iter (fun _ v => Answered v.taken v.ended) h fun _ v h => ?_
  refine ends_takeLine h (seq_pure.mpr h) fun line v hdue => ?_
  exact wp_seq (ends_dispatchRunning hdue) fun _ _ h => seq_pure.mpr h

theorem ends_sessionReadsocket (h : Answered v.taken v.ended) :
    ends.wp sessionReadsocket (fun r v => match r with
      | .line line => Due v line
      | _ => Answered v.taken v.ended) v := by
  have hload : Keeps ends (fun v => Answered v.taken v.ended) load :=
    answered_stable.call (o := .load) trivial
  have hfill : Keeps ends (fun v => Answered v.taken v.ended) (fill .readsocket) :=
    answered_stable.op fun v h => answered_op (by simp) (by simp) h
  refine seq_iter (fun _ v => Answered v.taken v.ended) h fun _ v h => ?_
  refine ends_takeLine h (wp_seq (hfill v h) fun r v h => ?_) fun line v hdue => seq_pure.mpr hdue
  split
  · exact seq_pure.mpr h
  split
  · refine wp_seq (hload v h) fun s v h => ?_
    split
    · exact seq_pure.mpr h
    · exact seq_pure.mpr h
  · exact seq_pure.mpr h

theorem ends_dispatch (h : Due v line) :
    ends.wp (dispatch line) (fun _ v => Answered v.taken v.ended) v := by
  unfold dispatch
  dsimp only
  by_cases hcmd : (cstr line).take msgPrefixLen = msgCmd
  · rw [if_pos hcmd]
    have hs := h.answered fun he => absurd he (isEof_of_ne (by rw [hcmd]; decide))
    unfold handleCmd
    split
    · rename_i job hjob
      have hlog : Keeps ends (fun v => Answered v.taken v.ended)
          (logCommand ((cstr line).drop msgPrefixLen)) :=
        answered_stable.op fun v h => answered_op (by simp) (by simp) h
      exact hlog.bind (fun _ => answered_pumped.command answered_fork job) v hs
    · exact seq_pure.mpr hs
  · rw [if_neg hcmd]
    exact ends_dispatchRunning h

/-- **The thread**, from a fresh connection on. -/
theorem ends_sessionMain : ends.wp sessionMain (fun _ _ => True) ⟨Session.create, [], []⟩ := by
  refine wp_seq (P := fun _ v => Answered v.taken v.ended) ?_ fun _ v h =>
    wp_mono (fun _ _ _ => trivial) (answered_steady.sessionDestroy v h)
  refine seq_iter (fun _ v => Answered v.taken v.ended) ⟨by simp, by simp⟩ fun _ v h => ?_
  refine wp_seq (answered_steady.jobsReap v h) fun _ v h => ?_
  refine wp_seq (P := fun _ v => Answered v.taken v.ended) ?_ fun again v h => ?_
  · refine wp_seq (answered_steady.sessionWrite _ _ v h) fun ok v h => ?_
    cases ok with
    | false => exact seq_pure.mpr h
    | true =>
      refine wp_seq (ends_sessionReadsocket h) fun r v hr => ?_
      cases r with
      | line line =>
        refine wp_seq (ends_dispatch hr) fun _ v h => ?_
        exact wp_seq (answered_stable.call (o := .load) trivial v h) fun _ _ h => seq_pure.mpr h
      | _ => exact seq_pure.mpr hr
  · cases again <;> exact seq_pure.mpr h

end Code

/-! ## In any interleaving -/

/-- The ends of a session. -/
def World.ends (w : World) (sid : Nat) : Ends :=
  ⟨w.mem sid, (w.sess sid).taken, (w.sess sid).ended⟩

theorem ends_of_act {o : Op} {r : o.Res} {x x' : Sess} (h : Sess.act o x r x') :
    Ends.act o ⟨x.mem, x.taken, x.ended⟩ r ⟨x'.mem, x'.taken, x'.ended⟩ := by
  cases o with
  | load =>
    obtain ⟨hs, rfl⟩ := h
    exact ⟨hs, rfl⟩
  | store f | quit site =>
    cases h
    rfl
  | takeLine site =>
    cases r with
    | none =>
      obtain ⟨-, rfl⟩ := h
      rfl
    | some line =>
      obtain ⟨b, -, rfl⟩ := h
      exact ⟨b, x.shell.length, rfl⟩
  | fill site =>
    obtain ⟨cut, c, -, rfl⟩ := h
    exact ⟨c.input, rfl⟩
  | write out bs =>
    cases r with
    | wrote n =>
      cases h
      exact ⟨x.mem.input, rfl⟩
    | fail e =>
      cases h
      exact ⟨_, rfl⟩
  | _ =>
    rcases h with rfl | ⟨e, rfl⟩
    · exact ⟨_, rfl⟩
    · exact ⟨_, rfl⟩

theorem Sess.Env.ends {x x' : Sess} (h : Sess.Env x x') :
    x'.taken = x.taken ∧ x'.ended = x.ended := by
  cases h <;> exact ⟨rfl, rfl⟩

/-- **In any interleaving** a thread does to `quit`, the lines and the answers what `Ends.act`
says. -/
theorem Reachable.meets_ends {S : System} {pre : Op → Ends → Prop} (h : Reachable S)
    (hmain : (sequential pre Ends.act).wp Code.sessionMain (fun _ _ => True)
      ⟨Session.create, [], []⟩) : S.Meets pre Ends.act fun sid w => w.ends sid := by
  refine h.induction (P := fun S => S.Meets pre Ends.act fun sid w => w.ends sid)
    (fun _ _ h => by cases h) fun S e S' _ hS hstep => ?_
  refine hS.step hstep (fun sid _ => ⟨?_, fun i hi => ?_⟩)
    (fun sid ch o r w' _ hx => ⟨?_, fun i hi => ?_⟩)
    fun he i => ?_
  · rw [World.ends, World.mem, sess_setSess_self]
    exact hmain
  · rw [World.ends, World.ends, World.mem, World.mem, show
      (S.world.setSess sid Sess.create).sess i = S.world.sess i from if_neg hi]
  · exact ends_of_act (exec_local hx).own
  · rw [World.ends, World.ends, World.mem, World.mem, (exec_local hx).others i hi]
  · have henv := World.env_sess (w := S.world) he i
    rw [World.ends, World.ends, World.mem, World.mem, henv.mem, henv.ends.1, henv.ends.2]

theorem Reachable.endings {S : System} (h : Reachable S) :
    S.Meets Ends.pre Ends.act fun sid w => w.ends sid := h.meets_ends Code.ends_sessionMain

/-- Where a session waits for input, looks for a line, or hangs up. -/
def Op.rests : Op → Bool
  | .takeLine _ | .fill _ | .select | .hangup => true
  | _ => false

/-- The session is done with the lines it has taken. -/
def System.Rests (S : System) (sid : Nat) : Prop :=
  ∃ o k, S.thread sid = some (.call o k) ∧ o.rests = true

variable {S : System} {sid : Nat}

/-- **Which lines have ended the session**, as soon as the last one has been handled. -/
theorem Reachable.answered (h : Reachable S) (hr : S.Rests sid) :
    Answered (S.world.sess sid).taken (S.world.sess sid).ended := by
  obtain ⟨o, k, ht, ho⟩ := hr
  have hpre := h.endings.head ht
  cases o with
  | takeLine site | fill site | select | hangup => exact hpre
  | _ => cases ho

theorem Reachable.ends_of_mem (h : Reachable S) :
    ∀ sid, ∀ i ∈ (S.world.sess sid).ended, ∃ t, (S.world.sess sid).taken[i]? = some t ∧
      t.ends = true := by
  refine h.induction (P := fun S => ∀ sid, ∀ i ∈ (S.world.sess sid).ended,
    ∃ t, (S.world.sess sid).taken[i]? = some t ∧ t.ends = true) (fun _ i hi => by cases hi) ?_
  intro S e S' hS ih hstep sid i hi
  have keep : (S'.world.sess sid).taken = (S.world.sess sid).taken →
      (S'.world.sess sid).ended = (S.world.sess sid).ended →
      ∃ t, (S'.world.sess sid).taken[i]? = some t ∧ t.ends = true := by
    intro ht he
    rw [ht]
    exact ih sid i (he ▸ hi)
  rcases System.step_sess hstep sid with ⟨ch, o, k, r, -, ht, -, -, hact⟩ | ⟨-, hnew⟩ | henv
  · have ha := ends_of_act hact
    cases o with
    | load => exact keep (congrArg Ends.taken ha.2) (congrArg Ends.ended ha.2)
    | store f => exact keep (congrArg Ends.taken ha) (congrArg Ends.ended ha)
    | takeLine site =>
      cases r with
      | none => exact keep (congrArg Ends.taken ha) (congrArg Ends.ended ha)
      | some line =>
        obtain ⟨b, n, ha⟩ := ha
        rw [show (S'.world.sess sid).ended = (S.world.sess sid).ended from
          congrArg Ends.ended ha] at hi
        rw [show (S'.world.sess sid).taken = _ from congrArg Ends.taken ha]
        obtain ⟨t, hti, hte⟩ := ih sid i hi
        exact ⟨t, (getElem?_append_left (List.getElem?_eq_some_iff.mp hti).1).trans hti, hte⟩
    | quit site =>
      have htaken : (S'.world.sess sid).taken = (S.world.sess sid).taken := congrArg Ends.taken ha
      have hended : (S'.world.sess sid).ended = _ := congrArg Ends.ended ha
      by_cases hs : site = .ctl
      · subst hs
        obtain ⟨line, hdue, heof, hin⟩ := hS.endings.head ht
        have hset := hdue.quit heof hin
        rw [hended] at hi
        rw [htaken]
        have hlt := hset.bound i hi
        exact ⟨_, getElem?_eq_getElem hlt, (hset.iff i _ (getElem?_eq_getElem hlt)).mp hi⟩
      · exact keep htaken (hended.trans (if_neg hs))
    | _ =>
      obtain ⟨input, ha⟩ := ha
      exact keep (congrArg Ends.taken ha) (congrArg Ends.ended ha)
  · rw [hnew] at hi
    cases hi
  · exact keep henv.ends.1 henv.ends.2

end SystemProg.Yashd
