import SystemProg.Threads.Kernel

/-!
# What each step does

For each function and each instruction of `Kernel.lean` that asserts something, branches or switches
threads: what holds if it returned, and the state it left.
-/

namespace SystemProg.Threads

open Function SystemProg.Seq List
open Option (some.inj map_eq_some_iff)

variable {K K' : Kernel} {t u next : Tid} {s : SemaId} {l : LockId} {c : CondId} {w : Wait}
  {page : Option Tid} {is rest : List Instr}

/-! ## What `schedule` does -/

/-- The page of the thread that is switched from is freed. -/
def Kernel.Leaves (K : Kernel) (next : Tid) : Prop :=
  K.status K.cur = some .dying ∧ K.cur ≠ K.initial ∧ K.cur ≠ next

instance (K : Kernel) (next : Tid) : Decidable (K.Leaves next) :=
  inferInstanceAs (Decidable (_ ∧ _ ∧ _))

/-- The state in which `next` runs. -/
def Kernel.switchTo (K : Kernel) (next : Tid) : Kernel :=
  { K with
    cur := next
    ready := K.ready.tail
    status := update
      (if K.Leaves next then update K.status K.cur none else K.status) next (some .running)
    wait := update K.wait next none
    log := (if K.Leaves next then [.freed K.cur] else []) ++ .started next :: K.log }

/-- `next` is the first ready thread, or the idle thread if there is none. -/
def Kernel.Picks (K : Kernel) (next : Tid) : Prop :=
  K.ready.head? = some next ∨ K.ready = [] ∧ K.idle = some next

/-- `thread_schedule_tail` after a switch from `t`. -/
theorem threadScheduleTail_eq (hne : t ≠ K.cur) : threadScheduleTail (some t) K = some ((), { K with
      status := update (if K.status t = some .dying ∧ t ≠ K.initial then
        update K.status t none else K.status) K.cur (some .running)
      wait := update K.wait K.cur none
      log := (if K.status t = some .dying ∧ t ≠ K.initial then [.freed t] else []) ++
        .started K.cur :: K.log }) := by
  rw [threadScheduleTail, get_bind]
  by_cases hd : K.status t = some .dying ∧ t ≠ K.initial
  · simp only [if_pos hd]
    refine (bind_eq modify_eq).trans ((bind_eq modify_eq).trans ((bind_eq modify_eq).trans
      ((bind_eq (assert_eq hne)).trans ?_)))
    rw [update_comm hne]
    rfl
  · simp only [if_neg hd]
    rfl

theorem of_nextThreadToRun {r : Option Tid} (h : nextThreadToRun K = some (r, K')) :
    K' = { K with ready := K.ready.tail } ∧ ∀ next, r = some next → K.Picks next := by
  rw [nextThreadToRun, get_bind] at h
  cases hr : K.ready with
  | nil =>
    rw [hr] at h
    cases h
    refine ⟨by rw [tail_nil, ← hr], fun next hn => .inr ⟨hr, hn⟩⟩
  | cons t rest =>
    rw [hr] at h
    cases h
    exact ⟨rfl, fun next hn => .inl (hn ▸ by rw [hr]; rfl)⟩

/-- **What `schedule` does.** -/
theorem of_schedule (h : schedule K = some ((), K')) : ∃ next, K.Picks next ∧
    K.status K.cur ≠ some .running ∧ K.status next ≠ none ∧ K' = K.switchTo next := by
  rw [schedule, get_bind] at h
  obtain ⟨r, K1, hnext, h⟩ := of_bind_eq h
  obtain ⟨rfl, hpick⟩ := of_nextThreadToRun hnext
  rw [get_bind] at h
  obtain ⟨-, h⟩ := of_assert_bind h
  obtain ⟨hstatus, h⟩ := of_assert_bind h
  cases r with
  | none => cases h
  | some next =>
    obtain ⟨hthread, h⟩ := of_assert_bind h
    refine ⟨next, hpick next rfl, hstatus, hthread, ?_⟩
    by_cases hne : K.cur = next
    · have hstay : ¬K.Leaves next := fun hl => hl.2.2 hne
      rw [if_neg (not_not.mpr hne)] at h
      rw [Kernel.switchTo, if_neg hstay, if_neg hstay, ← hne]
      exact (Prod.mk.inj (some.inj h)).2.symm
    · rw [if_pos hne] at h
      have hiff : (K.status K.cur = some .dying ∧ K.cur ≠ K.initial) ↔ K.Leaves next :=
        ⟨fun hd => ⟨hd.1, hd.2, hne⟩, fun hl => ⟨hl.1, hl.2.1⟩⟩
      have h' : threadScheduleTail (some K.cur) { K with ready := K.ready.tail, cur := next } =
        some ((), K') := h
      rw [threadScheduleTail_eq hne] at h'
      rw [← (Prod.mk.inj (some.inj h')).2, Kernel.switchTo]
      simp only [hiff]

theorem intr_of_schedule (h : schedule K = some ((), K')) : K'.intr = false := by
  obtain ⟨next, -, -, -, rfl⟩ := of_schedule h
  rw [schedule, get_bind] at h
  obtain ⟨r, K1, hnext, h⟩ := of_bind_eq h
  obtain ⟨rfl, -⟩ := of_nextThreadToRun hnext
  rw [get_bind] at h
  exact (of_assert_bind h).1

theorem of_switch (h : schedule K = some ((), K')) :
    K'.intr = false ∧ K'.status K'.cur = some .running := by
  refine ⟨intr_of_schedule h, ?_⟩
  obtain ⟨next, -, -, -, rfl⟩ := of_schedule h
  exact update_self _ _ _

theorem of_blockThread (h : blockThread w K = some ((), K')) : K.handler = none ∧ K.intr = false ∧
    schedule { K with
      status := update K.status K.cur (some .blocked)
      wait := update K.wait K.cur (some w) } = some ((), K') := by
  rw [blockThread, get_bind] at h
  obtain ⟨hhandler, h⟩ := of_assert_bind h
  obtain ⟨hintr, h⟩ := of_assert_bind h
  exact ⟨hhandler, hintr, h⟩

theorem of_unblockThread (h : unblockThread t K = some ((), K')) : K.status t = some .blocked ∧
    K' = { K with
      ready := K.ready ++ [t]
      wait := update K.wait t none
      status := update K.status t (some .ready) } := by
  rw [unblockThread, get_bind] at h
  obtain ⟨hstatus, h⟩ := of_assert_bind h
  exact ⟨hstatus, (Prod.mk.inj (some.inj h)).2.symm⟩

theorem of_yieldThread (h : yieldThread K = some ((), K')) :
    K.status K.cur = some .running ∧ K.handler = none ∧ schedule { K with
      ready := if K.idle ≠ some K.cur then K.ready ++ [K.cur] else K.ready
      status := update K.status K.cur (some .ready) } = some ((), K') := by
  rw [yieldThread, get_bind] at h
  obtain ⟨hstatus, h⟩ := of_assert_bind h
  obtain ⟨hhandler, h⟩ := of_assert_bind h
  refine ⟨hstatus, hhandler, ?_⟩
  by_cases hidle : K.idle ≠ some K.cur
  · rw [if_pos hidle] at h ⊢
    exact h
  · rw [if_neg hidle] at h ⊢
    exact h

theorem of_exitThread (h : exitThread K = some ((), K')) : K.handler = none ∧ schedule { K with
      status := update K.status K.cur (some .dying)
      log := .exited K.cur :: K.log
      intr := false } = some ((), K') := by
  rw [exitThread, get_bind] at h
  obtain ⟨hhandler, h⟩ := of_assert_bind h
  exact ⟨hhandler, h⟩

/-- The body of `sema_up` wakes the first waiter, if any. -/
theorem of_upSema (h : upSema s K = some ((), K')) :
    (K.waiters s = [] ∧ K' = { K with
      value := update K.value s ((K.value s + 1) % 2 ^ 32)
      log := .up s K.cur :: K.log }) ∨
    ∃ t rest, K.waiters s = t :: rest ∧ K.status t = some .blocked ∧ K' = { K with
      waiters := update K.waiters s rest
      ready := K.ready ++ [t]
      wait := update K.wait t none
      status := update K.status t (some .ready)
      value := update K.value s ((K.value s + 1) % 2 ^ 32)
      log := .up s K.cur :: K.log } := by
  rw [upSema, get_bind] at h
  cases hw : K.waiters s with
  | nil =>
    rw [hw] at h
    exact .inl ⟨rfl, (Prod.mk.inj (some.inj h)).2.symm⟩
  | cons t rest =>
    rw [hw] at h
    obtain ⟨_, _, hset, h⟩ := of_bind_eq h
    cases hset
    obtain ⟨_, _, hun, h⟩ := of_bind_eq h
    obtain ⟨hstatus, rfl⟩ := of_unblockThread hun
    exact .inr ⟨t, rest, rfl, hstatus, (Prod.mk.inj (some.inj h)).2.symm⟩

/-! ## Instructions -/

theorem Kernel.load_load (K : Kernel) (is rest : List Instr) :
    (K.load rest).load is = K.load is := by
  show { K with code := update (update K.code K.cur rest) K.cur is } = K.load is
  rw [update_idem]
  rfl

theorem Kernel.code_load (K : Kernel) (is : List Instr) : (K.load is).code (K.load is).cur = is :=
  update_self _ _ _

theorem of_intrSetLevel (h : Instr.exec page .intrSetLevel K = some ((), K')) :
    ∃ level rest, K.levels K.cur = level :: rest ∧
      K' = { K with levels := update K.levels K.cur rest, intr := level } := by
  rw [Instr.exec, get_bind] at h
  cases hl : K.levels K.cur with
  | nil =>
    rw [hl] at h
    cases h
  | cons level rest =>
    rw [hl] at h
    exact ⟨level, rest, rfl, (Prod.mk.inj (some.inj h)).2.symm⟩

/-- The state after `palloc_get_page` and `init_thread`. -/
def Kernel.born (K : Kernel) (t : Tid) (b : Bool) : Kernel :=
  { K with
    status := update K.status t (some .blocked)
    wait := update K.wait t (some (.newborn K.cur))
    code := update K.code t (entry b)
    levels := update K.levels t []
    child := update K.child K.cur (some t)
    log := .created t :: K.log }

/-- `thread_create` gets a page that is not in use, or none. -/
theorem of_alloc {b : Bool} (hcur : K.status K.cur ≠ none)
    (h : Instr.exec page (.alloc b) K = some ((), K')) : K' = K ∨ ∃ t, K.status t = none ∧
      t ≠ K.cur ∧ K' = (K.born t b).load (createTail ++ K.code K.cur) := by
  rw [Instr.exec, get_bind] at h
  cases page with
  | none => exact .inl (Prod.mk.inj (some.inj h)).2.symm
  | some t =>
    by_cases ht : K.status t = none
    · have hne : t ≠ K.cur := fun he => hcur (he ▸ ht)
      simp only [if_pos ht] at h
      refine .inr ⟨t, ht, hne, ?_⟩
      rw [← update_of_ne (Ne.symm hne) (entry b) K.code]
      exact (Prod.mk.inj (some.inj h)).2.symm
    · simp only [if_neg ht] at h
      exact .inl (Prod.mk.inj (some.inj h)).2.symm

theorem of_launch (h : Instr.exec page .launch K = some ((), K')) :
    (K.child K.cur = none ∧ K' = K) ∨ ∃ t K1, K.child K.cur = some t ∧
      unblockThread t K = some ((), K1) ∧
        K' = { K1 with child := update K1.child K1.cur none } := by
  rw [Instr.exec, get_bind] at h
  cases hc : K.child K.cur with
  | none =>
    rw [hc] at h
    exact .inl ⟨rfl, (Prod.mk.inj (some.inj h)).2.symm⟩
  | some t =>
    rw [hc] at h
    obtain ⟨_, K1, hu, h⟩ := of_bind_eq h
    exact .inr ⟨t, K1, rfl, hu, (Prod.mk.inj (some.inj h)).2.symm⟩

theorem of_idleLoop (h : Instr.exec page .idleLoop K = some ((), K')) :
    K' = K.load ([.intrOff, .block .idle, .intrOn, .idleLoop] ++ K.code K.cur) :=
  (Prod.mk.inj (some.inj h)).2.symm

/-- The state after `sema->value--`. -/
def Kernel.taken (K : Kernel) (s : SemaId) : Kernel :=
  { K with value := update K.value s (K.value s - 1), log := .down s K.cur :: K.log }

theorem of_downLoop (h : Instr.exec page (.downLoop s) K = some ((), K')) :
    (K.value s = 0 ∧ blockThread (.sema s) { K.load (.downLoop s :: K.code K.cur) with
      waiters := update K.waiters s (K.waiters s ++ [K.cur]) } = some ((), K')) ∨
    (0 < K.value s ∧ K' = K.taken s) := by
  rw [Instr.exec, get_bind] at h
  by_cases hv : K.value s = 0
  · rw [if_pos hv] at h
    exact .inl ⟨hv, h⟩
  · rw [if_neg hv] at h
    exact .inr ⟨Nat.pos_of_ne_zero hv, (Prod.mk.inj (some.inj h)).2.symm⟩

theorem of_tryDown (h : Instr.exec page (.tryDown s) K = some ((), K')) :
    (K.value s = 0 ∧ K' = K) ∨ (0 < K.value s ∧ K' = K.taken s) := by
  rw [Instr.exec, get_bind] at h
  by_cases hv : 0 < K.value s
  · rw [if_pos hv] at h
    exact .inr ⟨hv, (Prod.mk.inj (some.inj h)).2.symm⟩
  · rw [if_neg hv] at h
    exact .inl ⟨Nat.eq_zero_of_not_pos hv, (Prod.mk.inj (some.inj h)).2.symm⟩

theorem of_assertFree (h : Instr.exec page (.assertFree l) K = some ((), K')) :
    K.holder l ≠ some K.cur ∧ K' = K := by
  rw [Instr.exec, get_bind] at h
  exact of_assert_eq h

theorem of_assertHeld (h : Instr.exec page (.assertHeld l) K = some ((), K')) :
    K.holder l = some K.cur ∧ K' = K := by
  rw [Instr.exec, get_bind] at h
  exact of_assert_eq h

theorem of_tryLock (h : Instr.exec page (.tryLock l) K = some ((), K')) :
    (K.value (.lock l) = 0 ∧ K' = K.load (.intrSetLevel :: K.code K.cur)) ∨
    (0 < K.value (.lock l) ∧
      K' = (K.taken (.lock l)).load (.intrSetLevel :: .setHolder l :: K.code K.cur)) := by
  rw [Instr.exec, get_bind] at h
  by_cases hv : 0 < K.value (.lock l)
  · rw [if_pos hv] at h
    exact .inr ⟨hv, (Prod.mk.inj (some.inj h)).2.symm⟩
  · rw [if_neg hv] at h
    exact .inl ⟨Nat.eq_zero_of_not_pos hv, (Prod.mk.inj (some.inj h)).2.symm⟩

theorem of_popWaiter (h : Instr.exec page (.popWaiter c) K = some ((), K')) :
    (K.cond c = [] ∧ K' = { K with log := .signals c K.cur none :: K.log }) ∨
    ∃ t rest, K.cond c = t :: rest ∧ K' = ({ K with
      cond := update K.cond c rest
      log := .signals c K.cur (some t) :: K.log }).load (semaUp (.waiter t) ++ K.code K.cur) := by
  rw [Instr.exec, get_bind] at h
  cases hc : K.cond c with
  | nil =>
    rw [hc] at h
    exact .inl ⟨rfl, (Prod.mk.inj (some.inj h)).2.symm⟩
  | cons t rest =>
    rw [hc] at h
    exact .inr ⟨t, rest, rfl, (Prod.mk.inj (some.inj h)).2.symm⟩

theorem of_broadcast (h : Instr.exec page (.broadcast c) K = some ((), K')) :
    (K.cond c = [] ∧ K' = { K with log := .broadcasted c K.cur :: K.log }) ∨
    (K.cond c ≠ [] ∧ K' = K.load (condSignal c ++ .broadcast c :: K.code K.cur)) := by
  rw [Instr.exec, get_bind] at h
  by_cases hc : K.cond c = []
  · rw [if_pos hc] at h
    exact .inl ⟨hc, (Prod.mk.inj (some.inj h)).2.symm⟩
  · rw [if_neg hc] at h
    exact .inr ⟨hc, (Prod.mk.inj (some.inj h)).2.symm⟩

/-! ## Instructions that only concern the scheduler -/

/-- The instructions that touch no semaphore, lock or condition variable. -/
def Instr.Plain : Instr → Prop
  | intrOn | intrOff | intrDisable | intrSetLevel | block _ | unblock _ | yield | exit | nextTid =>
      True
  | launch | setIdle | idleLoop => True
  | _ => False

/-- An event of the scheduler. -/
def Event.OfSched : Event → Prop
  | created _ | started _ | exited _ | freed _ => True
  | _ => False

/-- Semaphore values, locks and condition variables are the same. -/
structure Quiet (K K' : Kernel) : Prop where
  value : K'.value = K.value
  holder : K'.holder = K.holder
  cond : K'.cond = K.cond
  handler : K'.handler = K.handler
  waiters : K'.waiters = K.waiters
  log : ∃ es, K'.log = es ++ K.log ∧ ∀ e ∈ es, e.OfSched

theorem quiet_of_log (hvalue : K'.value = K.value) (hholder : K'.holder = K.holder)
    (hcond : K'.cond = K.cond) (hhandler : K'.handler = K.handler)
    (hwaiters : K'.waiters = K.waiters) (hlog : K'.log = K.log) : Quiet K K' :=
  ⟨hvalue, hholder, hcond, hhandler, hwaiters, [], hlog, forall_mem_nil _⟩

theorem switchTo_status (K : Kernel) (next t : Tid) : (K.switchTo next).status t = some .running ∨
    (K.switchTo next).status t = none ∧ t = K.cur ∧ K.status t = some .dying ∨
    (K.switchTo next).status t = K.status t := by
  rw [Kernel.switchTo]
  dsimp only
  by_cases hn : t = next
  · rw [hn, update_self]
    exact .inl rfl
  · rw [update_of_ne hn]
    split
    · rename_i hl
      by_cases hc : t = K.cur
      · rw [hc, update_self]
        exact .inr (.inl ⟨rfl, rfl, hl.1⟩)
      · rw [update_of_ne hc]
        exact .inr (.inr rfl)
    · exact .inr (.inr rfl)

/-- A context switch is quiet; it frees the page of the running thread at most, if that is dying. -/
theorem quiet_schedule (h : schedule K = some ((), K')) : Quiet K K' ∧ K'.code = K.code ∧
    (∀ t, K'.status t = none → K.status t = none ∨ t = K.cur ∧ K.status t = some .dying) ∧
    ∀ t, K'.status t = some .blocked → K.status t = some .blocked := by
  obtain ⟨next, -, -, -, rfl⟩ := of_schedule h
  refine ⟨⟨rfl, rfl, rfl, rfl, rfl,
    (if K.Leaves next then [.freed K.cur] else []) ++ [.started next], ?_, ?_⟩,
    rfl, fun t ht => ?_, fun t ht => ?_⟩
  · rw [append_assoc]
    rfl
  · intro e he
    rcases mem_append.mp he with he | he
    · split at he
      · rw [mem_singleton.mp he]
        trivial
      · cases he
    · rw [mem_singleton.mp he]
      trivial
  · rcases switchTo_status K next t with h | ⟨-, h⟩ | h
    · rw [ht] at h
      cases h
    · exact .inr h
    · exact .inl (h.symm.trans ht)
  · rcases switchTo_status K next t with h | ⟨h, -⟩ | h
    · rw [ht] at h
      cases h
    · rw [ht] at h
      cases h
    · exact h.symm.trans ht

/-- After changes to the scheduler's part of the state. -/
theorem Quiet.of_same {K1 : Kernel} (h : Quiet K1 K') (hvalue : K1.value = K.value)
    (hholder : K1.holder = K.holder) (hcond : K1.cond = K.cond) (hhandler : K1.handler = K.handler)
    (hwaiters : K1.waiters = K.waiters) (hlog : ∃ es, K1.log = es ++ K.log ∧ ∀ e ∈ es, e.OfSched) :
    Quiet K K' := by
  obtain ⟨es, hes, hs⟩ := hlog
  obtain ⟨es', hes', hs'⟩ := h.log
  refine ⟨h.value.trans hvalue, h.holder.trans hholder, h.cond.trans hcond,
    h.handler.trans hhandler, h.waiters.trans hwaiters, es' ++ es, ?_,
    forall_mem_append.mpr ⟨hs', hs⟩⟩
  rw [hes', hes, append_assoc]

theorem of_update {α : Type} {f : Tid → α} {x y : α} (h : update f u x t = y)
    (hy : x ≠ y) :
    t ≠ u ∧ f t = y := by
  by_cases hu : t = u
  · rw [hu, update_self] at h
    exact absurd h hy
  · rw [update_of_ne hu] at h
    exact ⟨hu, h⟩

theorem quiet_blockThread (h : blockThread w K = some ((), K')) : Quiet K K' ∧ K'.code = K.code ∧
    (∀ t, K'.status t = none → K.status t = none) ∧
    ∀ t, K'.status t = some .blocked → K.status t = some .blocked ∨ t = K.cur := by
  obtain ⟨-, -, hs⟩ := of_blockThread h
  obtain ⟨hq, hcode, hnone, hblocked⟩ := quiet_schedule hs
  refine ⟨hq.of_same rfl rfl rfl rfl rfl ⟨[], rfl, forall_mem_nil _⟩, hcode, fun t ht => ?_,
    fun t ht => or_iff_not_imp_right.mpr fun hne => ?_⟩
  · rcases hnone t ht with ht | ⟨rfl, ht⟩
    · exact (of_update ht (by simp)).2
    · exact absurd ((update_self _ _ _).symm.trans ht) (by simp)
  · exact (update_of_ne hne _ _).symm.trans (hblocked t ht)

theorem quiet_yieldThread (h : yieldThread K = some ((), K')) : Quiet K K' ∧ K'.code = K.code ∧
    (∀ t, K'.status t = none → K.status t = none) ∧
    ∀ t, K'.status t = some .blocked → K.status t = some .blocked := by
  obtain ⟨-, -, hs⟩ := of_yieldThread h
  obtain ⟨hq, hcode, hnone, hblocked⟩ := quiet_schedule hs
  refine ⟨hq.of_same rfl rfl rfl rfl rfl ⟨[], rfl, forall_mem_nil _⟩, hcode, fun t ht => ?_,
    fun t ht => (of_update (hblocked t ht) (by simp)).2⟩
  rcases hnone t ht with ht | ⟨rfl, ht⟩
  · exact (of_update ht (by simp)).2
  · exact absurd ((update_self _ _ _).symm.trans ht) (by simp)

theorem upSema_frame (h : upSema s K = some ((), K')) :
    K'.value = update K.value s ((K.value s + 1) % 2 ^ 32) ∧ K'.log = .up s K.cur :: K.log ∧
    K'.holder = K.holder ∧ K'.cond = K.cond ∧ K'.code = K.code ∧ K'.handler = K.handler ∧
    K'.cur = K.cur ∧ (∀ r, r ≠ s → K'.waiters r = K.waiters r) ∧
    (∀ t, K'.status t = none → K.status t = none) ∧
    ∀ t, K'.status t = some .blocked → K.status t = some .blocked := by
  rcases of_upSema h with ⟨-, rfl⟩ | ⟨u, ws, -, hu, rfl⟩
  · exact ⟨rfl, rfl, rfl, rfl, rfl, rfl, rfl, fun _ _ => rfl, fun _ => id, fun _ => id⟩
  · exact ⟨rfl, rfl, rfl, rfl, rfl, rfl, rfl, fun r hr => update_of_ne hr _ _,
      fun t ht => (of_update ht (by simp)).2, fun t ht => (of_update ht (by simp)).2⟩

/-- **What is plain is quiet**: the thread goes on with the rest of its code. -/
theorem quiet_exec {i : Instr} (hi : i.Plain) (h : i.exec page (K.load rest) = some ((), K')) :
    Quiet K K' ∧ (∃ is, K'.code = update K.code K.cur (is ++ rest) ∧
        (∀ x ∈ is, x.Plain ∧ x ≠ .exit) ∧ (is = [] ∨ i = .idleLoop)) ∧
      (∀ t, K'.status t = none → K.status t = none ∨ t = K.cur ∧ i = .exit) ∧
      ∀ t, K'.status t = some .blocked → K.status t = some .blocked ∨ t = K.cur ∧
        ∃ w, i = .block w := by
  have hnil : ∀ x ∈ ([] : List Instr), x.Plain ∧ x ≠ .exit := forall_mem_nil _
  cases i with
  | intrOn | intrOff | intrDisable | nextTid | setIdle =>
    cases h
    exact ⟨quiet_of_log rfl rfl rfl rfl rfl rfl, ⟨[], rfl, hnil, .inl rfl⟩, fun _ => .inl,
      fun _ => .inl⟩
  | intrSetLevel =>
    obtain ⟨_, _, -, rfl⟩ := of_intrSetLevel h
    exact ⟨quiet_of_log rfl rfl rfl rfl rfl rfl, ⟨[], rfl, hnil, .inl rfl⟩, fun _ => .inl,
      fun _ => .inl⟩
  | block w =>
    obtain ⟨hq, hcode, hnone, hblocked⟩ := quiet_blockThread h
    exact ⟨hq.of_same rfl rfl rfl rfl rfl ⟨[], rfl, forall_mem_nil _⟩,
      ⟨[], hcode, hnil, .inl rfl⟩, fun t ht => .inl (hnone t ht), fun t ht =>
      (hblocked t ht).imp_right fun ht => ⟨ht, w, rfl⟩⟩
  | unblock u =>
    obtain ⟨-, rfl⟩ := of_unblockThread h
    exact ⟨quiet_of_log rfl rfl rfl rfl rfl rfl, ⟨[], rfl, hnil, .inl rfl⟩,
      fun t ht => .inl (of_update ht (by simp)).2,
      fun t ht => .inl (of_update ht (by simp)).2⟩
  | yield =>
    obtain ⟨hq, hcode, hnone, hblocked⟩ := quiet_yieldThread h
    exact ⟨hq.of_same rfl rfl rfl rfl rfl ⟨[], rfl, forall_mem_nil _⟩,
      ⟨[], hcode, hnil, .inl rfl⟩, fun t ht => .inl (hnone t ht), fun t ht => .inl (hblocked t ht)⟩
  | exit =>
    obtain ⟨-, hs⟩ := of_exitThread h
    obtain ⟨hq, hcode, hnone, hblocked⟩ := quiet_schedule hs
    refine ⟨hq.of_same rfl rfl rfl rfl rfl ⟨[.exited K.cur], rfl, ?_⟩, ⟨[], hcode, hnil, .inl rfl⟩,
      fun t ht => ?_, fun t ht => .inl (of_update (hblocked t ht) (by simp)).2⟩
    · intro e he
      rw [mem_singleton.mp he]
      trivial
    · rcases hnone t ht with ht | ht
      · exact .inl (of_update ht (by simp)).2
      · exact .inr ⟨ht.1, rfl⟩
  | launch =>
    rcases of_launch h with ⟨-, rfl⟩ | ⟨t, K1, -, hu, rfl⟩
    · exact ⟨quiet_of_log rfl rfl rfl rfl rfl rfl, ⟨[], rfl, hnil, .inl rfl⟩, fun _ => .inl,
        fun _ => .inl⟩
    · obtain ⟨-, rfl⟩ := of_unblockThread hu
      exact ⟨quiet_of_log rfl rfl rfl rfl rfl rfl, ⟨[], rfl, hnil, .inl rfl⟩,
        fun t ht => .inl (of_update ht (by simp)).2,
        fun t ht => .inl (of_update ht (by simp)).2⟩
  | idleLoop =>
    obtain rfl := of_idleLoop h
    rw [K.code_load, K.load_load]
    refine ⟨quiet_of_log rfl rfl rfl rfl rfl rfl, ⟨_, rfl, ?_, .inr rfl⟩, fun _ => .inl,
      fun _ => .inl⟩
    simp [Instr.Plain]
  | _ => exact absurd hi id

/-- After an instruction the same thread runs, or `schedule` was called. -/
theorem cur_exec {i : Instr} (hcur : K.status K.cur ≠ none) (h : i.exec page K = some ((), K')) :
    K'.cur = K.cur ∧ (∀ t, K'.status t = none → K.status t = none) ∨
      K'.intr = false ∧ K'.status K'.cur = some .running := by
  cases i with
  | intrOn | intrOff | intrDisable | nextTid | setIdle | idleLoop | semaInit | setHolder
  | clearHolder | pushWaiter | beginBroadcast | waited =>
    cases h
    exact .inl ⟨rfl, fun _ => id⟩
  | intrSetLevel =>
    obtain ⟨_, _, -, rfl⟩ := of_intrSetLevel h
    exact .inl ⟨rfl, fun _ => id⟩
  | block w => exact .inr (of_switch (of_blockThread h).2.2)
  | yield => exact .inr (of_switch (of_yieldThread h).2.2)
  | exit => exact .inr (of_switch (of_exitThread h).2)
  | unblock t =>
    obtain ⟨-, rfl⟩ := of_unblockThread h
    exact .inl ⟨rfl, fun t ht => (of_update ht (by simp)).2⟩
  | alloc b =>
    rcases of_alloc hcur h with rfl | ⟨t, -, -, rfl⟩
    · exact .inl ⟨rfl, fun _ => id⟩
    · exact .inl ⟨rfl, fun t ht => (of_update ht (by simp)).2⟩
  | launch =>
    rcases of_launch h with ⟨-, rfl⟩ | ⟨t, K1, -, hu, rfl⟩
    · exact .inl ⟨rfl, fun _ => id⟩
    · obtain ⟨-, rfl⟩ := of_unblockThread hu
      exact .inl ⟨rfl, fun t ht => (of_update ht (by simp)).2⟩
  | downLoop s =>
    rcases of_downLoop h with ⟨-, hb⟩ | ⟨-, rfl⟩
    · exact .inr (of_switch (of_blockThread hb).2.2)
    · exact .inl ⟨rfl, fun _ => id⟩
  | tryDown s =>
    rcases of_tryDown h with ⟨-, rfl⟩ | ⟨-, rfl⟩
    · exact .inl ⟨rfl, fun _ => id⟩
    · exact .inl ⟨rfl, fun _ => id⟩
  | up s =>
    obtain ⟨-, -, -, -, -, -, hcur, -, hnone, -⟩ := upSema_frame h
    exact .inl ⟨hcur, hnone⟩
  | assertFree l =>
    obtain ⟨-, rfl⟩ := of_assertFree h
    exact .inl ⟨rfl, fun _ => id⟩
  | assertHeld l =>
    obtain ⟨-, rfl⟩ := of_assertHeld h
    exact .inl ⟨rfl, fun _ => id⟩
  | tryLock l =>
    rcases of_tryLock h with ⟨-, rfl⟩ | ⟨-, rfl⟩
    · exact .inl ⟨rfl, fun _ => id⟩
    · exact .inl ⟨rfl, fun _ => id⟩
  | popWaiter c =>
    rcases of_popWaiter h with ⟨-, rfl⟩ | ⟨t, ts, -, rfl⟩
    · exact .inl ⟨rfl, fun _ => id⟩
    · exact .inl ⟨rfl, fun _ => id⟩
  | broadcast c =>
    rcases of_broadcast h with ⟨-, rfl⟩ | ⟨-, rfl⟩
    · exact .inl ⟨rfl, fun _ => id⟩
    · exact .inl ⟨rfl, fun _ => id⟩

/-! ## Handlers and steps -/

theorem of_handler_tryAcquire {n : Nat}
    (h : HandlerCall.exec (.lockTryAcquire n) K = some ((), K')) : K.holder (.user n) ≠ some K.cur ∧
    ((K.value (.lock (.user n)) = 0 ∧ K' = K) ∨ (0 < K.value (.lock (.user n)) ∧
      K' = { K.taken (.lock (.user n)) with
        holder := update K.holder (.user n) (some K.cur)
        log := .acquired (.user n) K.cur :: (K.taken (.lock (.user n))).log
        handler := K.handler.map (.user n :: ·) })) := by
  rw [HandlerCall.exec] at h
  obtain ⟨_, K1, hfree, hrest⟩ := of_bind_eq h
  obtain ⟨hfree, rfl⟩ := of_assertFree hfree
  refine ⟨hfree, ?_⟩
  rw [get_bind] at hrest
  by_cases hv : 0 < K1.value (.lock (.user n))
  · rw [if_pos hv] at hrest
    exact .inr ⟨hv, (Prod.mk.inj (some.inj hrest)).2.symm⟩
  · rw [if_neg hv] at hrest
    exact .inl ⟨Nat.eq_zero_of_not_pos hv, (Prod.mk.inj (some.inj hrest)).2.symm⟩

theorem of_handler_release {n : Nat} (h : HandlerCall.exec (.lockRelease n) K = some ((), K')) :
    K.holder (.user n) = some K.cur ∧ ∃ K1, upSema (.lock (.user n)) { K with
        holder := update K.holder (.user n) none
        log := .released (.user n) K.cur :: K.log } = some ((), K1) ∧
      K' = { K1 with handler := K1.handler.map (·.erase (.user n)) } := by
  rw [HandlerCall.exec] at h
  obtain ⟨_, K1, hheld, hrest⟩ := of_bind_eq h
  obtain ⟨hheld, rfl⟩ := of_assertHeld hheld
  obtain ⟨_, K2, hclear, hrest'⟩ := of_bind_eq hrest
  cases hclear
  obtain ⟨_, K3, hup, hlast⟩ := of_bind_eq hrest'
  exact ⟨hheld, K3, hup, (Prod.mk.inj (some.inj hlast)).2.symm⟩

theorem of_step_run (h : K.step (.run page) = some K') : ∃ i rest, K.handler = none ∧
    K.code K.cur = i :: rest ∧ i.Proper K ∧ i.exec page (K.load rest) = some ((), K') := by
  rw [Kernel.step] at h
  cases hh : K.handler with
  | some taken =>
    rw [hh] at h
    cases h
  | none =>
    cases hc : K.code K.cur with
    | nil =>
      rw [hh, hc] at h
      cases h
    | cons i rest =>
      rw [hh, hc] at h
      dsimp only at h
      split at h
      · rename_i hp
        obtain ⟨⟨⟨⟩, K1⟩, he, rfl⟩ := Option.map_eq_some_iff.mp h
        exact ⟨i, rest, rfl, rfl, hp, he⟩
      · cases h

theorem of_step_call {c : Call} (h : K.step (.call c) = some K') : K.handler = none ∧
    K.code K.cur = [] ∧ c.Proper K ∧ K' = K.load (c.code K.cur) := by
  rw [Kernel.step] at h
  split at h
  · rename_i hc
    exact ⟨hc.1, hc.2.1, hc.2.2, (some.inj h).symm⟩
  · cases h

theorem of_step_interrupt (h : K.step .interrupt = some K') : K.handler = none ∧ K.intr = true ∧
    K' = { K with handler := some [], intr := false } := by
  rw [Kernel.step] at h
  split at h
  · rename_i hc
    exact ⟨hc.1, hc.2, (some.inj h).symm⟩
  · cases h

theorem of_step_handle {c : HandlerCall} (h : K.step (.handle c) = some K') :
    ∃ taken, K.handler = some taken ∧ c.Proper K taken ∧ c.exec K = some ((), K') := by
  rw [Kernel.step] at h
  cases hh : K.handler with
  | none =>
    rw [hh] at h
    cases h
  | some taken =>
    rw [hh] at h
    dsimp only at h
    split at h
    · rename_i hp
      obtain ⟨⟨⟨⟩, K1⟩, he, rfl⟩ := Option.map_eq_some_iff.mp h
      exact ⟨taken, rfl, hp, he⟩
    · cases h

theorem of_step_leave {b : Bool} (h : K.step (.leave b) = some K') : K.handler ≠ none ∧
    (yieldThread { K.load (.intrOn :: K.code K.cur) with handler := none } = some ((), K') ∨
      K' = { K with handler := none, intr := true }) := by
  rw [Kernel.step] at h
  cases hh : K.handler with
  | none =>
    rw [hh] at h
    cases h
  | some taken =>
    rw [hh] at h
    refine ⟨Option.some_ne_none _, ?_⟩
    dsimp only at h
    split at h
    · obtain ⟨⟨⟨⟩, K1⟩, he, rfl⟩ := Option.map_eq_some_iff.mp h
      exact .inl he
    · exact .inr (some.inj h).symm

/-- The page of the running thread is in use, whatever the threads do. -/
theorem alive_step {act : Act} (hcur : K.status K.cur ≠ none) (h : K.step act = some K') :
    K'.status K'.cur ≠ none := by
  have hsame {K' : Kernel} (hc : K'.cur = K.cur) (hs : ∀ t, K'.status t = none →
    K.status t = none) :
      K'.status K'.cur ≠ none := fun hn => hcur (hc ▸ hs _ hn)
  cases act with
  | run page =>
    obtain ⟨i, rest, -, -, -, he⟩ := of_step_run h
    rcases cur_exec (K := K.load rest) hcur he with ⟨hc, hs⟩ | ⟨-, hr⟩
    · exact hsame hc hs
    · rw [hr]
      simp
  | call c =>
    obtain ⟨-, -, -, rfl⟩ := of_step_call h
    exact hcur
  | interrupt =>
    obtain ⟨-, -, rfl⟩ := of_step_interrupt h
    exact hcur
  | handle c =>
    obtain ⟨taken, -, -, he⟩ := of_step_handle h
    cases c with
    | semaTryDown n =>
      have he : Instr.exec none (.tryDown (.user n)) K = some ((), K') := he
      rcases of_tryDown he with ⟨-, rfl⟩ | ⟨-, rfl⟩
      · exact hcur
      · exact hcur
    | semaUp n =>
      obtain ⟨-, -, -, -, -, -, hc, -, hs, -⟩ := upSema_frame he
      exact hsame hc hs
    | threadUnblock u =>
      obtain ⟨-, rfl⟩ := of_unblockThread he
      exact hsame rfl fun t ht => (of_update ht (by simp)).2
    | lockTryAcquire n =>
      rcases (of_handler_tryAcquire he).2 with ⟨-, rfl⟩ | ⟨-, rfl⟩
      · exact hcur
      · exact hcur
    | lockRelease n =>
      obtain ⟨-, K1, hup, rfl⟩ := of_handler_release he
      obtain ⟨-, -, -, -, -, -, hc, -, hs, -⟩ := upSema_frame hup
      exact hsame hc hs
  | leave b =>
    rcases (of_step_leave h).2 with hy | rfl
    · rw [(of_switch (of_yieldThread hy).2.2).2]
      simp
    · exact hcur

end SystemProg.Threads
