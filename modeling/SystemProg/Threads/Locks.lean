import Mathlib.Data.List.Nodup
import SystemProg.Threads.Scheduler

/-!
# Semaphores and locks

What `threads/synch.c` guarantees of `struct semaphore` and `struct lock`, over every run of the
machine of `Kernel.lean`. `lock->holder` is written outside the section with interrupts off, after
the down and before the up; so a lock has three states (`Owner`), and in the middle one a thread has
the unit but is not the holder. A thread's place with respect to a lock fits the code that it still
has to run (`LockCode`), which is what keeps the others out.

An interrupt handler takes and releases locks in the name of the thread that it interrupted. What it
keeps is that thread's when it returns.

* `Counted.step`: each atomic update of a semaphore is counted once.
* `Locked.step`: each lock has its owner, whatever the threads and handlers do.
* `semaphores_and_locks`: the value of a semaphore, the holder of a lock and the value of its
  semaphore are what the history says.
-/

namespace SystemProg.Threads

open Function SystemProg.Seq List Option

variable {K K' : Kernel} {t u : Tid} {s : SemaId} {l : LockId} {c : CondId} {i : Instr}
  {page : Option Tid} {is rest : List Instr} {log es : List Event} {e : Event}

/-! ## What the history says -/

/-- The value that `s` was last initialised to; `boot` is the one at the start. -/
def initialValue (boot : Nat) (s : SemaId) : List Event → Nat
  | [] => boot
  | .init r n :: log => if r = s then n else initialValue boot s log
  | _ :: log => initialValue boot s log

/-- The calls of `sema_up` since then. -/
def ups (s : SemaId) : List Event → Nat
  | [] => 0
  | .init r _ :: log => if r = s then 0 else ups s log
  | .up r _ :: log => if r = s then ups s log + 1 else ups s log
  | _ :: log => ups s log

/-- The calls of `sema_down` and the successful calls of `sema_try_down` since then. -/
def downs (s : SemaId) : List Event → Nat
  | [] => 0
  | .init r _ :: log => if r = s then 0 else downs s log
  | .down r _ :: log => if r = s then downs s log + 1 else downs s log
  | _ :: log => downs s log

/-- The threads that have passed the down of the lock's semaphore without the matching up. -/
def passed (l : LockId) : List Event → List Tid
  | [] => []
  | .down s t :: log => if s = .lock l then t :: passed l log else passed l log
  | .up s t :: log => if s = .lock l then (passed l log).erase t else passed l log
  | _ :: log => passed l log

/-- The threads between the return of `lock_acquire` or a successful `lock_try_acquire` and their
`lock_release`. -/
def between (l : LockId) : List Event → List Tid
  | [] => []
  | .acquired r t :: log => if r = l then t :: between l log else between l log
  | .released r t :: log => if r = l then (between l log).erase t else between l log
  | _ :: log => between l log

theorem append_of_sched {α : Type} {f : List Event → α}
    (hf : ∀ e log, e.OfSched → f (e :: log) = f log) (h : ∀ e ∈ es, e.OfSched) :
    f (es ++ log) = f log := by
  induction es with
  | nil => rfl
  | cons e es ih =>
    rw [cons_append, hf e _ (h e mem_cons_self)]
    exact ih fun e he => h e (mem_cons_of_mem _ he)

theorem initialValue_sched {n : Nat} (h : ∀ e ∈ es, e.OfSched) :
    initialValue n s (es ++ log) = initialValue n s log :=
  append_of_sched (fun e _ he => by cases e <;> first | rfl | cases he) h

theorem ups_sched (h : ∀ e ∈ es, e.OfSched) : ups s (es ++ log) = ups s log :=
  append_of_sched (fun e _ he => by cases e <;> first | rfl | cases he) h

theorem downs_sched (h : ∀ e ∈ es, e.OfSched) : downs s (es ++ log) = downs s log :=
  append_of_sched (fun e _ he => by cases e <;> first | rfl | cases he) h

theorem passed_sched (h : ∀ e ∈ es, e.OfSched) : passed l (es ++ log) = passed l log :=
  append_of_sched (fun e _ he => by cases e <;> first | rfl | cases he) h

theorem between_sched (h : ∀ e ∈ es, e.OfSched) : between l (es ++ log) = between l log :=
  append_of_sched (fun e _ he => by cases e <;> first | rfl | cases he) h

/-! ## Values of semaphores -/

/-- Every semaphore has its initial value plus the ups minus the downs, as an `unsigned`. -/
def Counted (boot value : SemaId → Nat) (log : List Event) : Prop :=
  ∀ s, downs s log ≤ initialValue (boot s) s log + ups s log ∧
    value s = (initialValue (boot s) s log + ups s log - downs s log) % 2 ^ 32

/-- The events that change no semaphore. -/
def Event.NoSema : Event → Prop
  | init _ _ | up _ _ | down _ _ => False
  | _ => True

section Counted

variable {boot value : SemaId → Nat}

theorem Counted.other (h : Counted boot value log) (he : e.NoSema) :
    Counted boot value (e :: log) := by
  intro s
  cases e <;> first | exact h s | cases he

theorem Quiet.counted {K K' : Kernel} (hq : Quiet K K') (h : Counted boot K.value K.log) :
    Counted boot K'.value K'.log := by
  obtain ⟨es, hes, hs⟩ := hq.log
  intro s
  rw [hq.value, hes, initialValue_sched hs, ups_sched hs, downs_sched hs]
  exact h s

theorem Counted.init (h : Counted boot value log) (s : SemaId) (n : Nat) :
    Counted boot (update value s (n % 2 ^ 32)) (.init s (n % 2 ^ 32) :: log) := by
  intro r
  by_cases hr : s = r
  · simp [hr, downs, ups, initialValue]
  · simpa [hr, Ne.symm hr, downs, ups, initialValue] using h r

theorem Counted.up (h : Counted boot value log) (s : SemaId) (t : Tid) :
    Counted boot (update value s ((value s + 1) % 2 ^ 32)) (.up s t :: log) := by
  intro r
  by_cases hr : s = r
  · have := h s
    simp only [← hr, downs, ups, initialValue, if_true, update_self]
    omega
  · simpa [hr, Ne.symm hr, downs, ups, initialValue] using h r

theorem Counted.down (h : Counted boot value log) (hs : 0 < value s) (t : Tid) :
    Counted boot (update value s (value s - 1)) (.down s t :: log) := by
  intro r
  by_cases hr : s = r
  · have := h s
    simp only [← hr, downs, ups, initialValue, if_true, update_self]
    omega
  · simpa [hr, Ne.symm hr, downs, ups, initialValue] using h r

theorem counted_upSema (hu : upSema s K = some ((), K')) (h : Counted boot K.value K.log) :
    Counted boot K'.value K'.log := by
  rcases of_upSema hu with ⟨-, rfl⟩ | ⟨t, ws, -, -, rfl⟩
  · exact h.up s _
  · exact h.up s _

/-- **One instruction** counts right. -/
theorem Counted.exec (h : Counted boot K.value K.log) (hcur : K.status K.cur ≠ none)
    (he : i.exec page (K.load rest) = some ((), K')) : Counted boot K'.value K'.log := by
  have hplain (hi : i.Plain) : Counted boot K'.value K'.log := (quiet_exec hi he).1.counted h
  cases i with
  | alloc b =>
    rcases of_alloc (K := K.load rest) hcur he with rfl | ⟨t, -, -, rfl⟩
    · exact h
    · exact h.other trivial
  | semaInit s n =>
    cases he
    exact h.init s n
  | downLoop s =>
    rcases of_downLoop he with ⟨-, hb⟩ | ⟨hv, rfl⟩
    · exact (quiet_blockThread hb).1.counted h
    · exact h.down hv _
  | tryDown s =>
    rcases of_tryDown he with ⟨-, rfl⟩ | ⟨hv, rfl⟩
    · exact h
    · exact h.down hv _
  | up s => exact counted_upSema he h
  | assertFree l =>
    obtain ⟨-, rfl⟩ := of_assertFree he
    exact h
  | tryLock l =>
    rcases of_tryLock he with ⟨-, rfl⟩ | ⟨hv, rfl⟩
    · exact h
    · exact h.down hv _
  | assertHeld l =>
    obtain ⟨-, rfl⟩ := of_assertHeld he
    exact h
  | setHolder l | clearHolder l | pushWaiter c | beginBroadcast c | waited c =>
    cases he
    exact h.other trivial
  | popWaiter c =>
    rcases of_popWaiter he with ⟨-, rfl⟩ | ⟨t, ts, -, rfl⟩
    · exact h.other trivial
    · exact h.other trivial
  | broadcast c =>
    rcases of_broadcast he with ⟨-, rfl⟩ | ⟨-, rfl⟩
    · exact h.other trivial
    · exact h
  | _ => exact hplain trivial

/-- **One step** counts right. -/
theorem Counted.step {act : Act} (h : Counted boot K.value K.log) (hcur : K.status K.cur ≠ none)
    (hs : K.step act = some K') : Counted boot K'.value K'.log := by
  cases act with
  | run page =>
    obtain ⟨i, rest, -, -, -, he⟩ := of_step_run hs
    exact h.exec hcur he
  | call c =>
    obtain ⟨-, -, -, rfl⟩ := of_step_call hs
    exact h
  | interrupt =>
    obtain ⟨-, -, rfl⟩ := of_step_interrupt hs
    exact h
  | handle c =>
    obtain ⟨taken, -, -, he⟩ := of_step_handle hs
    cases c with
    | semaTryDown n =>
      have he : Instr.exec none (.tryDown (.user n)) K = some ((), K') := he
      rcases of_tryDown he with ⟨-, rfl⟩ | ⟨hv, rfl⟩
      · exact h
      · exact h.down hv _
    | semaUp n => exact counted_upSema he h
    | threadUnblock t =>
      obtain ⟨-, rfl⟩ := of_unblockThread he
      exact h
    | lockTryAcquire n =>
      rcases (of_handler_tryAcquire he).2 with ⟨-, rfl⟩ | ⟨hv, rfl⟩
      · exact h
      · exact (h.down hv _).other trivial
    | lockRelease n =>
      obtain ⟨-, K1, hup, rfl⟩ := of_handler_release he
      have h1 : Counted boot K.value (.released (.user n) K.cur :: K.log) := h.other trivial
      have h2 := counted_upSema hup h1
      exact h2
  | leave b =>
    rcases (of_step_leave hs).2 with hy | rfl
    · exact (quiet_yieldThread hy).1.counted h
    · exact h

end Counted

/-! ## Owners of locks -/

/-- What a lock is for: it is free, or one thread is inside its functions, or holds it. -/
inductive Owner where
  | free
  /-- `t` has passed the semaphore and is not, or no longer, the holder. -/
  | passing (t : Tid)
  | held (t : Tid)
  deriving DecidableEq

namespace Owner

/-- The value of the lock's semaphore. -/
def value : Owner → Nat
  | free => 1
  | _ => 0

/-- `lock->holder`. -/
def holder : Owner → Option Tid
  | held t => some t
  | _ => none

/-- Who has passed the semaphore. -/
def passed : Owner → List Tid
  | free => []
  | passing t | held t => [t]

/-- Where a thread is. -/
inductive Place where
  | outside
  | passing
  | inside
  deriving DecidableEq

/-- The place of `t`. -/
def place (t : Tid) : Owner → Place
  | free => .outside
  | passing u => if u = t then .passing else .outside
  | held u => if u = t then .inside else .outside

end Owner

open Owner (Place)

theorem Owner.place_eq_passing {o : Owner} : o.place t = .passing ↔ o = .passing t := by
  cases o <;> grind [Owner.place]

theorem Owner.place_eq_inside {o : Owner} : o.place t = .inside ↔ o = .held t := by
  cases o <;> grind [Owner.place]

section Shown

variable {value value' : SemaId → Nat} {holder : LockId → Option Tid} {log' : List Event}
  {own : LockId → Owner}

/-- The lock's fields and its history are as its owner says. -/
structure Shows (value : SemaId → Nat) (holder : LockId → Option Tid) (log : List Event)
    (l : LockId) (o : Owner) : Prop where
  value : value (.lock l) = o.value
  holder : holder l = o.holder
  passed : passed l log = o.passed
  between : between l log = o.holder.toList

/-- So for every lock. -/
def Shown (value : SemaId → Nat) (holder : LockId → Option Tid) (log : List Event)
    (own : LockId → Owner) : Prop := ∀ l, Shows value holder log l (own l)

theorem Shown.frame (h : Shown value holder log own)
    (hvalue : ∀ l, value' (.lock l) = value (.lock l))
    (hlog : ∀ l, passed l log' = passed l log ∧ between l log' = between l log) :
    Shown value' holder log' own := fun l =>
  ⟨(hvalue l).trans (h l).value, (h l).holder, (hlog l).1.trans (h l).passed,
    (hlog l).2.trans (h l).between⟩

theorem Quiet.shown {K K' : Kernel} (hq : Quiet K K') (h : Shown K.value K.holder K.log own) :
    Shown K'.value K'.holder K'.log own := by
  obtain ⟨es, hes, hs⟩ := hq.log
  rw [hq.value, hq.holder, hes]
  exact h.frame (fun _ => rfl) fun _ => ⟨passed_sched hs, between_sched hs⟩

theorem Shown.set {holder' : LockId → Option Tid} {o : Owner} (h : Shown value holder log own)
    (ho : Shows value' holder' log' l o)
    (hsame : ∀ r, r ≠ l → value' (.lock r) = value (.lock r) ∧ holder' r = holder r ∧
      passed r log' = passed r log ∧ between r log' = between r log) :
    Shown value' holder' log' (update own l o) := by
  intro r
  by_cases hr : r = l
  · rw [hr, update_self]
    exact ho
  · obtain ⟨hv, hh, hp, hb⟩ := hsame r hr
    rw [update_of_ne hr]
    exact ⟨hv.trans (h r).value, hh.trans (h r).holder, hp.trans (h r).passed,
      hb.trans (h r).between⟩

theorem Shown.take (h : Shown value holder log own) (hv : 0 < value (.lock l)) (t : Tid) :
    own l = .free ∧ Shown (update value (.lock l) (value (.lock l) - 1)) holder
      (.down (.lock l) t :: log) (update own l (.passing t)) := by
  have hl := h l
  have hfree : own l = .free := by
    have := hl.value
    cases ho : own l with
    | free => rfl
    | passing u | held u =>
      rw [ho] at this
      exact absurd this (Nat.ne_of_gt hv)
  rw [hfree] at hl
  refine ⟨hfree, h.set ⟨?_, hl.holder, ?_, hl.between⟩ fun r hr => ?_⟩
  · rw [update_self, hl.value]
    rfl
  · rw [Threads.passed, if_pos rfl, hl.passed]
    rfl
  · refine ⟨update_of_ne (by simpa using hr) _ _, rfl, if_neg ?_, rfl⟩
    simpa using Ne.symm hr

theorem Shown.hold (h : Shown value holder log own) (ho : own l = .passing t) :
    Shown value (update holder l (some t)) (.acquired l t :: log)
      (update own l (.held t)) := by
  have hl := h l
  rw [ho] at hl
  refine h.set ⟨hl.value, update_self _ _ _, hl.passed, ?_⟩ fun r hr =>
    ⟨rfl, update_of_ne hr _ _, rfl, if_neg (Ne.symm hr)⟩
  rw [Threads.between, if_pos rfl, hl.between]
  rfl

theorem Shown.clear (h : Shown value holder log own) (ho : own l = .held t) :
    Shown value (update holder l none) (.released l t :: log)
      (update own l (.passing t)) := by
  have hl := h l
  rw [ho] at hl
  refine h.set ⟨hl.value, update_self _ _ _, hl.passed, ?_⟩ fun r hr =>
    ⟨rfl, update_of_ne hr _ _, rfl, if_neg (Ne.symm hr)⟩
  rw [Threads.between, if_pos rfl, hl.between]
  exact erase_cons_head ..

theorem Shown.give (h : Shown value holder log own) (ho : own l = .passing t) :
    Shown (update value (.lock l) ((value (.lock l) + 1) % 2 ^ 32)) holder (.up (.lock l) t :: log)
      (update own l .free) := by
  have hl := h l
  rw [ho] at hl
  refine h.set ⟨?_, hl.holder, ?_, hl.between⟩ fun r hr => ?_
  · rw [update_self, hl.value]
    rfl
  · rw [Threads.passed, if_pos rfl, hl.passed]
    exact erase_cons_head ..
  · refine ⟨update_of_ne (by simpa using hr) _ _, rfl, if_neg ?_, rfl⟩
    simpa using Ne.symm hr

theorem Shown.held_of_holder (h : Shown value holder log own) (hl : holder l = some t) :
    own l = .held t := by
  have := (h l).holder.symm.trans hl
  cases ho : own l with
  | free | passing u =>
    rw [ho] at this
    cases this
  | held u =>
    rw [ho] at this
    rw [some.inj this]

theorem Shown.sema (h : Shown value holder log own) (hs : ∀ l, s ≠ .lock l) (n : Nat)
    (he : e = .up s t ∨ e = .down s t ∨ e = .init s n) :
    Shown (update value s n) holder (e :: log) own := by
  refine h.frame (fun l => update_of_ne (hs l).symm _ _) fun l => ?_
  rcases he with rfl | rfl | rfl
  · exact ⟨if_neg (hs l), rfl⟩
  · exact ⟨if_neg (hs l), rfl⟩
  · exact ⟨rfl, rfl⟩

end Shown

/-- The code that a thread at a place of `l` may still have to run. It does not depend on whether
the assertions hold: what comes after one is right for the threads that pass it. -/
def LockCode (l : LockId) : Place → List Instr → Prop
  | p, [] => p ≠ .passing
  | p, i :: is =>
    match i with
    | .downLoop s => if s = .lock l then p ≠ .passing ∧ LockCode l .passing is else LockCode l p is
    | .up s => if s = .lock l then p = .passing ∧ LockCode l .outside is else LockCode l p is
    | .tryDown s | .semaInit s _ => s ≠ .lock l ∧ LockCode l p is
    | .tryLock r =>
      if r = l then p ≠ .passing ∧ LockCode l .inside is ∧ LockCode l p is else LockCode l p is
    | .assertFree r => if r = l then p ≠ .passing ∧ LockCode l .outside is else LockCode l p is
    | .assertHeld r => if r = l then LockCode l .inside is else LockCode l p is
    | .setHolder r => if r = l then p = .passing ∧ LockCode l .inside is else LockCode l p is
    | .clearHolder r => if r = l then p = .inside ∧ LockCode l .passing is else LockCode l p is
    | .pushWaiter c | .popWaiter c | .beginBroadcast c | .broadcast c | .waited c =>
      (c.lock = l → p = .inside) ∧ LockCode l p is
    | .alloc _ => p ≠ .passing ∧ LockCode l .outside is
    | .exit => p ≠ .passing ∧ LockCode l p is
    | _ => LockCode l p is

theorem LockCode.of_plain {p : Place} (h : LockCode l p (i :: is)) (hi : i.Plain) :
    LockCode l p is := by
  cases i <;> first | exact h | exact h.2 | cases hi

theorem lockCode_append {p : Place} (his : ∀ i ∈ is, i.Plain ∧ i ≠ .exit) (h : LockCode l p rest) :
    LockCode l p (is ++ rest) := by
  induction is with
  | nil => exact h
  | cons i is ih =>
    have hi := his i mem_cons_self
    have ih := ih fun i hi => his i (mem_cons_of_mem _ hi)
    cases i <;> first | exact ih | exact absurd rfl hi.2 | cases hi.1

/-- A thread may find itself the holder, because an interrupt handler took the lock. -/
theorem LockCode.of_outside {p : Place} (h : LockCode l .outside is) (hp : p ≠ .passing) :
    LockCode l p is := by
  cases p with
  | outside => exact h
  | passing => exact absurd rfl hp
  | inside =>
    induction is with
    | nil => exact hp
    | cons i is ih => cases i <;> simp only [LockCode] at h ⊢ <;> grind

theorem lockCode_call (c : Call) {p : Place} (hp : p ≠ .passing)
    (hb : ∀ n k, c = .condBroadcast n k → l = .user n → p = .inside) : LockCode l p (c.code t) := by
  cases c <;> simp only [Call.code, threadUnblock, threadYield, semaDown, semaUp, semaTryDown,
    lockAcquire, lockTryAcquire, lockRelease, condWait, condSignal, condBroadcast, cons_append,
    nil_append, LockCode] <;> grind

theorem lockCode_entry (b : Bool) {p : Place} (hp : p ≠ .passing) : LockCode l p (entry b) := by
  cases b <;> simp [entry, idleTail, semaUp, LockCode, hp]

theorem lockCode_createTail {p : Place} (hp : p ≠ .passing) (h : LockCode l .outside rest) :
    LockCode l p (createTail ++ rest) := by
  have hrest := h.of_outside hp
  simp only [createTail, allocateTid, lockAcquire, lockRelease, semaDown, semaUp, cons_append,
    nil_append, LockCode]
  by_cases hl : LockId.tid = l
  · simp [hl, h, hp]
  · simp [hl, hrest]

/-! ## The invariant -/

/-- Where a thread is, not counting what an interrupt handler took in its name. -/
def Kernel.place (K : Kernel) (own : LockId → Owner) (l : LockId) (t : Tid) : Place :=
  if t = K.cur ∧ l ∈ K.handler.getD [] then .outside else (own l).place t

/-- Every lock has its owner, and every thread's code fits its place. -/
structure Locked (K : Kernel) (own : LockId → Owner) : Prop where
  shown : Shown K.value K.holder K.log own
  code : ∀ l t, LockCode l (K.place own l t) (K.code t)
  dead : ∀ l t, K.status t = none → own l ≠ .passing t
  taken : ∀ ls, K.handler = some ls → ls.Nodup ∧ ∀ l ∈ ls, own l = .held K.cur

variable {own own' : LockId → Owner}

theorem Kernel.place_of_none (hh : K.handler = none) : K.place own l t = (own l).place t := by
  rw [Kernel.place, if_neg]
  rw [hh]
  exact fun h => nomatch h.2

theorem Locked.goOn (h : Locked K own) (hh : K.handler = none) (hh' : K'.handler = none)
    (hshown : Shown K'.value K'.holder K'.log own')
    (hothers : ∀ l t, t ≠ K.cur → (own' l).place t = (own l).place t)
    (hcode : K'.code = update K.code K.cur is)
    (his : ∀ l, LockCode l ((own' l).place K.cur) is)
    (hdead : ∀ t, K'.status t = none →
      t ≠ K.cur ∧ K.status t = none ∨ ∀ l, own' l ≠ .passing t) : Locked K' own' := by
  refine ⟨hshown, fun l t => ?_, fun l t ht => ?_, fun ls hls => ?_⟩
  · rw [K'.place_of_none hh', hcode]
    by_cases ht : t = K.cur
    · rw [ht, update_self]
      exact his l
    · rw [update_of_ne ht, hothers l t ht, ← K.place_of_none hh]
      exact h.code l t
  · rcases hdead t ht with ⟨hne, ht⟩ | ht
    · rw [Ne, ← Owner.place_eq_passing, hothers l t hne, Owner.place_eq_passing]
      exact h.dead l t ht
    · exact ht l
  · rw [hh'] at hls
    cases hls

/-- Only the place of the running thread at `l` changes. -/
theorem Locked.move {o : Owner} (h : Locked K own) (hh : K.handler = none) (hh' : K'.handler = none)
    (hshown : Shown K'.value K'.holder K'.log (update own l o))
    (hothers : ∀ t, t ≠ K.cur → o.place t = (own l).place t)
    (hcode : K'.code = update K.code K.cur is) (hl : LockCode l (o.place K.cur) is)
    (his : ∀ r, r ≠ l → LockCode r ((own r).place K.cur) is)
    (hstatus : ∀ t, K'.status t = none → t ≠ K.cur ∧ K.status t = none) :
    Locked K' (update own l o) := by
  refine h.goOn hh hh' hshown (fun r t ht => ?_) hcode (fun r => ?_) fun t ht => .inl (hstatus t ht)
  · by_cases hr : r = l
    · rw [hr, update_self]
      exact hothers t ht
    · rw [update_of_ne hr]
  · by_cases hr : r = l
    · rw [hr, update_self]
      exact hl
    · rw [update_of_ne hr]
      exact his r hr

theorem Locked.stay (h : Locked K own) (hh : K.handler = none) (hh' : K'.handler = none)
    (hshown : Shown K'.value K'.holder K'.log own)
    (hcode : K'.code = update K.code K.cur is)
    (his : ∀ l, LockCode l ((own l).place K.cur) is)
    (hstatus : ∀ t, K'.status t = none → K.status t = none) : Locked K' own :=
  h.goOn hh hh' hshown (fun _ _ _ => rfl) hcode his fun t ht => .inr fun l =>
    h.dead l t (hstatus t ht)

theorem Locked.born (h : Locked K own) (hh : K.handler = none) (ht : K.status t = none) (b : Bool) :
    Locked (K.born t b) own := by
  refine ⟨h.shown.frame (fun _ => rfl) fun _ => ⟨rfl, rfl⟩, fun l u => ?_, fun l u hu => ?_,
    h.taken⟩
  · rw [(K.born t b).place_of_none hh]
    show LockCode l _ (update K.code t (entry b) u)
    by_cases hut : u = t
    · rw [hut, update_self]
      exact lockCode_entry b fun hp => h.dead l t ht (Owner.place_eq_passing.mp hp)
    · rw [update_of_ne hut, ← K.place_of_none hh]
      exact h.code l u
  · exact h.dead l u (of_update hu (by simp)).2

section Running

variable (h : Locked K own) (hh : K.handler = none)

include h hh

theorem Locked.lockCode (hcode : K.code K.cur = i :: rest) (l : LockId) :
    LockCode l ((own l).place K.cur) (i :: rest) := by
  rw [← hcode, ← K.place_of_none hh]
  exact h.code l K.cur

theorem Locked.execPlain (hcode : K.code K.cur = i :: rest) (hi : i.Plain)
    (he : i.exec page (K.load rest) = some ((), K')) : Locked K' own := by
  have hc := h.lockCode hh hcode
  obtain ⟨hq, ⟨is, hcode', his, -⟩, hstatus, -⟩ := quiet_exec hi he
  refine h.goOn hh (hq.handler.trans hh) (hq.shown h.shown) (fun _ _ _ => rfl) hcode'
    (fun l => lockCode_append his ((hc l).of_plain hi)) fun t ht => .inr fun l => ?_
  rcases hstatus t ht with ht | ⟨rfl, rfl⟩
  · exact h.dead l t ht
  · exact fun ho => (hc l).1 (Owner.place_eq_passing.mpr ho)

theorem Locked.execAlloc {b : Bool} (hcur : K.status K.cur ≠ none)
    (hcode : K.code K.cur = .alloc b :: rest)
    (he : (Instr.alloc b).exec page (K.load rest) = some ((), K')) : Locked K' own := by
  have hc := h.lockCode hh hcode
  have hload : Locked (K.load rest) own :=
    h.stay hh hh h.shown rfl (fun l => (hc l).2.of_outside (hc l).1) fun _ => id
  rcases of_alloc (K := K.load rest) hcur he with rfl | ⟨t, ht, hneq, rfl⟩
  · exact hload
  · rw [K.code_load]
    exact (hload.born hh ht b).stay hh hh (h.shown.frame (fun _ => rfl) fun _ => ⟨rfl, rfl⟩) rfl
      (fun l => lockCode_createTail (hc l).1 (hc l).2) fun _ => id

/-- The running thread passes the semaphore of a lock. -/
theorem Locked.pass (hcur : K.status K.cur ≠ none) (hv : 0 < K.value (.lock l))
    (hl : LockCode l .passing is) (his : ∀ r, r ≠ l → LockCode r ((own r).place K.cur) is) :
    ∃ own', Locked ((K.load is).taken (.lock l)) own' := by
  obtain ⟨hfree, hshown⟩ := h.shown.take hv K.cur
  refine ⟨_, h.move hh hh hshown (fun t ht => ?_) rfl ?_ his fun _ ht =>
    ⟨fun he => hcur (he ▸ ht), ht⟩⟩
  · rw [hfree]
    exact if_neg ht.symm
  · rwa [Owner.place_eq_passing.mpr rfl]

theorem Locked.execDown (hcur : K.status K.cur ≠ none) (hcode : K.code K.cur = .downLoop s :: rest)
    (he : (Instr.downLoop s).exec page (K.load rest) = some ((), K')) : ∃ own', Locked K' own' := by
  rcases of_downLoop he with ⟨-, hb⟩ | ⟨hv, rfl⟩
  · obtain ⟨hq, hcode', hstatus, -⟩ := quiet_blockThread hb
    rw [K.code_load, K.load_load] at hcode'
    exact ⟨own, h.stay hh (hq.handler.trans hh) (hq.shown h.shown) hcode' (h.lockCode hh hcode)
      hstatus⟩
  · have hc := h.lockCode hh hcode
    by_cases hs : ∃ l, s = .lock l
    · obtain ⟨l, rfl⟩ := hs
      exact h.pass hh hcur hv (by simpa [LockCode] using hc l : _ ∧ _).2 fun r hr => by
        simpa [LockCode, Ne.symm hr] using hc r
    · rw [not_exists] at hs
      exact ⟨own, h.stay hh hh (h.shown.sema hs _ (.inr (.inl rfl))) rfl
        (fun l => by simpa [LockCode, hs l] using hc l) fun _ => id⟩

theorem Locked.execUp (hcur : K.status K.cur ≠ none) (hcode : K.code K.cur = .up s :: rest)
    (he : upSema s (K.load rest) = some ((), K')) : ∃ own', Locked K' own' := by
  have hc := h.lockCode hh hcode
  obtain ⟨hvalue, hlog, hholder, -, hcode', hhandler, -, -, hstatus, -⟩ := upSema_frame he
  by_cases hs : ∃ l, s = .lock l
  · obtain ⟨l, rfl⟩ := hs
    have hl : (own l).place K.cur = .passing ∧ LockCode l .outside rest := by
      simpa [LockCode] using hc l
    have hpass := Owner.place_eq_passing.mp hl.1
    refine ⟨_, h.move (o := .free) hh (hhandler.trans hh) ?_ (fun t ht => ?_) hcode' hl.2
      (fun r hr => by simpa [LockCode, Ne.symm hr] using hc r) fun t ht =>
      ⟨fun he => hcur (he ▸ hstatus t ht), hstatus t ht⟩⟩
    · rw [hvalue, hlog, hholder]
      exact h.shown.give hpass
    · rw [hpass]
      exact (if_neg ht.symm).symm
  · rw [not_exists] at hs
    refine ⟨own, h.stay hh (hhandler.trans hh) ?_ hcode'
        (fun l => by simpa [LockCode, hs l] using hc l) hstatus⟩
    rw [hvalue, hlog, hholder]
    exact h.shown.sema hs _ (.inl rfl)

theorem Locked.execTryLock (hcur : K.status K.cur ≠ none)
    (hcode : K.code K.cur = .tryLock l :: rest)
    (he : (Instr.tryLock l).exec page (K.load rest) = some ((), K')) : ∃ own', Locked K' own' := by
  have hc := h.lockCode hh hcode
  have hl : (own l).place K.cur ≠ .passing ∧ LockCode l .inside rest ∧
      LockCode l ((own l).place K.cur) rest := by simpa [LockCode] using hc l
  rcases of_tryLock he with ⟨-, rfl⟩ | ⟨hv, rfl⟩
  · rw [K.code_load, K.load_load]
    refine ⟨own, h.stay hh hh h.shown rfl (fun r => ?_) fun _ => id⟩
    by_cases hr : l = r
    · exact hr ▸ hl.2.2
    · simpa [LockCode, hr] using hc r
  · have hload (is) : ((K.load rest).taken (.lock l)).load is = (K.load is).taken (.lock l) :=
      congrArg (fun code => { K.taken (.lock l) with code := code }) (update_idem _ _ _)
    rw [K.code_load, hload]
    exact h.pass hh hcur hv (by simpa [LockCode] using hl.2.1) fun r hr => by
      simpa [LockCode, Ne.symm hr] using hc r

theorem Locked.execAssertFree (hcode : K.code K.cur = .assertFree l :: rest) :
    Locked (K.load rest) own := by
  have hc := h.lockCode hh hcode
  refine h.stay hh hh h.shown rfl (fun r => ?_) fun _ => id
  by_cases hr : l = r
  · have hl : (own r).place K.cur ≠ .passing ∧ LockCode r .outside rest := by
      simpa [LockCode, hr] using hc r
    exact hl.2.of_outside hl.1
  · simpa [LockCode, hr] using hc r

theorem Locked.execAssertHeld (hcode : K.code K.cur = .assertHeld l :: rest)
    (hheld : K.holder l = some K.cur) : Locked (K.load rest) own := by
  have hc := h.lockCode hh hcode
  refine h.stay hh hh h.shown rfl (fun r => ?_) fun _ => id
  by_cases hr : l = r
  · rw [Owner.place_eq_inside.mpr (h.shown.held_of_holder (hr ▸ hheld))]
    simpa [LockCode, hr] using hc r
  · simpa [LockCode, hr] using hc r

/-- The holder of `l` is set or cleared by the one thread that may do it. -/
theorem Locked.execHolder {p : Owner} {holder : Option Tid} (hcur : K.status K.cur ≠ none)
    (hothers : ∀ t, t ≠ K.cur → p.place t = (own l).place t)
    (hshown : Shown K.value (update K.holder l holder) (e :: K.log) (update own l p))
    (hl : LockCode l (p.place K.cur) rest)
    (hrest : ∀ r, r ≠ l → LockCode r ((own r).place K.cur) rest) :
    ∃ own', Locked
      { K.load rest with holder := update K.holder l holder, log := e :: K.log } own' :=
  ⟨_, h.move hh hh hshown hothers rfl hl hrest fun _ ht => ⟨fun he => hcur (he ▸ ht), ht⟩⟩

theorem Locked.execBroadcast (hcode : K.code K.cur = .broadcast c :: rest)
    (he : (Instr.broadcast c).exec page (K.load rest) = some ((), K')) : Locked K' own := by
  have hc := h.lockCode hh hcode
  rcases of_broadcast he with ⟨-, rfl⟩ | ⟨-, rfl⟩
  · exact h.stay hh hh (h.shown.frame (fun _ => rfl) fun _ => ⟨rfl, rfl⟩) rfl
      (fun l => (hc l).2) fun _ => id
  · rw [K.code_load, K.load_load]
    refine h.stay hh hh h.shown rfl (fun l => ?_) fun _ => id
    obtain ⟨hin, hl⟩ := hc l
    by_cases hr : c.lock = l
    · rw [hin hr] at hl ⊢
      simpa [condSignal, LockCode, hr] using hl
    · simpa [condSignal, LockCode, hr] using hl

/-- **One instruction** keeps the invariant. -/
theorem Locked.exec (hcur : K.status K.cur ≠ none) (hcode : K.code K.cur = i :: rest)
    (he : i.exec page (K.load rest) = some ((), K')) : ∃ own', Locked K' own' := by
  have hc := h.lockCode hh hcode
  have hframe {e : Event} (hp : ∀ l, passed l (e :: K.log) = passed l K.log)
      (hb : ∀ l, between l (e :: K.log) = between l K.log) :
      Shown K.value K.holder (e :: K.log) own :=
    h.shown.frame (fun _ => rfl) fun l => ⟨hp l, hb l⟩
  cases i with
  | alloc b => exact ⟨own, h.execAlloc hh hcur hcode he⟩
  | semaInit s n =>
    cases he
    exact ⟨own, h.stay hh hh (h.shown.sema (t := K.cur) (fun l => (hc l).1) _ (.inr (.inr rfl))) rfl
      (fun l => (hc l).2) fun _ => id⟩
  | downLoop s => exact h.execDown hh hcur hcode he
  | tryDown s =>
    rcases of_tryDown he with ⟨-, rfl⟩ | ⟨-, rfl⟩
    · exact ⟨own, h.stay hh hh h.shown rfl (fun l => (hc l).2) fun _ => id⟩
    · exact ⟨own, h.stay hh hh (h.shown.sema (fun l => (hc l).1) _ (.inr (.inl rfl))) rfl
        (fun l => (hc l).2) fun _ => id⟩
  | up s => exact h.execUp hh hcur hcode he
  | assertFree l =>
    obtain ⟨-, rfl⟩ := of_assertFree he
    exact ⟨own, h.execAssertFree hh hcode⟩
  | tryLock l => exact h.execTryLock hh hcur hcode he
  | setHolder l =>
    cases he
    have hl : (own l).place K.cur = .passing ∧ LockCode l .inside rest := by
      simpa [LockCode] using hc l
    have hpass := Owner.place_eq_passing.mp hl.1
    refine h.execHolder hh hcur (fun t ht => ?_) (h.shown.hold hpass)
      (Owner.place_eq_inside.mpr rfl ▸ hl.2) fun r hr => by simpa [LockCode, Ne.symm hr] using hc r
    rw [hpass]
    exact (if_neg ht.symm).trans (if_neg ht.symm).symm
  | assertHeld l =>
    obtain ⟨hheld, rfl⟩ := of_assertHeld he
    exact ⟨own, h.execAssertHeld hh hcode hheld⟩
  | clearHolder l =>
    cases he
    have hl : (own l).place K.cur = .inside ∧ LockCode l .passing rest := by
      simpa [LockCode] using hc l
    have hheld := Owner.place_eq_inside.mp hl.1
    refine h.execHolder hh hcur (fun t ht => ?_) (h.shown.clear hheld)
      (Owner.place_eq_passing.mpr rfl ▸ hl.2) fun r hr => by simpa [LockCode, Ne.symm hr] using hc r
    rw [hheld]
    exact (if_neg ht.symm).trans (if_neg ht.symm).symm
  | pushWaiter c | beginBroadcast c | waited c =>
    cases he
    exact ⟨own, h.stay hh hh (hframe (fun _ => rfl) fun _ => rfl) rfl (fun l => (hc l).2)
      fun _ => id⟩
  | popWaiter c =>
    rcases of_popWaiter he with ⟨-, rfl⟩ | ⟨t, ts, -, rfl⟩
    · exact ⟨own, h.stay hh hh (hframe (fun _ => rfl) fun _ => rfl) rfl (fun l => (hc l).2) fun _ =>
        id⟩
    · rw [K.code_load]
      exact ⟨own, h.stay hh hh (hframe (fun _ => rfl) fun _ => rfl) (update_idem _ _ _)
        (fun l => by simpa [semaUp, LockCode] using (hc l).2) fun _ => id⟩
  | broadcast c => exact ⟨own, h.execBroadcast hh hcode he⟩
  | _ => exact ⟨own, h.execPlain hh hcode trivial he⟩

end Running

/-! ## Every run -/

theorem Locked.inHandler (h : Locked K own) (hshown : Shown K'.value K'.holder K'.log own')
    (hplace : ∀ l t, K'.place own' l t = K.place own l t) (hcode : K'.code = K.code)
    (hstatus : ∀ t, K'.status t = none → K.status t = none)
    (hpass : ∀ l t, own' l = .passing t → own l = .passing t)
    (htaken : ∀ ls, K'.handler = some ls → ls.Nodup ∧ ∀ l ∈ ls, own' l = .held K'.cur) :
    Locked K' own' :=
  ⟨hshown, fun l t => by rw [hplace, hcode]; exact h.code l t,
    fun l t ht hp => h.dead l t (hstatus t ht) (hpass l t hp), htaken⟩

theorem Locked.upSema (h : Locked K own) (hu : upSema s K = some ((), K')) (hs : ∀ l, s ≠ .lock l) :
    Locked K' own := by
  obtain ⟨hvalue, hlog, hholder, -, hcode, hhandler, hcur, -, hstatus, -⟩ := upSema_frame hu
  refine h.inHandler ?_ (fun l t => ?_) hcode hstatus (fun _ _ => id) ?_
  · rw [hvalue, hlog, hholder]
    exact h.shown.sema hs _ (.inl rfl)
  · rw [Kernel.place, Kernel.place, hcur, hhandler]
  · rw [hcur, hhandler]
    exact h.taken

/-- The handler takes a lock in the name of the running thread. -/
theorem Locked.handlerTakes {n : Nat} {taken : List LockId} (h : Locked K own)
    (hh : K.handler = some taken) (hv : 0 < K.value (.lock (.user n))) :
    Locked { K.taken (.lock (.user n)) with
        holder := update K.holder (.user n) (some K.cur)
        log := .acquired (.user n) K.cur :: (K.taken (.lock (.user n))).log
        handler := K.handler.map (.user n :: ·) }
      (update own (.user n) (.held K.cur)) := by
  obtain ⟨hfree, hshown⟩ := h.shown.take hv K.cur
  have hshown := hshown.hold (update_self _ _ _)
  rw [update_idem] at hshown
  refine h.inHandler hshown (fun l t => ?_) rfl (fun _ => id) (fun l t hl => ?_) fun ls hls => ?_
  · rw [Kernel.place, Kernel.place, hh]
    show (if t = K.cur ∧ l ∈ .user n :: taken then _ else _) =
      if t = K.cur ∧ l ∈ taken then _ else _
    by_cases hl : l = .user n
    · rw [hl, update_self, hfree]
      grind [Owner.place]
    · rw [update_of_ne hl]
      simp [hl]
  · by_cases hn : l = .user n
    · rw [hn, update_self] at hl
      cases hl
    · rwa [update_of_ne hn] at hl
  · obtain ⟨hnodup, hheld⟩ := h.taken taken hh
    have hls : K.handler.map (.user n :: ·) = some ls := hls
    rw [hh] at hls
    rw [← some.inj hls]
    have hnew : LockId.user n ∉ taken := fun hm => by
      rw [hheld _ hm] at hfree
      cases hfree
    refine ⟨nodup_cons.mpr ⟨hnew, hnodup⟩, fun l hl => ?_⟩
    rcases mem_cons.mp hl with rfl | hl
    · exact update_self _ _ _
    · have hne : l ≠ .user n := fun he => hnew (he ▸ hl)
      rw [update_of_ne hne]
      exact hheld l hl

theorem Locked.handlerGives {n : Nat} {taken : List LockId} {K1 : Kernel} (h : Locked K own)
    (hh : K.handler = some taken) (hm : .user n ∈ taken)
    (hup : Threads.upSema (.lock (.user n)) { K with
        holder := update K.holder (.user n) none
        log := .released (.user n) K.cur :: K.log } = some ((), K1)) :
    Locked { K1 with handler := K1.handler.map (·.erase (.user n)) }
      (update own (.user n) .free) := by
  obtain ⟨hnodup, hheld⟩ := h.taken taken hh
  have hshown := (h.shown.clear (hheld _ hm)).give (update_self _ _ _)
  rw [update_idem] at hshown
  obtain ⟨hvalue, hlog, hholder, -, hcode, hhandler, hcur, -, hstatus, -⟩ := upSema_frame hup
  have hmem (l) : l ∈ taken.erase (.user n) ↔ l ≠ .user n ∧ l ∈ taken := hnodup.mem_erase_iff
  refine h.inHandler ?_ (fun l t => ?_) hcode hstatus (fun l t hl => ?_) fun ls hls => ?_
  · show Shown K1.value K1.holder K1.log _
    rw [hvalue, hlog, hholder]
    exact hshown
  · rw [Kernel.place, Kernel.place]
    dsimp only
    rw [hhandler, hcur]
    dsimp only
    rw [hh]
    show (if t = K.cur ∧ l ∈ taken.erase (.user n) then _ else _) =
      if t = K.cur ∧ l ∈ taken then _ else _
    by_cases hl : l = .user n
    · rw [hl, update_self, hheld _ hm]
      grind [Owner.place]
    · rw [update_of_ne hl]
      simp [hmem, hl]
  · by_cases hn : l = .user n
    · rw [hn, update_self] at hl
      cases hl
    · rwa [update_of_ne hn] at hl
  · dsimp only at hls ⊢
    rw [hhandler] at hls
    dsimp only at hls
    rw [hh] at hls
    rw [← some.inj hls, hcur]
    refine ⟨hnodup.erase _, fun l hl => ?_⟩
    rw [update_of_ne ((hmem l).mp hl).1]
    exact hheld l ((hmem l).mp hl).2

/-- **An interrupt handler** keeps the invariant: what it takes, it takes in the name of the running
thread, whose code is not concerned. -/
theorem Locked.handle {c : HandlerCall} {taken : List LockId} (h : Locked K own)
    (hh : K.handler = some taken) (hp : c.Proper K taken) (he : c.exec K = some ((), K')) :
    ∃ own', Locked K' own' := by
  cases c with
  | semaTryDown n =>
    have he : Instr.exec none (.tryDown (.user n)) K = some ((), K') := he
    rcases of_tryDown he with ⟨-, rfl⟩ | ⟨hv, rfl⟩
    · exact ⟨own, h⟩
    · exact ⟨own, h.inHandler (h.shown.sema (by simp) _ (.inr (.inl rfl))) (fun _ _ => rfl) rfl
        (fun _ => id) (fun _ _ => id) h.taken⟩
  | semaUp n => exact ⟨own, h.upSema he nofun⟩
  | threadUnblock t =>
    obtain ⟨-, rfl⟩ := of_unblockThread he
    exact ⟨own, h.inHandler h.shown (fun _ _ => rfl) rfl (fun u hu => (of_update hu (by simp)).2)
      (fun _ _ => id) h.taken⟩
  | lockTryAcquire n =>
    rcases (of_handler_tryAcquire he).2 with ⟨-, rfl⟩ | ⟨hv, rfl⟩
    · exact ⟨own, h⟩
    · exact ⟨_, h.handlerTakes hh hv⟩
  | lockRelease n =>
    obtain ⟨-, K1, hup, rfl⟩ := of_handler_release he
    exact ⟨_, h.handlerGives hh hp hup⟩

/-- What the handler has kept is the thread's from now on. -/
theorem Locked.kept (h : Locked K own) (l : LockId) (t : Tid) :
    LockCode l ((own l).place t) (K.code t) := by
  have hl := h.code l t
  rw [Kernel.place] at hl
  split at hl
  · rename_i hm
    refine hl.of_outside fun hp => ?_
    cases hh : K.handler with
    | none =>
      rw [hh] at hm
      cases hm.2
    | some ls =>
      rw [hh] at hm
      have hheld := (h.taken ls hh).2 l hm.2
      rw [Owner.place_eq_passing, hheld] at hp
      cases hp
  · exact hl

/-- **One step** keeps the invariant. -/
theorem Locked.step {act : Act} (h : Locked K own) (hcur : K.status K.cur ≠ none)
    (hs : K.step act = some K') : ∃ own', Locked K' own' := by
  cases act with
  | run page =>
    obtain ⟨i, rest, hh, hcode, -, he⟩ := of_step_run hs
    exact h.exec hh hcur hcode he
  | call c =>
    obtain ⟨hh, hcode, hp, rfl⟩ := of_step_call hs
    refine ⟨own, h.stay hh hh h.shown rfl (fun l => lockCode_call c ?_ ?_) fun _ => id⟩
    · have hl := h.code l K.cur
      rw [K.place_of_none hh, hcode] at hl
      exact hl
    · rintro n k rfl rfl
      exact Owner.place_eq_inside.mpr (h.shown.held_of_holder hp)
  | interrupt =>
    obtain ⟨hh, -, rfl⟩ := of_step_interrupt hs
    refine ⟨own, h.inHandler h.shown (fun l t => ?_) rfl (fun _ => id) (fun _ _ => id) fun ls hls =>
      ?_⟩
    · rw [K.place_of_none hh]
      exact if_neg fun hm => nomatch hm.2
    · rw [← some.inj hls]
      exact ⟨.nil, nofun⟩
  | handle c =>
    obtain ⟨taken, hh, hp, he⟩ := of_step_handle hs
    exact h.handle hh hp he
  | leave b =>
    have hcode := h.kept
    rcases (of_step_leave hs).2 with hy | rfl
    · obtain ⟨hq, hcode', hstatus, -⟩ := quiet_yieldThread hy
      refine ⟨own, hq.shown h.shown, fun l t => ?_, fun l t ht => h.dead l t (hstatus t ht),
        fun ls hls => ?_⟩
      · rw [K'.place_of_none hq.handler, hcode']
        show LockCode l _ (update K.code K.cur (.intrOn :: K.code K.cur) t)
        by_cases ht : t = K.cur
        · rw [ht, update_self]
          exact hcode l K.cur
        · rw [update_of_ne ht]
          exact hcode l t
      · rw [hq.handler] at hls
        cases hls
    · refine ⟨own, h.shown, fun l t => ?_, h.dead, nofun⟩
      rw [Kernel.place, if_neg fun hm => nomatch hm.2]
      exact hcode l t

theorem Locked.boot (i : Tid) (v : Nat → Nat) : Locked (Kernel.boot i v) fun _ => .free := by
  refine ⟨fun l => ⟨rfl, rfl, rfl, rfl⟩, fun l t => ?_, fun _ _ _ => nofun,
    nofun⟩
  rw [Kernel.place_of_none rfl]
  show LockCode l .outside (if t = i then threadStart else [])
  split
  · simp [threadStart, semaDown, LockCode]
  · simp [LockCode]

theorem Reachable.locked {i : Tid} {v : Nat → Nat} (h : Reachable i v K) : ∃ own, Locked K own := by
  induction h with
  | boot => exact ⟨_, Locked.boot i v⟩
  | step act hr hs ih =>
    obtain ⟨own, ih⟩ := ih
    exact ih.step (by rw [hr.schedInv.sched.running]; simp) hs

theorem Reachable.counted {i : Tid} {v : Nat → Nat} (h : Reachable i v K) :
    Counted (Kernel.boot i v).value K.value K.log := by
  induction h with
  | boot =>
    intro s
    refine ⟨Nat.zero_le _, ?_⟩
    cases s <;> simp [Kernel.boot, initialValue, ups, downs]
  | step act hr hs ih => exact ih.step (by rw [hr.schedInv.sched.running]; simp) hs

/-- **Semaphores and locks** in every interleaving: a semaphore's value is its initial value plus
the ups minus the downs, which are never more, modulo 2^32; the holder of a lock is the one thread
between the return of `lock_acquire` and its `lock_release`; the value of a lock's semaphore is 1
if and only if no thread has passed it. -/
theorem semaphores_and_locks {i : Tid} {v : Nat → Nat} (h : Reachable i v K) :
    (∀ s, downs s K.log ≤ initialValue ((Kernel.boot i v).value s) s K.log + ups s K.log ∧
      K.value s = (initialValue ((Kernel.boot i v).value s) s K.log + ups s K.log -
        downs s K.log) % 2 ^ 32) ∧
    ∀ l, between l K.log = (K.holder l).toList ∧
      (K.value (.lock l) = 1 ↔ passed l K.log = []) := by
  obtain ⟨own, hown⟩ := h.locked
  refine ⟨h.counted, fun l => ?_⟩
  have hl := hown.shown l
  rw [hl.between, hl.holder, hl.value, hl.passed]
  refine ⟨rfl, ?_⟩
  cases own l <;> simp [Owner.value, Owner.passed]

/-- The initial thread starts the idle thread and makes a call of `n` statements. -/
def callScript (c : Call) (n : Nat) : List Act :=
  List.replicate 18 (.run (some 2)) ++ List.replicate 10 (.run none) ++ [.call c] ++
    List.replicate n (.run none)

theorem semaphores_and_locks_held : ∃ K, Reachable 1 (fun _ => 0) K ∧ K.holder (.user 0) = some 1 ∧
    between (.user 0) K.log = [1] ∧ passed (.user 0) K.log ≠ [] := by
  have hrun : ((Kernel.boot 1 fun _ => 0).run (callScript (.lockAcquire 0) 5)).map
      (fun K => (K.holder (.user 0), K.value (.lock (.user 0)))) = some (some 1, 0) := by
        decide +kernel
  obtain ⟨K, hK, he⟩ := map_eq_some_iff.mp hrun
  obtain ⟨hholder, hvalue⟩ := Prod.mk.inj he
  have hr := Reachable.run .boot hK
  obtain ⟨hbetween, hpassed⟩ := (semaphores_and_locks hr).2 (.user 0)
  refine ⟨K, hr, hholder, by rw [hbetween, hholder]; rfl, fun hnil => ?_⟩
  have := hpassed.mpr hnil
  omega

/-- `sema_up` on a semaphore whose value is `UINT_MAX` makes it 0. -/
theorem semaphore_wraps : ∃ K, Reachable 1 (fun _ => 2 ^ 32 - 1) K ∧ K.value (.user 0) = 0 ∧
    initialValue (2 ^ 32 - 1) (.user 0) K.log = 2 ^ 32 - 1 ∧ ups (.user 0) K.log = 1 ∧
    downs (.user 0) K.log = 0 := by
  have hrun : ((Kernel.boot 1 fun _ => 2 ^ 32 - 1).run (callScript (.semaUp 0) 3)).map
      (fun K => (K.value (.user 0), initialValue (2 ^ 32 - 1) (.user 0) K.log, ups (.user 0) K.log,
        downs (.user 0) K.log)) = some (0, 2 ^ 32 - 1, 1, 0) := by
    decide +kernel
  obtain ⟨K, hK, he⟩ := map_eq_some_iff.mp hrun
  simp only [Prod.mk.injEq] at he
  exact ⟨K, .run .boot hK, he⟩

end SystemProg.Threads
