import SystemProg.Threads.Scheduler

/-!
# The interrupt queue

`devices/intq.c`: a circular buffer between kernel threads and interrupt handlers, used with
interrupts off. A thread that finds the queue empty (or full) takes the queue's lock and sleeps in
`wait`, which asserts that the queue is still empty. But `lock_acquire` itself may sleep, and the
test is not made again after it.

The functions run on the machine of `Kernel.lean`: their calls of `lock_acquire`, `thread_block` and
`lock_release` are the kernel's, statement by statement, and every thread and handler may do
anything else with the kernel in between, except use the queue's lock.

* `intq_wait_two_readers`: with two readers, one of them finds a byte at its `wait`.
* `intq_wait_of_free`: if the lock is free whenever a thread calls `lock_acquire`, which then does
  not sleep, the assertion holds in every run. Other threads may use the queue at the same time.
-/

namespace SystemProg.Threads

open Function SystemProg.Seq List Option

/-! ## The queue -/

/-- `INTQ_BUFSIZE`. -/
def intqBufsize : Nat := 64

/-- `struct intq`. Its lock is one of the kernel's. -/
structure Intq where
  notFull : Option Tid
  notEmpty : Option Tid
  buf : Nat → UInt8
  head : Nat
  tail : Nat

/-- `intq_init`. -/
def Intq.init : Intq where
  notFull := none
  notEmpty := none
  buf _ := 0
  head := 0
  tail := 0

/-- `next`. -/
def intqNext (pos : Nat) : Nat := (pos + 1) % intqBufsize

/-- `intq_empty`. -/
def Intq.empty (Q : Intq) : Bool := Q.head = Q.tail

/-- `intq_full`. -/
def Intq.full (Q : Intq) : Bool := intqNext Q.head = Q.tail

/-- `intq_getc` or `intq_putc`. -/
inductive Request where
  | getc
  | putc (byte : UInt8)
  deriving DecidableEq

namespace Intq

variable (Q : Intq)

/-- The condition of the loop. -/
def blocks : Request → Bool
  | .getc => Q.empty
  | .putc _ => Q.full

/-- `*waiter = t` in `wait`. -/
def setWaiter (t : Tid) : Request → Intq
  | .getc => { Q with notEmpty := some t }
  | .putc _ => { Q with notFull := some t }

/-- After the loop. -/
def move : Request → Intq
  | .getc => { Q with tail := intqNext Q.tail }
  | .putc byte => { Q with buf := update Q.buf Q.head byte, head := intqNext Q.head }

/-- The assertion of `signal`. -/
def mayActivate : Request → Bool
  | .getc => !Q.full
  | .putc _ => !Q.empty

/-- The waiter that is signalled. -/
def signalled : Request → Option Tid
  | .getc => Q.notFull
  | .putc _ => Q.notEmpty

/-- `*waiter = NULL` in `signal`. -/
def clearWaiter : Request → Intq
  | .getc => { Q with notFull := none }
  | .putc _ => { Q with notEmpty := none }

end Intq

/-! ## Threads and handlers that use it -/

/-- Where a thread is in `intq_getc` or `intq_putc`. -/
inductive IntqPc where
  | outside
  /-- At the test of the loop. -/
  | test (r : Request)
  /-- In `lock_acquire`; at the call of `wait` when that has returned. -/
  | acquire (r : Request)
  /-- In the `thread_block` of `wait`. -/
  | asleep (r : Request)
  /-- In `lock_release`. -/
  | release (r : Request)
  deriving DecidableEq

/-- The thread has the lock, or is about to get or to release it. -/
def IntqPc.UsesLock : IntqPc → Prop
  | .outside | .test _ => False
  | _ => True

/-- The kernel, the queue and its callers. -/
structure IntqSystem where
  kernel : Kernel
  queue : Intq
  pc : Tid → IntqPc

/-- A step. -/
inductive IntqAct where
  /-- The kernel, its threads and handlers, apart from the queue. -/
  | kernel (act : Act)
  /-- The running thread calls a function of the queue. -/
  | enter (r : Request)
  /-- The running thread goes on in it. -/
  | goOn
  /-- The interrupt handler calls one. -/
  | handler (r : Request)
  deriving DecidableEq

/-- The call is of a function of lock `q` or of a condition with it. -/
def Call.UsesLock (q : Nat) : Call → Prop
  | lockAcquire n | lockTryAcquire n | lockRelease n => n = q
  | condWait n _ | condSignal n _ | condBroadcast n _ => n = q
  | _ => False

/-- The same of a handler's call. -/
def HandlerCall.UsesLock (q : Nat) : HandlerCall → Prop
  | lockTryAcquire n | lockRelease n => n = q
  | _ => False

instance (q : Nat) : DecidablePred (Call.UsesLock q)
  | .lockAcquire n | .lockTryAcquire n | .lockRelease n => inferInstanceAs (Decidable (n = q))
  | .condWait n _ | .condSignal n _ | .condBroadcast n _ => inferInstanceAs (Decidable (n = q))
  | .intrDisable | .intrEnable | .threadCreate | .threadBlock | .threadUnblock _ | .threadYield
  | .threadExit | .semaInit _ _ | .semaDown _ | .semaTryDown _ | .semaUp _ =>
    inferInstanceAs (Decidable False)

instance (q : Nat) : DecidablePred (HandlerCall.UsesLock q)
  | .lockTryAcquire n | .lockRelease n => inferInstanceAs (Decidable (n = q))
  | .semaTryDown _ | .semaUp _ | .threadUnblock _ => inferInstanceAs (Decidable False)

namespace IntqSystem

/-- The queue's lock is its own, and a thread in a function of the queue makes no other calls. -/
def Allows (q : Nat) (S : IntqSystem) : Act → Prop
  | .call c => S.pc S.kernel.cur = .outside ∧ ¬c.UsesLock q
  | .handle c => ¬c.UsesLock q
  | _ => True

instance (q : Nat) (S : IntqSystem) : DecidablePred (S.Allows q) := fun act => by
  cases act <;> unfold Allows <;> infer_instance

/-- What follows the loop, with `signal`. Interrupts are off, so `thread_unblock` is atomic. -/
def transfer (S : IntqSystem) (r : Request) : Option IntqSystem :=
  let Q := S.queue.move r
  if Q.mayActivate r = true then
    match Q.signalled r with
    | some t => (unblockThread t S.kernel).map fun K =>
        { S with kernel := K.2, queue := Q.clearWaiter r }
    | none => some { S with queue := Q }
  else none

/-- The running thread gets to `p`. -/
def setPc (S : IntqSystem) (p : IntqPc) : IntqSystem :=
  { S with pc := update S.pc S.kernel.cur p }

/-- One step; `none` if it is not possible, or an assertion fails. -/
def step (q : Nat) (S : IntqSystem) : IntqAct → Option IntqSystem
  | .kernel act =>
    if S.Allows q act then (S.kernel.step act).map fun K => { S with kernel := K } else none
  | .enter r =>
    if S.kernel.handler = none ∧ S.kernel.code S.kernel.cur = [] ∧ S.pc S.kernel.cur = .outside ∧
      S.kernel.intr = false then some (S.setPc (.test r)) else none
  | .goOn =>
    if S.kernel.handler = none ∧ S.kernel.code S.kernel.cur = [] then
      match S.pc S.kernel.cur with
      | .outside => none
      | .test r =>
        if S.kernel.intr = false then
          if S.queue.blocks r = true then
            some { S.setPc (.acquire r) with kernel := S.kernel.load (lockAcquire (.user q)) }
          else (S.transfer r).map (·.setPc .outside)
        else none
      | .acquire r =>
        if S.kernel.intr = false ∧ S.queue.blocks r = true then
          some { S.setPc (.asleep r) with
            kernel := S.kernel.load [.block .direct]
            queue := S.queue.setWaiter S.kernel.cur r }
        else none
      | .asleep r =>
          some { S.setPc (.release r) with kernel := S.kernel.load (lockRelease (.user q)) }
      | .release r => some (S.setPc (.test r))
    else none
  | .handler r =>
    if S.kernel.handler ≠ none ∧ S.queue.blocks r = false then S.transfer r else none

/-- The queue is new. -/
def boot (i : Tid) (v : Nat → Nat) : IntqSystem where
  kernel := Kernel.boot i v
  queue := .init
  pc _ := .outside

/-- The states of the interleavings whose steps are as `P` says. -/
inductive Reached (q : Nat) (P : IntqSystem → IntqAct → Prop) (i : Tid) (v : Nat → Nat) :
    IntqSystem → Prop where
  | boot : Reached q P i v (boot i v)
  | step {S S' : IntqSystem} (act : IntqAct) (h : Reached q P i v S) (hp : P S act)
      (hs : S.step q act = some S') : Reached q P i v S'

/-- The running thread is at the call of `wait`, and an assertion there does not hold. -/
def WaitFails (S : IntqSystem) : Prop :=
  S.kernel.handler = none ∧ S.kernel.code S.kernel.cur = [] ∧ ∃ r, S.pc S.kernel.cur = .acquire r ∧
    ¬(S.kernel.intr = false ∧ S.queue.blocks r = true)

/-- `lock_acquire` is called only while the lock is free, so that no thread sleeps in it. -/
def LockFree (q : Nat) (S : IntqSystem) : IntqAct → Prop
  | .goOn => ∀ r, S.pc S.kernel.cur = .test r → S.queue.blocks r = true →
      S.kernel.value (.lock (.user q)) = 1
  | _ => True

/-- A sequence of steps. -/
def run (q : Nat) (S : IntqSystem) (acts : List IntqAct) : Option IntqSystem :=
  acts.foldlM (step q) S

theorem Reached.run {q : Nat} {P : IntqSystem → IntqAct → Prop} {i : Tid} {v : Nat → Nat}
    {S S' : IntqSystem} {acts : List IntqAct} (h : Reached q P i v S)
      (hp : ∀ act ∈ acts, ∀ S, P S act)
    (hr : S.run q acts = some S') : Reached q P i v S' := by
  induction acts generalizing S with
  | nil => exact some.inj hr ▸ h
  | cons act acts ih =>
    rw [IntqSystem.run, foldlM_cons] at hr
    obtain ⟨S1, hs, hr⟩ := bind_eq_some_iff.mp hr
    obtain ⟨ha, hp⟩ := forall_mem_cons.mp hp
    exact ih (h.step act (ha S) hs) hp hr

end IntqSystem

/-! ## What is left alone -/

section Frame

variable {K K' : Kernel} {t u : Tid} {l : LockId} {i : Instr} {page : Option Tid}
  {is rest : List Instr}

/-- The instruction is one of a function of `l` or of a condition with it. -/
def Instr.Uses (l : LockId) : Instr → Prop
  | downLoop s | tryDown s | up s | semaInit s _ => s = .lock l
  | assertFree r | tryLock r | setHolder r | assertHeld r | clearHolder r => r = l
  | pushWaiter c | popWaiter c | beginBroadcast c | broadcast c | waited c => c.lock = l
  | _ => False

/-- No instruction is about the lock. -/
def Avoids (l : LockId) (is : List Instr) : Prop := ∀ i ∈ is, ¬i.Uses l

theorem Avoids.append (h : Avoids l is) (hr : Avoids l rest) : Avoids l (is ++ rest) :=
  forall_mem_append.mpr ⟨h, hr⟩

theorem Avoids.tail (h : Avoids l (i :: is)) : Avoids l is := (forall_mem_cons.mp h).2

theorem avoids_of_plain (h : ∀ i ∈ is, i.Plain ∧ i ≠ .exit) : Avoids l is := by
  intro i hi
  have := (h i hi).1
  cases i <;> simp_all [Instr.Uses, Instr.Plain]

theorem avoids_call {q : Nat} {c : Call} (h : ¬c.UsesLock q) : Avoids (.user q) (c.code t) := by
  cases c <;> simp_all [Avoids, Call.code, threadUnblock, threadYield, semaDown, semaUp,
    semaTryDown, lockAcquire, lockTryAcquire, lockRelease, condWait, condSignal, condBroadcast,
    Instr.Uses, Call.UsesLock]

theorem avoids_entry (b : Bool) : Avoids l (entry b) := by
  cases b <;> simp [Avoids, entry, idleTail, semaUp, Instr.Uses]

theorem avoids_createTail {q : Nat} : Avoids (.user q) createTail := by
  simp [Avoids, createTail, allocateTid, lockAcquire, lockRelease, semaDown, semaUp, Instr.Uses]

/-- What a step of the running thread leaves alone if it does not use `l`. -/
structure LeavesAlone (l : LockId) (K K' : Kernel) (rest : List Instr) : Prop where
  value : K'.value (.lock l) = K.value (.lock l)
  handler : K'.handler = K.handler
  /-- Where another thread runs, it runs with interrupts off. -/
  switch : K'.cur = K.cur ∨ K'.intr = false
  code : ∀ t, t ≠ K.cur → K.status t ≠ none → K'.code t = K.code t
  avoids : ∀ t, Avoids l (update K.code K.cur rest t) → Avoids l (K'.code t)
  status : ∀ t, K'.status t = none → K.status t = none ∨ t = K.cur

/-- The running thread stays, with some code in front of the rest. -/
theorem leavesAlone_of_code (is : List Instr) (hvalue : K'.value (.lock l) = K.value (.lock l))
    (hhandler : K'.handler = K.handler) (hswitch : K'.cur = K.cur ∨ K'.intr = false)
    (hcode : K'.code = update K.code K.cur (is ++ rest)) (his : Avoids l is)
    (hstatus : ∀ t, K'.status t = none → K.status t = none ∨ t = K.cur) :
    LeavesAlone l K K' rest := by
  refine ⟨hvalue, hhandler, hswitch, fun t ht _ => ?_, fun t ha => ?_, hstatus⟩
  · rw [hcode, update_of_ne ht]
  · rw [hcode]
    by_cases ht : t = K.cur
    · rw [ht, update_self] at ha ⊢
      exact his.append ha
    · rw [update_of_ne ht] at ha ⊢
      exact ha

theorem leavesAlone_skip (hvalue : K'.value (.lock l) = K.value (.lock l))
    (hhandler : K'.handler = K.handler) (hcur : K'.cur = K.cur)
    (hcode : K'.code = update K.code K.cur rest) (hstatus : K'.status = K.status) :
    LeavesAlone l K K' rest :=
  leavesAlone_of_code [] hvalue hhandler (.inl hcur) hcode (forall_mem_nil _) fun _ ht =>
    .inl (hstatus ▸ ht)

theorem leavesAlone_alloc {q : Nat} {b : Bool} (hcur : K.status K.cur ≠ none)
    (he : (Instr.alloc b).exec page (K.load rest) = some ((), K')) :
    LeavesAlone (.user q) K K' rest := by
  rcases of_alloc (K := K.load rest) hcur he with rfl | ⟨t, ht, hne, rfl⟩
  · exact leavesAlone_skip rfl rfl rfl rfl rfl
  rw [K.code_load]
  refine ⟨rfl, rfl, .inl rfl, fun u hu hus => ?_, fun u ha => ?_,
    fun u hu => .inl (of_update hu (by simp)).2⟩
  · have hut : u ≠ t := fun he => hus (he ▸ ht)
    refine (update_of_ne hu _ _).trans ((update_of_ne hut _ _).trans ?_)
    exact update_of_ne hu _ _
  · show Avoids _
      (update (update (update K.code K.cur rest) t (entry b)) K.cur (createTail ++ rest) u)
    by_cases hu : u = K.cur
    · rw [hu, update_self] at ha ⊢
      exact avoids_createTail.append ha
    · rw [update_of_ne hu]
      by_cases hut : u = t
      · rw [hut, update_self]
        exact avoids_entry b
      · rw [update_of_ne hut]
        exact ha

/-- **One instruction** that does not use the lock leaves it alone. -/
theorem leavesAlone_exec {q : Nat} (hi : ¬i.Uses (.user q)) (hcur : K.status K.cur ≠ none)
    (he : i.exec page (K.load rest) = some ((), K')) : LeavesAlone (.user q) K K' rest := by
  have hswitch : K'.cur = K.cur ∨ K'.intr = false :=
    (cur_exec (K := K.load rest) hcur he).imp And.left And.left
  have hplain (hp : i.Plain) : LeavesAlone (.user q) K K' rest := by
    obtain ⟨hq, ⟨is, hcode, his, -⟩, hnone, -⟩ := quiet_exec hp he
    exact leavesAlone_of_code is (by rw [hq.value]) hq.handler hswitch hcode (avoids_of_plain his)
      fun t ht => (hnone t ht).imp_right And.left
  cases i with
  | alloc b => exact leavesAlone_alloc hcur he
  | semaInit s n =>
    cases he
    exact leavesAlone_skip (update_of_ne (Ne.symm hi) _ _) rfl rfl rfl rfl
  | downLoop s =>
    rcases of_downLoop he with ⟨-, hb⟩ | ⟨-, rfl⟩
    · rw [K.code_load, K.load_load] at hb
      obtain ⟨hq, hcode, hnone, -⟩ := quiet_blockThread hb
      refine leavesAlone_of_code [.downLoop s] (by rw [hq.value]; rfl) hq.handler hswitch hcode ?_
        fun t ht => .inl (hnone t ht)
      exact forall_mem_singleton.mpr hi
    · exact leavesAlone_skip (update_of_ne (Ne.symm hi) _ _) rfl rfl rfl rfl
  | tryDown s =>
    rcases of_tryDown he with ⟨-, rfl⟩ | ⟨-, rfl⟩
    · exact leavesAlone_skip rfl rfl rfl rfl rfl
    · exact leavesAlone_skip (update_of_ne (Ne.symm hi) _ _) rfl rfl rfl rfl
  | up s =>
    obtain ⟨hvalue, -, -, -, hcode, hhandler, -, -, hnone, -⟩ := upSema_frame he
    refine leavesAlone_of_code [] ?_ hhandler hswitch hcode (forall_mem_nil _) fun t ht =>
      .inl (hnone t ht)
    rw [hvalue]
    exact update_of_ne (Ne.symm hi) _ _
  | assertFree r =>
    obtain ⟨-, rfl⟩ := of_assertFree he
    exact leavesAlone_skip rfl rfl rfl rfl rfl
  | assertHeld r =>
    obtain ⟨-, rfl⟩ := of_assertHeld he
    exact leavesAlone_skip rfl rfl rfl rfl rfl
  | tryLock r =>
    rcases of_tryLock he with ⟨-, rfl⟩ | ⟨-, rfl⟩
    · rw [K.code_load, K.load_load]
      refine leavesAlone_of_code [.intrSetLevel] rfl rfl (.inl rfl) rfl ?_ fun _ => .inl
      simp [Avoids, Instr.Uses]
    · rw [K.code_load]
      refine leavesAlone_of_code [.intrSetLevel, .setHolder r] ?_ rfl (.inl rfl)
        (update_idem _ _ _) ?_ fun _ => .inl
      · exact update_of_ne (by simpa [Instr.Uses] using Ne.symm hi) _ _
      · simpa [Avoids, Instr.Uses] using hi
  | setHolder r | clearHolder r | pushWaiter c | beginBroadcast c | waited c =>
    cases he
    exact leavesAlone_skip rfl rfl rfl rfl rfl
  | popWaiter c =>
    rcases of_popWaiter he with ⟨-, rfl⟩ | ⟨t, ts, -, rfl⟩
    · exact leavesAlone_skip rfl rfl rfl rfl rfl
    · rw [K.code_load]
      refine leavesAlone_of_code (semaUp (.waiter t)) rfl rfl (.inl rfl)
        (update_idem _ _ _) ?_ fun _ => .inl
      simp [Avoids, semaUp, Instr.Uses]
  | broadcast c =>
    rcases of_broadcast he with ⟨-, rfl⟩ | ⟨-, rfl⟩
    · exact leavesAlone_skip rfl rfl rfl rfl rfl
    · rw [K.code_load, K.load_load]
      refine leavesAlone_of_code (condSignal c ++ [.broadcast c]) rfl rfl (.inl rfl)
        (by rw [append_assoc]; rfl) ?_ fun _ => .inl
      simpa [Avoids, condSignal, Instr.Uses] using hi
  | _ => exact hplain trivial

end Frame

namespace IntqSystem

variable {S S' : IntqSystem} {q : Nat} {t u : Tid} {r : Request}

/-! ## One thread at a time -/

/-- `t` runs, and cannot be interrupted. -/
def Runs (S : IntqSystem) (t : Tid) : Prop :=
  S.kernel.cur = t ∧ S.kernel.intr = false ∧ S.kernel.handler = none

/-- `lock_acquire` when the lock is free: the code that is left, the value of the semaphore and the
saved interrupt levels. -/
inductive Acquiring (l : LockId) : List Instr → Nat → List Bool → Prop where
  | start {ls} : Acquiring l
      [.assertFree l, .intrDisable, .downLoop (.lock l), .intrSetLevel, .setHolder l] 1 ls
  | disable {ls} : Acquiring l [.intrDisable, .downLoop (.lock l), .intrSetLevel, .setHolder l] 1 ls
  | loop {ls} : Acquiring l [.downLoop (.lock l), .intrSetLevel, .setHolder l] 1 (false :: ls)
  | setLevel {ls} : Acquiring l [.intrSetLevel, .setHolder l] 0 (false :: ls)
  | setHolder {ls} : Acquiring l [.setHolder l] 0 ls
  | done {ls} : Acquiring l [] 0 ls

/-- `lock_release`. -/
inductive Releasing (l : LockId) : List Instr → Nat → List Bool → Prop where
  | start {ls} : Releasing l
      [.assertHeld l, .clearHolder l, .intrDisable, .up (.lock l), .intrSetLevel] 0 ls
  | clear {ls} : Releasing l [.clearHolder l, .intrDisable, .up (.lock l), .intrSetLevel] 0 ls
  | disable {ls} : Releasing l [.intrDisable, .up (.lock l), .intrSetLevel] 0 ls
  | up {ls} : Releasing l [.up (.lock l), .intrSetLevel] 0 (false :: ls)
  | setLevel {ls} : Releasing l [.intrSetLevel] 1 (false :: ls)
  | done {ls} : Releasing l [] 1 ls

section Own

variable {K K' : Kernel} {l : LockId} {i : Instr} {rest : List Instr} {page : Option Tid} {n : Nat}
  {ls : List Bool}

/-- The running thread goes on, not interrupted. -/
structure GoesOn (K K' : Kernel) (rest : List Instr) : Prop where
  cur : K'.cur = K.cur
  intr : K'.intr = false
  handler : K'.handler = K.handler
  code : K'.code = update K.code K.cur rest
  status : ∀ t, K'.status t = none → K.status t = none

theorem Acquiring.exec (h : Acquiring l (i :: rest) n ls) (hn : K.value (.lock l) = n)
    (hls : K.levels K.cur = ls) (hintr : K.intr = false)
    (he : i.exec page (K.load rest) = some ((), K')) :
    GoesOn K K' rest ∧ Acquiring l rest (K'.value (.lock l)) (K'.levels K.cur) := by
  cases h with
  | start =>
    obtain ⟨-, rfl⟩ := of_assertFree he
    refine ⟨⟨rfl, hintr, rfl, rfl, fun _ => id⟩, ?_⟩
    show Acquiring l _ (K.value (.lock l)) _
    rw [hn]
    exact .disable
  | disable =>
    cases he
    refine ⟨⟨rfl, rfl, rfl, rfl, fun _ => id⟩, ?_⟩
    show Acquiring l _ (K.value (.lock l))
      (update K.levels K.cur (K.intr :: K.levels K.cur) K.cur)
    rw [hn, update_self, hintr]
    exact .loop
  | loop =>
    rcases of_downLoop he with ⟨hz, -⟩ | ⟨-, rfl⟩
    · exact absurd (hn.symm.trans hz) (by simp)
    · refine ⟨⟨rfl, hintr, rfl, rfl, fun _ => id⟩, ?_⟩
      show Acquiring l _ (update K.value (.lock l) (K.value (.lock l) - 1) (.lock l))
        (K.levels K.cur)
      rw [update_self, hn, hls]
      exact .setLevel
  | setLevel =>
    obtain ⟨level, levels, hl, rfl⟩ := of_intrSetLevel he
    obtain ⟨rfl, -⟩ := List.cons.inj (hl.symm.trans hls)
    refine ⟨⟨rfl, rfl, rfl, rfl, fun _ => id⟩, ?_⟩
    show Acquiring l _ (K.value (.lock l)) _
    rw [hn]
    exact .setHolder
  | setHolder =>
    cases he
    refine ⟨⟨rfl, hintr, rfl, rfl, fun _ => id⟩, ?_⟩
    show Acquiring l _ (K.value (.lock l)) _
    rw [hn]
    exact .done

theorem Acquiring.value_done (h : Acquiring l [] n ls) : n = 0 := by
  cases h
  rfl

theorem Releasing.exec (h : Releasing l (i :: rest) n ls) (hn : K.value (.lock l) = n)
    (hls : K.levels K.cur = ls) (hintr : K.intr = false)
    (he : i.exec page (K.load rest) = some ((), K')) :
    GoesOn K K' rest ∧ Releasing l rest (K'.value (.lock l)) (K'.levels K.cur) := by
  cases h with
  | start =>
    obtain ⟨-, rfl⟩ := of_assertHeld he
    refine ⟨⟨rfl, hintr, rfl, rfl, fun _ => id⟩, ?_⟩
    show Releasing l _ (K.value (.lock l)) _
    rw [hn]
    exact .clear
  | clear =>
    cases he
    refine ⟨⟨rfl, hintr, rfl, rfl, fun _ => id⟩, ?_⟩
    show Releasing l _ (K.value (.lock l)) _
    rw [hn]
    exact .disable
  | disable =>
    cases he
    refine ⟨⟨rfl, rfl, rfl, rfl, fun _ => id⟩, ?_⟩
    show Releasing l _ (K.value (.lock l))
      (update K.levels K.cur (K.intr :: K.levels K.cur) K.cur)
    rw [hn, update_self, hintr]
    exact .up
  | up =>
    obtain ⟨hvalue, -, -, -, hcode, hhandler, hcur, -, hnone, -⟩ := upSema_frame he
    have hframe : K'.intr = K.intr ∧ K'.levels = K.levels := by
      rcases of_upSema he with ⟨-, rfl⟩ | ⟨t, ws, -, -, rfl⟩
      · exact ⟨rfl, rfl⟩
      · exact ⟨rfl, rfl⟩
    refine ⟨⟨hcur, hframe.1.trans hintr, hhandler, hcode, hnone⟩, ?_⟩
    rw [hvalue, hframe.2, hls, update_self]
    show Releasing l _ ((K.value (.lock l) + 1) % 2 ^ 32) _
    rw [hn]
    exact .setLevel
  | setLevel =>
    obtain ⟨level, levels, hl, rfl⟩ := of_intrSetLevel he
    obtain ⟨rfl, -⟩ := List.cons.inj (hl.symm.trans hls)
    refine ⟨⟨rfl, rfl, rfl, rfl, fun _ => id⟩, ?_⟩
    show Releasing l _ (K.value (.lock l)) _
    rw [hn]
    exact .done

theorem Releasing.value_done (h : Releasing l [] n ls) : n = 1 := by
  cases h
  rfl

end Own

/-- What holds of a thread that is inside. -/
def Inside (q : Nat) (S : IntqSystem) (t : Tid) : IntqPc → Prop
  | .outside => True
  | .test _ => S.Runs t ∧ S.kernel.code t = []
  | .acquire r => S.Runs t ∧ S.queue.blocks r = true ∧
      Acquiring (.user q) (S.kernel.code t) (S.kernel.value (.lock (.user q))) (S.kernel.levels t)
  | .asleep _ => (S.kernel.cur = t → S.Runs t) ∧ S.kernel.value (.lock (.user q)) = 0 ∧
      (S.kernel.code t = [] ∨ S.kernel.cur = t ∧ S.kernel.code t = [.block .direct])
  | .release _ => S.Runs t ∧
      Releasing (.user q) (S.kernel.code t) (S.kernel.value (.lock (.user q))) (S.kernel.levels t)

/-- The invariant. -/
structure Inv (q : Nat) (S : IntqSystem) : Prop where
  one : ∀ t u, (S.pc t).UsesLock → (S.pc u).UsesLock → t = u
  dead : ∀ t, S.kernel.status t = none → S.pc t = .outside
  avoids : ∀ t, S.pc t = .outside → Avoids (.user q) (S.kernel.code t)
  free : (∀ t, ¬(S.pc t).UsesLock) → S.kernel.value (.lock (.user q)) = 1
  inside : ∀ t, S.Inside q t (S.pc t)

theorem Inv.not_waitFails (h : S.Inv q) : ¬S.WaitFails := by
  rintro ⟨-, -, r, hr, hfail⟩
  have hin := h.inside S.kernel.cur
  rw [hr] at hin
  exact hfail ⟨hin.1.2.1, hin.2.1⟩

/-- A thread inside, if it does not run, is asleep. -/
theorem Inv.asleep (h : S.Inv q) (ht : S.pc t ≠ .outside) (hne : S.kernel.cur ≠ t) :
    ∃ r, S.pc t = .asleep r ∧ S.kernel.value (.lock (.user q)) = 0 ∧ S.kernel.code t = [] := by
  have hin := h.inside t
  cases hp : S.pc t with
  | outside => exact absurd hp ht
  | test r | acquire r | release r =>
    rw [hp] at hin
    exact absurd hin.1.1 hne
  | asleep r =>
    rw [hp] at hin
    exact ⟨r, rfl, hin.2.1, hin.2.2.resolve_right fun hr => hne hr.1⟩

/-- A thread outside, or a handler, makes a step. -/
theorem Inv.other {K' : Kernel} (Q' : Intq) (h : S.Inv q)
    (hout : ∀ t, S.pc t ≠ .outside → S.kernel.cur ≠ t)
    (hvalue : K'.value (.lock (.user q)) = S.kernel.value (.lock (.user q)))
    (hcur : K'.cur = S.kernel.cur ∨ K'.intr = false ∧ K'.handler = none)
    (hstatus : ∀ t, K'.status t = none → S.pc t = .outside)
    (hcode : ∀ t, S.pc t ≠ .outside → K'.code t = S.kernel.code t)
    (havoids : ∀ t, S.pc t = .outside → Avoids (.user q) (K'.code t)) :
    Inv q { S with kernel := K', queue := Q' } := by
  refine ⟨h.one, hstatus, havoids, fun ha => hvalue.trans (h.free ha), fun t => ?_⟩
  show Inside q _ t (S.pc t)
  by_cases ht : S.pc t = .outside
  · rw [ht]
    trivial
  · obtain ⟨r, hr, hv, hc⟩ := h.asleep ht (hout t ht)
    rw [hr]
    refine ⟨fun he => ?_, hvalue.trans hv, .inl ((hcode t ht).trans hc)⟩
    have he : K'.cur = t := he
    have := hcur.resolve_left fun hsame => hout t ht (hsame.symm.trans he)
    exact ⟨he, this⟩

theorem Inv.free_of (h : S.Inv q) (hp : ¬(S.pc S.kernel.cur).UsesLock)
    (hno : ∀ t, t ≠ S.kernel.cur → ¬(S.pc t).UsesLock) :
    S.kernel.value (.lock (.user q)) = 1 := by
  refine h.free fun t hu => ?_
  by_cases htc : t = S.kernel.cur
  · exact hp (htc ▸ hu)
  · exact hno t htc hu

/-- While the running thread uses the lock, no other one is inside. -/
theorem Inv.alone (h : S.Inv q) (hp : (S.pc S.kernel.cur).UsesLock) (ht : t ≠ S.kernel.cur) :
    S.pc t = .outside := by
  by_contra hn
  obtain ⟨r, hr, -⟩ := h.asleep hn ht.symm
  exact ht (h.one t _ (by rw [hr]; trivial) hp)

/-- The running thread makes a step inside, after which it is at `p`. The others are outside, or
asleep in `wait` while it does not touch the lock. -/
theorem Inv.own {p : IntqPc} (h : S.Inv q) (hcur : S.kernel.status S.kernel.cur ≠ none)
    (hothers : ∀ t, t ≠ S.kernel.cur → S.pc t ≠ .outside → ¬p.UsesLock ∧
      S'.kernel.cur = S.kernel.cur ∧
      S'.kernel.value (.lock (.user q)) = S.kernel.value (.lock (.user q)))
    (hpc : S'.pc = update S.pc S.kernel.cur p)
    (hcode : ∀ t, t ≠ S.kernel.cur → S'.kernel.code t = S.kernel.code t)
    (hstatus : ∀ t, S'.kernel.status t = none → S.kernel.status t = none)
    (hin : S'.Inside q S.kernel.cur p)
    (hout : p = .outside → Avoids (.user q) (S'.kernel.code S.kernel.cur))
    (hfree : ¬p.UsesLock → (∀ t, t ≠ S.kernel.cur → ¬(S.pc t).UsesLock) →
      S'.kernel.value (.lock (.user q)) = 1) : Inv q S' := by
  have hself : S'.pc S.kernel.cur = p := by rw [hpc, update_self]
  have hsame {t} (ht : t ≠ S.kernel.cur) : S'.pc t = S.pc t := by rw [hpc, update_of_ne ht]
  have hlock {t} (ht : t ≠ S.kernel.cur) (hu : (S'.pc t).UsesLock) : ¬p.UsesLock := by
    rw [hsame ht] at hu
    exact (hothers t ht fun hn => by rw [hn] at hu; exact hu).1
  refine ⟨fun t u ht hu => ?_, fun t ht => ?_, fun t ht => ?_, fun ha => ?_, fun t => ?_⟩
  · by_cases htc : t = S.kernel.cur <;> by_cases huc : u = S.kernel.cur
    · exact htc.trans huc.symm
    · rw [htc, hself] at ht
      exact absurd ht (hlock huc hu)
    · rw [huc, hself] at hu
      exact absurd hu (hlock htc ht)
    · exact h.one t u (hsame htc ▸ ht) (hsame huc ▸ hu)
  · by_cases htc : t = S.kernel.cur
    · rw [htc] at ht
      exact absurd (hstatus _ ht) hcur
    · rw [hsame htc]
      exact h.dead t (hstatus t ht)
  · by_cases htc : t = S.kernel.cur
    · rw [htc, hself] at ht
      rw [htc]
      exact hout ht
    · rw [hcode t htc]
      exact h.avoids t (hsame htc ▸ ht)
  · exact hfree (hself ▸ ha _) fun t ht => hsame ht ▸ ha t
  · by_cases htc : t = S.kernel.cur
    · rw [htc, hself]
      exact hin
    rw [hsame htc]
    by_cases hp : S.pc t = .outside
    · rw [hp]
      trivial
    · obtain ⟨r, hr, hv, hc⟩ := h.asleep hp (Ne.symm htc)
      obtain ⟨-, hsc, hsv⟩ := hothers t htc hp
      rw [hr]
      exact ⟨fun he => absurd (he.symm.trans hsc) htc, hsv.trans hv,
        .inl ((hcode t htc).trans hc)⟩

/-- It uses the lock before and after the step, so that the others are outside. -/
theorem Inv.locked {p : IntqPc} (h : S.Inv q) (hcur : S.kernel.status S.kernel.cur ≠ none)
    (hu : (S.pc S.kernel.cur).UsesLock) (hpc : S'.pc = update S.pc S.kernel.cur p) (hp : p.UsesLock)
    (hcode : ∀ t, t ≠ S.kernel.cur → S'.kernel.code t = S.kernel.code t)
    (hstatus : ∀ t, S'.kernel.status t = none → S.kernel.status t = none)
    (hin : S'.Inside q S.kernel.cur p) : Inv q S' := by
  refine h.own hcur (fun t ht hn => absurd (h.alone hu ht) hn) hpc hcode hstatus hin
    (fun ho => ?_) fun hn => absurd hp hn
  rw [ho] at hp
  exact hp.elim

/-- A thread inside, if it runs, is not interrupted. -/
theorem Inv.runs (h : S.Inv q) (ht : S.pc t ≠ .outside) (he : S.kernel.cur = t) : S.Runs t := by
  have hin := h.inside t
  cases hp : S.pc t with
  | outside => exact absurd hp ht
  | test r | acquire r | release r =>
    rw [hp] at hin
    exact hin.1
  | asleep r =>
    rw [hp] at hin
    exact hin.1 he

theorem Inv.runInside {i : Instr} {rest : List Instr} {page : Option Tid} {K' : Kernel}
    (h : S.Inv q)
    (hcur : S.kernel.status S.kernel.cur ≠ none) (hp : S.pc S.kernel.cur ≠ .outside)
    (hcode : S.kernel.code S.kernel.cur = i :: rest)
    (he : i.exec page (S.kernel.load rest) = some ((), K')) : Inv q { S with kernel := K' } := by
  have hruns := h.runs hp rfl
  have hpc {p : IntqPc} (hp : S.pc S.kernel.cur = p) :
      S.pc = update S.pc S.kernel.cur p := by
    rw [← hp, update_eq_self]
  have hrest {t} (ht : t ≠ S.kernel.cur) : update S.kernel.code S.kernel.cur rest t =
    S.kernel.code t := update_of_ne ht _ _
  have hin := h.inside S.kernel.cur
  cases hp' : S.pc S.kernel.cur with
  | outside => exact absurd hp' hp
  | test r =>
    rw [hp'] at hin
    rw [hin.2] at hcode
    cases hcode
  | acquire r =>
    rw [hp'] at hin
    obtain ⟨-, hb, hacq⟩ := hin
    rw [hcode] at hacq
    obtain ⟨hgo, hacq'⟩ := hacq.exec rfl rfl hruns.2.1 he
    refine h.locked hcur (hp' ▸ trivial) (hpc hp') trivial (fun t ht => ?_) hgo.status
      ⟨⟨hgo.cur, hgo.intr, hgo.handler.trans hruns.2.2⟩, hb, ?_⟩
    · show K'.code t = _
      rw [hgo.code, hrest ht]
    · show Acquiring _ (K'.code S.kernel.cur) _ _
      rw [hgo.code, update_self]
      exact hacq'
  | asleep r =>
    rw [hp'] at hin
    rcases hin.2.2 with hnil | ⟨-, hblock⟩
    · rw [hnil] at hcode
      cases hcode
    · obtain ⟨rfl, rfl⟩ := List.cons.inj (hcode.symm.trans hblock)
      obtain ⟨hq, hcode', hnone, -⟩ := quiet_blockThread he
      refine h.locked hcur (hp' ▸ trivial) (hpc hp') trivial (fun t ht => ?_) hnone
        ⟨fun hc => ⟨hc, intr_of_schedule (of_blockThread he).2.2, hq.handler.trans hruns.2.2⟩, ?_,
          .inl ?_⟩
      · show K'.code t = _
        rw [hcode']
        exact hrest ht
      · show K'.value _ = 0
        rw [hq.value]
        exact hin.2.1
      · show K'.code S.kernel.cur = []
        rw [hcode']
        exact update_self _ _ _
  | release r =>
    rw [hp'] at hin
    obtain ⟨-, hrel⟩ := hin
    rw [hcode] at hrel
    obtain ⟨hgo, hrel'⟩ := hrel.exec rfl rfl hruns.2.1 he
    refine h.locked hcur (hp' ▸ trivial) (hpc hp') trivial (fun t ht => ?_) hgo.status
      ⟨⟨hgo.cur, hgo.intr, hgo.handler.trans hruns.2.2⟩, ?_⟩
    · show K'.code t = _
      rw [hgo.code, hrest ht]
    · show Releasing _ (K'.code S.kernel.cur) _ _
      rw [hgo.code, update_self]
      exact hrel'

theorem handle_frame {c : HandlerCall} {K K' : Kernel} (hc : ¬c.UsesLock q)
    (he : c.exec K = some ((), K')) : K'.value (.lock (.user q)) = K.value (.lock (.user q)) ∧
      K'.cur = K.cur ∧ K'.code = K.code ∧ ∀ t, K'.status t = none → K.status t = none := by
  cases c with
  | semaTryDown n =>
    have he : Instr.exec none (.tryDown (.user n)) K = some ((), K') := he
    rcases of_tryDown he with ⟨-, rfl⟩ | ⟨-, rfl⟩
    · exact ⟨rfl, rfl, rfl, fun _ => id⟩
    · exact ⟨rfl, rfl, rfl, fun _ => id⟩
  | semaUp n =>
    obtain ⟨hvalue, -, -, -, hcode, -, hcur, -, hnone, -⟩ := upSema_frame he
    refine ⟨?_, hcur, hcode, hnone⟩
    rw [hvalue]
    rfl
  | threadUnblock u =>
    obtain ⟨-, rfl⟩ := of_unblockThread he
    exact ⟨rfl, rfl, rfl, fun t ht => (of_update ht (by simp)).2⟩
  | lockTryAcquire n =>
    have hne : SemaId.lock (.user q) ≠ .lock (.user n) := by simpa using Ne.symm hc
    rcases (of_handler_tryAcquire he).2 with ⟨-, rfl⟩ | ⟨-, rfl⟩
    · exact ⟨rfl, rfl, rfl, fun _ => id⟩
    · exact ⟨update_of_ne hne _ _, rfl, rfl, fun _ => id⟩
  | lockRelease n =>
    have hne : SemaId.lock (.user q) ≠ .lock (.user n) := by simpa using Ne.symm hc
    obtain ⟨-, K1, hup, rfl⟩ := of_handler_release he
    obtain ⟨hvalue, -, -, -, hcode, -, hcur, -, hnone, -⟩ := upSema_frame hup
    refine ⟨?_, hcur, hcode, hnone⟩
    show K1.value _ = _
    rw [hvalue]
    exact update_of_ne hne _ _

/-- **The kernel** makes a step. -/
theorem Inv.kernelStep {act : Act} {K' : Kernel} (h : S.Inv q)
    (hcur : S.kernel.status S.kernel.cur ≠ none) (hallow : S.Allows q act)
    (hs : S.kernel.step act = some K') : Inv q { S with kernel := K' } := by
  -- where a handler runs, or may run, no thread inside does
  have hout (hr : S.kernel.intr = true ∨ S.kernel.handler ≠ none) (t) (ht : S.pc t ≠ .outside) :
      S.kernel.cur ≠ t := by
    intro he
    have hruns := h.runs ht he
    rcases hr with hr | hr
    · rw [hruns.2.1] at hr
      cases hr
    · exact hr hruns.2.2
  cases act with
  | run page =>
    obtain ⟨i, rest, hh, hcode, -, he⟩ := of_step_run hs
    by_cases hp : S.pc S.kernel.cur = .outside
    · have ha : Avoids (.user q) (i :: rest) := hcode ▸ h.avoids _ hp
      have hframe := leavesAlone_exec (ha i mem_cons_self) hcur he
      have hne {t} (ht : S.pc t ≠ .outside) : t ≠ S.kernel.cur := fun he => ht (he ▸ hp)
      refine h.other S.queue (fun t ht => (hne ht).symm) hframe.value
        (hframe.switch.imp_right fun hi => ⟨hi, hframe.handler.trans hh⟩) (fun t ht => ?_)
        (fun t ht => hframe.code t (hne ht) fun hn => ht (h.dead t hn)) fun t ht =>
          hframe.avoids t ?_
      · rcases hframe.status t ht with ht | rfl
        · exact h.dead t ht
        · exact hp
      · by_cases htc : t = S.kernel.cur
        · rw [htc, update_self]
          exact ha.tail
        · rw [update_of_ne htc]
          exact h.avoids t ht
    · exact h.runInside hcur hp hcode he
  | call c =>
    obtain ⟨hh, hcode, -, rfl⟩ := of_step_call hs
    obtain ⟨hp, hc⟩ := hallow
    have hne {t} (ht : S.pc t ≠ .outside) : t ≠ S.kernel.cur := fun he => ht (he ▸ hp)
    refine h.other S.queue (fun t ht => (hne ht).symm) rfl (.inl rfl) h.dead
      (fun t ht => update_of_ne (hne ht) _ _) fun t ht => ?_
    show Avoids _ (update S.kernel.code S.kernel.cur (c.code S.kernel.cur) t)
    by_cases htc : t = S.kernel.cur
    · rw [htc, update_self]
      exact avoids_call hc
    · rw [update_of_ne htc]
      exact h.avoids t ht
  | interrupt =>
    obtain ⟨hh, hi, rfl⟩ := of_step_interrupt hs
    exact h.other S.queue (hout (.inl hi)) rfl (.inl rfl) h.dead (fun _ _ => rfl) h.avoids
  | handle c =>
    obtain ⟨taken, hh, -, he⟩ := of_step_handle hs
    obtain ⟨hvalue, hcur', hcode, hnone⟩ := handle_frame hallow he
    exact h.other S.queue (hout (.inr (by rw [hh]; simp))) hvalue (.inl hcur')
      (fun t ht => h.dead t (hnone t ht)) (fun t _ => by rw [hcode]) fun t ht =>
        hcode ▸ h.avoids t ht
  | leave b =>
    obtain ⟨hh, hleave⟩ := of_step_leave hs
    have hout := hout (.inr hh)
    rcases hleave with hy | rfl
    · obtain ⟨hq, hcode, hnone, -⟩ := quiet_yieldThread hy
      refine h.other S.queue hout (by rw [hq.value]; rfl)
        (.inr ⟨intr_of_schedule (of_yieldThread hy).2.2, hq.handler⟩)
          (fun t ht => h.dead t (hnone t ht))
        (fun t ht => ?_) fun t ht => ?_
      · rw [hcode]
        exact update_of_ne (hout t ht).symm _ _
      · rw [hcode]
        show Avoids _
          (update S.kernel.code S.kernel.cur (.intrOn :: S.kernel.code S.kernel.cur) t)
        by_cases htc : t = S.kernel.cur
        · rw [htc] at ht ⊢
          rw [update_self]
          exact forall_mem_cons.mpr ⟨id, h.avoids _ ht⟩
        · rw [update_of_ne htc]
          exact h.avoids t ht
    · exact h.other S.queue hout rfl (.inl rfl) h.dead (fun _ _ => rfl) h.avoids

theorem of_transfer (h : S.transfer r = some S') :
    ∃ K' Q', S' = { S with kernel := K', queue := Q' } ∧
    K'.value = S.kernel.value ∧ K'.cur = S.kernel.cur ∧ K'.code = S.kernel.code ∧
    ∀ t, K'.status t = none → S.kernel.status t = none := by
  rw [transfer] at h
  split at h
  · split at h
    · obtain ⟨⟨⟨⟩, K'⟩, hu, rfl⟩ := map_eq_some_iff.mp h
      obtain ⟨-, rfl⟩ := of_unblockThread hu
      exact ⟨_, _, rfl, rfl, rfl, rfl, fun t ht => (of_update ht (by simp)).2⟩
    · exact ⟨_, _, (some.inj h).symm, rfl, rfl, rfl, fun _ => id⟩
  · cases h

/-- A thread that finds the lock free calls `lock_acquire`; no other one is asleep then. -/
theorem Inv.acquire (h : S.Inv q) (hcur : S.kernel.status S.kernel.cur ≠ none)
    (hruns : S.Runs S.kernel.cur) (hb : S.queue.blocks r = true)
    (hvalue : S.kernel.value (.lock (.user q)) = 1) :
    Inv q { S.setPc (.acquire r) with kernel := S.kernel.load (lockAcquire (.user q)) } := by
  refine h.own hcur (fun t ht hn => ?_) rfl (fun t ht => update_of_ne ht _ _) (fun _ => id)
    ⟨hruns, hb, ?_⟩ nofun fun hn => absurd trivial hn
  · obtain ⟨-, -, h0, -⟩ := h.asleep hn ht.symm
    cases hvalue.symm.trans h0
  · show Acquiring _ (update S.kernel.code S.kernel.cur (lockAcquire (.user q)) S.kernel.cur)
      (S.kernel.value (.lock (.user q))) _
    rw [update_self, hvalue]
    exact .start

/-- A thread that need not wait moves a byte and returns. -/
theorem Inv.transfer (h : S.Inv q) (hcur : S.kernel.status S.kernel.cur ≠ none)
    (hp : S.pc S.kernel.cur = .test r) (hcode : S.kernel.code S.kernel.cur = [])
    (ht : S.transfer r = some S') : Inv q (S'.setPc .outside) := by
  obtain ⟨K', Q', rfl, hvalue, hcur', hcode', hnone⟩ := of_transfer ht
  refine h.own (p := .outside) hcur (fun _ _ _ => ⟨id, hcur', congrFun hvalue _⟩) ?_
    (fun t _ => ?_) hnone trivial (fun _ => ?_) fun _ hno => ?_
  · show update S.pc K'.cur .outside = _
    rw [hcur']
  · show K'.code t = _
    rw [hcode']
  · show Avoids _ (K'.code S.kernel.cur)
    rw [hcode', hcode]
    exact forall_mem_nil _
  · show K'.value _ = 1
    rw [hvalue]
    exact h.free_of (fun hu => by rw [hp] at hu; exact hu) hno

/-- **A thread inside** goes on in the function of the queue. -/
theorem Inv.goOn (h : S.Inv q) (hcur : S.kernel.status S.kernel.cur ≠ none)
    (ha : S.LockFree q .goOn) (hs : S.step q .goOn = some S') : Inv q S' := by
  rw [step] at hs
  split at hs
  · rename_i hc
    obtain ⟨hh, hcode⟩ := hc
    have hin := h.inside S.kernel.cur
    have hload {is : List Instr} (t) (ht : t ≠ S.kernel.cur) : (S.kernel.load is).code t =
      S.kernel.code t := update_of_ne ht _ _
    cases hp : S.pc S.kernel.cur with
    | outside =>
      rw [hp] at hs
      cases hs
    | test r =>
      rw [hp] at hs hin
      dsimp only at hs
      split at hs
      · split at hs
        · rename_i hb
          cases hs
          exact h.acquire hcur hin.1 hb (ha r hp hb)
        · obtain ⟨S1, ht, rfl⟩ := map_eq_some_iff.mp hs
          exact h.transfer hcur hp hcode ht
      · cases hs
    | acquire r =>
      rw [hp] at hs hin
      dsimp only at hs
      split at hs
      · cases hs
        obtain ⟨hruns, -, hacq⟩ := hin
        rw [hcode] at hacq
        exact h.locked hcur (hp ▸ trivial) rfl trivial hload (fun _ => id)
          ⟨fun _ => hruns, hacq.value_done, .inr ⟨rfl, update_self _ _ _⟩⟩
      · cases hs
    | asleep r =>
      rw [hp] at hs hin
      cases hs
      refine h.locked hcur (hp ▸ trivial) rfl trivial hload (fun _ => id) ⟨hin.1 rfl, ?_⟩
      show Releasing _
        (update S.kernel.code S.kernel.cur (lockRelease (.user q)) S.kernel.cur)
        (S.kernel.value (.lock (.user q))) _
      rw [update_self, hin.2.1]
      exact .start
    | release r =>
      rw [hp] at hs hin
      cases hs
      obtain ⟨hruns, hrel⟩ := hin
      rw [hcode] at hrel
      exact h.own hcur (fun t ht hn => absurd (h.alone (hp ▸ trivial) ht) hn) rfl (fun _ _ => rfl)
        (fun _ => id) ⟨hruns, hcode⟩ nofun fun _ _ => hrel.value_done
  · cases hs

/-- **One step** keeps the invariant. -/
theorem Inv.step {act : IntqAct} (h : S.Inv q) (hcur : S.kernel.status S.kernel.cur ≠ none)
    (ha : S.LockFree q act) (hs : S.step q act = some S') : Inv q S' := by
  cases act with
  | kernel act =>
    rw [IntqSystem.step] at hs
    split at hs
    · rename_i hallow
      obtain ⟨K', hK, rfl⟩ := map_eq_some_iff.mp hs
      exact h.kernelStep hcur hallow hK
    · cases hs
  | enter r =>
    rw [IntqSystem.step] at hs
    split at hs
    · rename_i hc
      obtain ⟨hh, hcode, hp, hintr⟩ := hc
      cases hs
      refine h.own hcur (fun _ _ _ => ⟨id, rfl, rfl⟩) rfl (fun _ _ => rfl) (fun _ => id)
        ⟨⟨rfl, hintr, hh⟩, hcode⟩ nofun fun _ hno => h.free_of (fun hu => ?_) hno
      rw [hp] at hu
      exact hu
    · cases hs
  | goOn => exact h.goOn hcur ha hs
  | handler r =>
    rw [IntqSystem.step] at hs
    split at hs
    · rename_i hc
      obtain ⟨K', Q', rfl, hvalue, hcur', hcode', hnone⟩ := of_transfer hs
      refine h.other Q' (fun t ht he => hc.1 (h.runs ht he).2.2) (by rw [hvalue]) (.inl hcur')
        (fun t ht => h.dead t (hnone t ht)) (fun t _ => by rw [hcode']) fun t ht =>
          hcode' ▸ h.avoids t ht
    · cases hs

theorem Inv.boot (i : Tid) (v : Nat → Nat) : Inv q (boot i v) := by
  refine ⟨fun _ _ ht => ht.elim, fun _ _ => rfl, fun t _ => ?_, fun _ => rfl,
    fun _ => trivial⟩
  show Avoids _ (if t = i then threadStart else [])
  split
  · simp [Avoids, threadStart, semaDown, Instr.Uses]
  · exact forall_mem_nil _

theorem alive_step {act : IntqAct} (hcur : S.kernel.status S.kernel.cur ≠ none)
    (hs : S.step q act = some S') : S'.kernel.status S'.kernel.cur ≠ none := by
  have htransfer {r S'} (ht : S.transfer r = some S') : S'.kernel.status S'.kernel.cur ≠ none := by
    obtain ⟨K', Q', rfl, -, hc, -, hnone⟩ := of_transfer ht
    exact fun hn => hcur (hc ▸ hnone _ hn)
  cases act with
  | kernel act =>
    rw [IntqSystem.step] at hs
    split at hs
    · obtain ⟨K', hK, rfl⟩ := map_eq_some_iff.mp hs
      exact Threads.alive_step hcur hK
    · cases hs
  | enter r =>
    rw [IntqSystem.step] at hs
    split at hs
    · exact some.inj hs ▸ hcur
    · cases hs
  | handler r =>
    rw [IntqSystem.step] at hs
    split at hs
    · exact htransfer hs
    · cases hs
  | goOn =>
    rw [IntqSystem.step] at hs
    split at hs
    · split at hs
      · cases hs
      · split at hs
        · split at hs
          · exact some.inj hs ▸ hcur
          · obtain ⟨S1, ht, rfl⟩ := map_eq_some_iff.mp hs
            have h1 := htransfer ht
            exact h1
        · cases hs
      · split at hs
        · exact some.inj hs ▸ hcur
        · cases hs
      · exact some.inj hs ▸ hcur
      · exact some.inj hs ▸ hcur
    · cases hs

theorem Reached.alive {P : IntqSystem → IntqAct → Prop} {i : Tid} {v : Nat → Nat}
    (h : Reached q P i v S) : S.kernel.status S.kernel.cur ≠ none := by
  induction h with
  | boot => simp [IntqSystem.boot, Kernel.boot]
  | step act _ _ hs ih => exact IntqSystem.alive_step ih hs

theorem Reached.inv {i : Tid} {v : Nat → Nat} (h : Reached q (LockFree q) i v S) : S.Inv q := by
  induction h with
  | boot => exact Inv.boot i v
  | step act hr hp hs ih => exact ih.step hr.alive hp hs

/-- **The assertion of `wait` holds** if no thread sleeps in `lock_acquire`. -/
theorem intq_wait_of_free {i : Tid} {v : Nat → Nat} (h : Reached q (LockFree q) i v S) :
    ¬S.WaitFails :=
  h.inv.not_waitFails

/-- Steps of the running thread. -/
def runs (n : Nat) : List IntqAct := List.replicate n (.kernel (.run none))

/-- The idle thread is started, and interrupts are turned off. -/
def startScript : List Act :=
  List.replicate 18 (.run (some 2)) ++ List.replicate 10 (.run none) ++
    [.call .intrDisable, .run none]

/-- A reader gets to the call of `wait`. -/
theorem intq_wait_of_free_reader : ∃ S, Reached 0 (LockFree 0) 1 (fun _ => 0) S ∧
    S.pc S.kernel.cur = .acquire .getc ∧ S.kernel.code S.kernel.cur = [] ∧ ¬S.WaitFails := by
  have hstart : ((boot 1 fun _ => 0).run 0 (startScript.map .kernel ++ [.enter .getc])).map
      (fun S => (S.kernel.value (.lock (.user 0)), (S.run 0 (.goOn :: runs 5)).map fun S =>
        (S.pc S.kernel.cur, S.kernel.code S.kernel.cur))) =
      some (1, some (.acquire .getc, [])) := by decide +kernel
  obtain ⟨S1, h1, he⟩ := map_eq_some_iff.mp hstart
  obtain ⟨hvalue, he⟩ := Prod.mk.inj he
  obtain ⟨S, hS, he⟩ := map_eq_some_iff.mp he
  obtain ⟨hpc, hcode⟩ := Prod.mk.inj he
  obtain ⟨S2, h2, hS⟩ := bind_eq_some_iff.mp hS
  have hr1 : Reached 0 (LockFree 0) 1 (fun _ => 0) S1 := by
    refine Reached.run .boot (fun act ha S => ?_) h1
    rcases mem_append.mp ha with ha | ha
    · obtain ⟨a, -, rfl⟩ := mem_map.mp ha
      trivial
    · rw [mem_singleton.mp ha]
      trivial
  have hr := (hr1.step .goOn (fun _ _ _ => hvalue) h2).run
    (fun act ha S => by rw [eq_of_mem_replicate ha]; trivial) hS
  exact ⟨S, hr, hpc, hcode, intq_wait_of_free hr⟩

/-- Two threads read from the empty queue: the first sleeps in `wait`, the second in `lock_acquire`.
A handler writes two bytes; the first thread takes one, and the second finds the other at its
`wait`. -/
def twoReadersScript : List IntqAct := List.flatten [
  List.replicate 18 (.kernel (.run (some 2))), runs 10,
  [.kernel (.call .threadCreate), .kernel (.run (some 3))], runs 14,
  [.kernel (.call .intrDisable)], runs 1, [.enter .getc, .goOn], runs 5, [.goOn], runs 2,
  [.kernel (.call .intrDisable)], runs 1, [.enter .getc, .goOn], runs 4,
  [.kernel .interrupt, .handler (.putc 1), .handler (.putc 2), .kernel (.leave true)],
  [.goOn], runs 5, [.goOn, .goOn, .kernel (.call .intrEnable)], runs 1,
  [.kernel (.call .threadYield)], runs 5]

/-- **The assertion of `wait` can fail.** -/
theorem intq_wait_two_readers :
    ∃ S, Reached 0 (fun _ _ => True) 1 (fun _ => 0) S ∧ S.WaitFails := by
  have hrun : ((boot 1 fun _ => 0).run 0 twoReadersScript).map (fun S => (S.kernel.handler,
      S.kernel.code S.kernel.cur, S.pc S.kernel.cur, S.queue.blocks .getc)) =
      some (none, [], .acquire .getc, false) := by decide +kernel
  obtain ⟨S, hS, he⟩ := map_eq_some_iff.mp hrun
  obtain ⟨hh, he⟩ := Prod.mk.inj he
  obtain ⟨hcode, he⟩ := Prod.mk.inj he
  obtain ⟨hpc, hb⟩ := Prod.mk.inj he
  exact ⟨S, Reached.run .boot (fun _ _ _ => trivial) hS, hh, hcode, .getc, hpc,
    fun hok => by rw [hb] at hok; cases hok.2⟩

end IntqSystem

end SystemProg.Threads
