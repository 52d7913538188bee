import Mathlib.Algebra.Group.Nat.Defs
import Mathlib.Logic.Function.Basic
import SystemProg.Seq.Panic

/-!
# Kernel threads

Model of `threads/thread.c` and `threads/synch.c` on one CPU. A thread is the page that holds its
`struct thread`. What a thread still has to do in the kernel is a list of instructions, `code`: a
call of a function loads the function's statements, and an instruction may put more in front (a
loop, a branch, a call). With an empty list the thread is in code of its own, and may call any
function.

Interrupts are a flag, `intr`. An interrupt comes only where it is set, between any two
instructions; the handler runs with the flag cleared and may end with `thread_yield`, which is how
the timer preempts. So exactly the sections between `intr_disable` and `intr_set_level` are atomic,
also across a context switch: the thread that was switched to goes on where it left off, with
interrupts off.

`wait` and `log` are history: why a thread is blocked, and what has happened. No function reads
them. A failed assertion stops the machine.
-/

namespace SystemProg.Threads

open Function SystemProg.Seq

/-! ## State -/

/-- A thread: the page of its `struct thread`. -/
abbrev Tid : Type := Nat

/-- `enum thread_status`. -/
inductive Status where
  | running
  | ready
  | blocked
  | dying
  deriving DecidableEq

/-- `tid_lock`, and the locks of the callers. -/
inductive LockId where
  | tid
  | user (n : Nat)
  deriving DecidableEq

/-- Semaphores: those of the callers, the one in `thread_start`, that of a lock, and that in the
stack frame of a thread in `cond_wait`. -/
inductive SemaId where
  | user (n : Nat)
  | idleStarted
  | lock (l : LockId)
  | waiter (t : Tid)
  deriving DecidableEq

/-- A condition variable, with the one lock that it is used with. -/
structure CondId where
  lock : LockId
  index : Nat
  deriving DecidableEq

/-- Why a thread is blocked: in `sema_down`, by its own call of `thread_block`, in the idle loop, or
because its creator has not started it yet. -/
inductive Wait where
  | sema (s : SemaId)
  | direct
  | idle
  | newborn (creator : Tid)
  deriving DecidableEq

/-- The statements of the functions. -/
inductive Instr where
  | intrOn
  | intrOff
  | intrDisable
  | intrSetLevel
  | block (w : Wait)
  | unblock (t : Tid)
  | yield
  | exit
  | alloc (idle : Bool)
  | nextTid
  | launch
  | setIdle
  | idleLoop
  | semaInit (s : SemaId) (value : Nat)
  | downLoop (s : SemaId)
  | tryDown (s : SemaId)
  | up (s : SemaId)
  | assertFree (l : LockId)
  | tryLock (l : LockId)
  | setHolder (l : LockId)
  | assertHeld (l : LockId)
  | clearHolder (l : LockId)
  | pushWaiter (c : CondId)
  | popWaiter (c : CondId)
  | beginBroadcast (c : CondId)
  | broadcast (c : CondId)
  | waited (c : CondId)
  deriving DecidableEq

/-- An entry of the history. -/
inductive Event where
  | created (t : Tid)
  | started (t : Tid)
  | exited (t : Tid)
  | freed (t : Tid)
  | init (s : SemaId) (value : Nat)
  | up (s : SemaId) (t : Tid)
  | down (s : SemaId) (t : Tid)
  | acquired (l : LockId) (t : Tid)
  | released (l : LockId) (t : Tid)
  | waits (c : CondId) (t : Tid)
  /-- `cond_signal` by `t` takes a waiter off the list, if there is one. -/
  | signals (c : CondId) (t : Tid) (waiter : Option Tid)
  | broadcasts (c : CondId) (t : Tid)
  | broadcasted (c : CondId) (t : Tid)
  | returns (c : CondId) (t : Tid)
  deriving DecidableEq

/-- The state of the machine. -/
structure Kernel where
  /-- `none`: the page is not in use. -/
  status : Tid → Option Status
  code : Tid → List Instr
  /-- The values of `old_level` in the thread's stack frames. -/
  levels : Tid → List Bool
  /-- `t` in the stack frame of `thread_create`. -/
  child : Tid → Option Tid
  /-- `running_thread()`. -/
  cur : Tid
  /-- `initial_thread`. -/
  initial : Tid
  /-- `idle_thread`. -/
  idle : Option Tid
  /-- `ready_list`. -/
  ready : List Tid
  intr : Bool
  /-- In an interrupt handler, with the locks that it has taken. -/
  handler : Option (List LockId)
  /-- `next_tid`. -/
  tidCnt : Nat
  /-- `unsigned value`: `++` wraps at 2^32. -/
  value : SemaId → Nat
  waiters : SemaId → List Tid
  holder : LockId → Option Tid
  /-- The `waiters` of a condition variable, each with its thread. -/
  cond : CondId → List Tid
  wait : Tid → Option Wait
  /-- The newest event first. -/
  log : List Event

/-! ## The functions, as statements -/

/-- `sema_down`. -/
def semaDown (s : SemaId) : List Instr := [.intrDisable, .downLoop s, .intrSetLevel]

/-- `sema_try_down`. -/
def semaTryDown (s : SemaId) : List Instr := [.intrDisable, .tryDown s, .intrSetLevel]

/-- `sema_up`. -/
def semaUp (s : SemaId) : List Instr := [.intrDisable, .up s, .intrSetLevel]

/-- `lock_acquire`. -/
def lockAcquire (l : LockId) : List Instr := .assertFree l :: semaDown (.lock l) ++ [.setHolder l]

/-- What follows depends on the result of `sema_try_down`; see `Instr.exec`. -/
def lockTryAcquire (l : LockId) : List Instr := [.assertFree l, .intrDisable, .tryLock l]

/-- `lock_release`. -/
def lockRelease (l : LockId) : List Instr := [.assertHeld l, .clearHolder l] ++ semaUp (.lock l)

/-- `cond_wait`. -/
def condWait (t : Tid) (c : CondId) : List Instr :=
  [.assertHeld c.lock, .semaInit (.waiter t) 0, .pushWaiter c] ++ lockRelease c.lock ++
    semaDown (.waiter t) ++ lockAcquire c.lock ++ [.waited c]

/-- `cond_signal`. -/
def condSignal (c : CondId) : List Instr := [.assertHeld c.lock, .popWaiter c]

/-- `cond_broadcast`. -/
def condBroadcast (c : CondId) : List Instr := [.beginBroadcast c, .broadcast c]

/-- `thread_unblock`, of a thread that blocked itself. -/
def threadUnblock (t : Tid) : List Instr := [.intrDisable, .unblock t, .intrSetLevel]

/-- `thread_yield`. -/
def threadYield : List Instr := [.intrDisable, .yield, .intrSetLevel]

/-- `allocate_tid`. -/
def allocateTid : List Instr := lockAcquire .tid ++ [.nextTid] ++ lockRelease .tid

/-- `thread_create` after `palloc_get_page` and `init_thread`. -/
def createTail : List Instr := allocateTid ++ [.intrDisable, .launch, .intrSetLevel]

/-- `idle`, after the assignment to `idle_thread`. -/
def idleTail : List Instr := semaUp .idleStarted ++ [.idleLoop]

/-- What a new thread does first: `kernel_thread`, and `idle`. -/
def entry (idle : Bool) : List Instr := .intrOn :: if idle then .setIdle :: idleTail else []

/-- `thread_start`. -/
def threadStart : List Instr := [.alloc true, .intrOn] ++ semaDown .idleStarted

/-! ## The scheduler -/

/-- `t->status = s`. -/
def setStatus (t : Tid) (s : Status) : Panic Kernel Unit :=
  modify fun K => { K with status := update K.status t (some s) }

/-- An event. -/
def record (e : Event) : Panic Kernel Unit := modify fun K => { K with log := e :: K.log }

/-- `next_thread_to_run`. -/
def nextThreadToRun : Panic Kernel (Option Tid) := do
  let K ← get
  match K.ready with
  | [] => return K.idle
  | t :: rest =>
    set { K with ready := rest }
    return some t

/-- `thread_schedule_tail`. -/
def threadScheduleTail (prev : Option Tid) : Panic Kernel Unit := do
  let K ← get
  setStatus K.cur .running
  modify fun K => { K with wait := update K.wait K.cur none }
  record (.started K.cur)
  match prev with
  | some p =>
    if K.status p = some .dying ∧ p ≠ K.initial then
      assert (p ≠ K.cur)
      modify fun K => { K with status := update K.status p none }
      record (.freed p)
  | none => pure ()

/-- `schedule`. -/
def schedule : Panic Kernel Unit := do
  let cur := (← get).cur
  let next ← nextThreadToRun
  let K ← get
  assert (K.intr = false)
  assert (K.status cur ≠ some .running)
  match next with
  | some next =>
    assert (K.status next ≠ none)
    if cur ≠ next then
      set { K with cur := next }
      threadScheduleTail (some cur)
    else threadScheduleTail none
  | none => abort

/-- `thread_block`. -/
def blockThread (w : Wait) : Panic Kernel Unit := do
  let K ← get
  assert (K.handler = none)
  assert (K.intr = false)
  setStatus K.cur .blocked
  modify fun K => { K with wait := update K.wait K.cur (some w) }
  schedule

/-- The body of `thread_unblock`. -/
def unblockThread (t : Tid) : Panic Kernel Unit := do
  let K ← get
  assert (K.status t = some .blocked)
  set { K with ready := K.ready ++ [t], wait := update K.wait t none }
  setStatus t .ready

/-- The body of `thread_yield`. -/
def yieldThread : Panic Kernel Unit := do
  let K ← get
  assert (K.status K.cur = some .running)
  assert (K.handler = none)
  if K.idle ≠ some K.cur then
    modify fun K => { K with ready := K.ready ++ [K.cur] }
  setStatus K.cur .ready
  schedule

/-- The body of `thread_exit`. -/
def exitThread : Panic Kernel Unit := do
  let K ← get
  assert (K.handler = none)
  setStatus K.cur .dying
  record (.exited K.cur)
  modify fun K => { K with intr := false }
  schedule

/-! ## Instructions -/

/-- More statements to run first. -/
def prepend (is : List Instr) : Panic Kernel Unit :=
  modify fun K => { K with code := update K.code K.cur (is ++ K.code K.cur) }

/-- `sema->value--`. -/
def takeUnit (s : SemaId) : Panic Kernel Unit := do
  let K ← get
  set { K with value := update K.value s (K.value s - 1) }
  record (.down s K.cur)

/-- The body of `sema_up`. -/
def upSema (s : SemaId) : Panic Kernel Unit := do
  let K ← get
  match K.waiters s with
  | [] => pure ()
  | t :: rest =>
    set { K with waiters := update K.waiters s rest }
    unblockThread t
  modify fun K => { K with value := update K.value s ((K.value s + 1) % 2 ^ 32) }
  record (.up s K.cur)

/-- `palloc_get_page` and `init_thread`. -/
def initThread (t : Tid) (idle : Bool) : Panic Kernel Unit := do
  let K ← get
  set { K with
    status := update K.status t (some .blocked)
    wait := update K.wait t (some (.newborn K.cur))
    code := update K.code t (entry idle)
    levels := update K.levels t []
    child := update K.child K.cur (some t) }
  record (.created t)
  prepend createTail

/-- A statement; `page` is what `palloc_get_page` has. -/
def Instr.exec (page : Option Tid) : Instr → Panic Kernel Unit
  | intrOn => modify fun K => { K with intr := true }
  | intrOff => modify fun K => { K with intr := false }
  | intrDisable => modify fun K =>
      { K with levels := update K.levels K.cur (K.intr :: K.levels K.cur), intr := false }
  | intrSetLevel => do
    let K ← get
    match K.levels K.cur with
    | [] => abort
    | level :: rest => set { K with levels := update K.levels K.cur rest, intr := level }
  | block w => blockThread w
  | unblock t => unblockThread t
  | yield => yieldThread
  | exit => exitThread
  | alloc idle => do
    let K ← get
    match page with
    | some t => if K.status t = none then initThread t idle
    | none => pure ()
  | nextTid => modify fun K => { K with tidCnt := K.tidCnt + 1 }
  | launch => do
    let K ← get
    match K.child K.cur with
    | some t =>
      unblockThread t
      modify fun K => { K with child := update K.child K.cur none }
    | none => pure ()
  | setIdle => modify fun K => { K with idle := some K.cur }
  | idleLoop => prepend [.intrOff, .block .idle, .intrOn, .idleLoop]
  | semaInit s value => do
    modify fun K =>
      { K with value := update K.value s (value % 2 ^ 32), waiters := update K.waiters s [] }
    record (.init s (value % 2 ^ 32))
  | downLoop s => do
    let K ← get
    if K.value s = 0 then
      modify fun K => { K with waiters := update K.waiters s (K.waiters s ++ [K.cur]) }
      prepend [.downLoop s]
      blockThread (.sema s)
    else takeUnit s
  | tryDown s => do
    let K ← get
    if 0 < K.value s then takeUnit s
  | up s => upSema s
  | assertFree l => do
    let K ← get
    assert (K.holder l ≠ some K.cur)
  | tryLock l => do
    let K ← get
    if 0 < K.value (.lock l) then
      takeUnit (.lock l)
      prepend [.intrSetLevel, .setHolder l]
    else prepend [.intrSetLevel]
  | setHolder l => do
    let K ← get
    set { K with holder := update K.holder l (some K.cur) }
    record (.acquired l K.cur)
  | assertHeld l => do
    let K ← get
    assert (K.holder l = some K.cur)
  | clearHolder l => do
    let K ← get
    set { K with holder := update K.holder l none }
    record (.released l K.cur)
  | pushWaiter c => do
    let K ← get
    set { K with cond := update K.cond c (K.cond c ++ [K.cur]) }
    record (.waits c K.cur)
  | popWaiter c => do
    let K ← get
    record (.signals c K.cur (K.cond c).head?)
    match K.cond c with
    | [] => pure ()
    | t :: rest =>
      modify fun K => { K with cond := update K.cond c rest }
      prepend (semaUp (.waiter t))
  | beginBroadcast c => do
    let K ← get
    record (.broadcasts c K.cur)
  | broadcast c => do
    let K ← get
    if K.cond c = [] then record (.broadcasted c K.cur)
    else prepend (condSignal c ++ [.broadcast c])
  | waited c => do
    let K ← get
    record (.returns c K.cur)

/-! ## The machine -/

/-- What a thread may call. -/
inductive Call where
  | intrDisable
  | intrEnable
  | threadCreate
  | threadBlock
  | threadUnblock (t : Tid)
  | threadYield
  | threadExit
  | semaInit (n value : Nat)
  | semaDown (n : Nat)
  | semaTryDown (n : Nat)
  | semaUp (n : Nat)
  | lockAcquire (n : Nat)
  | lockTryAcquire (n : Nat)
  | lockRelease (n : Nat)
  | condWait (n index : Nat)
  | condSignal (n index : Nat)
  | condBroadcast (n index : Nat)
  deriving DecidableEq

/-- The statements of a call. -/
def Call.code (cur : Tid) : Call → List Instr
  | intrDisable => [.intrOff]
  | intrEnable => [.intrOn]
  | threadCreate => [.alloc false]
  | threadBlock => [.block .direct]
  | threadUnblock t => Threads.threadUnblock t
  | threadYield => Threads.threadYield
  | threadExit => [.exit]
  | semaInit n value => [.semaInit (.user n) value]
  | semaDown n => Threads.semaDown (.user n)
  | semaTryDown n => Threads.semaTryDown (.user n)
  | semaUp n => Threads.semaUp (.user n)
  | lockAcquire n => Threads.lockAcquire (.user n)
  | lockTryAcquire n => Threads.lockTryAcquire (.user n)
  | lockRelease n => Threads.lockRelease (.user n)
  | condWait n index => Threads.condWait cur ⟨.user n, index⟩
  | condSignal n index => Threads.condSignal ⟨.user n, index⟩
  | condBroadcast n index => Threads.condBroadcast ⟨.user n, index⟩

/-- What an interrupt handler may call. -/
inductive HandlerCall where
  | semaTryDown (n : Nat)
  | semaUp (n : Nat)
  | threadUnblock (t : Tid)
  | lockTryAcquire (n : Nat)
  | lockRelease (n : Nat)
  deriving DecidableEq

/-- A call of a handler is atomic; `thread_current()` is the thread that was interrupted. -/
def HandlerCall.exec : HandlerCall → Panic Kernel Unit
  | semaTryDown n => Instr.exec none (.tryDown (.user n))
  | semaUp n => upSema (.user n)
  | threadUnblock t => unblockThread t
  | lockTryAcquire n => do
    Instr.exec none (.assertFree (.user n))
    let K ← get
    if 0 < K.value (.lock (.user n)) then
      takeUnit (.lock (.user n))
      Instr.exec none (.setHolder (.user n))
      modify fun K => { K with handler := K.handler.map (.user n :: ·) }
  | lockRelease n => do
    Instr.exec none (.assertHeld (.user n))
    Instr.exec none (.clearHolder (.user n))
    upSema (.lock (.user n))
    modify fun K => { K with handler := K.handler.map (·.erase (.user n)) }

/-- A step. -/
inductive Act where
  /-- The running thread's next instruction; `page` is what the page allocator has. -/
  | run (page : Option Tid)
  | call (c : Call)
  | interrupt
  | handle (c : HandlerCall)
  /-- The handler returns, with `thread_yield` if it asked for it. -/
  | leave (yield : Bool)
  deriving DecidableEq

/-- How the functions are to be used: `thread_unblock` is applied directly only to a thread that
blocked itself with `thread_block`. -/
def Instr.Proper (K : Kernel) : Instr → Prop
  | unblock t => K.wait t = some .direct
  | _ => True

/-- A condition is broadcast with its lock held. -/
def Call.Proper (K : Kernel) : Call → Prop
  | condBroadcast n _ => K.holder (.user n) = some K.cur
  | _ => True

/-- A handler releases only locks that it has taken itself. -/
def HandlerCall.Proper (K : Kernel) (taken : List LockId) : HandlerCall → Prop
  | threadUnblock t => K.wait t = some .direct
  | lockRelease n => .user n ∈ taken
  | _ => True

instance (K : Kernel) : DecidablePred (Instr.Proper K) := fun i => by
  cases i <;> unfold Instr.Proper <;> infer_instance

instance (K : Kernel) : DecidablePred (Call.Proper K) := fun c => by
  cases c <;> unfold Call.Proper <;> infer_instance

instance (K : Kernel) (taken : List LockId) : DecidablePred (HandlerCall.Proper K taken) :=
  fun c => by
  cases c <;> unfold HandlerCall.Proper <;> infer_instance

/-- The state with other code for the running thread. -/
def Kernel.load (K : Kernel) (code : List Instr) : Kernel :=
  { K with code := update K.code K.cur code }

/-- One step; `none` if it is not possible, or an assertion fails. -/
def Kernel.step (K : Kernel) : Act → Option Kernel
  | .run page =>
    match K.handler, K.code K.cur with
    | none, i :: rest => if i.Proper K then (i.exec page (K.load rest)).map Prod.snd else none
    | _, _ => none
  | .call c =>
    if K.handler = none ∧ K.code K.cur = [] ∧ c.Proper K then some (K.load (c.code K.cur)) else none
  | .interrupt =>
    if K.handler = none ∧ K.intr = true then some { K with handler := some [], intr := false }
    else none
  | .handle c =>
    match K.handler with
    | some taken => if c.Proper K taken then (c.exec K).map Prod.snd else none
    | none => none
  | .leave yield =>
    match K.handler with
    | some _ =>
      if yield then
        (yieldThread { K.load (.intrOn :: K.code K.cur) with handler := none }).map Prod.snd
      else some { K with handler := none, intr := true }
    | none => none

/-- The state at `thread_start`, where the callers' semaphores have the values `v`. -/
def Kernel.boot (initial : Tid) (v : Nat → Nat) : Kernel where
  status t := if t = initial then some .running else none
  code t := if t = initial then threadStart else []
  levels _ := []
  child _ := none
  cur := initial
  initial := initial
  idle := none
  ready := []
  intr := false
  handler := none
  tidCnt := 2
  value
    | .user n => v n % 2 ^ 32
    | .lock _ => 1
    | _ => 0
  waiters _ := []
  holder _ := none
  cond _ := []
  wait _ := none
  log := []

/-- The states of every interleaving. -/
inductive Reachable (initial : Tid) (v : Nat → Nat) : Kernel → Prop where
  | boot : Reachable initial v (Kernel.boot initial v)
  | step {K K' : Kernel} (act : Act) (h : Reachable initial v K) (hs : K.step act = some K') :
      Reachable initial v K'

/-- A script of steps. -/
def Kernel.run (K : Kernel) (acts : List Act) : Option Kernel := acts.foldlM Kernel.step K

theorem Reachable.run {initial : Tid} {v : Nat → Nat} {K K' : Kernel} {acts : List Act}
    (h : Reachable initial v K) (hr : K.run acts = some K') : Reachable initial v K' := by
  induction acts generalizing K with
  | nil => exact Option.some.inj hr ▸ h
  | cons act acts ih =>
    rw [Kernel.run, List.foldlM_cons] at hr
    obtain ⟨K1, hs, hr⟩ := Option.bind_eq_some_iff.mp hr
    exact ih (h.step act hs) hr

end SystemProg.Threads
