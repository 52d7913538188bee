import Mathlib.Data.List.Nodup
import SystemProg.Threads.Steps

/-!
# The scheduler's lists

The one `elem` of a `struct thread` is on the run queue or on one semaphore's list, or on none.
`Sched` is the invariant between two instructions, `Switching` what holds of it where `schedule` is
called: no thread is running, and the one that called may be dying.

The idle thread is ready without being on the run queue. For the queue to be right, no other thread
may call what only the idle thread calls, and the idle thread may never leave its loop; `IdleInv`
says so of the code that the threads still have to run.

* `Switching.schedule`: a context switch restores the invariant.
* `SchedInv.step`: one step of any thread or handler keeps it.
* `scheduler_lists`: what the lists hold, and when a page is freed, in every interleaving.
-/

namespace SystemProg.Threads

open Function SystemProg.Seq List Option

variable {K K' : Kernel} {t u next : Tid} {s : SemaId} {w : Wait}

/-! ## The invariant -/

/-- In the history, the newest event first, each thread but the initial one is freed once, right
after the thread that runs next has started; no page is freed otherwise. -/
inductive WellFreed (initial : Tid) : List Event → Prop where
  | nil : WellFreed initial []
  | exit {log : List Event} {t u : Tid} (h : WellFreed initial log) (ht : t ≠ initial)
      (hu : u ≠ t) :
      WellFreed initial (.freed t :: .started u :: .exited t :: log)
  | initial {log : List Event} {u : Tid} (h : WellFreed initial log) (hu : u ≠ initial) :
      WellFreed initial (.started u :: .exited initial :: log)
  | other {log : List Event} {e : Event} (h : WellFreed initial log)
      (he : ∀ t, e ≠ .exited t ∧ e ≠ .freed t) : WellFreed initial (e :: log)

/-- Who is on which list. -/
structure Lists (K : Kernel) : Prop where
  readyNodup : K.ready.Nodup
  ready : ∀ t, t ∈ K.ready ↔ K.status t = some .ready ∧ K.idle ≠ some t
  waitersNodup : ∀ s, (K.waiters s).Nodup
  waiting : ∀ s t, t ∈ K.waiters s → K.wait t = some (.sema s)
  blocked : ∀ t w, K.wait t = some w → K.status t = some .blocked
  idle : ∀ i, K.idle = some i → (K.wait i = none ∨ K.wait i = some .idle) ∧ K.status i ≠ none ∧
    K.status i ≠ some .dying
  child : ∀ u t, K.child u = some t → K.wait t = some (.newborn u)

/-- The invariant between two instructions. -/
structure Sched (K : Kernel) : Prop extends Lists K where
  running : K.status K.cur = some .running
  only : ∀ t, K.status t = some .running → t = K.cur
  dying : ∀ t, K.status t = some .dying → t = K.initial
  freed : WellFreed K.initial K.log

/-- The invariant where `schedule` is called. -/
structure Switching (K : Kernel) : Prop extends Lists K where
  stopped : ∀ t, K.status t ≠ some .running
  dying : ∀ t, K.status t = some .dying → t = K.initial ∨ t = K.cur
  exited : K.status K.cur = some .dying →
    ∃ log, K.log = .exited K.cur :: log ∧ WellFreed K.initial log
  freed : K.status K.cur ≠ some .dying → WellFreed K.initial K.log

/-- A thread that may run next waits for nothing. -/
theorem Lists.wait_of_picks (h : Lists K) (hp : K.Picks next) :
    K.wait next = none ∨ K.wait next = some .idle := by
  rcases hp with hp | ⟨-, hp⟩
  · left
    have hready := ((h.ready next).mp (mem_of_mem_head? hp)).1
    cases hw : K.wait next with
    | none => rfl
    | some w =>
      rw [h.blocked next w hw] at hready
      cases hready
  · exact (h.idle next hp).1

/-- A context switch takes the next thread off the run queue. -/
theorem Lists.mem_tail (h : Lists K) (hp : K.Picks next) :
    t ∈ K.ready.tail ↔ t ∈ K.ready ∧ t ≠ next := by
  rcases hp with hp | ⟨hp, -⟩
  · obtain ⟨rest, hr⟩ := head?_eq_some_iff.mp hp
    have hnodup := nodup_cons.mp (hr ▸ h.readyNodup)
    rw [hr, tail_cons, mem_cons]
    constructor
    · exact fun ht => ⟨.inr ht, fun he => hnodup.1 (he ▸ ht)⟩
    · exact fun ht => ht.1.resolve_left ht.2
  · rw [hp]
    simp

theorem Lists.not_dying (h : Lists K) (hp : K.Picks next) : K.status next ≠ some .dying := by
  rcases hp with hp | ⟨-, hp⟩
  · rw [((h.ready next).mp (mem_of_mem_head? hp)).1]
    simp
  · exact (h.idle next hp).2.2

/-- A thread that waits for something else than to run is not picked. -/
theorem Lists.ne_next (h : Lists K) (hp : K.Picks next) (hw : K.wait t = some w) (hi : w ≠ .idle) :
    t ≠ next := by
  rintro rfl
  have := h.wait_of_picks hp
  simp [hw, hi] at this

theorem switchTo_running : (K.switchTo next).status next = some .running := update_self _ _ _

theorem switchTo_other (ht : t ≠ next) (hd : K.status t ≠ some .dying ∨ t = K.initial) :
    (K.switchTo next).status t = K.status t := by
  refine (update_of_ne ht _ _).trans ?_
  split
  · rename_i hl
    refine update_of_ne (fun he => ?_) _ _
    subst he
    exact hd.elim (fun hd => hd hl.1) hl.2.1
  · rfl

namespace Switching

/-- The page of the thread that has exited is freed. -/
theorem freed_dying (h : Switching K) (ht : t ≠ next) (hd : K.status t = some .dying)
    (hi : t ≠ K.initial) : (K.switchTo next).status t = none := by
  obtain rfl : t = K.cur := (h.dying t hd).resolve_left hi
  refine (update_of_ne ht _ _).trans ?_
  rw [if_pos ⟨hd, hi, ht⟩, update_self]

theorem status_iff (h : Switching K) (ht : t ≠ next) {x : Status} (hx : x ≠ .dying) :
    (K.switchTo next).status t = some x ↔ K.status t = some x := by
  by_cases hd : K.status t = some .dying
  · by_cases hi : t = K.initial
    · rw [switchTo_other ht (.inr hi)]
    · rw [h.freed_dying ht hd hi, hd]
      exact iff_of_false (by simp) fun he => hx (some.inj he).symm
  · rw [switchTo_other ht (.inl hd)]

theorem switchTo_lists (h : Switching K) (hp : K.Picks next) : Lists (K.switchTo next) where
  readyNodup := h.readyNodup.sublist (tail_sublist _)
  ready t := by
    show t ∈ K.ready.tail ↔ (K.switchTo next).status t = some .ready ∧ K.idle ≠ some t
    rw [h.mem_tail hp, h.ready]
    by_cases ht : t = next
    · subst ht
      rw [switchTo_running]
      simp
    · rw [h.status_iff ht (by decide)]
      exact and_iff_left ht
  waitersNodup := h.waitersNodup
  waiting s t hs := by
    have hw := h.waiting s t hs
    exact (update_of_ne (h.ne_next hp hw (by simp)) _ _).trans hw
  blocked t w hw := by
    have ht : t ≠ next := by
      rintro rfl
      rw [show (K.switchTo t).wait t = none from update_self _ _ _] at hw
      cases hw
    exact (h.status_iff ht (by decide)).mpr
      (h.blocked t w ((update_of_ne ht _ _).symm.trans hw))
  idle i hi := by
    obtain ⟨hw, h1, h2⟩ := h.idle i hi
    by_cases ht : i = next
    · subst ht
      rw [switchTo_running]
      exact ⟨.inl (update_self _ _ _), by simp, by simp⟩
    · rw [switchTo_other ht (.inl h2)]
      refine ⟨?_, h1, h2⟩
      rwa [show (K.switchTo next).wait i = K.wait i from update_of_ne ht _ _]
  child u t hu := by
    have hw := h.child u t hu
    exact (update_of_ne (h.ne_next hp hw (by simp)) _ _).trans hw

theorem switchTo_freed (h : Switching K) (hp : K.Picks next) :
    WellFreed K.initial (K.switchTo next).log := by
  show WellFreed K.initial
    ((if K.Leaves next then [.freed K.cur] else []) ++ .started next :: K.log)
  by_cases hd : K.status K.cur = some .dying
  · obtain ⟨log, hlog, hw⟩ := h.exited hd
    have hne : next ≠ K.cur := fun he => h.not_dying hp (he ▸ hd)
    rw [hlog]
    by_cases hi : K.cur = K.initial
    · rw [if_neg fun hl => hl.2.1 hi, hi]
      exact .initial hw (hi ▸ hne)
    · rw [if_pos ⟨hd, hi, Ne.symm hne⟩]
      exact .exit hw hi hne
  · rw [if_neg fun hl => hd hl.1]
    exact .other (h.freed hd) (by simp)

/-- **A context switch** restores the invariant. -/
theorem schedule (h : Switching K) (hs : schedule K = some ((), K')) : Sched K' := by
  obtain ⟨next, hp, -, -, rfl⟩ := of_schedule hs
  refine ⟨h.switchTo_lists hp, switchTo_running, fun t ht => ?_, fun t ht => ?_,
    h.switchTo_freed hp⟩
  · by_contra hne
    exact h.stopped t ((h.status_iff hne (by decide)).mp ht)
  · by_contra hi
    by_cases hne : t = next
    · rw [hne, switchTo_running] at ht
      cases ht
    · by_cases hd : K.status t = some .dying
      · rw [h.freed_dying hne hd hi] at ht
        cases ht
      · rw [switchTo_other hne (.inl hd)] at ht
        exact hd ht

end Switching

/-! ## The primitives keep it -/

/-- What the invariant reads, but for the history. -/
def Kernel.lists (K : Kernel) :=
  (K.status, K.ready, K.waiters, K.wait, K.child, K.idle, K.cur, K.initial)

namespace Sched

theorem wait_cur (h : Sched K) : K.wait K.cur = none := by
  cases hw : K.wait K.cur with
  | none => rfl
  | some w =>
    have := (h.blocked _ w hw).symm.trans h.running
    cases this

theorem of_lists (h : Sched K) (hs : K'.lists = K.lists) (hlog : WellFreed K.initial K'.log) :
    Sched K' := by
  simp only [Kernel.lists, Prod.mk.injEq] at hs
  obtain ⟨⟨h1, h2, h3, h4, h5, h6, h7⟩, h8, h9, h10, -⟩ := h
  obtain ⟨hstatus, hready, hwaiters, hwait, hchild, hidle, hcur, hinitial⟩ := hs
  rw [← hready] at h1
  simp only [← hstatus, ← hready, ← hidle, ← hwaiters, ← hwait, ← hchild, ← hcur, ← hinitial] at *
  exact ⟨⟨h1, h2, h3, h4, h5, h6, h7⟩, h8, h9, h10, hlog⟩

theorem unblock (h : Sched K) (hstatus : K.status t = some .blocked) (hidle : K.idle ≠ some t)
    (hwaiters : ∀ s, t ∉ K.waiters s) (hchild : ∀ u, K.child u ≠ some t) : Sched { K with
      ready := K.ready ++ [t]
      wait := update K.wait t none
      status := update K.status t (some .ready) } := by
  have hne {u : Tid} {x : Status} (hu : K.status u = some x) (hx : x ≠ .blocked) : u ≠ t := by
    rintro rfl
    exact hx (some.inj (hu.symm.trans hstatus))
  have hold {u : Tid} {x : Status} (hu : update K.status t (some .ready) u = some x)
      (hx : x ≠ .ready) : K.status u = some x := by
    by_cases hut : u = t
    · rw [hut, update_self] at hu
      exact absurd (some.inj hu).symm hx
    · rwa [update_of_ne hut] at hu
  have hcur := hne h.running (by decide)
  refine ⟨⟨?_, ?_, h.waitersNodup, ?_, ?_, ?_, ?_⟩, ?_, ?_, ?_, h.freed⟩
  · refine nodup_append.mpr ⟨h.readyNodup, nodup_singleton t, fun a ha b hb => ?_⟩
    rw [mem_singleton.mp hb]
    exact hne ((h.ready a).mp ha).1 (by decide)
  · intro u
    rw [mem_append, mem_singleton, h.ready]
    by_cases hu : u = t
    · subst hu
      simp only [update_self, hidle, ne_eq, not_false_eq_true, and_true, or_true]
    · simp only [update_of_ne hu, hu, or_false]
  · intro s u hu
    have hut : u ≠ t := fun he => hwaiters s (he ▸ hu)
    exact (update_of_ne hut _ _).trans (h.waiting s u hu)
  · intro u w hw
    dsimp only at hw ⊢
    by_cases hu : u = t
    · rw [hu, update_self] at hw
      cases hw
    · rw [update_of_ne hu] at hw ⊢
      exact h.blocked u w hw
  · intro i hi
    have hit : i ≠ t := fun he => hidle (he ▸ hi)
    simp only [update_of_ne hit]
    exact h.idle i hi
  · intro u v hv
    have hvt : v ≠ t := fun he => hchild u (he ▸ hv)
    exact (update_of_ne hvt _ _).trans (h.child u v hv)
  · exact (update_of_ne hcur _ _).trans h.running
  · exact fun u hu => h.only u (hold hu (by decide))
  · exact fun u hu => h.dying u (hold hu (by decide))

theorem unblock_direct (h : Sched K) (hw : K.wait t = some .direct)
    (hu : unblockThread t K = some ((), K')) : Sched K' := by
  obtain ⟨hstatus, rfl⟩ := of_unblockThread hu
  refine h.unblock hstatus ?_ ?_ ?_
  · intro hi
    have := (h.idle t hi).1
    rw [hw] at this
    simp at this
  · intro s hs
    have := (h.waiting s t hs).symm.trans hw
    simp at this
  · intro u hc
    have := (h.child u t hc).symm.trans hw
    simp at this

/-- **`sema_up`**: the element goes from the semaphore's list to the run queue. -/
theorem up (h : Sched K) (hu : upSema s K = some ((), K')) : Sched K' := by
  rcases of_upSema hu with ⟨-, rfl⟩ | ⟨t, rest, hw, hstatus, rfl⟩
  · exact h.of_lists rfl (.other h.freed (by simp))
  · have hnodup := nodup_cons.mp (hw ▸ h.waitersNodup s)
    have hwait := h.waiting s t (hw ▸ mem_cons_self)
    have hrest (r) (u) (hu : u ∈ update K.waiters s rest r) : u ∈ K.waiters r := by
      by_cases hr : r = s
      · subst hr
        rw [update_self] at hu
        rw [hw]
        exact mem_cons_of_mem _ hu
      · rwa [update_of_ne hr] at hu
    have h1 : Sched { K with waiters := update K.waiters s rest } := by
      refine ⟨⟨h.readyNodup, h.ready, ?_, ?_, h.blocked, h.idle, h.child⟩, h.running, h.only,
        h.dying, h.freed⟩
      · intro r
        dsimp only
        by_cases hr : r = s
        · subst hr
          rw [update_self]
          exact hnodup.2
        · rw [update_of_ne hr]
          exact h.waitersNodup r
      · exact fun r u hu => h.waiting r u (hrest r u hu)
    have h2 := h1.unblock (t := t) hstatus ?_ ?_ ?_
    · exact h2.of_lists rfl (.other h.freed (by simp))
    · intro hi
      have := (h.idle t hi).1
      rw [hwait] at this
      simp at this
    · intro r hr
      have := hwait.symm.trans (h.waiting r t (hrest r t hr))
      obtain rfl := Wait.sema.inj (some.inj this)
      dsimp only at hr
      rw [update_self] at hr
      exact hnodup.1 hr
    · intro u hc
      have := (h.child u t hc).symm.trans hwait
      simp at this

/-- Statuses of the others, where the running thread stops. -/
theorem stopped_iff (h : Sched K) {x y : Status} (hx : x ≠ y) (hy : y ≠ .running) :
    update K.status K.cur (some x) t = some y ↔ K.status t = some y := by
  by_cases ht : t = K.cur
  · rw [ht, update_self, h.running]
    exact iff_of_false (fun he => hx (some.inj he)) fun he => hy (some.inj he).symm
  · rw [update_of_ne ht]

theorem stopped (h : Sched K) {x : Status} (hx : x ≠ .running) (t : Tid) :
    update K.status K.cur (some x) t ≠ some .running := by
  by_cases ht : t = K.cur
  · rw [ht, update_self]
    exact fun he => hx (some.inj he)
  · rw [update_of_ne ht]
    exact fun he => ht (h.only t he)

/-- The running thread blocks; if it has put itself on a list, it waits for that semaphore. -/
theorem block {ws : SemaId → List Tid} (h : Sched K) (hnodup : ∀ s, (ws s).Nodup)
    (hws : ∀ s t, t ∈ ws s → t ∈ K.waiters s ∨ t = K.cur ∧ w = .sema s)
    (hidle : K.idle = some K.cur → w = .idle) : Switching { K with
      status := update K.status K.cur (some .blocked)
      wait := update K.wait K.cur (some w)
      waiters := ws } := by
  have hcur {u : Tid} {x : Wait} (hu : K.wait u = some x) : u ≠ K.cur := by
    rintro rfl
    rw [h.wait_cur] at hu
    cases hu
  refine ⟨⟨h.readyNodup, ?_, hnodup, ?_, ?_, ?_, ?_⟩, h.stopped (by decide), ?_, ?_, ?_⟩
  · intro t
    dsimp only
    rw [h.ready, h.stopped_iff (by decide) (by decide)]
  · intro s t ht
    dsimp only at ht ⊢
    rcases hws s t ht with ht | ⟨rfl, rfl⟩
    · have hw := h.waiting s t ht
      rw [update_of_ne (hcur hw), hw]
    · rw [update_self]
  · intro t x hx
    dsimp only at hx ⊢
    by_cases ht : t = K.cur
    · rw [ht, update_self]
    · rw [update_of_ne ht] at hx ⊢
      exact h.blocked t x hx
  · intro i hi
    dsimp only
    by_cases ht : i = K.cur
    · subst ht
      rw [update_self, update_self, hidle hi]
      simp
    · rw [update_of_ne ht, update_of_ne ht]
      exact h.idle i hi
  · intro u t hc
    dsimp only
    have hw := h.child u t hc
    rw [update_of_ne (hcur hw), hw]
  · intro t ht
    exact .inl (h.dying t ((h.stopped_iff (by decide) (by decide)).mp ht))
  · intro hd
    simp at hd
  · exact fun _ => h.freed

/-- The running thread becomes ready; the idle thread stays off the list. -/
theorem yield (h : Sched K) : Switching { K with
      ready := if K.idle ≠ some K.cur then K.ready ++ [K.cur] else K.ready
      status := update K.status K.cur (some .ready) } := by
  have hnot : K.cur ∉ K.ready := fun hm => by
    have := ((h.ready _).mp hm).1.symm.trans h.running
    cases this
  have hcur {u : Tid} {x : Wait} (hu : K.wait u = some x) : u ≠ K.cur := by
    rintro rfl
    rw [h.wait_cur] at hu
    cases hu
  refine ⟨⟨?_, ?_, h.waitersNodup, h.waiting, ?_, ?_, h.child⟩, h.stopped (by decide), ?_,
    ?_, ?_⟩
  · dsimp only
    split
    · refine nodup_append.mpr ⟨h.readyNodup, nodup_singleton _, fun a ha b hb => ?_⟩
      rw [mem_singleton.mp hb]
      exact fun he => hnot (he ▸ ha)
    · exact h.readyNodup
  · intro t
    dsimp only
    have hmem : (t ∈ if K.idle ≠ some K.cur then K.ready ++ [K.cur] else K.ready) ↔
        t ∈ K.ready ∨ t = K.cur ∧ K.idle ≠ some K.cur := by
      split <;> simp [*]
    rw [hmem, h.ready]
    by_cases ht : t = K.cur
    · subst ht
      rw [update_self, h.running]
      simp
    · rw [update_of_ne ht]
      simp [ht]
  · intro t x hx
    dsimp only at hx ⊢
    rw [update_of_ne (hcur hx)]
    exact h.blocked t x hx
  · intro i hi
    dsimp only
    refine ⟨(h.idle i hi).1, ?_⟩
    by_cases ht : i = K.cur
    · rw [ht, update_self]
      simp
    · rw [update_of_ne ht]
      exact (h.idle i hi).2
  · intro t ht
    exact .inl (h.dying t ((h.stopped_iff (by decide) (by decide)).mp ht))
  · intro hd
    simp at hd
  · exact fun _ => h.freed

theorem exit (h : Sched K) (hidle : K.idle ≠ some K.cur) : Switching { K with
      status := update K.status K.cur (some .dying)
      log := .exited K.cur :: K.log
      intr := false } := by
  refine ⟨⟨h.readyNodup, ?_, h.waitersNodup, h.waiting, ?_, ?_, h.child⟩, h.stopped (by decide), ?_,
    ?_, ?_⟩
  · intro t
    dsimp only
    rw [h.ready, h.stopped_iff (by decide) (by decide)]
  · intro t x hx
    exact (h.stopped_iff (by decide) (by decide)).mpr (h.blocked t x hx)
  · intro i hi
    dsimp only
    have ht : i ≠ K.cur := fun he => hidle (he ▸ hi)
    rw [update_of_ne ht]
    exact h.idle i hi
  · intro t ht
    dsimp only at ht
    by_cases hc : t = K.cur
    · exact .inr hc
    · rw [update_of_ne hc] at ht
      exact .inl (h.dying t ht)
  · exact fun _ => ⟨K.log, rfl, h.freed⟩
  · intro hd
    simp at hd

end Sched

/-! ## The idle thread -/

/-- What the idle thread does in its loop. -/
@[simp] def idleInstrs : List Instr :=
  [.intrOn, .intrOff, .intrDisable, .intrSetLevel, .up .idleStarted, .block .idle]

/-- The idle thread never leaves its loop. -/
def IdleCode (code : List Instr) : Prop :=
  ∃ pre, code = pre ++ [.idleLoop] ∧ ∀ i ∈ pre, i ∈ idleInstrs

/-- The instructions that bring about the idle thread. -/
@[simp] def Instr.Starts : Instr → Prop
  | alloc true => True
  | setIdle => True
  | _ => False

/-- None of them is to come. -/
@[simp] def Unmarked (code : List Instr) : Prop := ∀ i ∈ code, ¬i.Starts

/-- The code of the thread that still has to create the idle thread, or to become it. -/
def Starter (code : List Instr) : Prop :=
  ∃ k m rest, code = List.replicate k .intrOn ++ m :: rest ∧ Unmarked rest ∧
    (m = .alloc true ∨ m = .setIdle ∧ rest = idleTail)

/-- There is one idle thread. -/
structure IdleInv (idle : Option Tid) (code : Tid → List Instr) : Prop where
  loop : ∀ i, idle = some i → IdleCode (code i)
  done : idle ≠ none → ∀ t, Unmarked (code t)
  one : ∀ t u, ¬Unmarked (code t) → ¬Unmarked (code u) → t = u
  starter : ∀ t, ¬Unmarked (code t) → Starter (code t)

theorem IdleCode.ne_nil {code : List Instr} (h : IdleCode code) : code ≠ [] := by
  obtain ⟨pre, rfl, -⟩ := h
  simp

theorem IdleCode.of_cons {i : Instr} {rest : List Instr} (h : IdleCode (i :: rest)) :
    (i ∈ idleInstrs ∧ IdleCode rest) ∨ i = .idleLoop ∧ rest = [] := by
  obtain ⟨pre, he, hpre⟩ := h
  cases pre with
  | nil => exact .inr (List.cons.inj he)
  | cons j pre =>
    obtain ⟨rfl, rfl⟩ := List.cons.inj he
    exact .inl ⟨hpre i mem_cons_self, pre, rfl, fun x hx => hpre x (mem_cons_of_mem _ hx)⟩

theorem IdleCode.append {rest : List Instr} (is : List Instr) (h : IdleCode rest)
    (his : ∀ i ∈ is, i ∈ idleInstrs) :
    IdleCode (is ++ rest) := by
  obtain ⟨pre, rfl, hpre⟩ := h
  exact ⟨is ++ pre, (append_assoc _ _ _).symm, forall_mem_append.mpr ⟨his, hpre⟩⟩

theorem idleCode_idleTail : IdleCode idleTail :=
  ⟨[.intrDisable, .up .idleStarted, .intrSetLevel], rfl, by decide⟩

theorem unmarked_append {is rest : List Instr} (his : Unmarked is) (hrest : Unmarked rest) :
    Unmarked (is ++ rest) := forall_mem_append.mpr ⟨his, hrest⟩

theorem unmarked_tail {i : Instr} {rest : List Instr} (h : Unmarked (i :: rest)) : Unmarked rest :=
  fun x hx => h x (mem_cons_of_mem _ hx)

namespace IdleInv

variable {idle : Option Tid} {code : Tid → List Instr} {i : Instr} {is rest : List Instr}

/-- Only a thread that is about to enable interrupts may still have to start the idle thread. -/
theorem unmarked_rest (h : IdleInv idle code) (hcode : code t = i :: rest) (hi : i ≠ .intrOn) :
    Unmarked rest := by
  by_cases hu : Unmarked (code t)
  · exact unmarked_tail (hcode ▸ hu)
  · obtain ⟨k, m, rest', he, hrest, -⟩ := h.starter t hu
    rw [hcode] at he
    cases k with
    | zero => exact (List.cons.inj he).2 ▸ hrest
    | succ k => exact absurd (List.cons.inj he).1 hi

/-- A thread goes on with code that does not start the idle thread. -/
theorem load (h : IdleInv idle code) (hun : Unmarked is) (hidle : idle = some t → IdleCode is) :
    IdleInv idle (update code t is) := by
  have hne {u : Tid} (hu : ¬Unmarked (update code t is u)) : u ≠ t := by
    rintro rfl
    rw [update_self] at hu
    exact hu hun
  refine ⟨?_, ?_, ?_, ?_⟩
  · intro i hi
    by_cases ht : i = t
    · subst ht
      rw [update_self]
      exact hidle hi
    · rw [update_of_ne ht]
      exact h.loop i hi
  · intro hi u
    by_cases hu : u = t
    · rw [hu, update_self]
      exact hun
    · rw [update_of_ne hu]
      exact h.done hi u
  · intro u v hu hv
    rw [update_of_ne (hne hu)] at hu
    rw [update_of_ne (hne hv)] at hv
    exact h.one u v hu hv
  · intro u hu
    have hut := hne hu
    rw [update_of_ne hut] at hu ⊢
    exact h.starter u hu

theorem load_same (h : IdleInv idle code) (hmark : Unmarked is ↔ Unmarked (code t))
    (hstart : Starter (code t) → ¬Unmarked is → Starter is)
    (hidle : IdleCode (code t) → IdleCode is) : IdleInv idle (update code t is) := by
  have hiff (u : Tid) : Unmarked (update code t is u) ↔ Unmarked (code u) := by
    by_cases hu : u = t
    · rw [hu, update_self, hmark]
    · rw [update_of_ne hu]
  refine ⟨?_, ?_, ?_, ?_⟩
  · intro i hi
    by_cases ht : i = t
    · rw [ht, update_self]
      exact hidle (ht ▸ h.loop i hi)
    · rw [update_of_ne ht]
      exact h.loop i hi
  · exact fun hi u => (hiff u).mpr (h.done hi u)
  · exact fun u v hu hv => h.one u v (fun hn => hu ((hiff u).mpr hn)) fun hn => hv ((hiff v).mpr hn)
  · intro u hu
    have hu' := h.starter u fun hn => hu ((hiff u).mpr hn)
    by_cases hut : u = t
    · rw [hut, update_self] at hu ⊢
      exact hstart (hut ▸ hu') hu
    · rwa [update_of_ne hut]

theorem load_intrOn (h : IdleInv idle code) :
    IdleInv idle (update code t (.intrOn :: code t)) := by
  refine h.load_same ?_ ?_ ?_
  · constructor
    · exact unmarked_tail
    · exact fun hu => forall_mem_cons.mpr ⟨id, hu⟩
  · rintro ⟨k, m, rest, he, hm⟩ -
    exact ⟨k + 1, m, rest, by rw [he]; rfl, hm⟩
  · exact fun hc => hc.append [.intrOn] (by decide)

theorem of_intrOn (h : IdleInv idle code) (hcode : code t = .intrOn :: rest) :
    IdleInv idle (update code t rest) := by
  refine h.load_same ?_ ?_ ?_
  · rw [hcode]
    constructor
    · exact fun hu => forall_mem_cons.mpr ⟨id, hu⟩
    · exact unmarked_tail
  · rintro ⟨k, m, rest', he, hm⟩ -
    rw [hcode] at he
    cases k with
    | zero =>
      have := (List.cons.inj he).1
      rcases hm.2 with rfl | ⟨rfl, -⟩ <;> cases this
    | succ k => exact ⟨k, m, rest', (List.cons.inj he).2, hm⟩
  · intro hc
    rw [hcode] at hc
    rcases hc.of_cons with hc | ⟨hc, -⟩
    · exact hc.2
    · cases hc

theorem create (h : IdleInv idle code) (hidle : idle ≠ some t) (b : Bool)
    (hb : b = true → idle = none ∧ ∀ u, Unmarked (code u)) :
    IdleInv idle (update code t (entry b)) := by
  cases b with
  | false =>
    exact h.load (by intro i hi; rw [mem_singleton.mp hi]; exact id) fun hi => absurd hi hidle
  | true =>
    obtain ⟨rfl, hun⟩ := hb rfl
    refine ⟨nofun, fun hn => absurd rfl hn, ?_, ?_⟩
    · intro u v hu hv
      have hone {u : Tid} (hu : ¬Unmarked (update code t (entry true) u)) : u = t := by
        by_contra hne
        rw [update_of_ne hne] at hu
        exact hu (hun u)
      rw [hone hu, hone hv]
    · intro u hu
      by_cases hut : u = t
      · rw [hut, update_self]
        exact ⟨1, .setIdle, idleTail, rfl,
          by simp [idleTail, semaUp], .inr ⟨rfl, rfl⟩⟩
      · rw [update_of_ne hut] at hu
        exact absurd (hun u) hu

/-- The thread whose turn it is becomes the idle thread. -/
theorem setIdle (h : IdleInv idle code) (hcode : code t = .setIdle :: rest) :
    IdleInv (some t) (update code t rest) := by
  have hmark : ¬Unmarked (code t) := fun hu => by
    rw [hcode] at hu
    exact hu _ mem_cons_self trivial
  have hrest : rest = idleTail := by
    obtain ⟨k, m, rest', he, -, hm⟩ := h.starter t hmark
    rw [hcode] at he
    cases k with
    | zero =>
      obtain ⟨rfl, rfl⟩ := List.cons.inj he
      rcases hm with hm | hm
      · cases hm
      · exact hm.2
    | succ k => cases (List.cons.inj he).1
  have hun (u) : Unmarked (update code t rest u) := by
    by_cases hu : u = t
    · rw [hu, update_self]
      exact h.unmarked_rest hcode (by simp)
    · rw [update_of_ne hu]
      exact by_contra fun hm => hu (h.one u t hm hmark)
  refine ⟨fun i hi => ?_, fun _ => hun, fun u _ hu => absurd (hun u) hu,
    fun u hu => absurd (hun u) hu⟩
  cases hi
  rw [update_self, hrest]
  exact idleCode_idleTail

end IdleInv

/-! ## One instruction -/

section Exec

variable {i : Instr} {rest is : List Instr} {page : Option Tid}

theorem Sched.load (h : Sched K) (is : List Instr) : Sched (K.load is) :=
  h.of_lists rfl h.freed

theorem Sched.create (h : Sched K) (ht : K.status t = none) : Sched { K with
      status := update K.status t (some .blocked)
      wait := update K.wait t (some (.newborn K.cur))
      child := update K.child K.cur (some t)
      log := .created t :: K.log } := by
  have hne {u : Tid} {x : Status} (hu : K.status u = some x) : u ≠ t := by
    rintro rfl
    rw [ht] at hu
    cases hu
  have hold {u : Tid} {x : Status} (hx : x ≠ .blocked) :
      update K.status t (some .blocked) u = some x ↔ K.status u = some x := by
    by_cases hut : u = t
    · rw [hut, update_self, ht]
      simpa using Ne.symm hx
    · rw [update_of_ne hut]
  have hwait {u : Tid} {x : Wait} (hu : K.wait u = some x) : u ≠ t := hne (h.blocked u x hu)
  refine ⟨⟨h.readyNodup, ?_, h.waitersNodup, ?_, ?_, ?_, ?_⟩, ?_, ?_, ?_, .other h.freed (by simp)⟩
  · intro u
    dsimp only
    rw [h.ready, hold (by decide)]
  · intro s u hu
    have hw := h.waiting s u hu
    exact (update_of_ne (hwait hw) _ _).trans hw
  · intro u x hx
    dsimp only at hx ⊢
    by_cases hut : u = t
    · rw [hut, update_self]
    · rw [update_of_ne hut] at hx ⊢
      exact h.blocked u x hx
  · intro i hi
    dsimp only
    have hit : i ≠ t := fun he => (h.idle i hi).2.1 (he ▸ ht)
    rw [update_of_ne hit, update_of_ne hit]
    exact h.idle i hi
  · intro u v hv
    dsimp only at hv ⊢
    by_cases hu : u = K.cur
    · rw [hu, update_self] at hv
      rw [← some.inj hv, update_self, hu]
    · rw [update_of_ne hu] at hv
      have hw := h.child u v hv
      rw [update_of_ne (hwait hw), hw]
  · exact (hold (by decide)).mpr h.running
  · exact fun u hu => h.only u ((hold (by decide)).mp hu)
  · exact fun u hu => h.dying u ((hold (by decide)).mp hu)

theorem Sched.launch (h : Sched K) (hc : K.child K.cur = some t)
    (hu : unblockThread t K = some ((), K')) :
    Sched { K' with child := update K'.child K'.cur none } := by
  obtain ⟨hstatus, rfl⟩ := of_unblockThread hu
  have hwait := h.child _ t hc
  have hchild (u v) (hv : update K.child K.cur none u = some v) :
      K.child u = some v ∧ u ≠ K.cur := by
    by_cases hu : u = K.cur
    · rw [hu, update_self] at hv
      cases hv
    · rw [update_of_ne hu] at hv
      exact ⟨hv, hu⟩
  have h1 : Sched { K with child := update K.child K.cur none } :=
    ⟨⟨h.readyNodup, h.ready, h.waitersNodup, h.waiting, h.blocked, h.idle,
      fun u v hv => h.child u v (hchild u v hv).1⟩, h.running, h.only, h.dying, h.freed⟩
  refine h1.unblock hstatus ?_ ?_ ?_
  · intro hi
    have := (h.idle t hi).1
    rw [hwait] at this
    simp at this
  · intro s hs
    have := (h.waiting s t hs).symm.trans hwait
    simp at this
  · intro u hv
    obtain ⟨hv, hne⟩ := hchild u t hv
    have := (h.child u t hv).symm.trans hwait
    exact hne (Wait.newborn.inj (some.inj this))

/-- The running thread is the idle thread from now on. -/
theorem Sched.setIdle (h : Sched K) (hnone : K.idle = none) :
    Sched { K with idle := some K.cur } := by
  refine ⟨⟨h.readyNodup, ?_, h.waitersNodup, h.waiting, h.blocked, ?_, h.child⟩, h.running, h.only,
    h.dying, h.freed⟩
  · intro t
    rw [h.ready, hnone]
    refine and_congr_right fun hr => iff_of_true (by simp) fun he => ?_
    have := (some.inj he ▸ hr).symm.trans h.running
    cases this
  · intro i hi
    cases hi
    exact ⟨.inl h.wait_cur, by rw [h.running]; simp, by rw [h.running]; simp⟩

theorem Sched.semaInit (h : Sched K) (s : SemaId) (n : Nat) : Sched { K with
      value := update K.value s n
      waiters := update K.waiters s []
      log := .init s n :: K.log } := by
  refine ⟨⟨h.readyNodup, h.ready, ?_, ?_, h.blocked, h.idle, h.child⟩, h.running, h.only, h.dying,
    .other h.freed (by simp)⟩
  · intro r
    dsimp only
    by_cases hr : r = s
    · rw [hr, update_self]
      exact .nil
    · rw [update_of_ne hr]
      exact h.waitersNodup r
  · intro r t ht
    dsimp only at ht
    by_cases hr : r = s
    · rw [hr, update_self] at ht
      cases ht
    · rw [update_of_ne hr] at ht
      exact h.waiting r t ht

/-- The running thread goes to sleep on a semaphore. -/
theorem Sched.sleep (h : Sched K) (hidle : K.idle ≠ some K.cur) (hb : blockThread (.sema s)
      { K with waiters := update K.waiters s (K.waiters s ++ [K.cur]) } = some ((), K')) :
    Sched K' := by
  refine (h.block (w := .sema s) ?_ ?_ fun hi => absurd hi hidle).schedule (of_blockThread hb).2.2
  · intro r
    dsimp only
    by_cases hr : r = s
    · rw [hr, update_self]
      refine nodup_append.mpr ⟨h.waitersNodup s, nodup_singleton _, fun a ha b hb' he =>
        ?_⟩
      rw [mem_singleton.mp hb'] at he
      have := (h.waiting s a ha).symm.trans (he ▸ h.wait_cur)
      cases this
    · rw [update_of_ne hr]
      exact h.waitersNodup r
  · intro r t ht
    dsimp only at ht
    by_cases hr : r = s
    · rw [hr, update_self, mem_append, mem_singleton] at ht
      rw [hr]
      exact ht.imp_right fun ht => ⟨ht, rfl⟩
    · rw [update_of_ne hr] at ht
      exact .inl ht

/-- What is to be kept by every step. -/
structure SchedInv (K : Kernel) : Prop where
  sched : Sched K
  idle : IdleInv K.idle K.code

/-- What the running thread may put in front of its code. -/
@[simp] def Instr.Ordinary (i : Instr) : Prop := i ∉ idleInstrs ∧ i ≠ .idleLoop

theorem unmarked_createTail : Unmarked createTail := by
  simp [createTail, allocateTid, lockAcquire, lockRelease, semaDown, semaUp]

namespace SchedInv

theorem goOn (h : SchedInv K) (hK' : Sched K') (hidle : K'.idle = K.idle)
    (hcode : K'.code = update K.code K.cur is) (hun : Unmarked is)
    (hloop : K.idle = some K.cur → IdleCode is) : SchedInv K' :=
  ⟨hK', by rw [hidle, hcode]; exact h.idle.load hun hloop⟩

section Running

variable (h : SchedInv K) (hcode : K.code K.cur = i :: rest)

include h hcode

/-- The idle thread only runs the instructions of its loop. -/
theorem busy (hi : i.Ordinary) : K.idle ≠ some K.cur := fun hc => by
  rcases (hcode ▸ h.idle.loop _ hc).of_cons with hc | hc
  · exact hi.1 hc.1
  · exact hi.2 hc.1

/-- The running thread goes on with the rest of its code. -/
theorem after (hK' : Sched K') (hidle : K'.idle = K.idle)
    (hcode' : K'.code = update K.code K.cur rest) (hon : i ≠ .intrOn) (hl : i ≠ .idleLoop) :
    SchedInv K' := by
  refine h.goOn hK' hidle hcode' (h.idle.unmarked_rest hcode hon) fun hc => ?_
  rcases (hcode ▸ h.idle.loop _ hc).of_cons with hc | hc
  · exact hc.2
  · exact absurd hc.1 hl

theorem quiet (is : List Instr) (hi : i.Ordinary) (his : Unmarked is)
    (hs : K'.lists = K.lists) (hK' : K'.code = update K.code K.cur (is ++ rest))
    (hlog : WellFreed K.initial K'.log) : SchedInv K' := by
  have hun := h.idle.unmarked_rest hcode fun he => hi.1 (he ▸ by decide)
  have hidle : K'.idle = K.idle := congrArg (·.2.2.2.2.2.1) hs
  exact h.goOn (h.sched.of_lists hs hlog) hidle hK' (unmarked_append his hun) fun hc =>
    absurd hc (h.busy hcode hi)

theorem skip (hi : i.Ordinary) (hs : K'.lists = K.lists)
    (hK' : K'.code = update K.code K.cur rest) (hlog : WellFreed K.initial K'.log) :
    SchedInv K' :=
  h.quiet hcode [] hi (forall_mem_nil _) hs hK' hlog

/-- A thread that is about to start the idle thread is the only one, and there is no idle thread. -/
theorem starts (hi : i.Starts) (hon : i ≠ .intrOn) :
    K.idle = none ∧ ∀ u, Unmarked (update K.code K.cur rest u) := by
  have hmark : ¬Unmarked (K.code K.cur) := fun hu => by
    rw [hcode] at hu
    exact hu _ mem_cons_self hi
  refine ⟨by_contra fun hn => hmark (h.idle.done hn _), fun u => ?_⟩
  by_cases hu : u = K.cur
  · rw [hu, update_self]
    exact h.idle.unmarked_rest hcode hon
  · rw [update_of_ne hu]
    exact by_contra fun hm => hu (h.idle.one u K.cur hm hmark)

end Running

theorem block (h : SchedInv K) (hcode : K.code K.cur = .block w :: rest)
    (he : blockThread w (K.load rest) = some ((), K')) : SchedInv K' := by
  obtain ⟨-, -, hs⟩ := of_blockThread he
  have hload := h.sched.load rest
  have hidle (hc : K.idle = some K.cur) : w = .idle := by
    rcases (hcode ▸ h.idle.loop _ hc).of_cons with hc | hc
    · simpa using hc.1
    · cases hc.1
  have hK' := (hload.block hload.waitersNodup (fun _ _ ht => .inl ht) hidle).schedule hs
  obtain ⟨next, -, -, -, rfl⟩ := of_schedule hs
  exact h.after hcode hK' rfl rfl (by simp) (by simp)

theorem alloc {b : Bool} (h : SchedInv K) (hcode : K.code K.cur = .alloc b :: rest)
    (he : (Instr.alloc b).exec page (K.load rest) = some ((), K')) : SchedInv K' := by
  have hload := h.sched.load rest
  have hun := h.idle.unmarked_rest hcode (by simp)
  have hidle := h.busy hcode ⟨by cases b <;> decide, by simp⟩
  have hK := h.idle.load hun fun hc => absurd hc hidle
  rcases of_alloc (by rw [hload.running]; simp) he with rfl | ⟨t, ht, hne, rfl⟩
  · exact ⟨hload, hK⟩
  · refine ⟨(hload.create ht).of_lists rfl (hload.create ht).freed, ?_⟩
    have hnew : K.idle ≠ some t := fun hi => (h.sched.idle t hi).2.1 ht
    refine (hK.create hnew b fun hb => h.starts hcode (hb ▸ trivial) (by simp)).load ?_ fun hc =>
      absurd hc hidle
    rw [K.code_load]
    exact unmarked_append unmarked_createTail hun

theorem launch (h : SchedInv K) (hcode : K.code K.cur = .launch :: rest)
    (he : Instr.launch.exec page (K.load rest) = some ((), K')) : SchedInv K' := by
  rcases of_launch he with ⟨-, rfl⟩ | ⟨t, K1, hc, hu, rfl⟩
  · exact h.skip hcode (by simp) rfl rfl h.sched.freed
  · have hK' := (h.sched.load rest).launch hc hu
    obtain ⟨-, rfl⟩ := of_unblockThread hu
    exact h.after hcode hK' rfl rfl (by simp) (by simp)

theorem idleLoop (h : SchedInv K) (hcode : K.code K.cur = .idleLoop :: rest)
    (he : Instr.idleLoop.exec page (K.load rest) = some ((), K')) : SchedInv K' := by
  obtain rfl := of_idleLoop he
  rw [K.code_load, K.load_load]
  refine h.goOn (h.sched.load _) rfl rfl
    (unmarked_append ?_ (h.idle.unmarked_rest hcode (by simp))) fun hc => ?_
  · simp
  · rcases (hcode ▸ h.idle.loop _ hc).of_cons with hc | hc
    · exact absurd hc.1 (by decide)
    · rw [hc.2]
      exact ⟨[.intrOff, .block .idle, .intrOn], rfl, by decide⟩

theorem downLoop (h : SchedInv K) (hcode : K.code K.cur = .downLoop s :: rest)
    (he : (Instr.downLoop s).exec page (K.load rest) = some ((), K')) : SchedInv K' := by
  have hidle := h.busy hcode (by simp)
  rcases of_downLoop he with ⟨-, hb⟩ | ⟨-, rfl⟩
  · rw [K.code_load, K.load_load] at hb
    have hK' := (h.sched.load (.downLoop s :: rest)).sleep hidle hb
    obtain ⟨next, -, -, -, rfl⟩ := of_schedule (of_blockThread hb).2.2
    have hloop : Unmarked [.downLoop s] := by simp
    exact h.goOn hK' rfl rfl (unmarked_append hloop (h.idle.unmarked_rest hcode (by simp)))
      fun hc => absurd hc hidle
  · exact h.skip hcode (by simp) rfl rfl (.other h.sched.freed (by simp))

theorem execUp (h : SchedInv K) (hcode : K.code K.cur = .up s :: rest)
    (he : upSema s (K.load rest) = some ((), K')) : SchedInv K' := by
  have hK' := (h.sched.load rest).up he
  rcases of_upSema he with ⟨-, rfl⟩ | ⟨t, ws, -, -, rfl⟩
  · exact h.after hcode hK' rfl rfl (by simp) (by simp)
  · exact h.after hcode hK' rfl rfl (by simp) (by simp)

theorem tryLock {l : LockId} (h : SchedInv K) (hcode : K.code K.cur = .tryLock l :: rest)
    (he : (Instr.tryLock l).exec page (K.load rest) = some ((), K')) : SchedInv K' := by
  rcases of_tryLock he with ⟨-, rfl⟩ | ⟨-, rfl⟩
  · rw [K.code_load, K.load_load]
    exact h.quiet hcode [.intrSetLevel] (by simp) (by simp) rfl rfl h.sched.freed
  · rw [K.code_load]
    exact h.quiet hcode [.intrSetLevel, .setHolder l] (by simp) (by simp) rfl (update_idem _ _ _)
      (.other h.sched.freed (by simp))

theorem popWaiter {c : CondId} (h : SchedInv K) (hcode : K.code K.cur = .popWaiter c :: rest)
    (he : (Instr.popWaiter c).exec page (K.load rest) = some ((), K')) : SchedInv K' := by
  have hlog := h.sched.freed
  rcases of_popWaiter he with ⟨-, rfl⟩ | ⟨t, ts, -, rfl⟩
  · exact h.skip hcode (by simp) rfl rfl (.other hlog (by simp))
  · rw [K.code_load]
    exact h.quiet hcode (semaUp (.waiter t)) (by simp) (by simp [semaUp]) rfl (update_idem _ _ _)
      (.other hlog (by simp))

theorem broadcast {c : CondId} (h : SchedInv K) (hcode : K.code K.cur = .broadcast c :: rest)
    (he : (Instr.broadcast c).exec page (K.load rest) = some ((), K')) : SchedInv K' := by
  rcases of_broadcast he with ⟨-, rfl⟩ | ⟨-, rfl⟩
  · exact h.skip hcode (by simp) rfl rfl (.other h.sched.freed (by simp))
  · rw [K.code_load, K.load_load]
    exact h.quiet hcode (condSignal c ++ [.broadcast c]) (by simp) (by simp [condSignal]) rfl rfl
      h.sched.freed

/-- **One instruction** keeps the invariant. -/
theorem exec (h : SchedInv K) (hcode : K.code K.cur = i :: rest) (hp : i.Proper K)
    (he : i.exec page (K.load rest) = some ((), K')) : SchedInv K' := by
  have hload := h.sched.load rest
  have hfreed := h.sched.freed
  cases i with
  | intrOn =>
    cases he
    exact ⟨h.sched.of_lists rfl hfreed, h.idle.of_intrOn hcode⟩
  | intrOff | intrDisable =>
    cases he
    exact h.after hcode (h.sched.of_lists rfl hfreed) rfl rfl (by simp) (by simp)
  | intrSetLevel =>
    obtain ⟨level, levels, -, rfl⟩ := of_intrSetLevel he
    exact h.after hcode (h.sched.of_lists rfl hfreed) rfl rfl (by simp) (by simp)
  | block w => exact h.block hcode he
  | unblock t =>
    have hK' := hload.unblock_direct hp he
    obtain ⟨-, rfl⟩ := of_unblockThread he
    exact h.after hcode hK' rfl rfl (by simp) (by simp)
  | yield =>
    have hs := (of_yieldThread he).2.2
    have hK' := hload.yield.schedule hs
    obtain ⟨next, -, -, -, rfl⟩ := of_schedule hs
    exact h.after hcode hK' rfl rfl (by simp) (by simp)
  | exit =>
    have hs := (of_exitThread he).2
    have hK' := (hload.exit (h.busy hcode ⟨by decide, by simp⟩)).schedule hs
    obtain ⟨next, -, -, -, rfl⟩ := of_schedule hs
    exact h.after hcode hK' rfl rfl (by simp) (by simp)
  | alloc b => exact h.alloc hcode he
  | nextTid =>
    cases he
    exact h.skip hcode (by simp) rfl rfl hfreed
  | launch => exact h.launch hcode he
  | setIdle =>
    cases he
    exact ⟨hload.setIdle (h.starts hcode trivial (by simp)).1, h.idle.setIdle hcode⟩
  | idleLoop => exact h.idleLoop hcode he
  | semaInit s n =>
    cases he
    exact h.after hcode (hload.semaInit s _) rfl rfl (by simp) (by simp)
  | downLoop s => exact h.downLoop hcode he
  | tryDown s =>
    rcases of_tryDown he with ⟨-, rfl⟩ | ⟨-, rfl⟩
    · exact h.skip hcode (by simp) rfl rfl hfreed
    · exact h.skip hcode (by simp) rfl rfl (.other hfreed (by simp))
  | up s => exact h.execUp hcode he
  | assertFree l =>
    obtain ⟨-, rfl⟩ := of_assertFree he
    exact h.skip hcode (by simp) rfl rfl hfreed
  | tryLock l => exact h.tryLock hcode he
  | assertHeld l =>
    obtain ⟨-, rfl⟩ := of_assertHeld he
    exact h.skip hcode (by simp) rfl rfl hfreed
  | setHolder | clearHolder | pushWaiter | beginBroadcast | waited =>
    cases he
    exact h.skip hcode (by simp) rfl rfl (.other hfreed (by simp))
  | popWaiter c => exact h.popWaiter hcode he
  | broadcast c => exact h.broadcast hcode he

end SchedInv

end Exec

/-! ## Every run -/

theorem unmarked_code (cur : Tid) (c : Call) : Unmarked (c.code cur) := by
  cases c <;> simp [Call.code, threadUnblock, threadYield, semaDown, semaUp,
    semaTryDown, lockAcquire, lockTryAcquire, lockRelease, condWait, condSignal, condBroadcast]

theorem SchedInv.up (h : SchedInv K) (hu : upSema s K = some ((), K')) : SchedInv K' := by
  refine ⟨h.sched.up hu, ?_⟩
  rcases of_upSema hu with ⟨-, rfl⟩ | ⟨t, ws, -, -, rfl⟩
  · exact h.idle
  · exact h.idle

theorem SchedInv.handle {c : HandlerCall} {taken : List LockId} (h : SchedInv K)
    (hp : c.Proper K taken) (he : c.exec K = some ((), K')) : SchedInv K' := by
  cases c with
  | semaTryDown n =>
    have he : Instr.exec none (.tryDown (.user n)) K = some ((), K') := he
    rcases of_tryDown he with ⟨-, rfl⟩ | ⟨-, rfl⟩
    · exact h
    · exact ⟨h.sched.of_lists rfl (.other h.sched.freed (by simp)), h.idle⟩
  | semaUp n => exact h.up he
  | threadUnblock t =>
    refine ⟨h.sched.unblock_direct hp he, ?_⟩
    obtain ⟨-, rfl⟩ := of_unblockThread he
    exact h.idle
  | lockTryAcquire n =>
    rcases (of_handler_tryAcquire he).2 with ⟨-, rfl⟩ | ⟨-, rfl⟩
    · exact h
    · exact ⟨h.sched.of_lists rfl (.other (.other h.sched.freed (by simp)) (by simp)), h.idle⟩
  | lockRelease n =>
    obtain ⟨-, K1, hup, rfl⟩ := of_handler_release he
    have h1 : SchedInv { K with
        holder := update K.holder (.user n) none
        log := .released (.user n) K.cur :: K.log } :=
      ⟨h.sched.of_lists rfl (.other h.sched.freed (by simp)), h.idle⟩
    have h2 := h1.up hup
    exact ⟨h2.sched.of_lists rfl h2.sched.freed, h2.idle⟩

/-- **One step** keeps the invariant. -/
theorem SchedInv.step {act : Act} (h : SchedInv K) (hs : K.step act = some K') : SchedInv K' := by
  cases act with
  | run page =>
    obtain ⟨i, rest, -, hcode, hp, he⟩ := of_step_run hs
    exact h.exec hcode hp he
  | call c =>
    obtain ⟨-, hcode, -, rfl⟩ := of_step_call hs
    refine h.goOn (h.sched.load _) rfl rfl (unmarked_code _ c) fun hi => ?_
    exact absurd hcode (h.idle.loop _ hi).ne_nil
  | interrupt =>
    obtain ⟨-, -, rfl⟩ := of_step_interrupt hs
    exact ⟨h.sched.of_lists rfl h.sched.freed, h.idle⟩
  | handle c =>
    obtain ⟨taken, -, hp, he⟩ := of_step_handle hs
    exact h.handle hp he
  | leave b =>
    rcases (of_step_leave hs).2 with hy | rfl
    · have hsched := (of_yieldThread hy).2.2
      have h1 : Sched { K.load (.intrOn :: K.code K.cur) with handler := none } :=
        h.sched.of_lists rfl h.sched.freed
      have hK' := h1.yield.schedule hsched
      obtain ⟨next, -, -, -, rfl⟩ := of_schedule hsched
      exact ⟨hK', h.idle.load_intrOn⟩
    · exact ⟨h.sched.of_lists rfl h.sched.freed, h.idle⟩

theorem SchedInv.boot (i : Tid) (v : Nat → Nat) : SchedInv (Kernel.boot i v) := by
  have hstatus (t) (x : Status) : (Kernel.boot i v).status t = some x ↔ t = i ∧ x = .running := by
    by_cases ht : t = i
    · simp [Kernel.boot, ht, eq_comm]
    · simp [Kernel.boot, ht]
  have hun (t) (ht : ¬Unmarked ((Kernel.boot i v).code t)) : t = i := by
    by_contra hne
    simp [Kernel.boot, hne, Unmarked] at ht
  refine ⟨⟨⟨.nil, ?_, fun _ => .nil, ?_, ?_, ?_, ?_⟩, ?_, ?_, ?_, .nil⟩, ⟨?_, ?_, ?_, ?_⟩⟩
  · intro t
    rw [hstatus]
    simp [Kernel.boot]
  · exact nofun
  · exact nofun
  · exact nofun
  · exact nofun
  · exact (hstatus i _).mpr ⟨rfl, rfl⟩
  · exact fun t ht => ((hstatus t _).mp ht).1
  · exact fun t ht => ((hstatus t _).mp ht).1
  · exact nofun
  · exact fun hi => absurd rfl hi
  · exact fun t u ht hu => (hun t ht).trans (hun u hu).symm
  · intro t ht
    rw [hun t ht]
    refine ⟨0, .alloc true, .intrOn :: semaDown .idleStarted, if_pos rfl, ?_, .inl rfl⟩
    simp [semaDown]

theorem Reachable.schedInv {i : Tid} {v : Nat → Nat} (h : Reachable i v K) : SchedInv K := by
  induction h with
  | boot => exact SchedInv.boot i v
  | step act _ hs ih => exact ih.step hs

/-- **The scheduler's lists** in every interleaving: one thread runs; the run queue holds the ready
threads, but for the idle thread; a thread on a semaphore's list is blocked, and on that list only;
a thread that exits is freed once, after another has started. -/
theorem scheduler_lists {i : Tid} {v : Nat → Nat} (h : Reachable i v K) :
    (∃! t, K.status t = some .running) ∧
    K.ready.Nodup ∧ (∀ t, t ∈ K.ready ↔ K.status t = some .ready ∧ K.idle ≠ some t) ∧
    (∀ s t, t ∈ K.waiters s → K.status t = some .blocked ∧ (K.waiters s).count t = 1 ∧
      t ∉ K.ready ∧ ∀ r, r ≠ s → t ∉ K.waiters r) ∧
    (∀ t, K.status t = some .dying → t = K.initial) ∧ WellFreed K.initial K.log := by
  have hs := h.schedInv.sched
  refine ⟨⟨K.cur, hs.running, hs.only⟩, hs.readyNodup, hs.ready, fun s t ht => ?_, hs.dying,
    hs.freed⟩
  have hwait := hs.waiting s t ht
  have hblocked := hs.blocked t _ hwait
  refine ⟨hblocked, count_eq_one_of_mem (hs.waitersNodup s) ht, fun hr => ?_,
    fun r hr hm => ?_⟩
  · have := ((hs.ready t).mp hr).1.symm.trans hblocked
    cases this
  · have := hwait.symm.trans (hs.waiting r t hm)
    exact hr (Wait.sema.inj (some.inj this)).symm

/-- The initial thread starts the idle thread and sleeps on a semaphore. -/
def sleepScript : List Act :=
  List.replicate 18 (.run (some 2)) ++ List.replicate 10 (.run none) ++ [.call (.semaDown 0)] ++
    List.replicate 2 (.run none)

theorem scheduler_lists_asleep : ∃ K, Reachable 1 (fun _ => 0) K ∧ K.idle = some 2 ∧
    K.waiters (.user 0) = [1] ∧ K.status 1 = some .blocked ∧ ∃! t, K.status t = some .running := by
  have hrun : ((Kernel.boot 1 fun _ => 0).run sleepScript).map
      (fun K => (K.idle, K.waiters (.user 0))) = some (some 2, [1]) := by decide +kernel
  obtain ⟨K, hK, he⟩ := map_eq_some_iff.mp hrun
  obtain ⟨hidle, hw⟩ := Prod.mk.inj he
  have hr := Reachable.run .boot hK
  have hlists := scheduler_lists hr
  exact ⟨K, hr, hidle, hw, (hlists.2.2.2.1 _ 1 (hw ▸ mem_singleton_self 1)).1, hlists.1⟩

end SystemProg.Threads
