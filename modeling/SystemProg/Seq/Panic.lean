import Mathlib.Order.Basic

/-!
# Functions that may panic

A function of a kernel reads and writes a state and either returns or panics: `Panic σ α` is `σ →
Option (α × σ)`, with `none` for a failed assertion. `wp` is total: the function returns, and its
result and the state after it satisfy the postcondition.
-/

namespace SystemProg.Seq

variable {σ α β : Type}

/-- A function of a state `σ` that may panic. -/
abbrev Panic (σ α : Type) : Type := StateT σ Option α

/-- `ASSERT(p)`, and `if (!p) PANIC(...)`. -/
def assert (p : Prop) [Decidable p] : Panic σ Unit := fun s => if p then some ((), s) else none

/-- `PANIC(...)`, `NOT_REACHED()`. -/
def abort : Panic σ α := fun _ => none

/-- From `s` the function returns, with `Q`. -/
def wp (m : Panic σ α) (Q : α → σ → Prop) (s : σ) : Prop := ∃ a s', m s = some (a, s') ∧ Q a s'

variable {m : Panic σ α} {f : α → Panic σ β} {Q : α → σ → Prop} {R : β → σ → Prop} {s s' : σ}
  {a : α}

theorem wp_of_eq (h : m s = some (a, s')) (hQ : Q a s') : wp m Q s := ⟨a, s', h, hQ⟩

theorem of_wp (h : wp m Q s) (hm : m s = some (a, s')) : Q a s' := by
  obtain ⟨b, t, heq, hQ⟩ := h
  obtain ⟨rfl, rfl⟩ := Prod.mk.inj (Option.some.inj (heq.symm.trans hm))
  exact hQ

theorem pure_eq : (pure a : Panic σ α) s = some (a, s) := rfl

theorem get_bind {f : σ → Panic σ β} : (get >>= f) s = f s s := rfl

theorem set_eq : (set s' : Panic σ PUnit) s = some (⟨⟩, s') := rfl

theorem modify_eq {g : σ → σ} : (modify g : Panic σ PUnit) s = some (⟨⟩, g s) := rfl

theorem assert_eq {p : Prop} [Decidable p] (h : p) : (assert p : Panic σ Unit) s = some ((), s) :=
    if_pos h

theorem wp_pure (h : Q a s) : wp (pure a) Q s := ⟨a, s, rfl, h⟩

theorem wp_mono {Q' : α → σ → Prop} (h : wp m Q s) (hQ : ∀ a s', Q a s' → Q' a s') : wp m Q' s := by
  obtain ⟨a, s', hm, h⟩ := h
  exact ⟨a, s', hm, hQ a s' h⟩

theorem bind_eq (h : m s = some (a, s')) : (m >>= f) s = f a s' := by
  show (m s).bind _ = _
  rw [h]
  rfl

theorem bind_eq_none (h : m s = none) : (m >>= f) s = none := by
  show (m s).bind _ = none
  rw [h]
  rfl

/-- What a sequence returned, its parts returned. -/
theorem of_bind_eq {b : β} {s'' : σ} (h : (m >>= f) s = some (b, s'')) :
    ∃ a s', m s = some (a, s') ∧ f a s' = some (b, s'') := by
  cases hm : m s with
  | none =>
    rw [bind_eq_none hm] at h
    cases h
  | some r => exact ⟨r.1, r.2, rfl, (bind_eq hm).symm.trans h⟩

theorem of_assert_eq {p : Prop} [Decidable p] {u : Unit}
    (h : (assert p : Panic σ Unit) s = some (u, s')) :
    p ∧ s' = s := by
  unfold assert at h
  split at h
  · rename_i hp
    exact ⟨hp, (Prod.mk.inj (Option.some.inj h)).2.symm⟩
  · cases h

theorem of_assert_bind {p : Prop} [Decidable p] {f : Unit → Panic σ β} {b : β}
    (h : (assert p >>= f) s = some (b, s')) : p ∧ f () s = some (b, s') := by
  obtain ⟨_, s1, hassert, hf⟩ := of_bind_eq h
  obtain ⟨hp, rfl⟩ := of_assert_eq hassert
  exact ⟨hp, hf⟩

theorem wp_bind (h : wp m Q s) (hf : ∀ a s', Q a s' → wp (f a) R s') : wp (m >>= f) R s := by
  obtain ⟨a, s', hm, hQ⟩ := h
  obtain ⟨b, s'', hb, hR⟩ := hf a s' hQ
  exact ⟨b, s'', (bind_eq hm).trans hb, hR⟩

theorem wp_call (h : m s = some (a, s')) (hf : wp (f a) R s') : wp (m >>= f) R s := by
  rw [wp, bind_eq h]
  exact hf

theorem wp_get {f : σ → Panic σ β} (h : wp (f s) R s) : wp (get >>= f) R s := h

theorem wp_set {f : Unit → Panic σ β} (h : wp (f ()) R s') : wp (set s' >>= f) R s := h

theorem wp_modify {g : σ → σ} {f : Unit → Panic σ β} (h : wp (f ()) R (g s)) :
    wp (modify g >>= f) R s := h

theorem wp_assert {p : Prop} [Decidable p] {f : Unit → Panic σ β} (hp : p) (h : wp (f ()) R s) :
    wp (assert p >>= f) R s := by
  exact wp_bind (wp_of_eq (Q := fun _ s' => s' = s) (assert_eq hp) rfl) fun _ _ he => he ▸ h

/-! ## Scripts -/

variable {κ : Type} {valid : σ → κ → Prop} [∀ s c, Decidable (valid s c)] {step : κ → σ → Option σ}

/-- The state after a list of calls, if all are valid and none panics. -/
def runAll (valid : σ → κ → Prop) [∀ s c, Decidable (valid s c)] (step : κ → σ → Option σ) :
    List κ → σ → Option σ
  | [], s => some s
  | c :: cs, s => if valid s c then (step c s).bind (runAll valid step cs) else none

theorem of_runAll {P : σ → Prop} {cs : List κ}
    (hstep : ∀ s c s', P s → valid s c → step c s = some s' → P s') (hs : P s)
    (h : runAll valid step cs s = some s') : P s' := by
  induction cs generalizing s with
  | nil => exact Option.some.inj h ▸ hs
  | cons c cs ih =>
    rw [runAll] at h
    split at h
    · rename_i hc
      obtain ⟨s1, hs1, h⟩ := Option.bind_eq_some_iff.mp h
      exact ih (hstep s c s1 hs hc hs1) h
    · cases h

end SystemProg.Seq
