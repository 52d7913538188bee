import SystemProg.Conc.Prog

/-!
# Uninterrupted runs

`Runs exec p w a w'`: run alone against the meaning `exec` of its operations, the program `p` goes
from the state `w` to the state `w'` and returns `a`. The steps are those of `Prog.step`, so a run
is also a stretch of any interleaving in which the program is not interrupted.

`foldlM_invariant`: what every step of a partial transition function keeps, a sequence of them
keeps.
-/

namespace SystemProg.Conc.Prog

variable {S : Sig} {W α β σ : Type} {exec : (o : S.Op) → W → Option (S.Res o × W)}
  {w w₁ w' : W} {a : α}

/-- Uninterrupted runs. -/
inductive Runs (exec : (o : S.Op) → W → Option (S.Res o × W)) : Prog S α → W → α → W → Prop where
  | ret (a : α) (w : W) : Runs exec (.ret a) w a w
  | step {p p' : Prog S α} {w w₁ w' : W} {a : α} (h : p.step exec w = some (p', w₁))
      (hrest : Runs exec p' w₁ a w') : Runs exec p w a w'

theorem bind_assoc {α β γ : Type} (p : Prog S α) (f : α → Prog S β) (g : β → Prog S γ) :
    (p.bind f).bind g = p.bind fun a => (f a).bind g := by
  induction p with
  | ret a => rfl
  | call o k ih => exact congrArg (Prog.call o) (funext fun r => ih r f)
  | loop body s k _ ih => exact congrArg (Prog.loop body s) (funext fun b => ih b f)

theorem turn_bind {γ : Type} (body : σ → Prog S (σ ⊕ β)) (k : β → Prog S α) (f : α → Prog S γ) :
    (fun x => (turn body k x).bind f) = turn body fun b => (k b).bind f := by
  funext x
  cases x <;> rfl

/-- What follows a program waits until it has ended. -/
theorem step_bind {p p' : Prog S α} (f : α → Prog S β) (h : p.step exec w = some (p', w₁)) :
    (p.bind f).step exec w = some (p'.bind f, w₁) := by
  cases p with
  | ret a => exact absurd h (by simp [step])
  | call o k =>
    simp only [step, Option.map_eq_some_iff] at h
    obtain ⟨x, hx, he⟩ := h
    cases he
    simp only [Prog.bind, step, hx, Option.map_some]
  | loop body s k =>
    cases h
    simp only [Prog.bind, step, bind_assoc, turn_bind]

theorem runs_pure (a : α) (w : W) : Runs exec (pure a) w a w := .ret a w

theorem runs_call {o : S.Op} {k : S.Res o → Prog S α} {r : S.Res o} (h : exec o w = some (r, w₁))
    (hrest : Runs exec (k r) w₁ a w') : Runs exec (.call o k) w a w' :=
  .step (by simp [Prog.step, h]) hrest

theorem runs_perform {o : S.Op} {r : S.Res o} (h : exec o w = some (r, w')) :
    Runs exec (perform o) w r w' := runs_call h (.ret r w')

/-- **Sequencing.** -/
theorem runs_bind {p : Prog S α} {f : α → Prog S β} {b : β} (hp : Runs exec p w a w₁)
    (hf : Runs exec (f a) w₁ b w') : Runs exec (p >>= f) w b w' := by
  show Runs exec (p.bind f) w b w'
  induction hp with
  | ret a w => exact hf
  | step h _ ih => exact .step (step_bind f h) (ih hf)

theorem runs_iter_next {body : σ → Prog S (σ ⊕ β)} {s s' : σ} {b : β}
    (hbody : Runs exec (body s) w (.inl s') w₁) (hrest : Runs exec (iter body s') w₁ b w') :
    Runs exec (iter body s) w b w' :=
  .step rfl (runs_bind (f := turn body .ret) hbody hrest)

theorem runs_iter_done {body : σ → Prog S (σ ⊕ β)} {s : σ} {b : β}
    (hbody : Runs exec (body s) w (.inr b) w') : Runs exec (iter body s) w b w' :=
  .step rfl (runs_bind (f := turn body .ret) hbody (.ret b w'))

end SystemProg.Conc.Prog

namespace SystemProg.Conc

/-- **Invariants of runs.** -/
theorem foldlM_invariant {σ ε : Type*} {step : σ → ε → Option σ} {P : σ → Prop}
    (hstep : ∀ s e s', P s → step s e = some s' → P s') {es : List ε} {s s' : σ} (hs : P s)
    (h : es.foldlM step s = some s') : P s' := by
  induction es generalizing s with
  | nil => exact Option.some.inj h ▸ hs
  | cons e es ih =>
    rw [List.foldlM_cons] at h
    obtain ⟨s₁, h₁, h⟩ := Option.bind_eq_some_iff.mp h
    exact ih (hstep s e s₁ hs h₁) h

end SystemProg.Conc
