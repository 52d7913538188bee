import Mathlib.Logic.Basic

/-!
# Programs that make calls

A sequential program over a signature of operations: it returns, performs an operation and goes on
with the result, or runs a loop whose body says at each turn whether to go round again or to leave.
The operations are uninterpreted here; `Prog.step` runs a program one operation at a time against
any state type and any meaning `exec` of the operations, so that several programs can be interleaved
over a shared state. A turn of a loop is a step of its own, which leaves the state alone.

`Prog.All P` says that every operation a program can ever perform satisfies `P`.
-/

namespace SystemProg.Conc

/-- A signature: operations, each with a type of results. -/
structure Sig where
  Op : Type
  Res : Op → Type

/-- A program. -/
inductive Prog (S : Sig) : Type → Type 1 where
  | ret {α : Type} (a : α) : Prog S α
  | call {α : Type} (o : S.Op) (k : S.Res o → Prog S α) : Prog S α
  | loop {σ β α : Type} (body : σ → Prog S (σ ⊕ β)) (s : σ) (k : β → Prog S α) : Prog S α

namespace Prog

variable {S : Sig} {α β γ σ : Type}

/-- Sequencing. -/
def bind {α β : Type} : Prog S α → (α → Prog S β) → Prog S β
  | .ret a, f => f a
  | .call o k, f => .call o fun r => (k r).bind f
  | .loop body s k, f => .loop body s fun b => (k b).bind f

instance : Monad (Prog S) where
  pure := .ret
  bind := .bind

/-- Performing one operation. -/
def perform (o : S.Op) : Prog S (S.Res o) := .call o .ret

/-- Run `body` until it leaves with `.inr`. -/
def iter (body : σ → Prog S (σ ⊕ β)) (s : σ) : Prog S β := .loop body s .ret

/-- What follows one turn of a loop. -/
def turn (body : σ → Prog S (σ ⊕ β)) (k : β → Prog S α) : σ ⊕ β → Prog S α
  | .inl s => .loop body s k
  | .inr b => k b

/-- One step against the meaning `exec` of the operations; `none` at the end of the program, and
where the operation cannot be performed now. -/
def step {W : Type} (exec : (o : S.Op) → W → Option (S.Res o × W)) :
    Prog S α → W → Option (Prog S α × W)
  | .ret _, _ => none
  | .call o k, w => (exec o w).map fun x => (k x.1, x.2)
  | .loop body s k, w => some ((body s).bind (turn body k), w)

/-- A step performs the operation at the head, or leaves the state alone. -/
theorem step_cases {W : Type} {exec : (o : S.Op) → W → Option (S.Res o × W)} {p p' : Prog S α}
    {w w' : W} (h : p.step exec w = some (p', w')) :
    (∃ o k r, p = .call o k ∧ exec o w = some (r, w') ∧ p' = k r) ∨ w' = w := by
  cases p with
  | ret a => exact absurd h (by simp [step])
  | call o k =>
    simp only [step, Option.map_eq_some_iff] at h
    obtain ⟨⟨r, w₁⟩, hexec, he⟩ := h
    cases he
    exact .inl ⟨o, k, r, rfl, hexec, rfl⟩
  | loop body s k =>
    cases h
    exact .inr rfl

/-- Every operation the program can perform satisfies `P`. -/
def All (P : S.Op → Prop) : {α : Type} → Prog S α → Prop
  | _, .ret _ => True
  | _, .call o k => P o ∧ ∀ r, (k r).All P
  | _, .loop body _ k => (∀ s, (body s).All P) ∧ ∀ b, (k b).All P

variable {P : S.Op → Prop}

theorem All.imp {P' : S.Op → Prop} {p : Prog S α} (h : ∀ o, P o → P' o) (hp : p.All P) :
    p.All P' := by
  induction p with
  | ret a => trivial
  | call o k ih => exact ⟨h o hp.1, fun r => ih r (hp.2 r)⟩
  | loop body s k ihb ihk => exact ⟨fun s => ihb s (hp.1 s), fun b => ihk b (hp.2 b)⟩

theorem All.bind {p : Prog S α} {f : α → Prog S β} (hp : p.All P) (hf : ∀ a, (f a).All P) :
    (p.bind f).All P := by
  induction p with
  | ret a => exact hf a
  | call o k ih => exact ⟨hp.1, fun r => ih r (hp.2 r) hf⟩
  | loop body s k _ ih => exact ⟨hp.1, fun b => ih b (hp.2 b) hf⟩

end Prog

end SystemProg.Conc
