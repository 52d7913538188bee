import SystemProg.Conc.Prog

/-!
# Preconditions for programs that share their state

A program logic for `Prog` in the rely style. A `Logic` fixes what the environment may do to the
state between two steps of the program (`rely`), what has to hold whenever an operation is about to
be performed (`pre`), and what performing it may do (`act`). `wp p Q w` then says of the program `p`
in the state `w`: whatever the environment does, every operation meets its `pre` when it is
performed, and if `p` ends, it ends in `Q`. Nothing is said about whether it ends.

* `wp_bind`, `wp_mono`, `wp_iter`: the rules for sequencing, for weakening, and for loops.
* `wp_pre`, `wp_loop_turn`: `wp` gives the `pre` of the operation at the head of a program, and is
  kept by a turn of a loop. An interleaving of programs that each satisfy their `wp` therefore keeps
  all of them, as long as each one's steps are among what the others rely on.
* `wp_inv`: an invariant that every operation of the program allows and keeps.
-/

namespace SystemProg.Conc

open Prog

/-- What a program relies on, needs and does. -/
structure Logic (S : Sig) (W : Type) where
  /-- What the environment may do between two operations. -/
  rely : W → W → Prop
  /-- What has to hold where an operation is performed. -/
  pre : S.Op → W → Prop
  /-- What an operation may return and leave. -/
  act : (o : S.Op) → W → S.Res o → W → Prop
  rely_trans : ∀ {a b c : W}, rely a b → rely b c → rely a c
  rely_self : ∀ {a b : W}, rely a b → rely b b

namespace Logic

variable {S : Sig} {W α β γ σ : Type}

/-- The weakest precondition; a loop has an invariant. -/
def wp (L : Logic S W) : {α : Type} → Prog S α → (α → W → Prop) → W → Prop
  | _, .ret a, Q, w => ∀ w', L.rely w w' → Q a w'
  | _, .call o k, Q, w => ∀ w', L.rely w w' →
      L.pre o w' ∧ ∀ r w'', L.act o w' r w'' → L.wp (k r) Q w''
  | _, .loop (σ := σ) body s k, Q, w => ∃ I : σ → W → Prop, (∀ w', L.rely w w' → I s w') ∧
      ∀ s w, I s w → L.wp (body s)
        (fun x w => match x with
          | .inl s' => ∀ w', L.rely w w' → I s' w'
          | .inr b => L.wp (k b) Q w) w

variable {L : Logic S W}

theorem wp_mono {p : Prog S α} {Q Q' : α → W → Prop} {w : W} (hQ : ∀ a w, Q a w → Q' a w)
    (h : L.wp p Q w) : L.wp p Q' w := by
  induction p generalizing w with
  | ret a => exact fun w' hr => hQ a w' (h w' hr)
  | call o k ih =>
    intro w' hr
    obtain ⟨hpre, hk⟩ := h w' hr
    exact ⟨hpre, fun r w'' hact => ih r hQ (hk r w'' hact)⟩
  | loop body s k ihb ihk =>
    obtain ⟨I, hI, hbody⟩ := h
    refine ⟨I, hI, fun s w hs => ihb s (fun x w hx => ?_) (hbody s w hs)⟩
    cases x with
    | inl s' => exact hx
    | inr b => exact ihk b hQ hx

/-- It is enough to establish `wp` after the environment has moved. -/
theorem wp_of_rely {p : Prog S α} {Q : α → W → Prop} {w : W}
    (h : ∀ w', L.rely w w' → L.wp p Q w') : L.wp p Q w := by
  cases p with
  | ret a => exact fun w' hr => h w' hr w' (L.rely_self hr)
  | call o k => exact fun w' hr => h w' hr w' (L.rely_self hr)
  | loop body s k =>
    -- the invariants that the states the environment may reach come with, taken together
    refine ⟨fun s w => ∃ J : _ → W → Prop, J s w ∧ ∀ s w, J s w → L.wp (body s)
        (fun x w => match x with
          | .inl s' => ∀ w', L.rely w w' → J s' w'
          | .inr b => L.wp (k b) Q w) w, fun w' hr => ?_, ?_⟩
    · obtain ⟨J, hJ, hbody⟩ := h w' hr
      exact ⟨J, hJ w' (L.rely_self hr), hbody⟩
    · rintro s w ⟨J, hJ, hbody⟩
      refine wp_mono (fun x w hx => ?_) (hbody s w hJ)
      cases x with
      | inl s' => exact fun w' hr => ⟨J, hx w' hr, hbody⟩
      | inr b => exact hx

/-- **Sequencing.** -/
theorem wp_bind {p : Prog S α} {f : α → Prog S β} {Q : β → W → Prop} {w : W}
    (h : L.wp p (fun a w => L.wp (f a) Q w) w) : L.wp (p.bind f) Q w := by
  induction p generalizing w with
  | ret a => exact wp_of_rely h
  | call o k ih =>
    intro w' hr
    obtain ⟨hpre, hk⟩ := h w' hr
    exact ⟨hpre, fun r w'' hact => ih r (hk r w'' hact)⟩
  | loop body s k _ ihk =>
    obtain ⟨I, hI, hbody⟩ := h
    refine ⟨I, hI, fun s w hs => wp_mono (fun x w hx => ?_) (hbody s w hs)⟩
    cases x with
    | inl s' => exact hx
    | inr b => exact ihk b hx

/-- Sequencing, with the first part given by its specification. -/
theorem wp_seq {p : Prog S α} {f : α → Prog S β} {P : α → W → Prop} {Q : β → W → Prop} {w : W}
    (hp : L.wp p P w) (hf : ∀ a w, P a w → L.wp (f a) Q w) : L.wp (p >>= f) Q w :=
  wp_bind (wp_mono hf hp)

/-- **Loops.** An invariant that the environment keeps, that holds at the start, and that every turn
going round again re-establishes. -/
theorem wp_iter {body : σ → Prog S (σ ⊕ β)} {s : σ} {Q : β → W → Prop} {w : W}
    (I : σ → W → Prop) (hstable : ∀ s w w', L.rely w w' → I s w → I s w') (hI : I s w)
    (hQ : ∀ b w w', L.rely w w' → Q b w → Q b w')
    (hbody : ∀ s w, I s w → L.wp (body s) (Sum.elim I Q) w) :
    L.wp (iter body s) Q w := by
  refine ⟨I, fun w' hr => hstable s w w' hr hI, fun s w hs => wp_mono (fun x w hx => ?_)
    (hbody s w hs)⟩
  cases x with
  | inl s' => exact fun w' hr => hstable s' w w' hr hx
  | inr b => exact fun w' hr => hQ b w w' hr hx

theorem wp_loop_turn {body : σ → Prog S (σ ⊕ β)} {s : σ} {k : β → Prog S α} {Q : α → W → Prop}
    {w : W} (hw : L.rely w w) (h : L.wp (.loop body s k) Q w) :
    L.wp ((body s).bind (turn body k)) Q w := by
  obtain ⟨I, hI, hbody⟩ := h
  refine wp_bind (wp_mono (fun x w hx => ?_) (hbody s w (hI w hw)))
  cases x with
  | inl s' => exact ⟨I, hx, hbody⟩
  | inr b => exact hx

/-- The operation at the head of a program meets its `pre`. -/
theorem wp_pre {o : S.Op} {k : S.Res o → Prog S α} {Q : α → W → Prop} {w : W} (hw : L.rely w w)
    (h : L.wp (.call o k) Q w) : L.pre o w :=
  (h w hw).1

/-- A program all of whose operations are allowed under `I` and keep it. -/
theorem wp_inv {p : Prog S α} {I : W → Prop} {w : W} (hstable : ∀ w w', L.rely w w' → I w → I w')
    (h : p.All fun o => ∀ w, I w → L.pre o w ∧ ∀ r w', L.act o w r w' → I w') (hI : I w) :
    L.wp p (fun _ w => I w) w := by
  induction p generalizing w with
  | ret a => exact fun w' hr => hstable w w' hr hI
  | call o k ih =>
    intro w' hr
    obtain ⟨hpre, hact⟩ := h.1 w' (hstable w w' hr hI)
    exact ⟨hpre, fun r w'' ha => ih r (h.2 r) (hact r w'' ha)⟩
  | loop body s k ihb ihk =>
    refine ⟨fun _ => I, fun w' hr => hstable w w' hr hI, fun s w hs => ?_⟩
    refine wp_mono (fun x w hx => ?_) (ihb s (h.1 s) hs)
    cases x with
    | inl s' => exact fun w' hr => hstable w w' hr hx
    | inr b => exact ihk b (h.2 b) hx

/-! ## Private state -/

/-- The logic of a program nobody else interferes with. -/
def sequential (pre : S.Op → W → Prop) (act : (o : S.Op) → W → S.Res o → W → Prop) :
    Logic S W where
  rely := Eq
  pre := pre
  act := act
  rely_trans := Eq.trans
  rely_self := fun _ => rfl

section Sequential

variable {pre : S.Op → W → Prop} {act : (o : S.Op) → W → S.Res o → W → Prop}

@[simp] theorem seq_ret {a : α} {Q : α → W → Prop} {w : W} :
    (sequential pre act).wp (.ret a) Q w ↔ Q a w :=
  ⟨fun h => h w rfl, fun h _ hr => hr ▸ h⟩

@[simp] theorem seq_pure {a : α} {Q : α → W → Prop} {w : W} :
    (sequential pre act).wp (pure a) Q w ↔ Q a w := seq_ret

@[simp] theorem seq_call {o : S.Op} {k : S.Res o → Prog S α} {Q : α → W → Prop} {w : W} :
    (sequential pre act).wp (.call o k) Q w ↔
      pre o w ∧ ∀ r w', act o w r w' → (sequential pre act).wp (k r) Q w' :=
  ⟨fun h => h w rfl, fun h _ hr => hr ▸ h⟩

theorem seq_perform {o : S.Op} {Q : S.Res o → W → Prop} {w : W} (hpre : pre o w)
    (hact : ∀ r w', act o w r w' → Q r w') : (sequential pre act).wp (perform o) Q w :=
  seq_call.mpr ⟨hpre, fun r w' h => seq_ret.mpr (hact r w' h)⟩

theorem seq_iter {body : σ → Prog S (σ ⊕ β)} {s : σ} {Q : β → W → Prop} {w : W}
    (I : σ → W → Prop) (hI : I s w)
    (hbody : ∀ s w, I s w → (sequential pre act).wp (body s) (Sum.elim I Q) w) :
    (sequential pre act).wp (iter body s) Q w :=
  wp_iter I (fun _ _ _ hr h => hr ▸ h) hI (fun _ _ _ hr h => hr ▸ h) hbody

end Sequential

end Logic

end SystemProg.Conc
