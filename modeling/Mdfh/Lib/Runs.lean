import Mathlib.Tactic.Linarith

/-!
# Runs of a labelled step function

`step s e = some s'` when event `e` is enabled in `s`. `exec` runs a list of events; a predicate kept
by every step holds after every run. Two more rules carry an invariant that is kept by some steps only:
those that meet a condition, and those up to where a condition that never comes back is lost (a counter
below a bound).
-/

namespace Runs

variable {σ ε : Type} {step : σ → ε → Option σ}

/-- The state after the events, if each was enabled in its turn. -/
def exec (step : σ → ε → Option σ) (s : σ) : List ε → Option σ
  | [] => some s
  | e :: es => (step s e).bind fun s' => exec step s' es

@[simp] theorem exec_nil (s : σ) : exec step s [] = some s := rfl

theorem exec_cons {s s' : σ} {e : ε} {es : List ε} :
    exec step s (e :: es) = some s' ↔ ∃ s₁, step s e = some s₁ ∧ exec step s₁ es = some s' := by
  simp [exec, Option.bind_eq_some_iff]

theorem exec_append {s s' : σ} {es es' : List ε} :
    exec step s (es ++ es') = some s' ↔ ∃ s₁, exec step s es = some s₁ ∧ exec step s₁ es' = some s' := by
  induction es generalizing s with
  | nil => simp
  | cons e es ih =>
    rw [List.cons_append, exec_cons]
    constructor
    · rintro ⟨s₁, h₁, h₂⟩
      obtain ⟨s₂, h₃, h₄⟩ := ih.1 h₂
      exact ⟨s₂, exec_cons.2 ⟨s₁, h₁, h₃⟩, h₄⟩
    · rintro ⟨s₂, h₁, h₂⟩
      obtain ⟨s₁, h₃, h₄⟩ := exec_cons.1 h₁
      exact ⟨s₁, h₃, ih.2 ⟨s₂, h₄, h₂⟩⟩

theorem exec_replicate_unique {e : ε} {s s₁ s₂ : σ} {k m : Nat} (h₁ : exec step s (List.replicate k e) = some s₁)
    (hd₁ : step s₁ e = none) (h₂ : exec step s (List.replicate m e) = some s₂) (hd₂ : step s₂ e = none) : s₁ = s₂ := by
  induction k generalizing s m with
  | zero =>
    cases h₁
    cases m with
    | zero => exact Option.some.inj h₂
    | succ m =>
      obtain ⟨t, ht, -⟩ := exec_cons.1 h₂
      rw [hd₁] at ht
      cases ht
  | succ k ih =>
    obtain ⟨t, ht, hrun⟩ := exec_cons.1 h₁
    cases m with
    | zero =>
      cases h₂
      rw [hd₂] at ht
      cases ht
    | succ m =>
      obtain ⟨t', ht', hrun'⟩ := exec_cons.1 h₂
      rw [ht] at ht'
      cases ht'
      exact ih hrun hrun'

/-- What every step keeps, every run keeps. -/
theorem invariant {P : σ → Prop} (hstep : ∀ s e s', P s → step s e = some s' → P s') {s s' : σ} {es : List ε}
    (h : P s) (hrun : exec step s es = some s') : P s' := by
  induction es generalizing s with
  | nil =>
    cases hrun
    exact h
  | cons e es ih =>
    obtain ⟨s₁, h₁, h₂⟩ := exec_cons.1 hrun
    exact ih (hstep s e s₁ h h₁) h₂

theorem no_infinite_run {β : Type} {r : β → β → Prop} (hwf : WellFounded r) (μ : σ → β)
    (hstep : ∀ s e s', step s e = some s' → r (μ s') (μ s)) (run : Nat → σ) (es : Nat → ε) :
    ¬ ∀ k, step (run k) (es k) = some (run (k + 1)) := by
  intro hrun
  have hnone : ∀ b k, μ (run k) ≠ b := by
    intro b
    induction b using hwf.induction with
    | _ b ih =>
      rintro k rfl
      exact ih _ (hstep _ _ _ (hrun k)) (k + 1) rfl
  exact hnone _ 0 rfl

/-- Every step of the run meets `C` where it is taken. -/
def EachStep (step : σ → ε → Option σ) (C : σ → ε → Prop) (s : σ) : List ε → Prop
  | [] => True
  | e :: es => C s e ∧ ∀ s' ∈ step s e, EachStep step C s' es

instance EachStep.decidable {C : σ → ε → Prop} [∀ s e, Decidable (C s e)] :
    (es : List ε) → (s : σ) → Decidable (EachStep step C s es)
  | [], _ => inferInstanceAs (Decidable True)
  | e :: es, s =>
    have : DecidablePred fun s' => EachStep step C s' es := EachStep.decidable es
    inferInstanceAs (Decidable (C s e ∧ ∀ s' ∈ step s e, EachStep step C s' es))

/-- The rule for an invariant kept by the steps that meet `C`. -/
theorem invariant_under {P : σ → Prop} {C : σ → ε → Prop} (hstep : ∀ s e s', P s → C s e → step s e = some s' → P s')
    {s s' : σ} {es : List ε} (h : P s) (hrun : exec step s es = some s') (hC : EachStep step C s es) : P s' := by
  induction es generalizing s with
  | nil =>
    cases hrun
    exact h
  | cons e es ih =>
    obtain ⟨s₁, h₁, h₂⟩ := exec_cons.1 hrun
    exact ih (hstep s e s₁ h hC.1 h₁) h₂ (hC.2 s₁ h₁)

namespace EachStep
variable {C C' : σ → ε → Prop} {s s' : σ} {es : List ε}

theorem mono (hC : ∀ s e, C s e → C' s e) (h : EachStep step C s es) : EachStep step C' s es := by
  induction es generalizing s with
  | nil => trivial
  | cons e es ih => exact ⟨hC s e h.1, fun s' hs => ih (h.2 s' hs)⟩

theorem and (h : EachStep step C s es) (h' : EachStep step C' s es) : EachStep step (fun s e => C s e ∧ C' s e) s es := by
  induction es generalizing s with
  | nil => trivial
  | cons e es ih => exact ⟨⟨h.1, h'.1⟩, fun s' hs => ih (h.2 s' hs) (h'.2 s' hs)⟩

end EachStep

theorem backward {Q : σ → Prop} (hback : ∀ s e s', step s e = some s' → Q s' → Q s) {s s' : σ} {es : List ε}
    (hrun : exec step s es = some s') (hQ : Q s') : Q s := by
  induction es generalizing s with
  | nil =>
    cases hrun
    exact hQ
  | cons e es ih =>
    obtain ⟨s₁, h₁, h₂⟩ := exec_cons.1 hrun
    exact hback s e s₁ h₁ (ih h₂)

/-- It was true after every step on the way. -/
theorem eachStep_of_backward {Q : σ → Prop} (hback : ∀ s e s', step s e = some s' → Q s' → Q s) {s s' : σ} {es : List ε}
    (hrun : exec step s es = some s') (hQ : Q s') : EachStep step (fun s e => ∀ s₁ ∈ step s e, Q s₁) s es := by
  induction es generalizing s with
  | nil => trivial
  | cons e es ih =>
    obtain ⟨s₁, h₁, h₂⟩ := exec_cons.1 hrun
    refine ⟨fun s₂ hs₂ => ?_, fun s₂ hs₂ => ?_⟩ <;> obtain rfl := Option.some.inj (h₁.symm.trans hs₂)
    · exact backward hback h₂ hQ
    · exact ih h₂

/-- The rule for an invariant that is only kept where `Q` holds, when `Q` was true all along. -/
theorem invariant_while {P Q : σ → Prop} (hback : ∀ s e s', step s e = some s' → Q s' → Q s)
    (hstep : ∀ s e s', P s → Q s' → step s e = some s' → P s') {s s' : σ} {es : List ε} (h : P s)
    (hrun : exec step s es = some s') (hQ : Q s') : P s' := by
  refine invariant_under (fun s e s₁ hP hC hs => ?_) h hrun (eachStep_of_backward hback hrun hQ)
  exact hstep s e s₁ hP (hC s₁ hs) hs

end Runs
