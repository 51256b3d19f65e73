import Mdfh.Lib.Runs

/-!
# Runs seen through an abstraction

`f` abstracts the states of a system that takes more steps than the one it implements. It is sound when
every step is seen as no step or as one step of the abstract system, and complete when every abstract
step can be made: at once, or after steps that are not seen and that a measure bounds.
-/

namespace Runs

variable {σ τ ε δ : Type} {step : σ → ε → Option σ} {astep : τ → δ → Option τ} {f : σ → τ} {P : σ → Prop}

/-- A run is seen as the run of some of its events. -/
theorem exec_abstract {g : ε → Option δ} (hP : ∀ s e s', P s → step s e = some s' → P s')
    (hf : ∀ s e s', P s → step s e = some s' → f s' = f s ∨ ∃ d, g e = some d ∧ astep (f s) d = some (f s'))
    {s s' : σ} {es : List ε} (h : P s) (hrun : exec step s es = some s') :
    ∃ ds, ds.Sublist (es.filterMap g) ∧ exec astep (f s) ds = some (f s') := by
  induction es generalizing s with
  | nil =>
    cases hrun
    exact ⟨[], List.Sublist.refl _, rfl⟩
  | cons e es ih =>
    obtain ⟨s₁, h₁, h₂⟩ := exec_cons.1 hrun
    obtain ⟨ds, hds, he⟩ := ih (hP s e s₁ h h₁) h₂
    rcases hf s e s₁ h h₁ with hs | ⟨d, hg, hs⟩
    · rw [hs] at he
      refine ⟨ds, hds.trans ?_, he⟩
      exact (List.sublist_cons_self e es).filterMap g
    · refine ⟨d :: ds, ?_, exec_cons.2 ⟨_, hs, he⟩⟩
      rw [List.filterMap_cons_some hg]
      exact hds.cons_cons d

/-- An abstract step that needs unseen steps first is made once they are taken. -/
theorem exec_concrete_step {d : δ} (μ : σ → Nat) (hP : ∀ s e s', P s → step s e = some s' → P s')
    (hf : ∀ s t, P s → astep (f s) d = some t → ∃ e s', step s e = some s' ∧ (f s' = t ∨ f s' = f s ∧ μ s' < μ s))
    {s : σ} {t : τ} (h : P s) (hs : astep (f s) d = some t) : ∃ es s', exec step s es = some s' ∧ f s' = t := by
  induction hk : μ s using Nat.strong_induction_on generalizing s with
  | _ k ih =>
    obtain ⟨e, s₁, h₁, ht | ⟨hsame, hlt⟩⟩ := hf s t h hs
    · exact ⟨[e], s₁, exec_cons.2 ⟨s₁, h₁, rfl⟩, ht⟩
    · rw [← hsame] at hs
      obtain ⟨es, s', hrun, ht⟩ := ih _ (hk ▸ hlt) (hP s e s₁ h h₁) hs rfl
      exact ⟨e :: es, s', exec_cons.2 ⟨s₁, h₁, hrun⟩, ht⟩

/-- Every abstract run is a run seen. -/
theorem exec_concrete (μ : δ → σ → Nat) (hP : ∀ s e s', P s → step s e = some s' → P s')
    (hf : ∀ d s t, P s → astep (f s) d = some t → ∃ e s', step s e = some s' ∧ (f s' = t ∨ f s' = f s ∧ μ d s' < μ d s))
    {s : σ} {t : τ} {ds : List δ} (h : P s) (hrun : exec astep (f s) ds = some t) :
    ∃ es s', exec step s es = some s' ∧ f s' = t := by
  induction ds generalizing s with
  | nil =>
    cases hrun
    exact ⟨[], s, rfl, rfl⟩
  | cons d ds ih =>
    obtain ⟨t₁, h₁, h₂⟩ := exec_cons.1 hrun
    obtain ⟨es, s₁, hes, rfl⟩ := exec_concrete_step (μ d) hP (hf d) h h₁
    obtain ⟨es', s', hes', ht⟩ := ih (invariant hP h hes) h₂
    exact ⟨es ++ es', s', exec_append.2 ⟨s₁, hes, hes'⟩, ht⟩

end Runs
