import Mdfh.Lib.Runs

/-!
# Fair schedules

A schedule tries one event at every moment; an event that is disabled then leaves the state as it is.
An event `Recurs` when it is tried again and again. The rule for "eventually" names for every state an
event that helps: trying it lowers the rank, and every other event lowers the rank or keeps both the
rank and the helpful event, so that it is still the one to wait for.
-/

namespace Runs

variable {σ ε : Type} {step : σ → ε → Option σ} {run : Nat → σ} {es : Nat → ε}

/-- `run` is the run of the schedule `es`. -/
def Scheduled (step : σ → ε → Option σ) (run : Nat → σ) (es : Nat → ε) : Prop :=
  ∀ k, run (k + 1) = (step (run k) (es k)).getD (run k)

/-- The run of a schedule from a state. -/
def follow (step : σ → ε → Option σ) (s : σ) (es : Nat → ε) : Nat → σ
  | 0 => s
  | k + 1 => (step (follow step s es k) (es k)).getD (follow step s es k)

theorem scheduled_follow (s : σ) (es : Nat → ε) : Scheduled step (follow step s es) es := fun _ => rfl

/-- The event is tried again and again. -/
def Recurs (es : Nat → ε) (e : ε) : Prop := ∀ k, ∃ m, k ≤ m ∧ es m = e

theorem Scheduled.cases (h : Scheduled step run es) (k : Nat) :
    step (run k) (es k) = some (run (k + 1)) ∨ step (run k) (es k) = none ∧ run (k + 1) = run k := by
  have hk := h k
  cases hs : step (run k) (es k) with
  | none => rw [hs] at hk; exact .inr ⟨rfl, hk⟩
  | some s' => rw [hs] at hk; exact .inl (congrArg some hk.symm)

theorem Scheduled.invariant (h : Scheduled step run es) {P : σ → Prop}
    (hstep : ∀ s e s', P s → step s e = some s' → P s') {k m : Nat} (hkm : k ≤ m) (hk : P (run k)) : P (run m) := by
  induction m, hkm using Nat.le_induction with
  | base => exact hk
  | succ m _ ih =>
    rcases h.cases m with hs | ⟨-, hs⟩
    · exact hstep _ _ _ ih hs
    · rw [hs]; exact ih

theorem Scheduled.invariant_while (h : Scheduled step run es) {P Q : σ → Prop}
    (hstep : ∀ s e s', P s → Q s' → step s e = some s' → P s') (h₀ : P (run 0)) (hQ : ∀ k, Q (run k)) (k : Nat) :
    P (run k) := by
  induction k with
  | zero => exact h₀
  | succ k ih =>
    rcases h.cases k with hs | ⟨-, hs⟩
    · exact hstep _ _ _ ih (hQ (k + 1)) hs
    · rw [hs]; exact ih

/-- The rule for "eventually", by a rank and a helpful event for every state. -/
theorem eventually {β : Type} {r : β → β → Prop} (hwf : WellFounded r) (run : Nat → σ) (es : Nat → ε)
    (rank : σ → β) (helper : σ → ε) (Goal : σ → Prop) (k₀ : Nat) (hfair : ∀ s, Recurs es (helper s))
    (hhelp : ∀ k, k₀ ≤ k → ¬ Goal (run k) → es k = helper (run k) →
      Goal (run (k + 1)) ∨ r (rank (run (k + 1))) (rank (run k)))
    (hkeep : ∀ k, k₀ ≤ k → ¬ Goal (run k) → Goal (run (k + 1)) ∨ r (rank (run (k + 1))) (rank (run k)) ∨
      rank (run (k + 1)) = rank (run k) ∧ helper (run (k + 1)) = helper (run k)) :
    ∃ k, k₀ ≤ k ∧ Goal (run k) := by
  have hall : ∀ b k, k₀ ≤ k → rank (run k) = b → ∃ m, k₀ ≤ m ∧ Goal (run m) := by
    intro b
    induction b using hwf.induction with
    | _ b ih =>
      -- the helpful event comes after `d` more moments
      have hwait : ∀ d k, k₀ ≤ k → rank (run k) = b → es (k + d) = helper (run k) → ∃ m, k₀ ≤ m ∧ Goal (run m) := by
        intro d
        induction d with
        | zero =>
          rintro k hk rfl he
          by_cases hg : Goal (run k)
          · exact ⟨k, hk, hg⟩
          · rcases hhelp k hk hg he with hg' | hr
            · exact ⟨k + 1, hk.trans (Nat.le_succ k), hg'⟩
            · exact ih _ hr (k + 1) (hk.trans (Nat.le_succ k)) rfl
        | succ d ihd =>
          rintro k hk rfl he
          by_cases hg : Goal (run k)
          · exact ⟨k, hk, hg⟩
          · rcases hkeep k hk hg with hg' | hr | ⟨hr, hh⟩
            · exact ⟨k + 1, hk.trans (Nat.le_succ k), hg'⟩
            · exact ih _ hr (k + 1) (hk.trans (Nat.le_succ k)) rfl
            · refine ihd (k + 1) (hk.trans (Nat.le_succ k)) hr ?_
              rw [hh, ← he, Nat.add_assoc, Nat.add_comm 1 d]
      intro k hk hb
      obtain ⟨m, hm, he⟩ := hfair (run k) k
      refine hwait (m - k) k hk hb ?_
      rw [Nat.add_sub_cancel' hm, he]
  exact hall _ k₀ le_rfl rfl

end Runs
