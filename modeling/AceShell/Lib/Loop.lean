import Mathlib

/-!
# Loops

A loop makes a step, which also says whether there is another one. `Loop.run` counts the steps it
may make, and `Loop.Finishes` says that one of them is the last. When a measure of the state falls
with each step that goes on, the measure's value at the start is enough (`Falls.finishes`), and what
each step keeps can be read off at the end (`run_total`).
-/

namespace Loop

variable {σ : Type*} {step : σ → Bool × σ}

/-- Make steps until one of them ends the loop, at most `fuel` of them. -/
def run (step : σ → Bool × σ) : ℕ → σ → σ
  | 0, s => s
  | fuel + 1, s =>
    match step s with
    | (false, s) => s
    | (true, s) => run step fuel s

theorem run_keeps {P : σ → Prop} (hstep : ∀ s, P s → P (step s).2) (fuel : ℕ) {s : σ} (h : P s) :
    P (run step fuel s) := by
  induction fuel generalizing s with
  | zero => exact h
  | succ fuel ih =>
  have hnext := hstep s h
  unfold run
  generalize step s = outcome at hnext ⊢
  obtain ⟨_ | _, s'⟩ := outcome
  · exact hnext
  · exact ih hnext

variable {P : σ → Prop} {measure : σ → ℕ}

/-- Each step that goes on keeps `P` and lowers the measure. -/
def Falls (P : σ → Prop) (measure : σ → ℕ) (step : σ → Bool × σ) : Prop :=
  ∀ s, P s → (step s).1 = true → P (step s).2 ∧ measure (step s).2 < measure s

/-- One of the first `fuel` steps ends the loop. -/
def Finishes (step : σ → Bool × σ) : ℕ → σ → Prop
  | 0, _ => False
  | fuel + 1, s => (step s).1 = true → Finishes step fuel (step s).2

instance decidableFinishes (step : σ → Bool × σ) :
    (fuel : ℕ) → (s : σ) → Decidable (Finishes step fuel s)
  | 0, _ => isFalse id
  | fuel + 1, s =>
    have := decidableFinishes step fuel (step s).2
    inferInstanceAs (Decidable ((step s).1 = true → Finishes step fuel (step s).2))

theorem Falls.finishes (hfall : Falls P measure step) {fuel : ℕ} {s : σ} (hs : P s)
    (h : measure s < fuel) : Finishes step fuel s := by
  induction fuel generalizing s with
  | zero => exact absurd h (Nat.not_lt_zero _)
  | succ fuel ih =>
    intro hgo
    obtain ⟨hs', hlt⟩ := hfall s hs hgo
    exact ih hs' (by omega)

theorem run_total {β : Type*} (measure : σ → ℕ) (total done : σ → β) (hfall : Falls P measure step)
    (hgo : ∀ s, P s → (step s).1 = true → total (step s).2 = total s)
    (hstop : ∀ s, P s → (step s).1 = false → done (step s).2 = total s) {fuel : ℕ} {s : σ}
    (hs : P s) (hfuel : measure s < fuel) : done (run step fuel s) = total s := by
  induction fuel generalizing s with
  | zero => exact absurd hfuel (Nat.not_lt_zero _)
  | succ fuel ih =>
  have hnext := hfall s hs
  have hgoes := hgo s hs
  have hstops := hstop s hs
  unfold run
  generalize step s = outcome at hnext hgoes hstops ⊢
  obtain ⟨_ | _, s'⟩ := outcome
  · exact hstops rfl
  obtain ⟨hs', hlt⟩ : P s' ∧ measure s' < measure s := hnext rfl
  have htotal : total s' = total s := hgoes rfl
  exact (ih hs' (by omega)).trans htotal

end Loop
