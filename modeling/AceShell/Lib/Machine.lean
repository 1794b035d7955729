import Mathlib

/-!
# State machines and their runs

A machine takes actions that are possible in its state. A run counts its steps, so that a result
may be about runs too short for some counter to wrap. `Machine.Run.invariant` is the induction
every safety property of a machine goes through: what holds at the start and is kept by each step
that a run can take holds in every state it reaches.
-/

/-- A machine over states `σ` and actions `α`. -/
structure Machine (σ α : Type*) where
  init : σ
  possible : α → σ → Prop
  step : α → σ → σ

namespace Machine

variable {σ α : Type*} {M : Machine σ α}

/-- The states reached in `n` steps. -/
inductive Run (M : Machine σ α) : ℕ → σ → Prop
  | start : Run M 0 M.init
  | step {n : ℕ} {s : σ} (a : α) (h : Run M n s) (ha : M.possible a s) : Run M (n + 1) (M.step a s)

theorem Run.invariant {P : ℕ → σ → Prop} {bound : ℕ} (hinit : P 0 M.init)
    (hstep : ∀ n s a, n + 1 < bound → M.Run n s → M.possible a s → P n s → P (n + 1) (M.step a s))
    {n : ℕ} {s : σ} (h : M.Run n s) (hn : n < bound) : P n s := by
  induction h with
  | start => exact hinit
  | step a h ha ih => exact hstep _ _ a hn h ha (ih (by omega))

/-! ## Given actions -/

def exec (M : Machine σ α) (actions : List α) (s : σ) : σ :=
  actions.foldl (fun s a => M.step a s) s

def CanExec (M : Machine σ α) : List α → σ → Prop
  | [], _ => True
  | a :: actions, s => M.possible a s ∧ CanExec M actions (M.step a s)

instance decidableCanExec (M : Machine σ α) [∀ a s, Decidable (M.possible a s)] :
    (actions : List α) → (s : σ) → Decidable (M.CanExec actions s)
  | [], _ => isTrue trivial
  | a :: actions, s =>
    have := decidableCanExec M actions (M.step a s)
    inferInstanceAs (Decidable (M.possible a s ∧ M.CanExec actions (M.step a s)))

theorem CanExec.invariant {P : σ → Prop} (hstep : ∀ a s, M.possible a s → P s → P (M.step a s))
    {actions : List α} {s : σ} (hcan : M.CanExec actions s) (h : P s) (n : ℕ) :
    P (M.exec (actions.take n) s) := by
  induction actions generalizing n s with
  | nil =>
    rw [List.take_nil]
    exact h
  | cons a actions ih =>
    cases n with
    | zero => exact h
    | succ n => exact ih hcan.2 (hstep a s hcan.1 h) n

theorem Run.exec {n : ℕ} {s : σ} (h : M.Run n s) {actions : List α} (hcan : M.CanExec actions s) :
    M.Run (n + actions.length) (M.exec actions s) := by
  induction actions generalizing n s with
  | nil => exact h
  | cons a actions ih =>
    have hrest := ih (h.step a hcan.1) hcan.2
    rwa [Nat.add_right_comm] at hrest

end Machine
