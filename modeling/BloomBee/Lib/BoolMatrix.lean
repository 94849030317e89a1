import Mathlib.Data.Nat.Notation
import Mathlib.Tactic.Common

/-! Boolean matrices that are written one rectangle at a time. -/

set_option autoImplicit false

/-- What `entry` is outside of the shape has no meaning. -/
structure BoolMatrix where
  rows : ℕ
  cols : ℕ
  entry : ℕ → ℕ → Bool

namespace BoolMatrix

def zeros (rows cols : ℕ) : BoolMatrix := ⟨rows, cols, fun _ _ => false⟩

/-- `m[r₀:r₁, c₀:c₁] = value`, where `value` counts from the corner of the rectangle. -/
def assign (m : BoolMatrix) (r₀ r₁ c₀ c₁ : ℕ) (value : ℕ → ℕ → Bool) : BoolMatrix :=
  { m with
    entry := fun i j =>
      if r₀ ≤ i ∧ i < r₁ ∧ c₀ ≤ j ∧ j < c₁ then value (i - r₀) (j - c₀) else m.entry i j }

def assignIf (cond : Prop) [Decidable cond] (m : BoolMatrix) (r₀ r₁ c₀ c₁ : ℕ)
    (value : ℕ → ℕ → Bool) : BoolMatrix :=
  if cond then m.assign r₀ r₁ c₀ c₁ value else m

variable (m : BoolMatrix) (r₀ r₁ c₀ c₁ i j : ℕ) (value : ℕ → ℕ → Bool)

@[simp] theorem entry_zeros (rows cols : ℕ) : (zeros rows cols).entry i j = false := rfl

@[simp] theorem rows_assign : (m.assign r₀ r₁ c₀ c₁ value).rows = m.rows := rfl

@[simp] theorem cols_assign : (m.assign r₀ r₁ c₀ c₁ value).cols = m.cols := rfl

theorem entry_assign : (m.assign r₀ r₁ c₀ c₁ value).entry i j =
    if r₀ ≤ i ∧ i < r₁ ∧ c₀ ≤ j ∧ j < c₁ then value (i - r₀) (j - c₀) else m.entry i j := rfl

variable (cond : Prop) [Decidable cond]

@[simp] theorem rows_assignIf : (m.assignIf cond r₀ r₁ c₀ c₁ value).rows = m.rows := by
  rw [assignIf]
  split <;> rfl

@[simp] theorem cols_assignIf : (m.assignIf cond r₀ r₁ c₀ c₁ value).cols = m.cols := by
  rw [assignIf]
  split <;> rfl

theorem entry_assignIf : (m.assignIf cond r₀ r₁ c₀ c₁ value).entry i j =
    if cond ∧ r₀ ≤ i ∧ i < r₁ ∧ c₀ ≤ j ∧ j < c₁ then value (i - r₀) (j - c₀)
    else m.entry i j := by
  rw [assignIf]
  by_cases h : cond
  · rw [if_pos h, entry_assign]
    simp only [h, true_and]
  · rw [if_neg h]
    simp only [h, false_and, if_false]

end BoolMatrix
