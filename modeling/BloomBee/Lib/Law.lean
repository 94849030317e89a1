import Mathlib.Algebra.BigOperators.Fin
import Mathlib.Algebra.Order.BigOperators.Group.Finset
import Mathlib.Algebra.Order.Field.Rat
import Mathlib.Tactic.Linarith
import Mathlib.Tactic.Ring

/-! Finite laws: lists of outcomes with rational weights. An outcome may occur several times. The
rules compute expectations step by step, from which probabilities are read off. -/

set_option autoImplicit false

structure Law (α : Type) where
  outcomes : List (α × ℚ)

namespace Law

variable {α β : Type} {n : ℕ}

def pure (a : α) : Law α := ⟨[(a, 1)]⟩

def bind (l : Law α) (f : α → Law β) : Law β :=
  ⟨l.outcomes.flatMap fun x => (f x.1).outcomes.map fun y => (y.1, x.2 * y.2)⟩

def map (f : α → β) (l : Law α) : Law β := l.bind fun a => pure (f a)

def weighted (w : Fin n → ℚ) : Law (Fin n) := ⟨(List.finRange n).map fun i => (i, w i)⟩

/-- Whether a draw that is uniform on `[0, 1)` is less than `a`. -/
def below (a : ℚ) : Law Bool := ⟨[(true, max 0 (min a 1)), (false, 1 - max 0 (min a 1))]⟩

def expect (l : Law α) (f : α → ℚ) : ℚ := (l.outcomes.map fun x => x.2 * f x.1).sum

def prob [DecidableEq α] (l : Law α) (a : α) : ℚ := l.expect fun x => if x = a then 1 else 0

@[simp] theorem expect_pure (a : α) (f : α → ℚ) : (pure a).expect f = f a := by
  simp [pure, expect]

@[simp] theorem expect_bind (l : Law α) (g : α → Law β) (f : β → ℚ) :
    (l.bind g).expect f = l.expect fun a => (g a).expect f := by
  obtain ⟨outcomes⟩ := l
  simp only [bind, expect]
  induction outcomes with
  | nil => rfl
  | cons x rest ih =>
    have hscale : (((g x.1).outcomes.map fun y => (y.1, x.2 * y.2)).map
        fun y => y.2 * f y.1).sum = x.2 * ((g x.1).outcomes.map fun y => y.2 * f y.1).sum := by
      rw [List.map_map, ← List.sum_map_mul_left]
      congr 1
      exact List.map_congr_left fun y _ => mul_assoc x.2 y.2 (f y.1)
    rw [List.flatMap_cons, List.map_append, List.sum_append, ih, hscale, List.map_cons,
      List.sum_cons]

@[simp] theorem expect_map (l : Law α) (g : α → β) (f : β → ℚ) :
    (l.map g).expect f = l.expect fun a => f (g a) := by
  simp [map]

@[simp] theorem expect_weighted (w : Fin n → ℚ) (f : Fin n → ℚ) :
    (weighted w).expect f = ∑ i, w i * f i := by
  rw [weighted, expect, List.map_map, Fin.sum_univ_def]
  rfl

theorem expect_below {a : ℚ} (h0 : 0 ≤ a) (h1 : a ≤ 1) (f : Bool → ℚ) :
    (below a).expect f = a * f true + (1 - a) * f false := by
  simp [below, expect, min_eq_left h1, max_eq_right h0]

end Law
