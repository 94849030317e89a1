import Mathlib.Algebra.Order.Field.Rat
import Mathlib.Algebra.Order.Floor.Ring
import Mathlib.Data.Rat.Floor
import Mathlib.Tactic.Linarith
import Mathlib.Tactic.SplitIfs

/-! Rounding of rationals to the nearest integer, ties to even. -/

set_option autoImplicit false

namespace Rounding

def roundHalfEven (x : ℚ) : ℤ :=
  if x - ⌊x⌋ < 1 / 2 then ⌊x⌋
  else if 1 / 2 < x - ⌊x⌋ then ⌊x⌋ + 1
  else if ⌊x⌋ % 2 = 0 then ⌊x⌋ else ⌊x⌋ + 1

variable {x : ℚ}

theorem abs_sub_roundHalfEven_le : |x - roundHalfEven x| ≤ 1 / 2 := by
  have hlo := Int.floor_le x
  have hhi := Int.lt_floor_add_one x
  rw [abs_le]
  unfold roundHalfEven
  split_ifs
  all_goals
    push_cast
    constructor <;> linarith

theorem roundHalfEven_mem {m n : ℤ} (hm : m ≤ x) (hn : x ≤ n) :
    m ≤ roundHalfEven x ∧ roundHalfEven x ≤ n := by
  obtain ⟨hlo, hhi⟩ := abs_le.mp (@abs_sub_roundHalfEven_le x)
  -- a bound that is passed is passed by a whole
  constructor
  · by_contra hlt
    have hlt : ((roundHalfEven x + 1 : ℤ) : ℚ) ≤ m := Int.cast_le.mpr (by omega)
    push_cast at hlt
    linarith
  · by_contra hlt
    have hlt : ((n + 1 : ℤ) : ℚ) ≤ roundHalfEven x := Int.cast_le.mpr (by omega)
    push_cast at hlt
    linarith

end Rounding
