import BloomBee.Lib.Law
import Mathlib.MeasureTheory.Integral.Bochner.Set
import Mathlib.MeasureTheory.Measure.Lebesgue.Basic

/-! `Law.below` is the law of a comparison with a draw that is uniform on `[0, 1)`. -/

set_option autoImplicit false

open MeasureTheory

namespace Law

/-- The average over the draw of what is chosen by a comparison with it. -/
theorem expect_below_eq_integral {a : ℚ} (h0 : 0 ≤ a) (h1 : a ≤ 1) (f : Bool → ℚ) :
    (((below a).expect f : ℚ) : ℝ) =
      ∫ u in Set.Ico (0 : ℝ) 1, if u < (a : ℝ) then (f true : ℝ) else (f false : ℝ) := by
  have h0' : (0 : ℝ) ≤ a := by exact_mod_cast h0
  have h1' : (a : ℝ) ≤ 1 := by exact_mod_cast h1
  have hsplit : Set.Ico (0 : ℝ) 1 = Set.Ico 0 (a : ℝ) ∪ Set.Ico (a : ℝ) 1 :=
    (Set.Ico_union_Ico_eq_Ico h0' h1').symm
  have hdisjoint : Disjoint (Set.Ico (0 : ℝ) a) (Set.Ico (a : ℝ) 1) := by
    rw [Set.disjoint_left]
    exact fun u hu hu' => absurd hu.2 (not_lt.mpr hu'.1)
  have hleft : ∀ u ∈ Set.Ico (0 : ℝ) a,
      (if u < (a : ℝ) then (f true : ℝ) else (f false : ℝ)) = f true :=
    fun u hu => if_pos hu.2
  have hright : ∀ u ∈ Set.Ico (a : ℝ) 1,
      (if u < (a : ℝ) then (f true : ℝ) else (f false : ℝ)) = f false :=
    fun u hu => if_neg (not_lt.mpr hu.1)
  rw [expect_below h0 h1, hsplit, setIntegral_union hdisjoint measurableSet_Ico,
    setIntegral_congr_fun measurableSet_Ico hleft, setIntegral_congr_fun measurableSet_Ico hright]
  · simp [Real.volume_real_Ico_of_le h0', Real.volume_real_Ico_of_le h1']
  · exact (integrableOn_congr_fun hleft measurableSet_Ico).mpr (by simp)
  · exact (integrableOn_congr_fun hright measurableSet_Ico).mpr (by simp)

end Law
