import BloomBee.Lib.UniformDraw
import BloomBee.Spec.SpecDecodingVerify
import Mathlib.Algebra.BigOperators.Field
import Mathlib.Algebra.Order.BigOperators.Ring.Finset
import Mathlib.Tactic.FieldSimp
import Mathlib.Tactic.Positivity

/-! Rejection sampling for one edge. If the draft token is drawn from the draft distribution, an
edge emits a token by the target distribution (`verifyEdge_exact`): token `t` is accepted with the
probability `min (p t) (q t)`, and what is missing to `p t` comes from the residual. -/

set_option autoImplicit false

namespace BloomBee.Speculative

variable {n : ℕ} {p q : Fin n → ℚ}

structure IsDistribution (p : Fin n → ℚ) : Prop where
  nonneg : ∀ i, 0 ≤ p i
  sum : ∑ i, p i = 1

/-! ### Residuals -/

def residualMass (p q : Fin n → ℚ) : ℚ := ∑ i, max (p i - q i) 0

theorem residualMass_nonneg (p q : Fin n → ℚ) : 0 ≤ residualMass p q :=
  Finset.sum_nonneg fun _ _ => le_max_right _ _

theorem residualDistribution_of_pos (h : 0 < residualMass p q) (i : Fin n) :
    residualDistribution p q i = max (p i - q i) 0 / residualMass p q := by
  unfold residualDistribution
  exact congrFun (if_neg (not_le.mpr h)) i

theorem residualDistribution_of_zero (hp : IsDistribution p) (h : residualMass p q = 0) :
    residualDistribution p q = p := by
  unfold residualDistribution
  refine (if_pos (le_of_eq h)).trans (funext fun i => ?_)
  rw [hp.sum, max_eq_left (by norm_num), div_one]

theorem residualMass_eq_zero_iff : residualMass p q = 0 ↔ ∀ i, p i ≤ q i := by
  unfold residualMass
  rw [Finset.sum_eq_zero_iff_of_nonneg fun _ _ => le_max_right _ _]
  constructor
  · intro h i
    have := h i (Finset.mem_univ i)
    rw [max_eq_right_iff] at this
    linarith
  · intro h i _
    exact max_eq_right (by linarith [h i])

theorem residualDistribution_isDistribution (hp : IsDistribution p) (q : Fin n → ℚ) :
    IsDistribution (residualDistribution p q) := by
  rcases (residualMass_nonneg p q).eq_or_lt with hzero | hpos
  · rw [residualDistribution_of_zero hp hzero.symm]
    exact hp
  · constructor
    · intro i
      rw [residualDistribution_of_pos hpos]
      exact div_nonneg (le_max_right _ _) hpos.le
    · simp only [residualDistribution_of_pos hpos]
      rw [← Finset.sum_div]
      exact div_self hpos.ne'

theorem multinomial_expect (hp : IsDistribution p) (f : Fin n → ℚ) :
    (multinomial p).expect f = ∑ i, p i * f i := by
  rw [multinomial, Law.expect_weighted]
  simp only [hp.sum, div_one]

/-! ### One edge -/

def acceptProb (p q : Fin n → ℚ) (d : Fin n) : ℚ := min (p d / q d) 1

theorem verifyEdge_expect (hp : IsDistribution p) {d : Fin n} (hq : 0 < q d)
    (f : EdgeVerifyResult n → ℚ) :
    (verifyEdge p q d).expect f = acceptProb p q d * f ⟨true, d⟩ +
      (1 - acceptProb p q d) * ∑ i, residualDistribution p q i * f ⟨false, i⟩ := by
  have h0 : 0 ≤ acceptProb p q d := le_min (div_nonneg (hp.nonneg d) hq.le) zero_le_one
  have h1 : acceptProb p q d ≤ 1 := min_le_right _ _
  rw [verifyEdge]
  simp only [if_neg (not_le.mpr hq), Law.expect_bind]
  rw [← acceptProb, Law.expect_below h0 h1]
  simp only [if_true, Bool.false_eq_true, if_false, Law.expect_pure, Law.expect_map]
  rw [multinomial_expect (residualDistribution_isDistribution hp q)]

theorem mul_acceptProb {d : Fin n} (hq : 0 < q d) :
    q d * acceptProb p q d = min (p d) (q d) := by
  rw [acceptProb, mul_min_of_nonneg _ _ hq.le, mul_div_cancel₀ _ hq.ne', mul_one]

/-- What token `d` of the draft contributes to the probability of `t`. -/
theorem weighted_edge (hp : IsDistribution p) {d : Fin n} (hq : 0 ≤ q d) (t : Fin n) :
    q d * ((verifyEdge p q d).expect fun r => if r.sampledToken = t then 1 else 0) =
      (if d = t then min (p d) (q d) else 0) +
        (q d - min (p d) (q d)) * residualDistribution p q t := by
  rcases hq.eq_or_lt with hzero | hpos
  · rw [← hzero, min_eq_right (hp.nonneg d), zero_mul, sub_self, zero_mul, ite_self, add_zero]
  · have hres : ∑ i, residualDistribution p q i * (if i = t then 1 else 0) =
        residualDistribution p q t := by simp
    rw [verifyEdge_expect hp hpos, hres, mul_add, ← mul_assoc, ← mul_assoc, mul_sub, mul_one,
      mul_acceptProb hpos]
    split_ifs
    · rw [mul_one]
    · rw [mul_zero]

/-- The probability of a rejection times the residual is what the accepted tokens leave. -/
theorem reject_mul_residual (hp : IsDistribution p) (q : Fin n → ℚ) (t : Fin n) :
    (1 - ∑ d, min (p d) (q d)) * residualDistribution p q t = max (p t - q t) 0 := by
  have hmass : residualMass p q = 1 - ∑ d, min (p d) (q d) := by
    rw [residualMass, ← hp.sum, ← Finset.sum_sub_distrib]
    refine Finset.sum_congr rfl fun i _ => ?_
    rcases le_total (p i) (q i) with h | h
    · rw [min_eq_left h, max_eq_right (by linarith), sub_self]
    · rw [min_eq_right h, max_eq_left (by linarith)]
  rw [← hmass]
  rcases (residualMass_nonneg p q).eq_or_lt with hzero | hpos
  · have := residualMass_eq_zero_iff.mp hzero.symm t
    rw [← hzero, zero_mul, max_eq_right (by linarith)]
  · rw [residualDistribution_of_pos hpos, mul_div_cancel₀ _ hpos.ne']

/-- Rejection sampling is exact: with the draft token drawn from `q`, the edge emits a token by the
target distribution `p`. -/
theorem verifyEdge_exact (hp : IsDistribution p) (hq : IsDistribution q) (t : Fin n) :
    ((Law.weighted q).bind fun d =>
      (verifyEdge p q d).map EdgeVerifyResult.sampledToken).prob t = p t := by
  rw [Law.prob, Law.expect_bind, Law.expect_weighted]
  simp only [Law.expect_map]
  calc ∑ d, q d * ((verifyEdge p q d).expect fun r => if r.sampledToken = t then 1 else 0)
      = ∑ d, ((if d = t then min (p d) (q d) else 0) +
          (q d - min (p d) (q d)) * residualDistribution p q t) :=
        Finset.sum_congr rfl fun d _ => weighted_edge hp (hq.nonneg d) t
    _ = min (p t) (q t) +
          (1 - ∑ d, min (p d) (q d)) * residualDistribution p q t := by
        rw [Finset.sum_add_distrib, Finset.sum_ite_eq' Finset.univ t, if_pos (Finset.mem_univ t),
          ← Finset.sum_mul, Finset.sum_sub_distrib, hq.sum]
    _ = min (p t) (q t) + max (p t - q t) 0 := by rw [reject_mul_residual hp q]
    _ = p t := by
        rcases le_total (p t) (q t) with h | h
        · rw [min_eq_left h, max_eq_right (by linarith), add_zero]
        · rw [min_eq_right h, max_eq_left (by linarith)]
          ring

/-- A target distribution, and a draft that never proposes the last token. -/
theorem verifyEdge_exact_three :
    ((Law.weighted ![1 / 2, 1 / 2, 0]).bind fun d =>
      (verifyEdge ![1 / 4, 1 / 4, 1 / 2] ![1 / 2, 1 / 2, 0] d).map
        EdgeVerifyResult.sampledToken).prob 2 = 1 / 2 := by
  refine verifyEdge_exact ⟨?_, ?_⟩ ⟨?_, ?_⟩ 2
  all_goals decide +kernel

/-! ### The uniform draw -/

/-- `verify_edge` for a value `u` of its uniform draw. -/
noncomputable def verifyEdgeAt (pTarget pDraft : Fin n → ℚ) (draftToken : Fin n) (u : ℝ) :
    Law (EdgeVerifyResult n) :=
  if pDraft draftToken ≤ 0 then Law.pure ⟨true, draftToken⟩
  else if u < acceptProb pTarget pDraft draftToken then Law.pure ⟨true, draftToken⟩
  else (multinomial (residualDistribution pTarget pDraft)).map fun sampled => ⟨false, sampled⟩

/-- The law of an edge is the average over the uniform draw. -/
theorem verifyEdge_eq_average (hp : IsDistribution p) (d : Fin n)
    (f : EdgeVerifyResult n → ℚ) :
    ((verifyEdge p q d).expect f : ℝ) =
      ∫ u in Set.Ico (0 : ℝ) 1, ((verifyEdgeAt p q d u).expect f : ℝ) := by
  by_cases hq : q d ≤ 0
  · simp [verifyEdge, verifyEdgeAt, hq]
  · have h0 : 0 ≤ acceptProb p q d :=
      le_min (div_nonneg (hp.nonneg d) (not_le.mp hq).le) zero_le_one
    have h1 : acceptProb p q d ≤ 1 := min_le_right _ _
    rw [verifyEdge]
    simp only [if_neg hq, Law.expect_bind]
    rw [← acceptProb, Law.expect_below_eq_integral h0 h1]
    refine MeasureTheory.integral_congr_ae (Filter.Eventually.of_forall fun u => ?_)
    simp only [verifyEdgeAt, if_neg hq, if_true, Bool.false_eq_true, if_false]
    split_ifs
    · rfl
    · rfl

end BloomBee.Speculative
