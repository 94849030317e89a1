import Mathlib.Algebra.BigOperators.Intervals
import Mathlib.Algebra.Order.Field.Basic

/-! Softmax with the largest score taken off first, over scores indexed by numbers. Where `exp`
underflows, a score far enough below the largest one has no weight, so that masked scores at the
end can be left out. -/

set_option autoImplicit false

namespace Softmax

section Definitions

variable {R : Type} [LinearOrder R]

/-- The largest of `s 0, …, s n`. -/
def maxUpTo (s : ℕ → R) : ℕ → R
  | 0 => s 0
  | n + 1 => max (maxUpTo s n) (s (n + 1))

variable [Field R]

def softmax (exp : R → R) (n : ℕ) (s : ℕ → R) (j : ℕ) : R :=
  exp (s j - maxUpTo s (n - 1)) / ∑ k ∈ Finset.range n, exp (s k - maxUpTo s (n - 1))

/-- The values `v 0, …, v (n - 1)` weighted by the softmax of their scores. -/
def weighted (exp : R → R) (n : ℕ) (s v : ℕ → R) : R :=
  ∑ j ∈ Finset.range n, softmax exp n s j * v j

end Definitions

section Largest

variable {R : Type} [LinearOrder R]

theorem le_maxUpTo (s : ℕ → R) {j n : ℕ} (hj : j ≤ n) : s j ≤ maxUpTo s n := by
  induction n with
  | zero => rw [Nat.le_zero.mp hj, maxUpTo]
  | succ n ih =>
    rw [maxUpTo]
    rcases Nat.le_succ_iff.mp hj with hle | rfl
    · exact le_trans (ih hle) (le_max_left _ _)
    · exact le_max_right _ _

theorem maxUpTo_congr {s s' : ℕ → R} {n : ℕ} (h : ∀ j ≤ n, s j = s' j) :
    maxUpTo s n = maxUpTo s' n := by
  induction n with
  | zero => exact h 0 (Nat.le_refl 0)
  | succ n ih =>
    rw [maxUpTo, maxUpTo, ih fun j hj => h j (Nat.le_succ_of_le hj), h (n + 1) (Nat.le_refl _)]

/-- Scores at the end that are not above the others do not change the largest. -/
theorem maxUpTo_add {s : ℕ → R} {n : ℕ} (k : ℕ)
    (h : ∀ j, n < j → j ≤ n + k → s j ≤ maxUpTo s n) : maxUpTo s (n + k) = maxUpTo s n := by
  induction k with
  | zero => rfl
  | succ k ih =>
    have hlast := h (n + k + 1) (by omega) (Nat.le_refl _)
    rw [← Nat.add_assoc, maxUpTo, ih fun j hj hle => h j hj (by omega), max_eq_left hlast]

end Largest

section Weights

variable {R : Type} [Field R] [LinearOrder R] {exp : R → R} {n : ℕ} {s s' v v' : ℕ → R}

theorem softmax_congr (hs : ∀ j < n, s j = s' j) {j : ℕ} (hj : j < n) :
    softmax exp n s j = softmax exp n s' j := by
  have hmax : maxUpTo s (n - 1) = maxUpTo s' (n - 1) :=
    maxUpTo_congr fun k hk => hs k (by omega)
  rw [softmax, softmax, hmax, hs j hj]
  congr 1
  exact Finset.sum_congr rfl fun k hk => by rw [hs k (Finset.mem_range.mp hk)]

theorem weighted_congr {t u : ℕ → R} (hs : ∀ j < n, s j = t j) (hv : ∀ j < n, v j = u j) :
    weighted exp n s v = weighted exp n t u :=
  Finset.sum_congr rfl fun j hj => by
    rw [softmax_congr hs (Finset.mem_range.mp hj), hv j (Finset.mem_range.mp hj)]

variable [IsStrictOrderedRing R]

/-- Where `exp` underflows from `-t` on, scores at the end that are `t` below the largest of the
others have no weight. -/
theorem weighted_masked {t : R} (ht : 0 ≤ t) (hexp : ∀ x ≤ -t, exp x = 0) {m : ℕ} (hn : 0 < n)
    (hnm : n ≤ m) (hmasked : ∀ j, n ≤ j → j < m → s j ≤ maxUpTo s (n - 1) - t) :
    weighted exp m s v = weighted exp n s v := by
  obtain ⟨k, rfl⟩ := Nat.exists_eq_add_of_le hnm
  have hmax : maxUpTo s (n + k - 1) = maxUpTo s (n - 1) := by
    rw [show n + k - 1 = n - 1 + k by omega]
    refine maxUpTo_add k fun j hj hle => ?_
    exact le_trans (hmasked j (by omega) (by omega)) (sub_le_self _ ht)
  have hzero : ∀ j, exp (s (n + j) - maxUpTo s (n - 1)) = 0 ∨ k ≤ j := by
    intro j
    by_cases hj : j < k
    · refine .inl (hexp _ ?_)
      have := hmasked (n + j) (Nat.le_add_right n j) (by omega)
      rw [sub_le_iff_le_add, neg_add_eq_sub]
      exact this
    · exact .inr (Nat.le_of_not_lt hj)
  have hsum : ∑ j ∈ Finset.range (n + k), exp (s j - maxUpTo s (n - 1)) =
      ∑ j ∈ Finset.range n, exp (s j - maxUpTo s (n - 1)) := by
    rw [Finset.sum_range_add, add_eq_left]
    refine Finset.sum_eq_zero fun j hj => ?_
    exact (hzero j).resolve_right (Nat.not_le_of_lt (Finset.mem_range.mp hj))
  rw [weighted, weighted, Finset.sum_range_add, add_eq_left.mpr]
  · exact Finset.sum_congr rfl fun j _ => by rw [softmax, softmax, hmax, hsum]
  · refine Finset.sum_eq_zero fun j hj => ?_
    rw [softmax, hmax, (hzero j).resolve_right (Nat.not_le_of_lt (Finset.mem_range.mp hj)),
      zero_div, zero_mul]

end Weights

end Softmax
