import Mathlib.Analysis.Calculus.FDeriv.WithLp
import Mathlib.Analysis.Calculus.Gradient.Basic
import Mathlib.Analysis.InnerProductSpace.PiL2

/-! Reverse-mode differentiation: functions that take a gradient at the output of a step back to one
at its input, and the rules by which those of a whole computation are put together. -/

set_option autoImplicit false

namespace ReverseMode

variable {E F K : Type*} [NormedAddCommGroup E] [InnerProductSpace ℝ E] [NormedAddCommGroup F]
  [InnerProductSpace ℝ F] [NormedAddCommGroup K] [InnerProductSpace ℝ K]

/-- `f` is differentiable at `x`, and `pull` is the adjoint of its derivative. -/
def HasPullback (f : E → F) (pull : F → E) (x : E) : Prop :=
  ∃ f' : E →L[ℝ] F, HasFDerivAt f f' x ∧ ∀ g v, inner ℝ g (f' v) = inner ℝ (pull g) v

namespace HasPullback

theorem of_linear (f : E →L[ℝ] F) {pull : F → E} (h : ∀ g v, inner ℝ g (f v) = inner ℝ (pull g) v)
    (x : E) : HasPullback f pull x :=
  ⟨f, f.hasFDerivAt, h⟩

theorem id (x : E) : HasPullback (fun y => y) (fun g => g) x :=
  of_linear (ContinuousLinearMap.id ℝ E) (fun _ _ => rfl) x

theorem comp {f : E → F} {g : F → K} {pf : F → E} {pg : K → F} {x : E}
    (hg : HasPullback g pg (f x)) (hf : HasPullback f pf x) :
    HasPullback (fun y => g (f y)) (fun v => pf (pg v)) x := by
  obtain ⟨g', hg', hpg⟩ := hg
  obtain ⟨f', hf', hpf⟩ := hf
  refine ⟨g'.comp f', hg'.comp x hf', fun u v => ?_⟩
  rw [ContinuousLinearMap.comp_apply, hpg, hpf]

theorem add {f h : E → F} {pf ph : F → E} {x : E} (hf : HasPullback f pf x)
    (hh : HasPullback h ph x) : HasPullback (fun y => f y + h y) (fun g => pf g + ph g) x := by
  obtain ⟨f', hf', hpf⟩ := hf
  obtain ⟨h', hh', hph⟩ := hh
  refine ⟨f' + h', hf'.add hh', fun g v => ?_⟩
  rw [add_apply, inner_add_right, inner_add_left, hpf, hph]

/-- Results side by side: the gradients of all of them add up. -/
theorem toLp {ι : Type*} [Fintype ι] {f : ι → E → F} {pull : ι → F → E} {x : E}
    (h : ∀ i, HasPullback (f i) (pull i) x) :
    HasPullback (fun y => WithLp.toLp 2 fun i => f i y)
      (fun g : PiLp 2 fun _ : ι => F => ∑ i, pull i (g i)) x := by
  choose f' hf' hpull using h
  refine ⟨(PiLp.continuousLinearEquiv 2 ℝ fun _ : ι => F).symm.toContinuousLinearMap.comp
    (ContinuousLinearMap.pi f'), ?_, fun g v => ?_⟩
  · exact (PiLp.hasFDerivAt_toLp 2 fun i => f i x).comp x (hasFDerivAt_pi.mpr hf')
  · rw [PiLp.inner_apply, sum_inner]
    exact Finset.sum_congr rfl fun i _ => hpull i (g i) v

theorem map_zero {f : E → F} {pull : F → E} {x : E} (h : HasPullback f pull x) : pull 0 = 0 := by
  obtain ⟨f', -, hpull⟩ := h
  apply ext_inner_right ℝ
  intro v
  rw [← hpull, inner_zero_left, inner_zero_left]

theorem of_eq {f : E → F} {pull pull' : F → E} {x : E} (h : HasPullback f pull x)
    (heq : ∀ g, pull' g = pull g) : HasPullback f pull' x := by
  obtain rfl : pull' = pull := funext heq
  exact h

/-- A gradient at the output is taken back to one at the input. -/
theorem hasGradientAt [CompleteSpace E] [CompleteSpace F] {f : E → F} {pull : F → E} {x : E}
    (h : HasPullback f pull x) {L : F → ℝ} {g : F} (hL : HasGradientAt L g (f x)) :
    HasGradientAt (fun y => L (f y)) (pull g) x := by
  obtain ⟨f', hf', hpull⟩ := h
  rw [hasGradientAt_iff_hasFDerivAt] at hL ⊢
  have hcomp : (InnerProductSpace.toDual ℝ E) (pull g) =
      ((InnerProductSpace.toDual ℝ F) g).comp f' := by
    apply ContinuousLinearMap.ext
    intro v
    rw [ContinuousLinearMap.comp_apply, InnerProductSpace.toDual_apply_apply,
      InnerProductSpace.toDual_apply_apply, hpull]
  rw [hcomp]
  exact hL.comp x hf'

end HasPullback

end ReverseMode
