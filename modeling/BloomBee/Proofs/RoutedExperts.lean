import BloomBee.Spec.RoutedExperts
import Mathlib.Algebra.BigOperators.Pi
import Mathlib.Algebra.Order.BigOperators.Group.Finset

/-! Expert by expert is token by token: every slot of every token counts once. -/

set_option autoImplicit false

namespace BloomBee.RoutedExperts

open Scatter

variable {R : Type} {hidden intermediate tokens slots : ℕ} {x : Experts R hidden intermediate}
  {expert : Fin tokens → Fin slots → Fin x.numExperts}

theorem oneHot_eq (expert : Fin tokens → Fin slots → Fin x.numExperts) :
    oneHot (fun t k => ((expert t k).val : ℤ)) x.numExperts =
      some fun t k e => if expert t k = e then 1 else 0 := by
  have hin : ¬(x.numExperts = 0 ∨ ∃ t k, ((expert t k).val : ℤ) < 0 ∨
      (x.numExperts : ℤ) ≤ ((expert t k).val : ℤ)) := by
    rintro (h0 | ⟨t, k, hlow | hhigh⟩)
    · exact x.numExperts_pos.ne' h0
    · omega
    · have hlt := (expert t k).isLt
      omega
  rw [oneHot, if_neg hin]
  congr 1
  funext t k e
  exact if_congr (by rw [Nat.cast_inj, Fin.val_inj]) rfl rfl

def contribution [CommSemiring R] (x : Experts R hidden intermediate)
    (hiddenStates : Fin tokens → Fin hidden → R) (topKWeights : Fin tokens → Fin slots → R)
    (e : Fin x.numExperts) (t : Fin tokens) (k : Fin slots) : Fin hidden → R :=
  fun j => topKWeights t k * x.apply e (hiddenStates t) j

section Expert

variable (mask : Fin x.numExperts → Fin slots → Fin tokens → ℤ)
  (hmask : ∀ e k t, mask e k t = if expert t k = e then 1 else 0)
include hmask

theorem mask_ne_zero (e : Fin x.numExperts) (k : Fin slots) (t : Fin tokens) :
    mask e k t ≠ 0 ↔ expert t k = e := by
  rw [hmask]
  split_ifs with he
  · exact iff_of_true one_ne_zero he
  · exact iff_of_false (fun h => h rfl) he

theorem mem_expertHit (e : Fin x.numExperts) :
    e ∈ expertHit mask ↔ ∃ k t, expert t k = e := by
  have hnonneg : ∀ k t, 0 ≤ mask e k t := by
    intro k t
    rw [hmask]
    split_ifs <;> decide
  rw [expertHit, List.mem_filter, decide_eq_true_iff,
    Finset.sum_pos_iff_of_nonneg fun k _ => Finset.sum_nonneg fun t _ => hnonneg k t]
  constructor
  · rintro ⟨-, k, -, hk⟩
    obtain ⟨t, -, ht⟩ := (Finset.sum_pos_iff_of_nonneg fun t _ => hnonneg k t).1 hk
    exact ⟨k, t, (mask_ne_zero mask hmask e k t).1 ht.ne'⟩
  · rintro ⟨k, t, he⟩
    refine ⟨List.mem_finRange e, k, Finset.mem_univ k, ?_⟩
    refine (Finset.sum_pos_iff_of_nonneg fun t _ => hnonneg k t).2 ⟨t, Finset.mem_univ t, ?_⟩
    rw [hmask, if_pos he]
    exact one_pos

variable [CommSemiring R] {hiddenStates : Fin tokens → Fin hidden → R}
  {topKWeights : Fin tokens → Fin slots → R}

theorem addExpert_apply (final : Fin tokens → Fin hidden → R) (e : Fin x.numExperts)
    (t : Fin tokens) :
    addExpert x hiddenStates topKWeights mask final e t =
      final t + ∑ k, if expert t k = e then contribution x hiddenStates topKWeights e t k else 0 := by
  have hlt : e.val ≠ x.numExperts := e.isLt.ne
  have hupdates : ∀ hits : List (Fin slots × Fin tokens),
      List.zip (hits.map Prod.snd) (List.zipWith (fun (row : Fin hidden → R) p j =>
        row j * topKWeights p.2 p.1) (hits.map fun p => x.apply e (hiddenStates p.2)) hits) =
      hits.map fun p => (p.2, contribution x hiddenStates topKWeights e p.2 p.1) := by
    intro hits
    induction hits with
    | nil => rfl
    | cons p hits ih =>
      rw [List.map_cons, List.map_cons, List.zipWith_cons_cons, List.zip_cons_cons, ih, List.map_cons]
      congr 2
      funext j
      exact mul_comm _ _
  have hcurrent := hupdates (nonzero fun k t => mask e k t ≠ 0)
  simp only [addExpert, if_neg hlt, List.map_map]
  refine (congrArg (fun u => indexAdd final u t) hcurrent).trans ?_
  rw [indexAdd_apply, List.map_map]
  congr 1
  refine (sum_nonzero_col _ _ t).trans (Finset.sum_congr rfl fun k _ => ?_)
  exact if_congr (mask_ne_zero mask hmask e k t) rfl rfl

theorem foldl_addExpert (experts : List (Fin x.numExperts)) (final : Fin tokens → Fin hidden → R)
    (t : Fin tokens) :
    experts.foldl (addExpert x hiddenStates topKWeights mask) final t =
      final t + (experts.map fun e =>
        ∑ k, if expert t k = e then contribution x hiddenStates topKWeights e t k else 0).sum := by
  induction experts generalizing final with
  | nil => exact (add_zero _).symm
  | cons e experts ih =>
    rw [List.foldl_cons, ih, addExpert_apply mask hmask, List.map_cons, List.sum_cons, add_assoc]

theorem sum_expertHit (t : Fin tokens) :
    ((expertHit mask).map fun e =>
      ∑ k, if expert t k = e then contribution x hiddenStates topKWeights e t k else 0).sum =
        ∑ k, contribution x hiddenStates topKWeights (expert t k) t k := by
  have hunhit : ∀ e, (if 0 < ∑ k, ∑ t, mask e k t then
      ∑ k, if expert t k = e then contribution x hiddenStates topKWeights e t k else 0 else 0) =
        ∑ k, if expert t k = e then contribution x hiddenStates topKWeights e t k else 0 := by
    intro e
    by_cases he : e ∈ expertHit mask
    · exact if_pos (of_decide_eq_true (List.mem_filter.1 he).2)
    · have hzero : (∑ k, if expert t k = e then contribution x hiddenStates topKWeights e t k
          else 0) = 0 :=
        Finset.sum_eq_zero fun k _ => if_neg fun hk =>
          he ((mem_expertHit mask hmask e).2 ⟨k, t, hk⟩)
      rw [hzero, ite_self]
  rw [expertHit, sum_map_filter, List.map_congr_left fun e _ => hunhit e, ← Fin.sum_univ_def,
    Finset.sum_comm]
  refine Finset.sum_congr rfl fun k _ => ?_
  rw [Finset.sum_ite_eq, if_pos (Finset.mem_univ _)]

end Expert

variable [CommSemiring R]

theorem perToken_apply (hiddenStates : Fin tokens → Fin hidden → R)
    (topKWeights : Fin tokens → Fin slots → R) (t : Fin tokens) (j : Fin hidden) :
    perToken x hiddenStates expert topKWeights t j =
      ∑ k, topKWeights t k * x.apply (expert t k) (hiddenStates t) j := by
  have hslots : ∀ (l : List (Fin slots)) (acc : Fin hidden → R),
      l.foldl (fun acc k j => acc j + topKWeights t k * x.apply (expert t k) (hiddenStates t) j) acc j =
        acc j + (l.map fun k => topKWeights t k * x.apply (expert t k) (hiddenStates t) j).sum := by
    intro l
    induction l with
    | nil => exact fun acc => (add_zero _).symm
    | cons k l ih => exact fun acc => by rw [List.foldl_cons, ih, List.map_cons, List.sum_cons, add_assoc]
  rw [perToken, hslots, zero_add, Fin.sum_univ_def]

/-- The forward pass gives each token the weighted sum of its experts, as the plain loop does. -/
theorem forward_perToken (x : Experts R hidden intermediate)
    (hiddenStates : Fin tokens → Fin hidden → R)
    (expert : Fin tokens → Fin slots → Fin x.numExperts) (topKWeights : Fin tokens → Fin slots → R) :
    forward x hiddenStates (fun t k => ((expert t k).val : ℤ)) topKWeights =
        some (perToken x hiddenStates expert topKWeights) ∧
      ∀ t j, perToken x hiddenStates expert topKWeights t j =
        ∑ k, topKWeights t k * x.apply (expert t k) (hiddenStates t) j := by
  refine ⟨?_, perToken_apply hiddenStates topKWeights⟩
  have hmask : ∀ e k t, permute (fun t k e => if expert t k = e then 1 else 0) e k t =
      if expert t k = e then 1 else 0 := fun _ _ _ => rfl
  rw [forward, oneHot_eq]
  refine congrArg some (funext fun t => ?_)
  rw [foldl_addExpert _ hmask, sum_expertHit _ hmask]
  funext j
  rw [perToken_apply, Pi.add_apply, Finset.sum_apply]
  exact zero_add _

end BloomBee.RoutedExperts
