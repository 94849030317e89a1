import Mathlib.Data.List.Basic
import Mathlib.Data.List.Sort
import Mathlib.Data.Nat.Notation
import Mathlib.Tactic.Common

/-! The places where a mask is set, and how they are found by sorting: a place that is not set
ranks after all others. -/

set_option autoImplicit false

def positions (mask : List Bool) : List ℕ :=
  (List.range mask.length).filter fun i => mask.getD i false

/-- Every place with its rank, which is the number of places for one that is not set. -/
def ranks (mask : List Bool) : List ℕ := mask.mapIdx fun i m => if m then i else mask.length

variable (mask : List Bool)

theorem mem_positions {i : ℕ} : i ∈ positions mask ↔ mask[i]? = some true := by
  rw [positions, List.mem_filter, List.mem_range, List.getD_eq_getElem?_getD]
  by_cases hi : i < mask.length
  · simp [hi]
  · simp [hi]

theorem positions_pairwise : (positions mask).Pairwise (· < ·) :=
  List.pairwise_lt_range.filter _

/-- The places of a mask and of its complement are all places. -/
theorem positions_append_perm :
    (positions mask ++ positions (mask.map (!·))).Perm (List.range mask.length) := by
  have hneg : positions (mask.map (!·)) =
      (List.range mask.length).filter fun i => !mask.getD i false := by
    rw [positions, List.length_map]
    refine List.filter_congr fun i hi => ?_
    have hi := List.mem_range.mp hi
    simp [List.getD_eq_getElem?_getD, hi]
  rw [hneg]
  exact List.filter_append_perm _ _

theorem positions_length : (positions mask).length = mask.countP id := by
  rw [positions, ← List.countP_eq_length_filter]
  have hmap : (List.range mask.length).map (fun i => mask.getD i false) = mask := by
    refine List.ext_getElem (by simp) fun i h₁ h₂ => ?_
    simp [List.getD_eq_getElem?_getD, h₂]
  conv_rhs => rw [← hmap, List.countP_map]
  rfl

theorem ranks_perm : (ranks mask).Perm
    (positions mask ++ List.replicate (mask.length - (positions mask).length) mask.length) := by
  have hmap : ranks mask = (List.range mask.length).map fun i =>
      if mask.getD i false then i else mask.length := by
    refine List.ext_getElem (by simp [ranks]) fun i h₁ h₂ => ?_
    have hi : i < mask.length := by simpa [ranks] using h₁
    simp [ranks, List.getD_eq_getElem?_getD, hi]
  have hsplit := (List.filter_append_perm (fun i => mask.getD i false)
    (List.range mask.length)).map fun i => if mask.getD i false then i else mask.length
  have hlen := (List.filter_append_perm (fun i => mask.getD i false)
    (List.range mask.length)).length_eq
  rw [List.length_append, List.length_range] at hlen
  rw [hmap]
  refine hsplit.symm.trans (List.Perm.of_eq ?_)
  rw [List.map_append]
  congr 1
  · conv_rhs => rw [positions, ← List.map_id ((List.range mask.length).filter _)]
    refine List.map_congr_left fun i hi => ?_
    rw [if_pos (List.mem_filter.mp hi).2]
    rfl
  · refine List.eq_replicate_iff.mpr ⟨?_, fun r hr => ?_⟩
    · rw [List.length_map, positions]
      omega
    · obtain ⟨i, hi, rfl⟩ := List.mem_map.mp hr
      have hnot := (List.mem_filter.mp hi).2
      rw [if_neg]
      simpa using hnot

theorem sort_ranks : (ranks mask).mergeSort (fun a b => decide (a ≤ b)) =
    positions mask ++ List.replicate (mask.length - (positions mask).length) mask.length := by
  have hlt : ∀ i ∈ positions mask, i < mask.length := fun i hi =>
    List.mem_range.mp (List.mem_filter.mp hi).1
  refine @List.Perm.eq_of_pairwise _ (fun a b => decide (a ≤ b)) _ _ ?_ ?_ ?_
    ((List.mergeSort_perm _ _).trans (ranks_perm mask))
  · intro a b _ _ hab hba
    exact Nat.le_antisymm (of_decide_eq_true hab) (of_decide_eq_true hba)
  · refine List.pairwise_mergeSort ?_ ?_ _
    · intro a b c hab hbc
      exact decide_eq_true (Nat.le_trans (of_decide_eq_true hab) (of_decide_eq_true hbc))
    · intro a b
      simpa using Nat.le_total a b
  · rw [List.pairwise_append]
    refine ⟨(positions_pairwise mask).imp fun h => decide_eq_true (Nat.le_of_lt h), ?_, ?_⟩
    · exact List.pairwise_replicate.mpr (.inr (decide_eq_true (Nat.le_refl _)))
    · intro a ha b hb
      rw [List.eq_of_mem_replicate hb]
      exact decide_eq_true (Nat.le_of_lt (hlt a ha))
