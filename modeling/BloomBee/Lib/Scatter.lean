import Mathlib.Algebra.BigOperators.Fin
import Mathlib.Data.Fintype.BigOperators

/-! Gathers and scatter-adds: the entries of a mask that are set, in row-major order, and the sums that
collect what is computed for each of them. -/

set_option autoImplicit false

namespace Scatter

theorem sum_map_filter {ι M : Type*} [AddCommMonoid M] (l : List ι) (p : ι → Prop) [DecidablePred p] (f : ι → M) :
    ((l.filter fun i => decide (p i)).map f).sum = (l.map fun i => if p i then f i else 0).sum := by
  induction l with
  | nil => rfl
  | cons i l ih =>
    rw [List.filter_cons, List.map_cons, List.sum_cons, ← ih]
    by_cases hi : p i
    · rw [if_pos (decide_eq_true hi), if_pos hi, List.map_cons, List.sum_cons]
    · rw [if_neg (by simpa using hi), if_neg hi, zero_add]

variable {ι M : Type*} [DecidableEq ι] [AddCommMonoid M]

/-- `f.index_add_(0, index, source)` -/
def indexAdd (f : ι → M) (updates : List (ι × M)) : ι → M :=
  updates.foldl (fun f u i => if i = u.1 then f i + u.2 else f i) f

theorem indexAdd_apply (f : ι → M) (updates : List (ι × M)) (i : ι) :
    indexAdd f updates i =
      f i + (updates.map fun u => if i = u.1 then u.2 else 0).sum := by
  induction updates generalizing f with
  | nil => exact (add_zero _).symm
  | cons u updates ih =>
    have hrest := ih fun i => if i = u.1 then f i + u.2 else f i
    rw [indexAdd] at hrest
    rw [indexAdd, List.foldl_cons, hrest, List.map_cons, List.sum_cons, ← add_assoc]
    congr 1
    split_ifs
    · rfl
    · exact (add_zero _).symm

variable {rows cols : ℕ}

/-- `torch.where(mask)` -/
def nonzero (mask : Fin rows → Fin cols → Prop) [∀ r c, Decidable (mask r c)] :
    List (Fin rows × Fin cols) :=
  (List.finRange rows).flatMap fun r =>
    ((List.finRange cols).filter fun c => decide (mask r c)).map fun c => (r, c)

theorem sum_nonzero (mask : Fin rows → Fin cols → Prop) [∀ r c, Decidable (mask r c)]
    (f : Fin rows × Fin cols → M) :
    ((nonzero mask).map f).sum = ∑ r, ∑ c, if mask r c then f (r, c) else 0 := by
  have hrows : ∀ l : List (Fin rows), ((l.flatMap fun r =>
      ((List.finRange cols).filter fun c => decide (mask r c)).map fun c => (r, c)).map f).sum =
        (l.map fun r => ∑ c, if mask r c then f (r, c) else 0).sum := by
    intro l
    induction l with
    | nil => rfl
    | cons r l ih =>
      rw [List.flatMap_cons, List.map_append, List.sum_append, ih, List.map_cons, List.sum_cons,
        List.map_map, Fin.sum_univ_def]
      congr 1
      exact sum_map_filter _ _ _
  rw [nonzero, hrows, Fin.sum_univ_def]

theorem sum_nonzero_col (mask : Fin rows → Fin cols → Prop) [∀ r c, Decidable (mask r c)]
    (f : Fin rows × Fin cols → M) (c : Fin cols) :
    ((nonzero mask).map fun p => if c = p.2 then f p else 0).sum =
      ∑ r, if mask r c then f (r, c) else 0 := by
  rw [sum_nonzero]
  refine Finset.sum_congr rfl fun r _ => ?_
  rw [Finset.sum_eq_single c]
  · rw [if_pos rfl]
  · intro c' _ hc
    rw [if_neg (Ne.symm hc), ite_self]
  · exact fun hc => absurd (Finset.mem_univ c) hc

end Scatter
