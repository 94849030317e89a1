import Mathlib.Data.List.Basic
import Mathlib.Data.Nat.Notation
import Mathlib.Logic.Function.Basic
import Mathlib.Tactic.Common

/-! Masks as vector code computes with them: the entries of a list that satisfy a predicate get
their ranks from running totals, the first of them is found as a maximum, and assignments at their
ranks pack them. -/

set_option autoImplicit false

namespace Masked

variable {α κ : Type*}

/-- The running totals of a list, on top of `acc`. -/
def cumsum : ℕ → List ℕ → List ℕ
  | _, [] => []
  | acc, x :: xs => (acc + x) :: cumsum (acc + x) xs

def argmax (xs : List ℕ) : ℕ := xs.idxOf (xs.foldr max 0)

def ints (p : α → Bool) (xs : List α) : List ℕ := xs.map fun x => (p x).toNat

/-- The assignments `out[i] = x` in order. -/
def scatter (out : ℕ → κ) (assignments : List (ℕ × κ)) : ℕ → κ :=
  assignments.foldl (fun out a => Function.update out a.1 a.2) out

theorem foldr_max_ints (p : α → Bool) (xs : List α) :
    (ints p xs).foldr max 0 = (xs.any p).toNat := by
  induction xs with
  | nil => rfl
  | cons x xs ih =>
    rw [ints] at ih
    rw [ints, List.map_cons, List.foldr_cons, ih, List.any_cons]
    cases p x <;> cases xs.any p <;> rfl

/-- The first entry that satisfies the predicate is where the mask is largest. -/
theorem getElem?_argmax {p : α → Bool} {xs : List α} (h : xs.any p) :
    xs[argmax (ints p xs)]? = xs.find? p := by
  rw [argmax, foldr_max_ints, h]
  induction xs with
  | nil => cases h
  | cons x xs ih =>
    rw [ints, List.map_cons]
    cases hx : p x with
    | true => rw [List.find?_cons_of_pos hx]; rfl
    | false =>
      rw [List.any_cons, hx, Bool.false_or] at h
      rw [List.find?_cons_of_neg (by rw [hx]; exact Bool.false_ne_true),
        List.idxOf_cons_ne _ (by decide), List.getElem?_cons_succ]
      exact ih h

/-- The running totals of a mask are the ranks of its entries. -/
theorem zip_cumsum (p : α → Bool) (xs : List α) (acc : ℕ) :
    (xs.zip (cumsum acc (ints p xs))).filter (fun x => p x.1) =
      (xs.filter p).mapIdx fun k x => (x, acc + k + 1) := by
  induction xs generalizing acc with
  | nil => rfl
  | cons x xs ih =>
    rw [ints, List.map_cons, cumsum, List.zip_cons_cons, List.filter_cons, List.filter_cons]
    cases hx : p x with
    | true =>
      rw [if_pos rfl, if_pos rfl, List.mapIdx_cons]
      refine congrArg₂ _ rfl ((ih (acc + 1)).trans (congrArg (List.mapIdx · _) ?_))
      funext k y
      rw [Nat.add_right_comm acc 1 k, Nat.add_assoc acc k 1]
    | false =>
      rw [if_neg Bool.false_ne_true, if_neg Bool.false_ne_true]
      exact ih acc

theorem scatter_cons (out : ℕ → κ) (a : ℕ × κ) (assignments : List (ℕ × κ)) :
    scatter out (a :: assignments) = scatter (Function.update out a.1 a.2) assignments := rfl

theorem scatter_mapIdx (out : ℕ → κ) (base : ℕ) (xs : List κ) (s : ℕ) :
    scatter out (xs.mapIdx fun k x => (base + k, x)) s =
      if base ≤ s then xs[s - base]?.getD (out s) else out s := by
  induction xs generalizing out base with
  | nil => rw [List.mapIdx_nil, List.getElem?_nil, Option.getD_none, ite_self]; rfl
  | cons x xs ih =>
    have hshift : (fun k x => (base + (k + 1), x) : ℕ → κ → ℕ × κ) =
        fun k x => (base + 1 + k, x) := by
      funext k x
      rw [Nat.add_assoc, Nat.add_comm 1 k]
    rw [List.mapIdx_cons, scatter_cons, hshift, ih]
    simp only [Nat.add_zero]
    rcases Nat.lt_trichotomy s base with hlt | rfl | hgt
    · rw [if_neg (by omega), if_neg (by omega), Function.update_of_ne (by omega)]
    · rw [if_neg (by omega), if_pos (Nat.le_refl s), Function.update_self, Nat.sub_self]
      rfl
    · rw [if_pos (by omega), if_pos (by omega), Function.update_of_ne (by omega),
        show s - base = s - (base + 1) + 1 by omega, List.getElem?_cons_succ]

end Masked
