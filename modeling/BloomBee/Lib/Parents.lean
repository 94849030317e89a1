import Mathlib.Data.Int.Notation
import Mathlib.Data.List.Basic
import Mathlib.Data.Nat.Notation
import Mathlib.Logic.Relation
import Mathlib.Tactic.Common

/-! Trees as lists of parent indices that point to the left. A negative index says that there is
no parent. -/

set_option autoImplicit false

namespace Parents

def Leftward (parents : List ℤ) : Prop := ∀ (i : ℕ) (p : ℤ), parents[i]? = some p → p < i

/-- `j` is a strict ancestor of `i`. -/
def Above (parents : List ℤ) (j i : ℕ) : Prop :=
  Relation.TransGen (fun a b : ℕ => parents[b]? = some (a : ℤ)) j i

variable {parents : List ℤ}

theorem Above.lt_length {i j : ℕ} (h : Above parents j i) : i < parents.length := by
  rcases Relation.TransGen.tail'_iff.mp h with ⟨k, -, hk⟩
  exact (List.getElem?_eq_some_iff.mp hk).1

theorem Above.lt (hleft : Leftward parents) {i j : ℕ} (h : Above parents j i) : j < i := by
  induction h with
  | single h => exact Int.ofNat_lt.mp (hleft _ _ h)
  | tail _ h ih => exact Nat.lt_trans ih (Int.ofNat_lt.mp (hleft _ _ h))

/-- The strict ancestors of a place are its parent and the strict ancestors of that. -/
theorem above_iff {i j : ℕ} {p : ℤ} (hp : parents[i]? = some p) :
    Above parents j i ↔ 0 ≤ p ∧ (j = p.toNat ∨ Above parents j p.toNat) := by
  constructor
  · intro h
    obtain ⟨k, hjk, hk⟩ := Relation.TransGen.tail'_iff.mp h
    obtain rfl : p = k := Option.some.inj (hp.symm.trans hk)
    refine ⟨Int.natCast_nonneg k, ?_⟩
    rw [Int.toNat_natCast]
    rcases Relation.reflTransGen_iff_eq_or_transGen.mp hjk with rfl | habove
    · exact .inl rfl
    · exact .inr habove
  · intro h
    obtain ⟨hnonneg, h⟩ := h
    have hedge : parents[i]? = some ((p.toNat : ℕ) : ℤ) := by
      rw [hp, Int.toNat_of_nonneg hnonneg]
    rcases h with rfl | h
    · exact .single hedge
    · exact h.tail hedge

theorem not_above_of_neg {i j : ℕ} {p : ℤ} (hp : parents[i]? = some p) (hneg : p < 0) :
    ¬ Above parents j i := by
  rw [above_iff hp]
  omega

def chain (n : ℕ) : List ℤ := (List.range n).map fun i : ℕ => (i : ℤ) - 1

theorem chain_leftward (n : ℕ) : Leftward (chain n) := by
  intro i p hp
  simp only [chain, List.getElem?_map, Option.map_eq_some_iff] at hp
  obtain ⟨k, hk, rfl⟩ := hp
  obtain ⟨-, rfl⟩ := List.getElem?_eq_some_iff.mp hk
  rw [List.getElem_range]
  omega

theorem above_chain {n i j : ℕ} : Above (chain n) j i ↔ j < i ∧ i < n := by
  constructor
  · intro h
    have hlen := h.lt_length
    rw [chain, List.length_map, List.length_range] at hlen
    exact ⟨h.lt (chain_leftward n), hlen⟩
  · rintro ⟨hji, hin⟩
    induction i with
    | zero => exact absurd hji (Nat.not_lt_zero j)
    | succ i ih =>
      have hedge : (chain n)[i + 1]? = some (i : ℤ) := by simp [chain, hin]
      rcases Nat.lt_succ_iff_lt_or_eq.mp hji with hji | rfl
      · exact (ih hji (Nat.lt_of_succ_lt hin)).tail hedge
      · exact .single hedge

end Parents
