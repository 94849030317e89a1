import Mathlib.Data.List.Basic
import Mathlib.Data.Nat.Notation

/-! The entries of a list that a mask admits. -/

set_option autoImplicit false

variable {α : Type}

/-- The entries at the places where the mask is set, in order. -/
def select : List Bool → List α → List α
  | true :: mask, x :: l => x :: select mask l
  | false :: mask, _ :: l => select mask l
  | [], _ => []
  | _, [] => []

theorem select_nil (mask : List Bool) : select mask ([] : List α) = [] := by
  cases mask with
  | nil => rfl
  | cons b mask => cases b <;> rfl

theorem select_append {m₁ m₂ : List Bool} {l₁ l₂ : List α} (h : m₁.length = l₁.length) :
    select (m₁ ++ m₂) (l₁ ++ l₂) = select m₁ l₁ ++ select m₂ l₂ := by
  induction m₁ generalizing l₁ with
  | nil =>
    obtain rfl : l₁ = [] := List.length_eq_zero_iff.mp h.symm
    rfl
  | cons b m₁ ih =>
    cases l₁ with
    | nil => cases h
    | cons x l₁ =>
      have hlen : m₁.length = l₁.length := by simpa using h
      cases b with
      | true => exact congrArg (x :: ·) (ih hlen)
      | false => exact ih hlen

theorem select_replicate_true (l : List α) : select (List.replicate l.length true) l = l := by
  induction l with
  | nil => rfl
  | cons x l ih => exact congrArg (x :: ·) ih

theorem select_replicate_false (n : ℕ) (l : List α) : select (List.replicate n false) l = [] := by
  induction n generalizing l with
  | zero => rfl
  | succ n ih =>
    cases l with
    | nil => rfl
    | cons x l => exact ih l

/-- A mask that is set at increasing places selects the entries at these places. -/
theorem select_of_sorted {mask : List Bool} {l : List α} {places : List ℕ} (k : ℕ)
    (hlen : mask.length = l.length) (hsorted : places.Pairwise (· < ·))
    (hin : ∀ i ∈ places, k ≤ i ∧ i < k + l.length)
    (hmask : ∀ j < l.length, mask[j]? = some (decide (k + j ∈ places))) :
    select mask l = places.filterMap fun i => l[i - k]? := by
  induction l generalizing mask places k with
  | nil =>
    have hnil : places = [] := by
      rw [List.eq_nil_iff_forall_not_mem]
      intro i hi
      have := hin i hi
      simp only [List.length_nil] at this
      omega
    rw [hnil, select_nil]
    rfl
  | cons x l ih =>
    cases mask with
    | nil => cases hlen
    | cons b mask =>
      have hlen : mask.length = l.length := by simpa using hlen
      have hb : b = decide (k ∈ places) := by simpa using hmask 0 (Nat.zero_lt_succ _)
      have htail : ∀ j < l.length, mask[j]? = some (decide (k + 1 + j ∈ places)) := by
        intro j hj
        have := hmask (j + 1) (by simpa using hj)
        rwa [List.getElem?_cons_succ, show k + (j + 1) = k + 1 + j by omega] at this
      -- entries after the first one are those of the tail
      have hshift : ∀ rest : List ℕ, (∀ i ∈ rest, k + 1 ≤ i) →
          (rest.filterMap fun i => (x :: l)[i - k]?) =
            rest.filterMap fun i => l[i - (k + 1)]? := by
        intro rest hrest
        apply List.filterMap_congr
        intro i hi
        rw [show i - k = i - (k + 1) + 1 by have := hrest i hi; omega, List.getElem?_cons_succ]
      by_cases hk : k ∈ places
      · cases places with
        | nil => cases hk
        | cons p places =>
          obtain ⟨hp, hsorted⟩ := List.pairwise_cons.mp hsorted
          -- the first place is the smallest one
          have hpk : p = k := by
            rcases List.mem_cons.mp hk with h | h
            · exact h.symm
            · have h₁ := hp k h
              have h₂ := (hin p List.mem_cons_self).1
              omega
          subst hpk
          rw [hb, decide_eq_true hk, select, List.filterMap_cons]
          simp only [Nat.sub_self, List.getElem?_cons_zero]
          rw [hshift places fun i hi => hp i hi, ih (p + 1) hlen hsorted ?_ ?_]
          · intro i hi
            have h₁ := hp i hi
            have h₂ := (hin i (List.mem_cons_of_mem _ hi)).2
            rw [List.length_cons] at h₂
            omega
          · intro j hj
            rw [htail j hj]
            congr 2
            rw [List.mem_cons]
            exact propext ⟨fun h => h.resolve_left (by omega), Or.inr⟩
      · have hge : ∀ i ∈ places, k + 1 ≤ i := by
          intro i hi
          have h₁ := (hin i hi).1
          rcases Nat.eq_or_lt_of_le h₁ with h | h
          · exact absurd (h ▸ hi) hk
          · exact h
        rw [hb, decide_eq_false hk, select, hshift places hge, ih (k + 1) hlen hsorted ?_ htail]
        intro i hi
        have h₂ := (hin i hi).2
        rw [List.length_cons] at h₂
        exact ⟨hge i hi, by omega⟩
