import Mathlib.Data.List.Basic
import Mathlib.Data.Nat.Notation

/-! Consecutive ranges that cover an interval of positions. -/

set_option autoImplicit false

/-- The ranges run from `a` to `c`, each beginning where the one before it ends. -/
inductive Tiles : ℕ → ℕ → List (ℕ × ℕ) → Prop where
  | nil (a : ℕ) : Tiles a a []
  | cons {a b c : ℕ} {rs : List (ℕ × ℕ)} (h : a ≤ b) (t : Tiles b c rs) : Tiles a c ((a, b) :: rs)

namespace Tiles

variable {a c : ℕ} {rs : List (ℕ × ℕ)}

theorem le (t : Tiles a c rs) : a ≤ c := by
  induction t with
  | nil a => exact Nat.le_refl a
  | cons h _ ih => exact Nat.le_trans h ih

theorem mem (t : Tiles a c rs) {r : ℕ × ℕ} (hr : r ∈ rs) : a ≤ r.1 ∧ r.1 ≤ r.2 ∧ r.2 ≤ c := by
  induction t with
  | nil a => cases hr
  | cons h t ih =>
    rcases List.mem_cons.mp hr with rfl | hr
    · exact ⟨Nat.le_refl _, h, t.le⟩
    · obtain ⟨h₁, h₂, h₃⟩ := ih hr
      exact ⟨Nat.le_trans h h₁, h₂, h₃⟩

theorem stop_unique (t : Tiles a c rs) {c' : ℕ} (t' : Tiles a c' rs) : c = c' := by
  induction t with
  | nil a =>
    cases t'
    rfl
  | cons h _ ih =>
    cases t' with
    | cons _ t' => exact ih t'

theorem append_iff {rs' : List (ℕ × ℕ)} :
    Tiles a c (rs ++ rs') ↔ ∃ b, Tiles a b rs ∧ Tiles b c rs' := by
  induction rs generalizing a with
  | nil =>
    refine ⟨fun t => ⟨a, .nil a, t⟩, ?_⟩
    rintro ⟨b, t, t'⟩
    cases t
    exact t'
  | cons r rs ih =>
    constructor
    · intro t
      cases t with
      | cons h t =>
        obtain ⟨b, t₁, t₂⟩ := ih.mp t
        exact ⟨b, .cons h t₁, t₂⟩
    · rintro ⟨b, t, t'⟩
      cases t with
      | cons h t => exact .cons h (ih.mpr ⟨b, t, t'⟩)

theorem singleton {b : ℕ} (h : a ≤ b) : Tiles a b [(a, b)] := .cons h (.nil b)

theorem pairwise (t : Tiles a c rs) : rs.Pairwise fun r s => r.2 ≤ s.1 := by
  induction t with
  | nil a => exact List.Pairwise.nil
  | cons h t ih => exact List.pairwise_cons.mpr ⟨fun r hr => (t.mem hr).1, ih⟩

theorem exists_of_lt (t : Tiles a c rs) {b : ℕ} (ha : a ≤ b) (hc : b < c) :
    ∃ r ∈ rs, r.1 ≤ b ∧ b < r.2 := by
  induction t with
  | nil a => omega
  | @cons a b' c rs h t ih =>
    by_cases hb : b < b'
    · exact ⟨(a, b'), List.mem_cons_self, ha, hb⟩
    · obtain ⟨r, hr, hin⟩ := ih (Nat.le_of_not_lt hb) hc
      exact ⟨r, List.mem_cons_of_mem _ hr, hin⟩

/-- The slices of a list along a tiling are the list between its ends. -/
theorem flatMap_slice {α : Type} (t : Tiles a c rs) (xs : List α) :
    (rs.flatMap fun r => (xs.drop r.1).take (r.2 - r.1)) = (xs.drop a).take (c - a) := by
  induction t with
  | nil a => simp
  | @cons a b c rs h t ih =>
    have hbc := t.le
    rw [List.flatMap_cons, ih, show c - a = (b - a) + (c - b) by omega, List.take_add,
      List.drop_drop, show a + (b - a) = b by omega]

theorem flatMap_range {β : Type} (t : Tiles 0 c rs) (g : ℕ → β) :
    (rs.flatMap fun r => (List.range (r.2 - r.1)).map fun j => g (r.1 + j)) =
      (List.range c).map g := by
  have hslice : ∀ r ∈ rs, ((List.range (r.2 - r.1)).map fun j => g (r.1 + j)) =
      (((List.range c).map g).drop r.1).take (r.2 - r.1) := by
    intro r hr
    have hle := (t.mem hr).2.2
    exact List.ext_getElem (by simp; omega) fun j _ _ => by simp
  rw [List.flatMap_congr hslice, t.flatMap_slice, List.drop_zero, Nat.sub_zero,
    List.take_of_length_le (by simp)]

end Tiles
