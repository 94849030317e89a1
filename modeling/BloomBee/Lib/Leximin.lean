import Mathlib.Algebra.Order.Group.Defs
import Mathlib.Data.Finset.Max
import Mathlib.Data.Fintype.Basic
import Mathlib.Data.List.Lex
import Mathlib.Data.Multiset.Sort

/-! The leximin order: of two collections of the same size, sorted from the least value on, the one
that is smaller at the first difference is below. It does not see what both contain, and it is kept by
adding the same amount to every value. -/

set_option autoImplicit false

namespace Leximin

section LinearOrder

variable {α : Type*} [LinearOrder α] {s t r : Multiset α}

/-- At the least value that they do not contain as often, `s` contains it more often. -/
def Below (s t : Multiset α) : Prop :=
  ∃ v, (∀ u < v, s.count u = t.count u) ∧ t.count v < s.count v

theorem count_eq_zero_of_lt {a v : α} {l : List α} (hl : (a :: l).Pairwise (· ≤ ·)) (hv : v < a) :
    (a :: l).count v = 0 := by
  rw [List.count_eq_zero]
  intro hmem
  rcases List.mem_cons.mp hmem with rfl | hmem
  · exact lt_irrefl _ hv
  · exact (hv.trans_le (List.rel_of_pairwise_cons hl hmem)).false

/-- The comparison of sorted lists reads off how often each value occurs. -/
theorem lt_iff_count {l₁ l₂ : List α} (h₁ : l₁.Pairwise (· ≤ ·)) (h₂ : l₂.Pairwise (· ≤ ·))
    (hlen : l₁.length = l₂.length) :
    l₁ < l₂ ↔ ∃ v, (∀ u < v, l₁.count u = l₂.count u) ∧ l₂.count v < l₁.count v := by
  induction l₁ generalizing l₂ with
  | nil =>
    obtain rfl := List.length_eq_zero_iff.mp hlen.symm
    exact iff_of_false (lt_irrefl _) fun ⟨v, _, hv⟩ => lt_irrefl _ hv
  | cons a l₁ ih =>
    obtain - | ⟨b, l₂⟩ := l₂
    · cases hlen
    rcases lt_trichotomy a b with hab | rfl | hba
    · refine iff_of_true (.rel hab) ⟨a, fun u hu => ?_, ?_⟩
      · rw [count_eq_zero_of_lt h₁ hu, count_eq_zero_of_lt h₂ (hu.trans hab)]
      · rw [count_eq_zero_of_lt h₂ hab, List.count_cons_self]
        exact Nat.succ_pos _
    · have hcons : a :: l₁ < a :: l₂ ↔ l₁ < l₂ := List.lex_cons_iff
      rw [hcons, ih h₁.of_cons h₂.of_cons (Nat.succ.inj hlen)]
      simp only [List.count_cons, Nat.add_right_cancel_iff, Nat.add_lt_add_iff_right]
    · refine iff_of_false (fun hlt => (List.head_le_of_lt hlt).not_gt hba) ?_
      rintro ⟨v, hbelow, hv⟩
      -- `b` is in the second list only, so the first difference is not behind it
      have hvb : v ≤ b := by
        by_contra hbv
        have hb := hbelow b (lt_of_not_ge hbv)
        rw [count_eq_zero_of_lt h₁ hba, List.count_cons_self] at hb
        exact Nat.succ_ne_zero _ hb.symm
      rw [count_eq_zero_of_lt h₁ (hvb.trans_lt hba)] at hv
      exact Nat.not_lt_zero _ hv

theorem sort_lt_sort_iff (h : s.card = t.card) : s.sort < t.sort ↔ Below s t := by
  rw [lt_iff_count (Multiset.pairwise_sort s _) (Multiset.pairwise_sort t _)
    (by rw [Multiset.length_sort, Multiset.length_sort, h]), Below]
  simp only [← Multiset.coe_count, Multiset.sort_eq]

theorem below_add_iff : Below (r + s) (r + t) ↔ Below s t := by
  simp only [Below, Multiset.count_add, Nat.add_left_cancel_iff, Nat.add_lt_add_iff_left]

theorem below_trans (hst : Below s t) (htr : Below t r) : Below s r := by
  obtain ⟨v, hv, hlt⟩ := hst
  obtain ⟨w, hw, hlt'⟩ := htr
  rcases lt_trichotomy v w with hvw | rfl | hwv
  · exact ⟨v, fun u hu => (hv u hu).trans (hw u (hu.trans hvw)), hw v hvw ▸ hlt⟩
  · exact ⟨v, fun u hu => (hv u hu).trans (hw u hu), hlt'.trans hlt⟩
  · exact ⟨w, fun u hu => (hv u (hu.trans hwv)).trans (hw u hu), hv w hwv ▸ hlt'⟩

theorem eq_or_below_of_not_below (h : s.card = t.card) (hts : ¬Below t s) : s = t ∨ Below s t := by
  rw [← sort_lt_sort_iff h.symm] at hts
  rcases (not_lt.mp hts).eq_or_lt with heq | hlt
  · exact .inl (by rw [← Multiset.sort_eq s (· ≤ ·), heq, Multiset.sort_eq])
  · exact .inr ((sort_lt_sort_iff h).mp hlt)

/-- Every value of the larger one has one in the smaller one that is no larger. -/
theorem Below.exists_le (h : Below s t) {a : α} (ha : a ∈ t) : ∃ b ∈ s, b ≤ a := by
  obtain ⟨v, hv, hlt⟩ := h
  rcases lt_or_ge a v with hav | hva
  · refine ⟨a, ?_, le_rfl⟩
    rw [← Multiset.count_pos, hv a hav]
    exact Multiset.count_pos.mpr ha
  · exact ⟨v, Multiset.count_pos.mp (Nat.zero_lt_of_lt hlt), hva⟩

end LinearOrder

section Raise

variable {ι β α : Type*} [DecidableEq ι] [AddCommGroup α] {f : ι → α} {W : Finset ι}

theorem map_split (g : ι → β) (W U : Finset ι) :
    W.val.map g = (W ∩ U).val.map g + (W \ U).val.map g := by
  rw [← Multiset.map_add, ← Finset.filter_mem_eq_inter, ← Finset.filter_notMem_eq_sdiff,
    Finset.filter_val, Finset.filter_val, Multiset.filter_add_not]

/-- `f` with an amount more on `W`. -/
def raise (f : ι → α) (W : Finset ι) (x : α) : ι → α := fun i => if i ∈ W then f i + x else f i

theorem map_raise_of_subset {V : Finset ι} (x : α) (h : V ⊆ W) :
    V.val.map (raise f W x) = (V.val.map f).map (· + x) := by
  rw [Multiset.map_map]
  exact Multiset.map_congr rfl fun _ hi => if_pos (h hi)

theorem map_raise_of_disjoint {V : Finset ι} (x : α) (h : Disjoint V W) :
    V.val.map (raise f W x) = V.val.map f :=
  Multiset.map_congr rfl fun _ hi => if_neg (Finset.disjoint_left.mp h hi)

end Raise

section Group

variable {α : Type*} [AddCommGroup α] [LinearOrder α] [IsOrderedAddMonoid α] {s t : Multiset α}

theorem count_map_add (s : Multiset α) (x v : α) : (s.map (· + x)).count v = s.count (v - x) := by
  rw [← Multiset.count_map_eq_count' (· + x) s (add_left_injective x), sub_add_cancel]

theorem below_map_add {x : α} (hx : 0 < x) (hs : s ≠ 0) : Below s (s.map (· + x)) := by
  obtain ⟨a, ha⟩ := Multiset.exists_mem_of_ne_zero hs
  have hne : s.toFinset.Nonempty := ⟨a, Multiset.mem_toFinset.mpr ha⟩
  have hleast : ∀ u < s.toFinset.min' hne, s.count u = 0 := fun u hu =>
    Multiset.count_eq_zero_of_notMem fun hmem =>
      (Finset.min'_le _ u (Multiset.mem_toFinset.mpr hmem)).not_gt hu
  refine ⟨s.toFinset.min' hne, fun u hu => ?_, ?_⟩
  · rw [count_map_add, hleast u hu, hleast _ ((sub_lt_self u hx).trans hu)]
  · rw [count_map_add, hleast _ (sub_lt_self _ hx)]
    exact Multiset.count_pos.mpr (Multiset.mem_toFinset.mp (Finset.min'_mem _ hne))

theorem below_map_neg {x : α} (hx : 0 < x) (hs : s ≠ 0) : Below (s.map (· + -x)) s := by
  have hbelow := below_map_add hx (mt Multiset.map_eq_zero.mp hs : s.map (· + -x) ≠ 0)
  rw [Multiset.map_map] at hbelow
  simpa only [Function.comp_def, neg_add_cancel_right, Multiset.map_id'] using hbelow

/-- An amount that is taken from the larger one and given to the smaller one lifts both together. -/
theorem below_exchange {x : α} (hx : 0 < x) (h : Below s t) :
    Below (s + t.map (· + x)) (t + s.map (· + x)) := by
  obtain ⟨v, hv, hlt⟩ := h
  refine ⟨v, fun u hu => ?_, ?_⟩
  · rw [Multiset.count_add, Multiset.count_add, count_map_add, count_map_add, hv u hu,
      hv _ ((sub_lt_self u hx).trans hu)]
  · rw [Multiset.count_add, Multiset.count_add, count_map_add, count_map_add,
      hv _ (sub_lt_self v hx)]
    omega

/-- To raise `U` rather than `W` leaves more where `U` is not above `W`, not even with the values on
`W` a little lower. -/
theorem below_raise {ι : Type*} [DecidableEq ι] [Fintype ι] {f : ι → α} {W U : Finset ι} {x y : α}
    (hx : 0 < x) (hy : 0 < y) (hcard : W.card = U.card) (hne : W ≠ U)
    (hchoice : ¬Below (W.val.map (raise f W (-y))) (U.val.map (raise f W (-y)))) :
    Below (Finset.univ.val.map (raise f W x)) (Finset.univ.val.map (raise f U x)) := by
  have hsizes : (W \ U).card = (U \ W).card := Finset.card_sdiff_comm hcard
  have hnonempty : (W \ U).val.map f ≠ 0 := by
    intro h0
    have hempty : W \ U = ∅ := Finset.val_eq_zero.mp (Multiset.map_eq_zero.mp h0)
    exact hne (Finset.eq_of_subset_of_card_le (Finset.sdiff_eq_empty_iff_subset.mp hempty) hcard.ge)
  -- what both windows have does not count
  have hbelow : Below ((U \ W).val.map f) ((W \ U).val.map f) := by
    have hlow : Below (((W \ U).val.map f).map (· + -y)) ((W \ U).val.map f) :=
      below_map_neg hy hnonempty
    rw [map_split _ W U, map_split _ U W, Finset.inter_comm U W, below_add_iff,
      map_raise_of_subset _ Finset.sdiff_subset, map_raise_of_disjoint _ Finset.sdiff_disjoint]
      at hchoice
    rcases eq_or_below_of_not_below (by simp only [Multiset.card_map, Finset.card_val, hsizes])
      hchoice with heq | hlt
    · rwa [heq]
    · exact below_trans hlt hlow
  -- and neither does what is in none of them
  have hrest : ∀ g : ι → α, Finset.univ.val.map g =
      (Finset.univ \ (W \ U ∪ U \ W)).val.map g +
        ((W \ U).val.map g + (U \ W).val.map g) := by
    intro g
    have hunion : (W \ U ∪ U \ W).val.map g =
        (W \ U).val.map g + (U \ W).val.map g := by
      rw [map_split g _ (W \ U), Finset.union_inter_cancel_left, Finset.union_sdiff_cancel_left]
      exact disjoint_sdiff_sdiff
    rw [map_split g Finset.univ (W \ U ∪ U \ W), Finset.univ_inter, hunion, add_comm]
  have hsame : (Finset.univ \ (W \ U ∪ U \ W)).val.map (raise f W x) =
      (Finset.univ \ (W \ U ∪ U \ W)).val.map (raise f U x) := by
    refine Multiset.map_congr rfl fun i hi => if_congr ?_ rfl rfl
    have hout := (Finset.mem_sdiff.mp hi).2
    simp only [Finset.mem_union, Finset.mem_sdiff] at hout
    tauto
  rw [hrest, hrest (raise f U x), hsame, below_add_iff, map_raise_of_subset _ Finset.sdiff_subset,
    map_raise_of_disjoint _ Finset.sdiff_disjoint, map_raise_of_disjoint _ Finset.sdiff_disjoint,
    map_raise_of_subset _ Finset.sdiff_subset, add_comm]
  exact below_exchange hx hbelow

end Group

end Leximin
