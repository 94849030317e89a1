import Mathlib.Data.List.GetD
import Mathlib.Tactic.SplitIfs
import Mathlib.Tactic.ByContra

/-! Extended slices of lists: `xs[start::step]`, and the assignment of a list to such a
slice. -/

namespace Strided

variable {α : Type*} {xs ys src : List α} {start step : ℕ}

/-- `xs[start::step]`. -/
def lane (xs : List α) (start step : ℕ) : List α :=
  (List.range xs.length).filterMap fun i => xs[start + i * step]?

/-- `xs[start::step] = src`, which needs a list of the slice's length. -/
def setLane (xs : List α) (start step : ℕ) (src : List α) : Option (List α) :=
  if src.length = (lane xs start step).length then
    some (xs.mapIdx fun j x =>
      if start ≤ j ∧ (j - start) % step = 0 then src.getD ((j - start) / step) x else x)
  else none

/-- Filtering a range by a function that stays undefined once it is undefined. -/
theorem getElem?_filterMap_range {f : ℕ → Option α} (hf : ∀ i j, i ≤ j → f i = none → f j = none)
    (n i : ℕ) : ((List.range n).filterMap f)[i]? = if i < n then f i else none := by
  induction n generalizing i with
  | zero => simp
  | succ n ih =>
    rw [List.range_succ, List.filterMap_append]
    cases hn : f n with
    | none =>
      simp only [List.filterMap_cons, hn, List.filterMap_nil, List.append_nil, ih]
      by_cases hi : i = n
      · subst hi; simp [hn]
      · simp only [show i < n + 1 ↔ i < n by omega]
    | some y =>
      -- everything before `n` is defined, so the filtered list has `n` entries
      have hlen : ((List.range n).filterMap f).length = n := by
        apply Nat.le_antisymm
        · exact List.getElem?_eq_none_iff.mp (by simp [ih])
        · rcases Nat.eq_zero_or_pos n with h0 | hpos
          · omega
          · have hlast : ((List.range n).filterMap f)[n - 1]? ≠ none := by
              rw [ih, if_pos (by omega)]
              intro hnone
              rw [hf (n - 1) n (by omega) hnone] at hn
              cases hn
            have := List.getElem?_eq_none_iff.not.mp hlast
            omega
      simp only [List.filterMap_cons, hn, List.filterMap_nil]
      rcases Nat.lt_trichotomy i n with hlt | heq | hgt
      · rw [List.getElem?_append_left (by omega), ih, if_pos hlt, if_pos (by omega)]
      · subst heq
        rw [List.getElem?_append_right (by omega), hlen, if_pos (by omega), hn]
        simp
      · rw [if_neg (by omega)]
        exact List.getElem?_eq_none_iff.mpr (by simp [hlen]; omega)

theorem getElem?_lane (hs : 0 < step) (i : ℕ) : (lane xs start step)[i]? = xs[start + i * step]? := by
  have hmono : ∀ i j, i ≤ j → xs[start + i * step]? = none → xs[start + j * step]? = none := by
    intro i j hij hi
    have := Nat.mul_le_mul_right step hij
    rw [List.getElem?_eq_none_iff] at hi ⊢
    omega
  rw [lane, getElem?_filterMap_range hmono]
  split_ifs with h
  · rfl
  · have := Nat.le_mul_of_pos_right i hs
    rw [List.getElem?_eq_none (by omega)]

theorem lt_lane_length (hs : 0 < step) {i : ℕ} :
    i < (lane xs start step).length ↔ start + i * step < xs.length := by
  rw [← not_iff_not, Nat.not_lt, Nat.not_lt, ← List.getElem?_eq_none_iff, getElem?_lane hs,
    List.getElem?_eq_none_iff]

/-- A list of `m` rows of `step` entries has `m` entries in each lane. -/
theorem lane_length {m : ℕ} (hst : start < step) (hlen : xs.length = m * step) :
    (lane xs start step).length = m := by
  have hs : 0 < step := by omega
  apply Nat.le_antisymm
  · by_contra hlt
    have := (lt_lane_length hs).mp (Nat.lt_of_not_le hlt)
    omega
  · by_contra hlt
    have hm : ¬start + (lane xs start step).length * step < xs.length :=
      (lt_lane_length hs).not.mp (Nat.lt_irrefl _)
    have hrow := Nat.mul_le_mul_right step (Nat.succ_le_of_lt (Nat.lt_of_not_le hlt))
    rw [Nat.succ_mul] at hrow
    omega

theorem setLane_isSome (h : src.length = (lane xs start step).length) :
    ∃ ys, setLane xs start step src = some ys := by
  rw [setLane, if_pos h]
  exact ⟨_, rfl⟩

/-- What an assignment to a slice writes and what it keeps. -/
theorem setLane_spec (hs : 0 < step) (h : setLane xs start step src = some ys) :
    ys.length = xs.length ∧ (∀ k, ys[start + k * step]? = src[k]?) ∧
      ∀ j, ¬(start ≤ j ∧ (j - start) % step = 0) → ys[j]? = xs[j]? := by
  unfold setLane at h
  split_ifs at h with hlen
  obtain rfl := Option.some.inj h
  refine ⟨List.length_mapIdx, ?_, ?_⟩
  · intro k
    have hk : k < src.length ↔ start + k * step < xs.length := by rw [hlen, lt_lane_length hs]
    rw [List.getElem?_mapIdx]
    by_cases hlt : start + k * step < xs.length
    · rw [List.getElem?_eq_getElem hlt, Option.map_some,
        if_pos ⟨by omega, by rw [Nat.add_sub_cancel_left, Nat.mul_mod_left]⟩,
        Nat.add_sub_cancel_left, Nat.mul_div_cancel _ hs, List.getElem?_eq_getElem (hk.mpr hlt),
        List.getD_eq_getElem _ _ (hk.mpr hlt)]
    · rw [List.getElem?_eq_none (Nat.le_of_not_lt hlt),
        List.getElem?_eq_none (Nat.le_of_not_lt (hk.not.mpr hlt))]
      rfl
  · intro j hj
    rw [List.getElem?_mapIdx]
    cases xs[j]? with
    | none => rfl
    | some x => rw [Option.map_some, if_neg hj]

/-- An assignment to another lane of the same rows is not seen. -/
theorem getElem?_setLane_ne (h : setLane xs start step src = some ys) {r : ℕ} (hr : r < step)
    (hst : start < step) (hne : r ≠ start) (k : ℕ) : ys[r + k * step]? = xs[r + k * step]? := by
  apply (setLane_spec (by omega) h).2.2
  rintro ⟨hle, hmod⟩
  have hrow : (start + (r + k * step - start)) % step = start % step := by
    rw [Nat.add_mod, hmod, Nat.add_zero, Nat.mod_mod]
  rw [Nat.add_sub_cancel' hle, Nat.add_mul_mod_self_right, Nat.mod_eq_of_lt hr,
    Nat.mod_eq_of_lt hst] at hrow
  exact hne hrow

theorem ext_lanes (step : ℕ) (hs : 0 < step)
    (h : ∀ r < step, ∀ k, xs[r + k * step]? = ys[r + k * step]?) :
    xs = ys := by
  apply List.ext_getElem?
  intro j
  have := h (j % step) (Nat.mod_lt j hs) (j / step)
  rwa [Nat.mul_comm, Nat.mod_add_div] at this

end Strided
