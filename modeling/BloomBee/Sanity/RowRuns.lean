import BloomBee.Spec.LiveDecode

/-! The runs of `_active_position_row_runs` take the active rows apart in order
(`rowRuns_activeRowPositions`) and no two of them can be joined (`rowRuns_separated`): they are the
maximal ones (`mem_runs_iff`). -/

set_option autoImplicit false

namespace BloomBee.LiveDecode

/-! ### The active rows -/

def activeRowPositions : ℕ → List (Bool × ℕ) → List (ℕ × ℕ)
  | _, [] => []
  | index, (true, position) :: rows => (index, position) :: activeRowPositions (index + 1) rows
  | index, (false, _) :: rows => activeRowPositions (index + 1) rows

theorem mem_activeRowPositions {rows : List (Bool × ℕ)} {index row position : ℕ} :
    (row, position) ∈ activeRowPositions index rows ↔
      index ≤ row ∧ rows[row - index]? = some (true, position) := by
  induction rows generalizing index with
  | nil => simp [activeRowPositions]
  | cons head rows ih =>
    obtain ⟨active, headPosition⟩ := head
    -- a row behind the head
    have hbehind : index + 1 ≤ row →
        ((active, headPosition) :: rows)[row - index]? = rows[row - (index + 1)]? := fun hle => by
      rw [show row - index = row - (index + 1) + 1 by omega, List.getElem?_cons_succ]
    rcases Nat.lt_or_ge index row with hlt | hle
    · rw [hbehind hlt]
      cases active
      · rw [activeRowPositions, ih]
        exact ⟨fun h => ⟨Nat.le_of_lt hlt, h.2⟩, fun h => ⟨hlt, h.2⟩⟩
      · have hne : (row, position) ≠ (index, headPosition) := fun h =>
          Nat.ne_of_gt hlt (congrArg Prod.fst h)
        rw [activeRowPositions, List.mem_cons, ih]
        exact ⟨fun h => ⟨Nat.le_of_lt hlt, (h.resolve_left hne).2⟩, fun h => .inr ⟨hlt, h.2⟩⟩
    · have hnot : ¬(row, position) ∈ activeRowPositions (index + 1) rows := fun h => by
        have := (ih.mp h).1
        omega
      rw [show row - index = 0 by omega, List.getElem?_cons_zero]
      cases active
      · rw [activeRowPositions]
        exact ⟨fun h => absurd h hnot, by rintro ⟨-, ⟨⟩⟩⟩
      · rw [activeRowPositions, List.mem_cons, or_iff_left hnot]
        constructor
        · rintro ⟨⟩
          exact ⟨Nat.le_refl _, rfl⟩
        · rintro ⟨hge, ⟨⟩⟩
          rw [Nat.le_antisymm hle hge]

theorem activeRowPositions_sorted (index : ℕ) (rows : List (Bool × ℕ)) :
    (activeRowPositions index rows).Pairwise fun r r' => r.1 < r'.1 := by
  fun_induction activeRowPositions index rows with
  | case1 index => exact .nil
  | case2 index position rows ih =>
    exact List.pairwise_cons.mpr ⟨fun r hr => (mem_activeRowPositions.mp hr).1, ih⟩
  | case3 index position rows ih => exact ih

/-! ### The rows of the runs -/

def rowsOfRun (q : ℕ × ℕ × ℕ) : List (ℕ × ℕ) :=
  (List.range' q.1 (q.2.1 - q.1)).map fun row => (row, q.2.2)

theorem mem_rowsOfRun {q : ℕ × ℕ × ℕ} {row position : ℕ} :
    (row, position) ∈ rowsOfRun q ↔ q.1 ≤ row ∧ row < q.2.1 ∧ position = q.2.2 := by
  simp only [rowsOfRun, List.mem_map, List.mem_range'_1, Prod.mk.injEq]
  constructor
  · rintro ⟨r, ⟨hle, hlt⟩, rfl, rfl⟩
    exact ⟨hle, by omega, rfl⟩
  · rintro ⟨hle, hlt, rfl⟩
    exact ⟨row, ⟨hle, by omega⟩, rfl, rfl⟩

theorem rowsOfRun_succ {start stop position : ℕ} (h : start ≤ stop) :
    rowsOfRun (start, stop + 1, position) =
      rowsOfRun (start, stop, position) ++ [(stop, position)] := by
  simp only [rowsOfRun]
  rw [show stop + 1 - start = stop - start + 1 by omega, List.range'_1_concat, List.map_append,
    Nat.add_sub_cancel' h]
  rfl

def openRows (index : ℕ) (run : Option (ℕ × ℕ)) : List (ℕ × ℕ) :=
  run.elim [] fun r => rowsOfRun (r.1, index, r.2)

theorem openRows_first (index position : ℕ) :
    openRows (index + 1) (some (index, position)) = [(index, position)] := by
  simp [openRows, rowsOfRun]

/-- The rows of all runs are the open rows and then the active ones. -/
theorem rowRuns_activeRowPositions {index : ℕ} {run : Option (ℕ × ℕ)} {rows : List (Bool × ℕ)}
    (hrun : ∀ r, run = some r → r.1 < index) :
    (rowRuns index run rows).flatMap rowsOfRun =
      openRows index run ++ activeRowPositions index rows := by
  fun_induction rowRuns index run rows with
  | case1 index => rfl
  | case2 index start position =>
    rw [List.flatMap_singleton, activeRowPositions, List.append_nil]
    rfl
  | case3 index position rows ih =>
    rw [ih (by rintro r ⟨⟩; exact Nat.lt_succ_self index), openRows_first]
    rfl
  | case4 index position rows ih => exact ih (by rintro r ⟨⟩)
  | case5 index start startPosition position rows hne ih =>
    rw [List.flatMap_cons, ih (by rintro r ⟨⟩; exact Nat.lt_succ_self index), openRows_first]
    rfl
  | case6 index start startPosition position rows heq ih =>
    have hlt : start < index := hrun _ rfl
    obtain rfl : position = startPosition := not_not.mp heq
    rw [ih (by rintro r ⟨⟩; exact Nat.lt_succ_of_lt hlt), activeRowPositions]
    simp only [openRows, Option.elim_some]
    rw [rowsOfRun_succ (Nat.le_of_lt hlt), List.append_assoc]
    rfl
  | case7 index start startPosition position rows ih =>
    rw [List.flatMap_cons, ih (by rintro r ⟨⟩)]
    rfl

theorem activePositionRowRuns_activeRowPositions (mask : List Bool) (positions : List ℕ) :
    (activePositionRowRuns mask positions).flatMap rowsOfRun =
      activeRowPositions 0 (mask.zip positions) :=
  rowRuns_activeRowPositions (by rintro r ⟨⟩)

/-- A run has rows, and they are rows of the submission. -/
theorem rowRuns_bounds {index : ℕ} {run : Option (ℕ × ℕ)} {rows : List (Bool × ℕ)}
    (hrun : ∀ p, run = some p → p.1 < index) {q : ℕ × ℕ × ℕ} (hq : q ∈ rowRuns index run rows) :
    q.1 < q.2.1 ∧ q.2.1 ≤ index + rows.length := by
  fun_induction rowRuns index run rows with
  | case1 index => cases hq
  | case2 index start position =>
    rw [List.mem_singleton] at hq
    subst hq
    exact ⟨hrun _ rfl, Nat.le_refl _⟩
  | case3 index position rows ih =>
    have := ih (by rintro p ⟨⟩; exact Nat.lt_succ_self index) hq
    rw [List.length_cons]
    omega
  | case4 index position rows ih =>
    have := ih (by rintro p ⟨⟩) hq
    rw [List.length_cons]
    omega
  | case5 index start startPosition position rows hne ih =>
    rw [List.length_cons]
    rcases List.mem_cons.mp hq with rfl | hq
    · exact ⟨hrun _ rfl, Nat.le_add_right _ _⟩
    · have := ih (by rintro p ⟨⟩; exact Nat.lt_succ_self index) hq
      omega
  | case6 index start startPosition position rows heq ih =>
    have := ih (by rintro p ⟨⟩; exact Nat.lt_succ_of_lt (hrun _ rfl)) hq
    rw [List.length_cons]
    omega
  | case7 index start startPosition position rows ih =>
    rw [List.length_cons]
    rcases List.mem_cons.mp hq with rfl | hq
    · exact ⟨hrun _ rfl, Nat.le_add_right _ _⟩
    · have := ih (by rintro p ⟨⟩) hq
      omega

/-! ### Runs that cannot be joined -/

/-- A run is the open one, or begins with a row that is still to come. -/
theorem rowRuns_start {index : ℕ} {run : Option (ℕ × ℕ)} {rows : List (Bool × ℕ)}
    {q : ℕ × ℕ × ℕ} (hq : q ∈ rowRuns index run rows) :
    run = some (q.1, q.2.2) ∨ index ≤ q.1 := by
  fun_induction rowRuns index run rows with
  | case1 index => cases hq
  | case2 index start position =>
    rw [List.mem_singleton] at hq
    exact .inl (by rw [hq])
  | case3 index position rows ih =>
    rcases ih hq with h | h
    · exact .inr (Nat.le_of_eq (congrArg Prod.fst (Option.some.inj h)))
    · exact .inr (Nat.le_of_succ_le h)
  | case4 index position rows ih =>
    exact .inr (Nat.le_of_succ_le ((ih hq).resolve_left (Option.some_ne_none _).symm))
  | case5 index start startPosition position rows hne ih =>
    rcases List.mem_cons.mp hq with rfl | hq
    · exact .inl rfl
    · rcases ih hq with h | h
      · exact .inr (Nat.le_of_eq (congrArg Prod.fst (Option.some.inj h)))
      · exact .inr (Nat.le_of_succ_le h)
  | case6 index start startPosition position rows heq ih =>
    exact (ih hq).imp_right Nat.le_of_succ_le
  | case7 index start startPosition position rows ih =>
    rcases List.mem_cons.mp hq with rfl | hq
    · exact .inl rfl
    · exact .inr (Nat.le_of_succ_le ((ih hq).resolve_left (Option.some_ne_none _).symm))

/-- The first run ends before the second begins, or where it begins with another position. -/
def Separated (q q' : ℕ × ℕ × ℕ) : Prop :=
  q.2.1 < q'.1 ∨ q.2.1 = q'.1 ∧ q.2.2 ≠ q'.2.2

theorem rowRuns_separated (index : ℕ) (run : Option (ℕ × ℕ)) (rows : List (Bool × ℕ)) :
    (rowRuns index run rows).Pairwise Separated := by
  fun_induction rowRuns index run rows with
  | case1 index => exact .nil
  | case2 index start position => exact List.pairwise_singleton _ _
  | case3 index position rows ih => exact ih
  | case4 index position rows ih => exact ih
  | case5 index start startPosition position rows hne ih =>
    refine List.pairwise_cons.mpr ⟨fun q hq => ?_, ih⟩
    rcases rowRuns_start hq with h | h
    · cases h
      exact .inr ⟨rfl, hne.symm⟩
    · exact .inl h
  | case6 index start startPosition position rows heq ih => exact ih
  | case7 index start startPosition position rows ih =>
    refine List.pairwise_cons.mpr ⟨fun q hq => .inl ?_, ih⟩
    exact (rowRuns_start hq).resolve_left (Option.some_ne_none _).symm

/-! ### What the runs are -/

/-- The runs are disjoint increasing intervals of rows, their union is the active rows, a run has
one position, and no two of them are a longer run. -/
structure RunsExact (mask : List Bool) (positions : List ℕ) (runs : List (ℕ × ℕ × ℕ)) :
    Prop where
  bounds : ∀ q ∈ runs, q.1 < q.2.1 ∧ q.2.1 ≤ mask.length
  increasing : runs.Pairwise fun q q' => q.2.1 ≤ q'.1
  covers : ∀ row, mask[row]? = some true ↔ ∃ q ∈ runs, q.1 ≤ row ∧ row < q.2.1
  constant : ∀ q ∈ runs, ∀ row, q.1 ≤ row → row < q.2.1 → positions[row]? = some q.2.2
  notJoinable : ∀ q ∈ runs, ∀ q' ∈ runs, q.2.1 = q'.1 → q.2.2 ≠ q'.2.2

section Runs

variable {mask : List Bool} {positions : List ℕ}

theorem mem_zip {row position : ℕ} : (row, position) ∈ activeRowPositions 0 (mask.zip positions) ↔
    mask[row]? = some true ∧ positions[row]? = some position := by
  rw [mem_activeRowPositions, and_iff_right (Nat.zero_le _), Nat.sub_zero,
    List.getElem?_zip_eq_some]

theorem separated_runs (mask : List Bool) (positions : List ℕ) :
    (activePositionRowRuns mask positions).Pairwise Separated :=
  rowRuns_separated 0 none (mask.zip positions)

theorem runs_increasing (mask : List Bool) (positions : List ℕ) :
    (activePositionRowRuns mask positions).Pairwise fun q q' => q.2.1 ≤ q'.1 :=
  (separated_runs mask positions).imp fun h =>
    h.elim Nat.le_of_lt fun h => Nat.le_of_eq h.1

theorem separated_or {q q' : ℕ × ℕ × ℕ} (hq : q ∈ activePositionRowRuns mask positions)
    (hq' : q' ∈ activePositionRowRuns mask positions) :
    q = q' ∨ Separated q q' ∨ Separated q' q := by
  have hruns := separated_runs mask positions
  exact List.Pairwise.forall_of_forall_of_flip (R := fun q q' =>
    q = q' ∨ Separated q q' ∨ Separated q' q) (fun _ _ => .inl rfl)
    (hruns.imp fun h => .inr (.inl h)) (hruns.imp fun h => .inr (.inr h)) hq hq'

theorem mem_runs {row position : ℕ} :
    (∃ q ∈ activePositionRowRuns mask positions, q.1 ≤ row ∧ row < q.2.1 ∧ position = q.2.2) ↔
      mask[row]? = some true ∧ positions[row]? = some position := by
  rw [← mem_zip, ← activePositionRowRuns_activeRowPositions, List.mem_flatMap]
  exact exists_congr fun q => and_congr_right fun _ => mem_rowsOfRun.symm

/-- A run has rows of the submission, and its position is that of an active row. -/
theorem mem_activePositionRowRuns {q : ℕ × ℕ × ℕ}
    (hq : q ∈ activePositionRowRuns mask positions) :
    (true, q.2.2) ∈ mask.zip positions ∧ q.1 < q.2.1 ∧ q.2.1 ≤ mask.length := by
  have hbounds := rowRuns_bounds (by rintro r ⟨⟩) hq
  rw [List.length_zip] at hbounds
  have hrow := mem_runs.mp ⟨q, hq, Nat.le_refl _, hbounds.1, rfl⟩
  exact ⟨List.mem_of_getElem? (List.getElem?_zip_eq_some.mpr hrow), hbounds.1, by omega⟩

theorem runsExact (hlen : mask.length = positions.length) :
    RunsExact mask positions (activePositionRowRuns mask positions) where
  bounds q hq := (mem_activePositionRowRuns hq).2
  increasing := runs_increasing mask positions
  covers row := by
    constructor
    · intro hactive
      obtain ⟨hlt, -⟩ := List.getElem?_eq_some_iff.mp hactive
      obtain ⟨q, hq, hle, hlt, -⟩ := mem_runs.mpr
        ⟨hactive, List.getElem?_eq_getElem (hlen ▸ hlt)⟩
      exact ⟨q, hq, hle, hlt⟩
    · rintro ⟨q, hq, hle, hlt⟩
      exact (mem_runs.mp ⟨q, hq, hle, hlt, rfl⟩).1
  constant q hq row hle hlt := (mem_runs.mp ⟨q, hq, hle, hlt, rfl⟩).2
  notJoinable q hq q' hq' hadjacent := by
    have hbounds := (mem_activePositionRowRuns hq).2
    have hbounds' := (mem_activePositionRowRuns hq').2
    rcases separated_or hq hq' with rfl | (h | h) | h | h
    · omega
    · omega
    · exact h.2
    · omega
    · omega

/-- The rows from `start` to `stop` are active at the position, and neither neighbour is. -/
structure IsRun (mask : List Bool) (positions : List ℕ) (start stop position : ℕ) : Prop where
  lt : start < stop
  rows : ∀ row, start ≤ row → row < stop →
    mask[row]? = some true ∧ positions[row]? = some position
  before : ∀ row, row + 1 = start → ¬(mask[row]? = some true ∧ positions[row]? = some position)
  after : ¬(mask[stop]? = some true ∧ positions[stop]? = some position)

theorem mem_runs_iff {q : ℕ × ℕ × ℕ} :
    q ∈ activePositionRowRuns mask positions ↔ IsRun mask positions q.1 q.2.1 q.2.2 := by
  constructor
  · intro hq
    have hbounds := (mem_activePositionRowRuns hq).2
    -- a row next to the run is in another one
    have hnext {row : ℕ} (hrow : mask[row]? = some true ∧ positions[row]? = some q.2.2)
        (hout : row + 1 = q.1 ∨ row = q.2.1) : False := by
      obtain ⟨q', hq', hle, hlt, hposition⟩ := mem_runs.mpr hrow
      rcases separated_or hq hq' with rfl | (h | h) | h | h
      · omega
      · omega
      · exact h.2 hposition
      · omega
      · exact h.2 hposition.symm
    exact ⟨hbounds.1, fun row hle hlt => mem_runs.mp ⟨q, hq, hle, hlt, rfl⟩,
      fun row hrow h => hnext h (.inl hrow), fun h => hnext h (.inr rfl)⟩
  · rintro ⟨hlt, hrows, hbefore, hafter⟩
    obtain ⟨q', hq', hle', hlt', hposition⟩ := mem_runs.mpr (hrows q.1 (Nat.le_refl _) hlt)
    have hinside {row : ℕ} (hle : q'.1 ≤ row) (hlt : row < q'.2.1) :
        mask[row]? = some true ∧ positions[row]? = some q.2.2 := by
      rw [hposition]
      exact mem_runs.mp ⟨q', hq', hle, hlt, rfl⟩
    have hstart : q'.1 = q.1 := by
      by_contra hne
      exact hbefore (q.1 - 1) (by omega) (hinside (by omega) (by omega))
    have hstop : q'.2.1 = q.2.1 := by
      rcases Nat.lt_trichotomy q'.2.1 q.2.1 with h | h | h
      · -- the row behind it would be in a run that is joinable
        obtain ⟨q'', hq'', hle'', hlt'', hposition'⟩ := mem_runs.mpr (hrows q'.2.1 (by omega) h)
        rcases separated_or hq' hq'' with rfl | (h | h) | h | h
        · omega
        · omega
        · exact absurd (hposition.symm.trans hposition') h.2
        · omega
        · omega
      · exact h
      · exact absurd (hinside (by omega) h) hafter
    rwa [show q = q' from Prod.ext hstart.symm (Prod.ext hstop.symm hposition)]

end Runs

end BloomBee.LiveDecode
