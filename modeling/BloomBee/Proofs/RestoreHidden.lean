import BloomBee.Lib.Fallible
import BloomBee.Spec.RestoreHidden
import Mathlib.Algebra.GroupWithZero.Nat
import Mathlib.Data.List.GetD

/-! Restoring undoes packing. Packing and restoring walk the same list of positions, the valid
entries row by row, and padding adds no entry to it. -/

set_option autoImplicit false

namespace BloomBee.RestoreHidden

open Fallible RpcInference

variable {V : Type}

/-! ### Positions -/

theorem validOfRow_pad (row : List ℤ) (n : ℕ) :
    validOfRow (row ++ List.replicate n (-1)) = validOfRow row := by
  rw [validOfRow, List.filter_append, List.filter_replicate, if_neg (by decide), List.append_nil,
    validOfRow]

theorem mem_validOfRow {row : List ℤ} {p : ℕ} : p ∈ validOfRow row ↔ (p : ℤ) ∈ row := by
  simp only [validOfRow, List.mem_map, List.mem_filter, decide_eq_true_eq]
  constructor
  · rintro ⟨q, ⟨hq, hpos⟩, rfl⟩
    rwa [Int.toNat_of_nonneg hpos]
  · exact fun hp => ⟨p, ⟨hp, Int.natCast_nonneg p⟩, Int.toNat_natCast p⟩

theorem validIndices_congr {rows rows' : List (List ℤ)} (b : ℕ)
    (h : rows'.map validOfRow = rows.map validOfRow) :
    validIndices b rows' = validIndices b rows := by
  induction rows generalizing rows' b with
  | nil =>
    rw [List.map_eq_nil_iff.mp h]
  | cons row rows ih =>
    obtain ⟨row', rows'', rfl, hrow, hrows⟩ := List.map_eq_cons_iff.mp h
    rw [validIndices, validIndices, hrow, ih (b + 1) hrows]

theorem validIndices_length (b : ℕ) (rows : List (List ℤ)) :
    (validIndices b rows).length = validCount rows := by
  induction rows generalizing b with
  | nil => rfl
  | cons row rows ih =>
    rw [validIndices, List.length_append, ih, validCount, validCount, List.flatten_cons,
      List.countP_append, List.length_map, validOfRow, List.length_map,
      ← List.countP_eq_length_filter]

theorem mem_validIndices {b : ℕ} {rows : List (List ℤ)} {i : ℕ × ℕ} :
    i ∈ validIndices b rows ↔
      ∃ j row, rows[j]? = some row ∧ i.1 = b + j ∧ i.2 ∈ validOfRow row := by
  induction rows generalizing b with
  | nil => simp [validIndices]
  | cons row rows ih =>
    rw [validIndices, List.mem_append, ih, List.mem_map]
    constructor
    · rintro (⟨p, hp, rfl⟩ | ⟨j, row', hrow, hi, hp⟩)
      · exact ⟨0, row, rfl, rfl, hp⟩
      · exact ⟨j + 1, row', hrow, by omega, hp⟩
    · rintro ⟨j, row', hrow, hi, hp⟩
      cases j with
      | zero =>
        obtain rfl := Option.some.inj hrow
        exact .inl ⟨i.2, hp, Prod.ext hi.symm rfl⟩
      | succ j => exact .inr ⟨j, row', hrow, by omega, hp⟩

/-- The merged keep indices have the valid entries of the parts. -/
theorem merged_validOfRow (keeps : List (Batch ℤ)) :
    (mergeMicrobatchOutputs (-1) keeps).rows.map validOfRow =
      (keeps.flatMap Batch.rows).map validOfRow := by
  simp only [mergeMicrobatchOutputs, List.map_flatMap, List.map_map]
  refine List.flatMap_congr fun b _ => List.map_congr_left fun row _ => ?_
  exact validOfRow_pad row _

/-! ### Packing -/

def vectorAt [Zero V] (hidden : List (List V)) (i : ℕ × ℕ) : V := (hidden.getD i.1 []).getD i.2 0

def keptOfRow [Zero V] (hidden : List V) (keep : List ℤ) : List V :=
  (validOfRow keep).map fun p => hidden.getD p 0

theorem map_validIndices [Zero V] (before : List (List V)) {hidden : List (List V)}
    {keep : List (List ℤ)} (hlen : keep.length = hidden.length) :
    (validIndices before.length keep).map (vectorAt (before ++ hidden)) =
      (hidden.zip keep).flatMap fun r => keptOfRow r.1 r.2 := by
  induction keep generalizing before hidden with
  | nil => rw [List.zip_nil_right]; rfl
  | cons k keep ih =>
    obtain ⟨h, hidden, rfl⟩ := List.exists_cons_of_length_eq_add_one hlen.symm
    have hrest := ih (before ++ [h]) (Nat.succ.inj hlen)
    rw [List.append_assoc, List.singleton_append, List.length_append, List.length_singleton]
      at hrest
    rw [validIndices, List.map_append, hrest, List.zip_cons_cons, List.flatMap_cons, List.map_map,
      keptOfRow]
    congr 1
    refine List.map_congr_left fun p _ => ?_
    simp [vectorAt]

/-- One micro-batch of a step: its hidden states in the last block, and what is kept of them. -/
structure MicroBatch (V : Type) (seqLen : ℕ) where
  hidden : Batch V
  keep : Batch ℤ
  hidden_width : hidden.width = seqLen
  keep_rows : keep.rows.length = hidden.rows.length
  inside : ∀ row ∈ keep.rows, ∀ p ∈ row, p < seqLen

def MicroBatch.packed [Zero V] {seqLen : ℕ} (m : MicroBatch V seqLen) : List V :=
  (m.hidden.rows.zip m.keep.rows).flatMap fun r => keptOfRow r.1 r.2

theorem flattenKept_eq [Zero V] {seqLen : ℕ} (m : MicroBatch V seqLen) :
    flattenKept m.hidden m.keep = .ok (unsqueeze m.packed) := by
  have hread : ∀ i ∈ validIndices 0 m.keep.rows,
      hiddenAt m.hidden.rows (if m.hidden.rows.length = 1 then 0 else i.1, i.2) =
        .ok (vectorAt m.hidden.rows i) := by
    intro i hi
    obtain ⟨j, row, hrow, hij, hp⟩ := mem_validIndices.mp hi
    obtain ⟨hj, rfl⟩ := List.getElem?_eq_some_iff.mp hrow
    have hb : i.1 < m.hidden.rows.length := by rw [← m.keep_rows]; omega
    have hp : i.2 < seqLen := by
      have := m.inside _ (List.getElem_mem hj) _ (mem_validOfRow.mp hp)
      omega
    have hidx : (if m.hidden.rows.length = 1 then 0 else i.1) = i.1 := by split_ifs <;> omega
    have hwidth : i.2 < (m.hidden.rows.get ⟨i.1, hb⟩).length := by
      rw [m.hidden.rows_width _ (List.get_mem _ _), m.hidden_width]
      exact hp
    rw [List.get_eq_getElem] at hwidth
    simp only [hiddenAt, hidx, List.getElem?_eq_getElem hb, List.getElem?_eq_getElem hwidth,
      vectorAt, List.getD_eq_getElem _ _ hb, List.getD_eq_getElem _ _ hwidth]
  have hall := mapM_eq_ok (f := fun i : ℕ × ℕ =>
    hiddenAt m.hidden.rows (if m.hidden.rows.length = 1 then 0 else i.1, i.2)) hread
  have hpacked := map_validIndices [] m.keep_rows
  rw [List.nil_append, List.length_nil] at hpacked
  rw [flattenKept, if_neg (fun h => h.1 m.keep_rows.symm)]
  simp only [hall, hpacked, ok_bind]
  rfl

/-! ### Merging -/

theorem merge_packed [Zero V] {seqLen : ℕ} {ms : List (MicroBatch V seqLen)} (hne : ms ≠ []) :
    mergeInferenceMicrobatchHiddenStates true true (ms.map fun m => unsqueeze m.packed) =
      .ok (some (unsqueeze (ms.flatMap MicroBatch.packed))) := by
  have hchunks : ∀ ms : List (MicroBatch V seqLen),
      (ms.map fun m => unsqueeze m.packed).mapM flattenedChunk =
        some (ms.map MicroBatch.packed) := by
    intro ms
    induction ms with
    | nil => rfl
    | cons m ms ih =>
      rw [List.map_cons, List.mapM_cons, ih]
      rfl
  rw [mergeInferenceMicrobatchHiddenStates, if_neg (by simpa using hne), if_neg (by simp), hchunks]
  rfl

theorem packed_flatMap [Zero V] {seqLen : ℕ} (ms : List (MicroBatch V seqLen)) :
    ms.flatMap MicroBatch.packed =
      ((ms.flatMap (·.hidden.rows)).zip (ms.flatMap (·.keep.rows))).flatMap
        fun r => keptOfRow r.1 r.2 := by
  induction ms with
  | nil => rfl
  | cons m ms ih =>
    rw [List.flatMap_cons, List.flatMap_cons, List.flatMap_cons, List.zip_append m.keep_rows.symm,
      List.flatMap_append, ih, MicroBatch.packed]

/-! ### Restoring -/

/-- The packed rows are found again, whatever shape the keep indices have. -/
theorem flatten_unsqueeze [DecidableEq V] [Zero V] {flat : List V} {keep : Batch ℤ}
    (h : flat.length = validCount keep.rows) :
    flattenHiddenWithKeepLayout
      { width := flat.length, rows := [flat], rows_width := by simp } keep = .ok flat := by
  simp only [flattenHiddenWithKeepLayout]
  by_cases hshape : [flat].length = keep.rows.length ∧ flat.length = keep.width
  · -- one row, of which every entry is valid
    rw [if_pos hshape]
    obtain ⟨k, hk⟩ := List.length_eq_one_iff.mp hshape.1.symm
    have hklen : k.length = flat.length := by
      rw [hshape.2, keep.rows_width k (by simp [hk])]
    have hall : ∀ p ∈ k, decide (0 ≤ p) = true := by
      rw [← List.countP_eq_length, hklen, h, validCount, hk, List.flatten_singleton]
    rw [hk, List.zip_cons_cons, List.zip_nil_left, List.flatMap_singleton,
      List.filter_eq_self.mpr fun r hr => hall r.2 (List.of_mem_zip hr).2,
      List.map_fst_zip (Nat.le_of_eq hklen.symm)]
  · rw [if_neg hshape, if_pos ⟨Nat.one_pos, Nat.mod_one _⟩]
    have hchunk : (keep.rows.drop (0 * (keep.rows.length / 1))).take (keep.rows.length / 1) =
        keep.rows := by
      rw [Nat.zero_mul, List.drop_zero, Nat.div_one, List.take_length]
    simp only [List.length_singleton, groupedRows, hchunk, ← h]
    split_ifs with h0 hlt
    · rw [List.eq_nil_of_length_eq_zero h0]
    · exact absurd hlt (Nat.lt_irrefl _)
    · rw [List.take_length, ok_bind, List.append_nil]
      rfl

/-- Rows that are all taken from one table are found where they are named. -/
theorem scatterRows_map (f : ℕ × ℕ → V) (indices : List (ℕ × ℕ)) (data : ℕ → ℕ → V) (b p : ℕ) :
    scatterRows data (indices.map fun i => (i, f i)) b p =
      if (b, p) ∈ indices then f (b, p) else data b p := by
  induction indices generalizing data with
  | nil => rfl
  | cons i indices ih =>
    refine (ih _).trans ?_
    by_cases hin : (b, p) ∈ indices
    · rw [if_pos hin, if_pos (List.mem_cons_of_mem _ hin)]
    · rw [if_neg hin]
      simp only
      by_cases hbp : (b, p) = i
      · rw [if_pos hbp, if_pos (List.mem_cons.mpr (.inl hbp)), hbp]
      · rw [if_neg hbp, if_neg (fun h => (List.mem_cons.mp h).elim hbp hin)]

/-- Restoring the packed rows of `hidden` puts each kept vector back. -/
theorem restoreRows_packed [DecidableEq V] [Zero V] {hidden : List (List V)} {keep : Batch ℤ}
    {seqLen : ℕ} (hlen : keep.rows.length = hidden.length)
    (hinside : ∀ i ∈ validIndices 0 keep.rows, i.2 < seqLen) :
    ∃ restored, restoreRows
        (unsqueeze ((validIndices 0 keep.rows).map (vectorAt hidden))) keep seqLen = .ok restored ∧
      restored.batch = hidden.length ∧ restored.seqLen = seqLen ∧
      ∀ b p, restored.data b p =
        if (b, p) ∈ validIndices 0 keep.rows then vectorAt hidden (b, p) else 0 := by
  have hcount : ((validIndices 0 keep.rows).map (vectorAt hidden)).length =
      validCount keep.rows := by
    rw [List.length_map, validIndices_length]
  refine ⟨⟨keep.rows.length, seqLen, scatterRows (fun _ _ => 0)
    ((validIndices 0 keep.rows).map fun i => (i, vectorAt hidden i))⟩, ?_, hlen, rfl,
    scatterRows_map _ _ _⟩
  simp only [restoreRows, unsqueeze, flatten_unsqueeze hcount, ok_bind]
  rw [if_neg (not_not.mpr (List.length_map _)), if_neg ?_, List.map_prod_left_eq_zip]
  · rfl
  · rintro ⟨i, hi, hle⟩
    exact absurd (hinside i hi) (Nat.not_lt.mpr hle)

theorem mem_validIndices_row {rows : List (List ℤ)} {b : ℕ} {keep : List ℤ}
    (h : rows[b]? = some keep) (p : ℕ) : (b, p) ∈ validIndices 0 rows ↔ (p : ℤ) ∈ keep := by
  rw [mem_validIndices, ← mem_validOfRow]
  constructor
  · rintro ⟨j, row, hrow, hj, hp⟩
    obtain rfl : b = j := by omega
    obtain rfl := Option.some.inj (h.symm.trans hrow)
    exact hp
  · exact fun hp => ⟨b, keep, h, by omega, hp⟩

theorem keepRows_length {seqLen : ℕ} (ms : List (MicroBatch V seqLen)) :
    (ms.flatMap (·.keep.rows)).length = (ms.flatMap (·.hidden.rows)).length := by
  induction ms with
  | nil => rfl
  | cons m ms ih =>
    rw [List.flatMap_cons, List.flatMap_cons, List.length_append, List.length_append, ih,
      m.keep_rows]

/-- Packing the kept rows of every micro-batch, merging the packed rows and the keep indices, and
restoring gives the kept vectors at their positions and zero everywhere else. The two restore
functions agree, also on what was not made so. -/
theorem restore_packed [DecidableEq V] [Zero V] {seqLen : ℕ} (first : MicroBatch V seqLen)
    (rest : List (MicroBatch V seqLen)) :
    (∃ outputs merged restored,
      (first :: rest).mapM (fun m => flattenKept m.hidden m.keep) = .ok outputs ∧
      mergeInferenceMicrobatchHiddenStates true true outputs = .ok (some merged) ∧
      restoreHiddenStates merged
        (mergeMicrobatchOutputs (-1) ((first :: rest).map MicroBatch.keep)) seqLen =
          .ok restored ∧
      restored.batch = ((first :: rest).flatMap (·.hidden.rows)).length ∧
      restored.seqLen = seqLen ∧
      ∀ b hidden keep, ((first :: rest).flatMap (·.hidden.rows))[b]? = some hidden →
        ((first :: rest).flatMap (·.keep.rows))[b]? = some keep →
        ∀ p v, hidden[p]? = some v →
          restored.data b p = if (p : ℤ) ∈ keep then v else 0) ∧
    ∀ (flattened : HiddenStates V) (keep : Batch ℤ) (originalSeqLen : ℕ),
      InferenceSession.restoreHiddenStates flattened keep originalSeqLen =
        restoreHiddenStates flattened keep originalSeqLen := by
  refine ⟨?_, fun _ _ _ => rfl⟩
  generalize hms : first :: rest = ms
  have hne : ms ≠ [] := by simp [← hms]
  have hvalid := validIndices_congr 0 (merged_validOfRow (ms.map MicroBatch.keep))
  rw [List.flatMap_map] at hvalid
  have hrows := keepRows_length ms
  have hmerged : (mergeMicrobatchOutputs (-1) (ms.map MicroBatch.keep)).rows.length =
      (ms.flatMap (·.hidden.rows)).length := by
    have hlen := congrArg List.length (merged_validOfRow (ms.map MicroBatch.keep))
    rwa [List.length_map, List.length_map, List.flatMap_map, hrows] at hlen
  have hinside : ∀ i ∈ validIndices 0 (mergeMicrobatchOutputs (-1) (ms.map MicroBatch.keep)).rows,
      i.2 < seqLen := by
    intro i hi
    rw [hvalid] at hi
    obtain ⟨j, row, hrow, -, hp⟩ := mem_validIndices.mp hi
    obtain ⟨m, -, hm⟩ := List.mem_flatMap.mp (List.mem_of_getElem? hrow)
    have := m.inside row hm _ (mem_validOfRow.mp hp)
    omega
  obtain ⟨restored, hrestored, hbatch, hseq, hdata⟩ := restoreRows_packed hmerged hinside
  have hpacked := map_validIndices [] hrows
  rw [List.nil_append, List.length_nil, ← packed_flatMap, ← hvalid] at hpacked
  refine ⟨_, _, restored, mapM_eq_ok fun m _ => flattenKept_eq m, merge_packed hne, ?_, hbatch,
    hseq, ?_⟩
  · rw [← hpacked]
    exact hrestored
  · intro b hidden keep hhidden hkeep p v hv
    have hmem := mem_validIndices_row hkeep p
    have hvec : vectorAt (ms.flatMap (·.hidden.rows)) (b, p) = v := by
      simp only [vectorAt, List.getD_eq_getElem?_getD, hhidden, hv, Option.getD_some]
    rw [hdata, hvalid, hvec]
    by_cases hp : (p : ℤ) ∈ keep
    · rw [if_pos (hmem.mpr hp), if_pos hp]
    · rw [if_neg (fun h => hp (hmem.mp h)), if_neg hp]

/-- Two rows, of which the second keeps one token of the two that the first keeps. -/
def twoRows : MicroBatch ℕ 3 where
  hidden := ⟨3, [[1, 2, 3], [4, 5, 6]], by decide⟩
  keep := ⟨2, [[0, 2], [1, -1]], by decide⟩
  hidden_width := rfl
  keep_rows := rfl
  inside := by decide

def oneRow : MicroBatch ℕ 3 where
  hidden := ⟨3, [[7, 8, 9]], by decide⟩
  keep := ⟨3, [[0, 1, 2]], by decide⟩
  hidden_width := rfl
  keep_rows := rfl
  inside := by decide

theorem restore_packed_ragged :
    ∃ outputs merged restored,
      [twoRows, oneRow].mapM (fun m => flattenKept m.hidden m.keep) = .ok outputs ∧
      mergeInferenceMicrobatchHiddenStates true true outputs = .ok (some merged) ∧
      restoreHiddenStates merged (mergeMicrobatchOutputs (-1) [twoRows.keep, oneRow.keep]) 3 =
        .ok restored ∧
      (restored.batch, restored.seqLen) = (3, 3) ∧
      (List.range 3).map (fun b => (List.range 3).map (restored.data b)) =
        [[1, 0, 3], [0, 5, 0], [7, 8, 9]] := by
  obtain ⟨⟨outputs, merged, restored, houtputs, hmerged, hrestored, hbatch, hseq, hdata⟩, -⟩ :=
    restore_packed twoRows [oneRow]
  refine ⟨outputs, merged, restored, houtputs, hmerged, hrestored, Prod.ext hbatch hseq, ?_⟩
  have hrow (b : ℕ) {hidden : List ℕ} {keep : List ℤ}
      (hhidden : [[1, 2, 3], [4, 5, 6], [7, 8, 9]][b]? = some hidden)
      (hkeep : [[0, 2], [1, -1], [0, 1, 2]][b]? = some keep) (p v : ℕ) (hv : hidden[p]? = some v) :
      restored.data b p = if (p : ℤ) ∈ keep then v else 0 :=
    hdata b hidden keep hhidden hkeep p v hv
  simp [List.range_succ, hrow 0 rfl rfl 0 1 rfl, hrow 0 rfl rfl 1 2 rfl, hrow 0 rfl rfl 2 3 rfl,
    hrow 1 rfl rfl 0 4 rfl, hrow 1 rfl rfl 1 5 rfl, hrow 1 rfl rfl 2 6 rfl,
    hrow 2 rfl rfl 0 7 rfl, hrow 2 rfl rfl 1 8 rfl, hrow 2 rfl rfl 2 9 rfl]

end BloomBee.RestoreHidden
