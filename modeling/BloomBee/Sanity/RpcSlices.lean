import BloomBee.Lib.Tiling
import BloomBee.Sanity.RpcRows

/-! A batch cut along its rows. Every slice gives the rows of the whole batch it stands for,
the slices of a tiling together change the cache as the whole batch does, and merging their
results gives the result of the whole batch. -/

set_option autoImplicit false

namespace BloomBee.RpcInference

variable {α τ κ σ : Type}

theorem Batch.slice_rows (b : Batch α) (r : ℕ × ℕ) :
    (b.slice r.1 r.2).rows = (b.rows.drop r.1).take (r.2 - r.1) := rfl

theorem Batch.slice_length {b : Batch α} {r : ℕ × ℕ} (h : r.2 ≤ b.rows.length) :
    (b.slice r.1 r.2).rows.length = r.2 - r.1 := by
  rw [Batch.slice_rows, List.length_take, List.length_drop]
  omega

theorem Batch.getElem?_slice (b : Batch α) (r : ℕ × ℕ) (i : ℕ) :
    (b.slice r.1 r.2).rows[i]? = if i < r.2 - r.1 then b.rows[r.1 + i]? else none := by
  rw [Batch.slice_rows, List.getElem?_take, List.getElem?_drop]

theorem Batch.numel_slice_ne_zero {b : Batch α} {r : ℕ × ℕ} (h : r.2 ≤ b.rows.length) :
    (b.slice r.1 r.2).numel ≠ 0 ↔ r.1 < r.2 ∧ 0 < b.width := by
  rw [Batch.numel, Batch.slice_length h, Nat.mul_ne_zero_iff]
  simp only [Batch.slice]
  omega

/-- The keep indices of a batch that has as many rows of them as of tokens. -/
theorem keepAfter_eq {blocks : ℕ} {hidden : Batch τ} {keep : Batch ℤ}
    (hrows : keep.rows.length = hidden.rows.length) (hn : hidden.numel ≠ 0) :
    keepAfter blocks hidden keep =
      if blocks = 0 ∨ keep.numel ≠ 0 then keep
      else defaultKeep hidden.rows.length hidden.width := by
  have hnorm : ∀ k : Batch ℤ, k.rows.length = hidden.rows.length → k.numel ≠ 0 →
      normalizeKeepIndices hidden.rows.length hidden.width k = k := by
    intro k hk hne
    rw [normalizeKeepIndices, if_neg hne, dif_neg (by omega), if_pos hk]
  have hdef : (defaultKeep hidden.rows.length hidden.width).numel ≠ 0 := by
    simpa [Batch.numel, defaultKeep] using hn
  have hlen : (defaultKeep hidden.rows.length hidden.width).rows.length = hidden.rows.length := by
    simp [defaultKeep]
  have hfirst : normalizeKeepIndices hidden.rows.length hidden.width keep =
      if keep.numel ≠ 0 then keep else defaultKeep hidden.rows.length hidden.width := by
    split_ifs with h
    · exact hnorm keep hrows h
    · rw [normalizeKeepIndices, if_pos (not_not.mp h)]
  cases blocks with
  | zero => simp [keepAfter]
  | succ n =>
    have hiter : (normalizeKeepIndices hidden.rows.length hidden.width)^[n]
        (normalizeKeepIndices hidden.rows.length hidden.width keep) =
        normalizeKeepIndices hidden.rows.length hidden.width keep := by
      refine Function.iterate_fixed ?_ n
      rw [hfirst]
      split_ifs with h
      · exact hnorm keep hrows h
      · exact hnorm _ hlen hdef
    rw [keepAfter]
    simp only [Function.iterate_succ_apply, hiter]
    rw [hfirst]
    simp

theorem keepAfter_length {blocks : ℕ} {hidden : Batch τ} {keep : Batch ℤ}
    (hrows : keep.rows.length = hidden.rows.length) (hn : hidden.numel ≠ 0) :
    (keepAfter blocks hidden keep).rows.length = hidden.rows.length := by
  rw [keepAfter_eq hrows hn]
  split_ifs
  · exact hrows
  · simp [defaultKeep]

theorem keepAfter_slice {blocks : ℕ} {hidden : Batch τ} {keep : Batch ℤ} {r : ℕ × ℕ}
    (hrows : keep.rows.length = hidden.rows.length) (hr : r.2 ≤ hidden.rows.length)
    (hn : (hidden.slice r.1 r.2).numel ≠ 0) :
    keepAfter blocks (hidden.slice r.1 r.2) (keep.slice r.1 r.2) =
      (keepAfter blocks hidden keep).slice r.1 r.2 := by
  obtain ⟨hlt, hw⟩ := (Batch.numel_slice_ne_zero hr).mp hn
  have hr' : r.2 ≤ keep.rows.length := hrows ▸ hr
  have hne : hidden.numel ≠ 0 := Nat.mul_ne_zero (by omega) (by omega)
  have hkeep : (keep.slice r.1 r.2).numel ≠ 0 ↔ keep.numel ≠ 0 := by
    rw [Batch.numel_slice_ne_zero hr', Batch.numel, Nat.mul_ne_zero_iff]
    omega
  have hlen : (keep.slice r.1 r.2).rows.length = (hidden.slice r.1 r.2).rows.length := by
    rw [Batch.slice_length hr, Batch.slice_length hr']
  rw [keepAfter_eq hlen hn, keepAfter_eq hrows hne]
  simp only [hkeep]
  split_ifs
  · rfl
  · refine Batch.ext' rfl ?_
    rw [Batch.slice_length hr]
    simp only [defaultKeep, Batch.slice, List.drop_replicate, List.take_replicate]
    rw [show min (r.2 - r.1) (hidden.rows.length - r.1) = r.2 - r.1 by omega]

theorem outBatch_slice (bs : List (Backend τ κ)) (prefixLength : ℕ) (hidden : Batch τ)
    (r : ℕ × ℕ) :
    outBatch bs prefixLength r.1 (hidden.slice r.1 r.2) =
      (outBatch bs prefixLength 0 hidden).slice r.1 r.2 := by
  refine Batch.ext' rfl (List.ext_getElem? fun i => ?_)
  rw [Batch.getElem?_slice]
  simp only [outBatch, List.getElem?_mapIdx]
  rw [Batch.getElem?_slice]
  split_ifs
  · simp only [Nat.zero_add]
  · rfl

theorem outBatch_slice_of_numel {bs : List (Backend τ κ)} {prefixLength : ℕ} {hidden : Batch τ}
    {r : ℕ × ℕ} (h : (hidden.slice r.1 r.2).numel = 0) :
    (outBatch bs prefixLength 0 hidden).slice r.1 r.2 = hidden.slice r.1 r.2 := by
  rw [← outBatch_slice]
  refine Batch.ext' rfl (List.ext_getElem? fun i => ?_)
  simp only [outBatch, List.getElem?_mapIdx]
  cases hi : (hidden.slice r.1 r.2).rows[i]? with
  | none => rfl
  | some xs =>
    -- there is a row, so rows have no entries
    have hmem := List.mem_of_getElem? hi
    have hpos : 0 < (hidden.slice r.1 r.2).rows.length := List.length_pos_of_mem hmem
    have hw : (hidden.slice r.1 r.2).width = 0 := by
      rcases Nat.mul_eq_zero.mp h with h | h
      · omega
      · exact h
    have hxs : xs = [] := List.length_eq_zero_iff.mp ((Batch.rows_width _ xs hmem).trans hw)
    have hout := outRow_length prefixLength (r.1 + i) bs xs
    rw [hxs] at hout ⊢
    rw [Option.map_some, List.length_eq_zero_iff.mp hout]

def rowsIn (hidden : Batch τ) (ranges : List (ℕ × ℕ)) (b : ℕ) : Option (List τ) :=
  if 0 < hidden.width ∧ ∃ r ∈ ranges, r.1 ≤ b ∧ b < r.2 then hidden.rows[b]? else none

theorem rowsIn_nil (hidden : Batch τ) : rowsIn hidden [] = fun _ => none := by
  funext b
  simp [rowsIn]

theorem rowsIn_perm {hidden : Batch τ} {ranges ranges' : List (ℕ × ℕ)}
    (h : ranges.Perm ranges') : rowsIn hidden ranges = rowsIn hidden ranges' := by
  funext b
  simp only [rowsIn, h.mem_iff]

theorem rowsAt_slice {hidden : Batch τ} {r : ℕ × ℕ} (hw : 0 < hidden.width) :
    rowsAt r.1 (hidden.slice r.1 r.2) = rowsIn hidden [r] := by
  funext b
  simp only [rowsAt, rowsIn, Batch.getElem?_slice, List.mem_singleton, exists_eq_left, hw, true_and]
  by_cases h : r.1 ≤ b ∧ b < r.2
  · rw [if_pos h.1, if_pos (by omega), if_pos h, show r.1 + (b - r.1) = b by omega]
  · rw [if_neg h]
    split_ifs
    · omega
    · rfl
    · rfl

theorem rowsIn_cons (hidden : Batch τ) (r : ℕ × ℕ) (ranges : List (ℕ × ℕ)) :
    rowsIn hidden (r :: ranges) =
      fun b => (rowsIn hidden [r] b).or (rowsIn hidden ranges b) := by
  funext b
  simp only [rowsIn, List.mem_cons, List.not_mem_nil, or_false,
    exists_eq_or_imp, exists_eq_left, and_or_left]
  by_cases h₁ : 0 < hidden.width ∧ r.1 ≤ b ∧ b < r.2
  · rw [if_pos (.inl h₁), if_pos h₁]
    cases hb : hidden.rows[b]? with
    | none => split_ifs <;> rfl
    | some xs => rfl
  · rw [if_neg h₁, Option.none_or]
    simp only [h₁, false_or]

theorem rowsIn_disjoint {hidden : Batch τ} {r : ℕ × ℕ} {ranges : List (ℕ × ℕ)}
    (h : ∀ q ∈ ranges, r.2 ≤ q.1 ∨ q.2 ≤ r.1) (b : ℕ) :
    rowsIn hidden [r] b = none ∨ rowsIn hidden ranges b = none := by
  by_cases h₁ : r.1 ≤ b ∧ b < r.2
  · right
    rw [rowsIn, if_neg]
    rintro ⟨-, q, hq, hqb⟩
    rcases h q hq with h | h <;> omega
  · left
    simp [rowsIn, h₁]

theorem rowsIn_of_numel {hidden : Batch τ} {ranges : List (ℕ × ℕ)} (hn : hidden.numel = 0) :
    rowsIn hidden ranges = fun _ => none := by
  funext b
  rw [rowsIn]
  split_ifs with h
  · -- there are tokens, so there is no row
    refine List.getElem?_eq_none ?_
    rcases Nat.mul_eq_zero.mp hn with hrows | hwidth
    · omega
    · omega
  · rfl

def sliceResult (bs : List (Backend τ κ)) (prefixLength : ℕ) (hidden : Batch τ)
    (keep : Batch ℤ) (r : ℕ × ℕ) : Batch τ × Batch ℤ :=
  ((outBatch bs prefixLength 0 hidden).slice r.1 r.2,
    if (hidden.slice r.1 r.2).numel = 0 then keep.slice r.1 r.2
    else (keepAfter bs.length hidden keep).slice r.1 r.2)

/-- A slice after some others: the result is that of its own rows in the first cache. -/
theorem computeMicroBatch_slice {bs : List (Backend τ κ)} {prefixLength : ℕ} {hidden : Batch τ}
    {keep : Batch ℤ} {r : ℕ × ℕ} {ranges : List (ℕ × ℕ)}
    (hroom : Roomy bs (prefixLength + hidden.width) hidden.rows.length)
    (hone : SingleChunk bs prefixLength (hidden.slice r.1 r.2))
    (hkeep : keep.rows.length = hidden.rows.length) (hle : r.1 ≤ r.2)
    (hr : r.2 ≤ hidden.rows.length) (hdisj : ∀ q ∈ ranges, r.2 ≤ q.1 ∨ q.2 ≤ r.1) :
    computeMicroBatch (passRows prefixLength bs (rowsIn hidden ranges)) prefixLength r.1
        (hidden.slice r.1 r.2) (keep.slice r.1 r.2) =
      .ok (sliceResult bs prefixLength hidden keep r,
        passRows prefixLength bs (rowsIn hidden (r :: ranges))) := by
  rw [computeMicroBatch]
  split_ifs with hn
  · -- nothing is computed, and the slice has no rows with tokens
    have hrows : rowsIn hidden (r :: ranges) = rowsIn hidden ranges := by
      rw [rowsIn_cons]
      funext b
      have hnone : rowsIn hidden [r] b = none := by
        rw [rowsIn, if_neg]
        rintro ⟨hw, q, hq, hqb⟩
        rw [List.mem_singleton.mp hq] at hqb
        exact (Batch.numel_slice_ne_zero hr).mpr ⟨by omega, hw⟩ hn
      rw [hnone, Option.none_or]
    rw [sliceResult, if_pos hn, outBatch_slice_of_numel hn, hrows]
  · obtain ⟨hlt, hw⟩ := (Batch.numel_slice_ne_zero hr).mp hn
    have hroom' : Roomy (passRows prefixLength bs (rowsIn hidden ranges))
        (prefixLength + (hidden.slice r.1 r.2).width)
        (r.1 + (hidden.slice r.1 r.2).rows.length) := by
      intro B hB
      obtain ⟨h₁, h₂⟩ := roomy_passRows hroom _ B hB
      rw [Batch.slice_length hr]
      exact ⟨h₁, by omega⟩
    have hout : outBatch (passRows prefixLength bs (rowsIn hidden ranges)) prefixLength r.1
        (hidden.slice r.1 r.2) = (outBatch bs prefixLength 0 hidden).slice r.1 r.2 := by
      rw [← outBatch_slice]
      refine Batch.ext' rfl (List.ext_getElem? fun i => ?_)
      simp only [outBatch, List.getElem?_mapIdx, Batch.getElem?_slice]
      split_ifs with hi
      · congr 1
        funext xs
        refine outRow_passRows bs ?_ xs
        rcases rowsIn_disjoint hdisj (r.1 + i) with h | h
        · -- the row lies in the slice, so it must be past the end of the batch
          rw [rowsIn, if_pos ⟨hw, r, List.mem_singleton_self r, by omega, by omega⟩] at h
          rw [rowsIn, h, ite_self]
        · exact h
      · rfl
    have hw' : 0 < (hidden.slice r.1 r.2).width := hw
    have hone' :=
      hone.of_chunkConfig (passRows_chunkConfig prefixLength bs (rowsIn hidden ranges)) hn
    rw [submitTask, runBackends_of_fits hw' hone' hroom', rowsAt_slice hw,
      passRows_passRows bs (rowsIn_disjoint hdisj), ← rowsIn_cons]
    simp only [bind, Except.bind, pure, Except.pure, passRows_length,
      keepAfter_slice hkeep hr hn, hout]
    rw [sliceResult, if_neg hn]

/-- Merging batches of one width that carry the rows of `whole`. -/
theorem merge_eq {pad : α} {outputs : List (Batch α)} {whole : Batch α}
    (hle : ∀ b ∈ outputs, b.width ≤ whole.width)
    (hex : ∃ b ∈ outputs, b.width = whole.width)
    (heq : ∀ b ∈ outputs, b.rows ≠ [] → b.width = whole.width)
    (hrows : outputs.flatMap Batch.rows = whole.rows) :
    mergeMicrobatchOutputs pad outputs = whole := by
  have hmax : maxWidth outputs = whole.width := by
    refine Nat.le_antisymm ?_ ?_
    · clear hex heq hrows
      induction outputs with
      | nil => exact Nat.zero_le _
      | cons b rest ih =>
        exact Nat.max_le.mpr ⟨hle b List.mem_cons_self,
          ih fun b' hb' => hle b' (List.mem_cons_of_mem _ hb')⟩
    · obtain ⟨b, hb, hw⟩ := hex
      exact hw ▸ width_le_maxWidth hb
  refine Batch.ext' hmax ?_
  rw [← hrows]
  simp only [mergeMicrobatchOutputs, hmax]
  refine List.flatMap_congr fun b hb => ?_
  by_cases hb' : b.rows = []
  · rw [hb', List.map_nil]
  · rw [heq b hb hb', Nat.sub_self]
    simp

theorem merge_slices {pad : α} {whole : Batch α} {ranges : List (ℕ × ℕ)}
    (ht : Tiles 0 whole.rows.length ranges) (hne : ranges ≠ []) :
    mergeMicrobatchOutputs pad (ranges.map fun r => whole.slice r.1 r.2) = whole := by
  have hwidth : ∀ b ∈ ranges.map fun r => whole.slice r.1 r.2, b.width = whole.width := by
    intro b hb
    obtain ⟨r, -, rfl⟩ := List.mem_map.mp hb
    rfl
  obtain ⟨r, rest, rfl⟩ := List.exists_cons_of_ne_nil hne
  refine merge_eq (fun b hb => Nat.le_of_eq (hwidth b hb)) ?_ (fun b hb _ => hwidth b hb) ?_
  · exact ⟨whole.slice r.1 r.2, List.mem_map_of_mem List.mem_cons_self, rfl⟩
  · rw [List.flatMap_map]
    simpa [Batch.slice_rows] using ht.flatMap_slice whole.rows

def outKeep (blocks : ℕ) (hidden : Batch τ) (keep : Batch ℤ) : Batch ℤ :=
  if hidden.numel = 0 then keep else keepAfter blocks hidden keep

/-- The keep indices of slices along a tiling merge to those of the whole batch. -/
theorem merge_keep {bs : List (Backend τ κ)} {prefixLength : ℕ} {hidden : Batch τ}
    {keep : Batch ℤ} {ranges : List (ℕ × ℕ)} (hkeep : keep.rows.length = hidden.rows.length)
    (ht : Tiles 0 hidden.rows.length ranges) (hne : ranges ≠ []) :
    mergeMicrobatchOutputs (-1)
        (ranges.map fun r => (sliceResult bs prefixLength hidden keep r).2) =
      outKeep bs.length hidden keep := by
  by_cases hn : hidden.numel = 0
  · -- no slice has entries either
    have hall : ∀ r ∈ ranges,
        (sliceResult bs prefixLength hidden keep r).2 = keep.slice r.1 r.2 := by
      intro r hr
      rw [sliceResult, if_pos]
      by_contra hns
      obtain ⟨hlt, hw⟩ := (Batch.numel_slice_ne_zero (ht.mem hr).2.2).mp hns
      have hle := (ht.mem hr).2.2
      exact Nat.mul_ne_zero (by omega) (by omega) hn
    rw [List.map_congr_left hall, outKeep, if_pos hn]
    exact merge_slices (hkeep ▸ ht) hne
  · obtain ⟨hB, hw⟩ := Nat.mul_ne_zero_iff.mp hn
    set K := keepAfter bs.length hidden keep with hK
    have hKw : keep.width ≤ K.width := by
      rw [hK, keepAfter_eq hkeep hn]
      split_ifs with h
      · exact Nat.le_refl _
      · have hzero : keep.numel = 0 := not_not.mp fun hne => h (.inr hne)
        have hkw : keep.width = 0 := by
          rcases Nat.mul_eq_zero.mp hzero with h | h
          · omega
          · exact h
        exact hkw ▸ Nat.zero_le _
    -- a slice with rows carries those of the whole batch, one without carries none
    have hslice : ∀ r ∈ ranges, r.1 < r.2 →
        (sliceResult bs prefixLength hidden keep r).2 = K.slice r.1 r.2 := by
      intro r hr hlt
      rw [sliceResult, if_neg]
      exact (Batch.numel_slice_ne_zero (ht.mem hr).2.2).mpr ⟨hlt, by omega⟩
    have hempty : ∀ r ∈ ranges, ¬r.1 < r.2 →
        (sliceResult bs prefixLength hidden keep r).2 = keep.slice r.1 r.2 ∧
        (keep.slice r.1 r.2).rows = [] := by
      intro r hr hlt
      have hle := ht.mem hr
      refine ⟨?_, ?_⟩
      · rw [sliceResult, if_pos]
        by_contra hns
        exact hlt ((Batch.numel_slice_ne_zero hle.2.2).mp hns).1
      · rw [Batch.slice_rows, show r.2 - r.1 = 0 by omega, List.take_zero]
    rw [outKeep, if_neg hn, ← hK]
    refine merge_eq ?_ ?_ ?_ ?_
    · intro b hb
      obtain ⟨r, hr, rfl⟩ := List.mem_map.mp hb
      by_cases hlt : r.1 < r.2
      · rw [hslice r hr hlt]
        exact Nat.le_refl _
      · rw [(hempty r hr hlt).1]
        exact hKw
    · obtain ⟨r, hr, h₁, h₂⟩ := ht.exists_of_lt (Nat.zero_le 0) (Nat.pos_of_ne_zero hB)
      exact ⟨_, List.mem_map_of_mem hr, by rw [hslice r hr (by omega)]; rfl⟩
    · intro b hb hrows
      obtain ⟨r, hr, rfl⟩ := List.mem_map.mp hb
      by_cases hlt : r.1 < r.2
      · rw [hslice r hr hlt]
        rfl
      · rw [(hempty r hr hlt).1] at hrows
        exact absurd (hempty r hr hlt).2 hrows
    · have hfm := ht.flatMap_slice K.rows
      rw [List.drop_zero, Nat.sub_zero, ← keepAfter_length hkeep hn, List.take_length] at hfm
      rw [List.flatMap_map, ← hfm]
      refine List.flatMap_congr fun r hr => ?_
      by_cases hlt : r.1 < r.2
      · rw [hslice r hr hlt, Batch.slice_rows]
      · rw [(hempty r hr hlt).1, (hempty r hr hlt).2, show r.2 - r.1 = 0 by omega, List.take_zero]

theorem runRanges_of_tiles {bs : List (Backend τ κ)} {prefixLength : ℕ} {hidden : Batch τ}
    {keep : Batch ℤ} {ranges done : List (ℕ × ℕ)} {start : ℕ} (hw : 0 < hidden.width)
    (hroom : Roomy bs (prefixLength + hidden.width) hidden.rows.length)
    (hone : ∀ r ∈ ranges, SingleChunk bs prefixLength (hidden.slice r.1 r.2))
    (hkeep : keep.rows.length = hidden.rows.length)
    (ht : Tiles start hidden.rows.length ranges) (hlt : ∀ r ∈ ranges, r.1 < r.2)
    (hdone : ∀ q ∈ done, q.2 ≤ start) :
    runRanges prefixLength hidden keep ranges (passRows prefixLength bs (rowsIn hidden done)) =
      .ok (ranges.map (sliceResult bs prefixLength hidden keep),
        passRows prefixLength bs (rowsIn hidden (ranges.reverse ++ done))) := by
  induction ranges generalizing start done with
  | nil => rfl
  | cons r ranges ih =>
    cases ht with
    | @cons _ stop _ _ hle t =>
      have hstop : stop ≤ hidden.rows.length := t.le
      have hne : (hidden.slice start stop).numel ≠ 0 :=
        (Batch.numel_slice_ne_zero (r := (start, stop)) hstop).mpr
          ⟨hlt _ List.mem_cons_self, hw⟩
      have hslice := computeMicroBatch_slice (r := (start, stop)) hroom
        (hone _ List.mem_cons_self) hkeep hle hstop fun q hq => .inr (hdone q hq)
      rw [computeMicroBatch, if_neg hne] at hslice
      have hrest := @ih ((start, stop) :: done) stop
        (fun q hq => hone q (List.mem_cons_of_mem _ hq)) t
        (fun q hq => hlt q (List.mem_cons_of_mem _ hq)) ?_
      · rw [runRanges]
        simp only [hkeep, if_true, bind, Except.bind, hslice, hrest, pure, Except.pure,
          List.map_cons, List.reverse_cons, List.append_assoc, List.singleton_append]
      · intro q hq
        rcases List.mem_cons.mp hq with rfl | hq
        · exact Nat.le_refl _
        · exact Nat.le_trans (hdone q hq) hle

theorem tiles_rangesFrom {microBatchSize batchSize fuel start : ℕ} (hm : 0 < microBatchSize)
    (hs : start ≤ batchSize) (hf : batchSize - start ≤ fuel) :
    Tiles start batchSize (rangesFrom microBatchSize batchSize fuel start) ∧
      ∀ r ∈ rangesFrom microBatchSize batchSize fuel start, r.1 < r.2 := by
  induction fuel generalizing start with
  | zero =>
    obtain rfl : start = batchSize := by omega
    exact ⟨.nil start, by simp [rangesFrom]⟩
  | succ fuel ih =>
    rw [rangesFrom]
    split_ifs with h
    · obtain ⟨ht, hlt⟩ := @ih (min (start + microBatchSize) batchSize) (by omega) (by omega)
      refine ⟨.cons (by omega) ht, ?_⟩
      intro r hr
      rcases List.mem_cons.mp hr with rfl | hr
      · simp only
        omega
      · exact hlt r hr
    · obtain rfl : start = batchSize := by omega
      exact ⟨.nil start, by simp⟩

theorem tiles_computeMicroBatchRanges {microBatchSize batchSize : ℕ} (hm : 0 < microBatchSize)
    (hb : 0 < batchSize) :
    Tiles 0 batchSize (computeMicroBatchRanges microBatchSize batchSize) ∧
      ∀ r ∈ computeMicroBatchRanges microBatchSize batchSize, r.1 < r.2 := by
  rw [computeMicroBatchRanges, if_neg (by omega), if_neg (by omega)]
  exact tiles_rangesFrom hm (Nat.zero_le _) (by omega)

theorem rowsIn_tiles {hidden : Batch τ} {ranges : List (ℕ × ℕ)}
    (ht : Tiles 0 hidden.rows.length ranges) :
    rowsIn hidden ranges = rowsIn hidden [(0, hidden.rows.length)] := by
  funext b
  by_cases hb : b < hidden.rows.length
  · have hex := ht.exists_of_lt (Nat.zero_le b) hb
    simp only [rowsIn, hex, List.mem_singleton, exists_eq_left, Nat.zero_le, hb, and_true]
  · have hnone : hidden.rows[b]? = none := List.getElem?_eq_none (by omega)
    simp only [rowsIn, hnone, ite_self]

def submittedRanges (cfg : Config) (batchSize : ℕ) : List (ℕ × ℕ) :=
  if shouldSplitBatch cfg batchSize then
    computeMicroBatchRanges (cfg.microBatchSize.getD 0) batchSize
  else [(0, batchSize)]

theorem Batch.slice_whole (b : Batch α) {n : ℕ} (hn : n = b.rows.length) : b.slice 0 n = b := by
  refine Batch.ext' rfl ?_
  simp [Batch.slice, hn]

variable [Inhabited τ]

/-- The full-batch path, locally split or not, on a batch that fits. -/
theorem computeFull_of_fits {cfg : Config} {bs : List (Backend τ κ)} {prefixLength : ℕ}
    {r : FullRequest σ τ}
    (hroom : Roomy bs (prefixLength + r.hidden.width) r.hidden.rows.length)
    (hone : ∀ q ∈ submittedRanges cfg r.hidden.rows.length,
      SingleChunk bs prefixLength (r.hidden.slice q.1 q.2))
    (hkeep : r.keepIndices.rows.length = r.hidden.rows.length) (hoff : r.batchOffset = 0) :
    computeFull cfg bs prefixLength r =
      .ok ((outBatch bs prefixLength 0 r.hidden, outKeep bs.length r.hidden r.keepIndices),
        passRows prefixLength bs (rowsIn r.hidden [(0, r.hidden.rows.length)])) := by
  have hres : sliceResult bs prefixLength r.hidden r.keepIndices (0, r.hidden.rows.length) =
      (outBatch bs prefixLength 0 r.hidden, outKeep bs.length r.hidden r.keepIndices) := by
    have hout : (outBatch bs prefixLength 0 r.hidden).rows.length = r.hidden.rows.length := by
      simp [outBatch]
    simp only [sliceResult, outKeep, Batch.slice_whole _ hout.symm, Batch.slice_whole r.hidden rfl,
      Batch.slice_whole r.keepIndices hkeep.symm]
    split_ifs with hn
    · rfl
    · rw [Batch.slice_whole _ (keepAfter_length hkeep hn).symm]
  rw [computeFull]
  split_ifs with hn hs
  · rw [outKeep, if_pos hn, rowsIn_of_numel hn, passRows_none]
    have hempty := @outBatch_slice_of_numel τ κ bs prefixLength r.hidden (0, r.hidden.rows.length)
    simp only [Batch.slice_whole r.hidden rfl] at hempty
    rw [Batch.slice_whole _ (by simp [outBatch])] at hempty
    rw [hempty hn]
  · obtain ⟨hB, hw⟩ := Nat.mul_ne_zero_iff.mp hn
    rw [submittedRanges, if_pos hs] at hone
    obtain ⟨m, hm, hpos⟩ : ∃ m, cfg.microBatchSize = some m ∧ 0 < m := by
      rw [shouldSplitBatch] at hs
      cases hc : cfg.microBatchSize with
      | none => simp [hc] at hs
      | some m => exact ⟨m, rfl, by simp [hc] at hs; exact hs.1⟩
    rw [hm, Option.getD_some] at hone
    obtain ⟨ht, hlt⟩ := tiles_computeMicroBatchRanges hpos (Nat.pos_of_ne_zero hB)
    have hrun := runRanges_of_tiles (Nat.pos_of_ne_zero hw) hroom hone hkeep ht hlt
      fun q (hq : q ∈ ([] : List (ℕ × ℕ))) => (List.not_mem_nil hq).elim
    rw [rowsIn_nil, passRows_none, List.append_nil,
      rowsIn_perm (List.reverse_perm _), rowsIn_tiles ht] at hrun
    have hne : computeMicroBatchRanges m r.hidden.rows.length ≠ [] := by
      obtain ⟨q, hq, -⟩ := ht.exists_of_lt (Nat.zero_le 0) (Nat.pos_of_ne_zero hB)
      exact List.ne_nil_of_mem hq
    have hout : Tiles 0 (outBatch bs prefixLength 0 r.hidden).rows.length
        (computeMicroBatchRanges m r.hidden.rows.length) := by
      simpa [outBatch] using ht
    simp only [hm, Option.getD_some, bind, Except.bind, hrun, pure, Except.pure, List.map_map]
    congr 3
    · exact merge_slices hout hne
    · exact merge_keep hkeep ht hne
  · rw [submittedRanges, if_neg hs] at hone
    have hslice := computeMicroBatch_slice (r := (0, r.hidden.rows.length)) hroom
      (hone _ List.mem_cons_self) hkeep (Nat.zero_le _) (Nat.le_refl _)
      fun q (hq : q ∈ ([] : List (ℕ × ℕ))) => (List.not_mem_nil hq).elim
    simp only [rowsIn_nil, passRows_none, Batch.slice_whole r.hidden rfl,
      Batch.slice_whole r.keepIndices hkeep.symm] at hslice
    rw [hres, computeMicroBatch, if_neg hn] at hslice
    rw [hoff]
    exact hslice

end BloomBee.RpcInference
