import BloomBee.Sanity.RpcSlices
import BloomBee.Spec.MicrobatchOps
import Mathlib.Algebra.Ring.Int.Defs

/-! Cutting a batch into micro-batches and merging them undo each other, sender and receiver count
the same number of them, and a ragged merge misplaces nothing. -/

set_option autoImplicit false

namespace BloomBee.MicrobatchOps

open NDArray RpcInference

variable {α : Type} {env : Environ} {dim : ℕ}

theorem shouldSplitBatch_session (env : Environ) (maxLength batchSize : ℕ) :
    RpcInference.shouldSplitBatch
        ⟨maxLength, if env.flag then some env.getMicroBatchSize else none⟩ batchSize =
      shouldSplitBatch env batchSize := by
  rw [shouldSplitBatch, Environ.isMicrobatchEnabled]
  cases env.flag with
  | false => rfl
  | true =>
    rcases Nat.eq_zero_or_pos env.getMicroBatchSize with h0 | hm
    · simp [RpcInference.shouldSplitBatch, h0]
    · simp [RpcInference.shouldSplitBatch, hm, hm.ne']

/-! ### The ranges -/

theorem tiles_ranges (microBatchSize batchSize : ℕ) :
    Tiles 0 batchSize (computeMicroBatchRanges microBatchSize batchSize) ∧
      ∀ r ∈ computeMicroBatchRanges microBatchSize batchSize, r.1 < r.2 := by
  rcases Nat.eq_zero_or_pos batchSize with rfl | hb
  · exact ⟨.nil 0, fun r hr => absurd hr List.not_mem_nil⟩
  · rcases Nat.eq_zero_or_pos microBatchSize with rfl | hm
    · rw [computeMicroBatchRanges, if_neg (by omega), if_pos rfl]
      exact ⟨.singleton (by omega), List.forall_mem_singleton.2 hb⟩
    · exact tiles_computeMicroBatchRanges hm hb

/-- The loop makes one range for each micro-batch size of rows that is begun. -/
theorem length_rangesFrom {microBatchSize batchSize fuel start : ℕ} (hm : 0 < microBatchSize)
    (hf : batchSize - start ≤ fuel) :
    (rangesFrom microBatchSize batchSize fuel start).length =
      (batchSize - start + microBatchSize - 1) / microBatchSize := by
  induction fuel generalizing start with
  | zero =>
    have hnone : batchSize - start + microBatchSize - 1 < microBatchSize := by omega
    rw [rangesFrom, List.length_nil, Nat.div_eq_of_lt hnone]
  | succ fuel ih =>
    rw [rangesFrom]
    split_ifs with hlt
    · have hleft : batchSize - min (start + microBatchSize) batchSize ≤ fuel := by omega
      have hrest := ih hleft
      have hstep : batchSize - start + microBatchSize - 1 =
          batchSize - start - 1 + microBatchSize := by omega
      rw [List.length_cons, hrest, hstep, Nat.add_div_right _ hm]
      congr 1
      by_cases hfull : start + microBatchSize ≤ batchSize
      · congr 1
        omega
      · rw [Nat.div_eq_of_lt (by omega), Nat.div_eq_of_lt (by omega)]
    · have hnone : batchSize - start + microBatchSize - 1 < microBatchSize := by omega
      rw [List.length_nil, Nat.div_eq_of_lt hnone]

/-- The receiver waits for as many micro-batches as the sender makes. -/
theorem length_ranges (env : Environ) {batchSize : ℕ} (hb : 0 < batchSize) :
    ((computeMicroBatchRanges env.getMicroBatchSize batchSize).length : ℤ) =
      resolveExpectedNumMicrobatches env batchSize .none .none := by
  have hresolve : resolveExpectedNumMicrobatches env batchSize .none .none =
      if (env.getMicroBatchSize : ℤ) > 0 then
        max 1 (((batchSize : ℤ) + env.getMicroBatchSize - 1) / env.getMicroBatchSize)
      else 1 := rfl
  rw [hresolve]
  rcases Nat.eq_zero_or_pos env.getMicroBatchSize with h0 | hm
  · rw [h0, computeMicroBatchRanges, if_neg (by omega), if_pos rfl]
    rfl
  · have hcount : 1 ≤ (batchSize + env.getMicroBatchSize - 1) / env.getMicroBatchSize :=
      (Nat.le_div_iff_mul_le hm).2 (by omega)
    have hcast : ((batchSize : ℤ) + env.getMicroBatchSize - 1) / env.getMicroBatchSize =
        (((batchSize + env.getMicroBatchSize - 1) / env.getMicroBatchSize : ℕ) : ℤ) := by
      rw [Int.natCast_ediv, Int.natCast_sub (by omega), Int.natCast_add, Int.natCast_one]
    rw [if_pos (by omega), hcast, computeMicroBatchRanges, if_neg (by omega), if_neg (by omega),
      length_rangesFrom hm (by omega), Nat.sub_zero]
    omega

/-! ### Split and merge -/

theorem chunk_eq {t : NDArray α} (hd : dim < t.shape.length) {r : ℕ × ℕ} (hle : r.1 ≤ r.2)
    (hr : r.2 ≤ t.size dim) :
    chunk t dim r.1 r.2 = .ok (some (t.restrict dim r.1 (r.2 - r.1) hd)) := by
  have hslice : t.slice dim r.1 r.2 = some (t.restrict dim r.1 (r.2 - r.1) hd) := dif_pos hd
  rw [chunk]
  by_cases h0 : dim = 0
  · subst h0
    simp only [if_pos, hslice]
  · by_cases h1 : dim = 1
    · subst h1
      simp only [if_neg h0, if_pos, hslice]
    · have hnarrow : t.narrow dim r.1 (r.2 - r.1) = some (t.restrict dim r.1 (r.2 - r.1) hd) := by
        rw [narrow, dif_pos hd, if_pos (by omega)]
      simp only [if_neg h0, if_neg h1, hnarrow]

theorem mapM_chunk {t : NDArray α} (hd : dim < t.shape.length) (rs : List (ℕ × ℕ))
    (hrs : ∀ r ∈ rs, r.1 ≤ r.2 ∧ r.2 ≤ t.size dim) :
    (rs.mapM fun r => chunk t dim r.1 r.2) =
      .ok ((rs.map fun r => t.restrict dim r.1 (r.2 - r.1) hd).map some) := by
  induction rs with
  | nil => rfl
  | cons r rs ih =>
    obtain ⟨hle, hr⟩ := hrs r List.mem_cons_self
    rw [List.mapM_cons, chunk_eq hd hle hr, ih fun q hq => hrs q (List.mem_cons_of_mem r hq)]
    rfl

/-- Outputs that `cat` takes are merged by it. -/
theorem mergeMicrobatchOutputs_of_cat [Zero α] {outputs : List (NDArray α)} {merged : NDArray α}
    (hcat : NDArray.cat dim outputs = some merged) :
    mergeMicrobatchOutputs (outputs.map some) dim = .ok (some merged) := by
  rcases outputs with _ | ⟨first, _ | ⟨second, rest⟩⟩
  · cases hcat
  · rw [cat_singleton first (catable_of_cat hcat).1] at hcat
    rw [← Option.some.inj hcat]
    rfl
  · have hvalid : ((first :: second :: rest).map some).reduceOption = first :: second :: rest :=
      calc ((first :: second :: rest).map some).reduceOption
          = (first :: second :: rest).filterMap (id ∘ some) := List.filterMap_map
        _ = first :: second :: rest := List.filterMap_some
    simp only [mergeMicrobatchOutputs, List.map_cons] at hvalid ⊢
    rw [hvalid]
    simp only [mergeValid, if_pos (catable_of_cat hcat).2, cat, hcat]

theorem merge_split [Zero α] (env : Environ) (t : NDArray α) (hd : dim < t.shape.length) :
    ∃ chunks, splitTensorToMicrobatches env (some t) dim = .ok chunks ∧
      mergeMicrobatchOutputs chunks dim = .ok (some t) := by
  have hget : t.shape[dim]? = some (t.size dim) := by
    rw [NDArray.size, List.getD_eq_getElem _ _ hd, List.getElem?_eq_getElem hd]
  by_cases hsplit : shouldSplitBatch env (t.size dim) = false
  · refine ⟨[some t], ?_, rfl⟩
    simp only [splitTensorToMicrobatches, hget, if_pos hsplit]
  · obtain ⟨htiles, hlt⟩ := tiles_ranges env.getMicroBatchSize (t.size dim)
    have hrs : ∀ r ∈ computeMicroBatchRanges env.getMicroBatchSize (t.size dim),
        r.1 ≤ r.2 ∧ r.2 ≤ t.size dim := fun r hr => ⟨(hlt r hr).le, (htiles.mem hr).2.2⟩
    have hne : computeMicroBatchRanges env.getMicroBatchSize (t.size dim) ≠ [] := by
      intro hnil
      rw [hnil] at htiles
      have h0 : t.size dim = 0 := (Tiles.stop_unique htiles (.nil 0))
      exact hsplit (by rw [h0, shouldSplitBatch]; split_ifs <;> rfl)
    have hchunks : splitTensorToMicrobatches env (some t) dim =
        .ok (((computeMicroBatchRanges env.getMicroBatchSize (t.size dim)).map fun r =>
          t.restrict dim r.1 (r.2 - r.1) hd).map some) := by
      simp only [splitTensorToMicrobatches, hget, if_neg hsplit]
      exact mapM_chunk hd _ hrs
    exact ⟨_, hchunks, mergeMicrobatchOutputs_of_cat (cat_slices t hd htiles hne)⟩

/-! ### Ragged outputs -/

/-- `max_shape` at the end of its loop. -/
theorem foldl_maxWith (rest : List (NDArray α)) (acc : List ℕ) :
    (rest.foldl (fun maxShape out => maxWith dim maxShape out.shape) acc).length = acc.length ∧
    ∀ axis < acc.length, axis ≠ dim →
      let m := (rest.foldl (fun maxShape out => maxWith dim maxShape out.shape) acc).getD axis 0
      acc.getD axis 0 ≤ m ∧ (∀ out ∈ rest, out.size axis ≤ m) ∧
        (acc.getD axis 0 = m ∨ ∃ out ∈ rest, out.size axis = m) := by
  induction rest generalizing acc with
  | nil => exact ⟨rfl, fun axis _ _ => ⟨le_rfl, fun out hout => absurd hout List.not_mem_nil, .inl rfl⟩⟩
  | cons out rest ih =>
    have hlen : (maxWith dim acc out.shape).length = acc.length := List.length_mapIdx
    obtain ⟨hrlen, hrest⟩ := ih (maxWith dim acc out.shape)
    refine ⟨hrlen.trans hlen, fun axis haxis hne => ?_⟩
    obtain ⟨hacc, hall, hex⟩ := hrest axis (hlen ▸ haxis) hne
    have hmax : (maxWith dim acc out.shape).getD axis 0 = max (acc.getD axis 0) (out.size axis) := by
      rw [List.getD_eq_getElem _ _ (hlen ▸ haxis), List.getD_eq_getElem _ _ haxis, NDArray.size]
      simp only [maxWith, List.getElem_mapIdx, if_neg hne]
    rw [hmax] at hacc hex
    rw [List.foldl_cons]
    refine ⟨(le_max_left _ _).trans hacc, ?_, ?_⟩
    · exact List.forall_mem_cons.2 ⟨(le_max_right _ _).trans hacc, hall⟩
    · rcases hex with hm | ⟨u, hu, hm⟩
      · rcases Nat.le_total (out.size axis) (acc.getD axis 0) with hl | hr
        · exact .inl ((Nat.max_eq_left hl).symm.trans hm)
        · exact .inr ⟨out, List.mem_cons_self, (Nat.max_eq_right hr).symm.trans hm⟩
      · exact .inr ⟨u, List.mem_cons_of_mem out hu, hm⟩

/-- What `cat` makes of the outputs once they have the same sizes. -/
theorem merges_of_shape {shape : List ℕ} (pad : α) {outputs : List (NDArray α)}
    (hd : dim < shape.length) (hne : outputs ≠ []) (f : NDArray α → NDArray α)
    (hshape : ∀ out ∈ outputs, (f out).shape = shape.set dim (out.size dim))
    (hget : ∀ out ∈ outputs, ∀ idx, OffAxis dim shape idx → idx.getD dim 0 < out.size dim →
      (f out).get idx = some ((out.get idx).getD pad))
    (hndim : ∀ out ∈ outputs, out.shape.length = shape.length)
    (hsizes : ∀ axis < shape.length, axis ≠ dim →
      (∀ out ∈ outputs, out.size axis ≤ shape.getD axis 0) ∧
        ∃ out ∈ outputs, out.size axis = shape.getD axis 0) :
    ∃ merged, NDArray.cat dim (outputs.map f) = some merged ∧ Merges dim pad outputs merged := by
  have hsize : ∀ out ∈ outputs, (f out).size dim = out.size dim := by
    intro out hout
    rw [NDArray.size, hshape out hout, getD_set_self hd]
  have hsum : ∀ l : List (NDArray α), (∀ out ∈ l, out ∈ outputs) →
      sizeSum dim (l.map f) = sizeSum dim l := by
    intro l hl
    rw [sizeSum, sizeSum, List.map_map]
    exact congrArg List.sum (List.map_congr_left fun out hout => hsize out (hl out hout))
  obtain ⟨first, rest, rfl⟩ := List.exists_cons_of_ne_nil hne
  have hsame : ∀ out ∈ first :: rest, SameOff dim shape (f out).shape :=
    fun out hout => hshape out hout ▸ sameOff_set
  have hfirst := hsame first List.mem_cons_self
  have hcat : Catable dim (f first) (rest.map f) := by
    refine ⟨hfirst.1 ▸ hd, fun u hu => ?_⟩
    obtain ⟨out, hout, rfl⟩ := List.mem_map.1 hu
    exact hfirst.symm.trans (hsame out (List.mem_cons_of_mem first hout))
  refine ⟨catList dim (f first) (rest.map f) hcat, dif_pos hcat, ?_⟩
  have hmerged : (catList dim (f first) (rest.map f) hcat).shape =
      shape.set dim (sizeSum dim (first :: rest)) := by
    show (f first).shape.set dim (sizeSum dim ((first :: rest).map f)) = _
    rw [hsum _ fun _ h => h, hfirst.set_eq]
  refine ⟨?_, ?_, ?_, ?_⟩
  · intro out hout
    rw [hmerged, List.length_set, hndim out hout]
  · rw [NDArray.size, hmerged, getD_set_self hd]
  · intro axis haxis hne
    rw [hmerged, List.length_set] at haxis
    rw [NDArray.size, hmerged, getD_set_ne hne]
    exact hsizes axis haxis hne
  · intro before out after hsplit idx hoff hlt
    rw [hmerged, sameOff_set.offAxis_iff] at hoff
    have hmem : out ∈ first :: rest := hsplit ▸ List.mem_append_right before List.mem_cons_self
    have hmap : f first :: rest.map f = before.map f ++ f out :: after.map f := by
      rw [← List.map_cons, hsplit, List.map_append, List.map_cons]
    have hbefore := hsum before fun u hu => hsplit ▸ List.mem_append_left _ hu
    show catGet dim (f first :: rest.map f) _ = _
    rw [hmap, ← hbefore, catGet_append _ _ (hoff.1 ▸ hd), catGet, if_pos (hsize out hmem ▸ hlt)]
    exact hget out hmem idx hoff hlt

theorem get_of_sameOff {pad : α} {t : NDArray α} {shape idx : List ℕ} (hd : dim < t.shape.length)
    (hsame : SameOff dim shape t.shape) (hoff : OffAxis dim shape idx)
    (hlt : idx.getD dim 0 < t.size dim) : t.get idx = some ((t.get idx).getD pad) := by
  have hin : InBounds t.shape idx := (inBounds_iff hd).2 ⟨hsame.offAxis_iff.2 hoff, hlt⟩
  obtain ⟨x, hx⟩ := Option.isSome_iff_exists.1 ((t.get_isSome idx).2 hin)
  rw [hx, Option.getD_some]

/-- Outputs of the same sizes are put together as they are. -/
theorem merges_of_sameOff (pad : α) {first : NDArray α} {rest : List (NDArray α)}
    (hd : dim < first.shape.length) (hsame : ∀ out ∈ first :: rest, SameOff dim first.shape out.shape) :
    ∃ merged, NDArray.cat dim (first :: rest) = some merged ∧ Merges dim pad (first :: rest) merged := by
  have hall := merges_of_shape pad hd (List.cons_ne_nil first rest) id
    (fun out hout => by
      rw [← (hsame out hout).set_eq]
      exact (set_getD_self ((hsame out hout).1 ▸ hd)).symm)
    (fun out hout idx => get_of_sameOff ((hsame out hout).1 ▸ hd) (hsame out hout))
    (fun out hout => (hsame out hout).1)
    (fun axis haxis hne => ⟨fun out hout => ((hsame out hout).2 axis haxis hne).le,
      first, List.mem_cons_self, rfl⟩)
  rwa [List.map_id] at hall

theorem padOutput_spec {pad : α} {maxShape : List ℕ} (hd : dim < maxShape.length) (out : NDArray α) :
    (padOutput dim pad maxShape out).shape = maxShape.set dim (out.size dim) ∧
      ∀ idx, OffAxis dim maxShape idx → idx.getD dim 0 < out.size dim →
        (padOutput dim pad maxShape out).get idx = some ((out.get idx).getD pad) := by
  simp only [padOutput]
  split_ifs with hfits
  · refine ⟨hfits, fun idx hoff hlt => ?_⟩
    have hsame : SameOff dim maxShape out.shape := hfits ▸ sameOff_set
    exact get_of_sameOff (hsame.1 ▸ hd) hsame hoff hlt
  · refine ⟨rfl, fun idx hoff hlt => ?_⟩
    refine get_overwrite_full out pad
      ((inBounds_iff (by rwa [List.length_set])).2 ⟨sameOff_set.offAxis_iff.2 hoff, ?_⟩)
    rwa [getD_set_self hd]

theorem mergeValid_merges {pad : α} {message : String} {first : NDArray α} {rest : List (NDArray α)}
    (hd : dim < first.shape.length)
    (hndim : ∀ out ∈ first :: rest, out.shape.length = first.shape.length) :
    ∃ merged, mergeValid dim pad message first rest = .ok (some merged) ∧
      Merges dim pad (first :: rest) merged := by
  rw [mergeValid]
  split_ifs with hsame hmixed
  · obtain ⟨merged, hcat, hmerges⟩ := merges_of_sameOff pad hd
      (List.forall_mem_cons.2 ⟨.refl, hsame⟩)
    exact ⟨merged, by rw [cat, hcat], hmerges⟩
  · obtain ⟨out, hout, hne⟩ := hmixed
    exact absurd (hndim out (List.mem_cons_of_mem first hout)) hne
  · obtain ⟨hlen, hmax⟩ := foldl_maxWith rest first.shape
    have hd' := hlen ▸ hd
    obtain ⟨merged, hcat, hmerges⟩ := merges_of_shape pad hd' (List.cons_ne_nil first rest)
      (padOutput dim pad (rest.foldl (fun maxShape out => maxWith dim maxShape out.shape) first.shape))
      (fun out _ => (padOutput_spec hd' out).1) (fun out _ => (padOutput_spec hd' out).2)
      (fun out hout => (hndim out hout).trans hlen.symm) (fun axis haxis hne => by
        obtain ⟨hfirst, hrest, hex⟩ := hmax axis (hlen ▸ haxis) hne
        refine ⟨List.forall_mem_cons.2 ⟨hfirst, hrest⟩, ?_⟩
        rcases hex with hm | ⟨out, hout, hm⟩
        · exact ⟨first, List.mem_cons_self, hm⟩
        · exact ⟨out, List.mem_cons_of_mem first hout, hm⟩)
    exact ⟨merged, by simp only [cat, hcat], hmerges⟩

theorem merges_singleton (pad : α) (t : NDArray α) (hd : dim < t.shape.length) :
    Merges dim pad [t] t := by
  obtain ⟨merged, hcat, hmerges⟩ := merges_of_sameOff pad hd
    (List.forall_mem_cons.2 ⟨.refl, fun u hu => absurd hu List.not_mem_nil⟩)
  rw [cat_singleton t hd] at hcat
  rwa [← Option.some.inj hcat] at hmerges

/-- Outputs that are there, of one number of dimensions that `dim` is one of. -/
def Mergeable (outputs : List (Option (NDArray α))) (dim : ℕ) : Prop :=
  outputs.reduceOption ≠ [] ∧
    ∃ ndim, dim < ndim ∧ ∀ out ∈ outputs.reduceOption, out.shape.length = ndim

theorem mergeMicrobatchOutputs_merges [Zero α] {outputs : List (Option (NDArray α))}
    (h : Mergeable outputs dim) :
    ∃ merged, mergeMicrobatchOutputs outputs dim = .ok (some merged) ∧
      Merges dim 0 outputs.reduceOption merged := by
  obtain ⟨hne, ndim, hd, hndim⟩ := h
  rcases outputs with _ | ⟨o, _ | ⟨o', rest⟩⟩
  · exact absurd rfl hne
  · cases o with
    | none => exact absurd rfl hne
    | some t => exact ⟨t, rfl, merges_singleton 0 t (hndim t List.mem_cons_self ▸ hd)⟩
  · rw [mergeMicrobatchOutputs]
    · generalize (o :: o' :: rest).reduceOption = valid at hne hndim ⊢
      cases valid with
      | nil => exact absurd rfl hne
      | cons first others =>
        have hfirst := hndim first List.mem_cons_self
        exact mergeValid_merges (hfirst ▸ hd) fun out hout => (hndim out hout).trans hfirst.symm
    · exact fun out h => by cases h

theorem mergeMicrobatchKeepIndices_merges {outputs : List (Option (NDArray ℤ))} (padValue : ℤ)
    (h : Mergeable outputs dim) :
    ∃ merged, mergeMicrobatchKeepIndices outputs dim padValue = .ok (some merged) ∧
      Merges dim padValue outputs.reduceOption merged := by
  obtain ⟨hne, ndim, hd, hndim⟩ := h
  rw [mergeMicrobatchKeepIndices]
  generalize outputs.reduceOption = valid at hne hndim ⊢
  rcases valid with _ | ⟨first, _ | ⟨second, rest⟩⟩
  · exact absurd rfl hne
  · exact ⟨first, rfl, merges_singleton padValue first (hndim first List.mem_cons_self ▸ hd)⟩
  · have hfirst := hndim first List.mem_cons_self
    exact mergeValid_merges (hfirst ▸ hd) fun out hout => (hndim out hout).trans hfirst.symm

/-- The ranges tile the batch and are as many as the receiver waits for; merging undoes splitting;
and a merge keeps every entry in place in its own rows, padding with zeros or with `-1`. -/
theorem microbatches_split_merge [Zero α] (env : Environ) :
    (∀ batchSize, Tiles 0 batchSize (computeMicroBatchRanges env.getMicroBatchSize batchSize) ∧
      ∀ r ∈ computeMicroBatchRanges env.getMicroBatchSize batchSize, r.1 < r.2) ∧
    (∀ batchSize, 0 < batchSize →
      ((computeMicroBatchRanges env.getMicroBatchSize batchSize).length : ℤ) =
        resolveExpectedNumMicrobatches env batchSize .none .none) ∧
    (∀ (tensor : Option (NDArray α)) (dim : ℕ), (∀ t ∈ tensor, dim < t.shape.length) →
      ∃ chunks, splitTensorToMicrobatches env tensor dim = .ok chunks ∧
        mergeMicrobatchOutputs chunks dim = .ok tensor) ∧
    (∀ (outputs : List (Option (NDArray α))) (dim : ℕ), Mergeable outputs dim →
      ∃ merged, mergeMicrobatchOutputs outputs dim = .ok (some merged) ∧
        Merges dim 0 outputs.reduceOption merged) ∧
    ∀ (outputs : List (Option (NDArray ℤ))) (dim : ℕ), Mergeable outputs dim →
      ∃ merged, mergeMicrobatchKeepIndices outputs dim (-1) = .ok (some merged) ∧
        Merges dim (-1) outputs.reduceOption merged := by
  refine ⟨tiles_ranges _, fun _ hb => length_ranges env hb, fun tensor dim hdim => ?_,
    fun _ _ h => mergeMicrobatchOutputs_merges h, fun _ _ h => mergeMicrobatchKeepIndices_merges _ h⟩
  cases tensor with
  | none => exact ⟨[none], rfl, rfl⟩
  | some t => exact merge_split env t (hdim t rfl)

/-- Five rows in micro-batches of two, and keep indices of one and of two places. -/
theorem microbatches_split_merge_two :
    Tiles 0 5 [(0, 2), (2, 4), (4, 5)] ∧
      (3 : ℤ) = resolveExpectedNumMicrobatches ⟨true, some 2⟩ 5 .none .none ∧
      (∃ chunks, splitTensorToMicrobatches ⟨true, some 2⟩ (some (NDArray.full [5, 3] (7 : ℤ))) 0 =
          .ok chunks ∧
        mergeMicrobatchOutputs chunks 0 = .ok (some (NDArray.full [5, 3] (7 : ℤ)))) ∧
      ∃ merged, mergeMicrobatchKeepIndices
          [some (NDArray.full [2, 1] 7), some (NDArray.full [1, 2] 7)] 0 (-1) = .ok (some merged) ∧
        Merges 0 (-1) [NDArray.full [2, 1] 7, NDArray.full [1, 2] 7] merged := by
  obtain ⟨htiles, hcount, hsplit, -, hkeep⟩ := microbatches_split_merge (α := ℤ) ⟨true, some 2⟩
  refine ⟨(htiles 5).1, hcount 5 (by decide), hsplit _ 0 ?_, hkeep _ 0 ⟨by decide, 2, by decide, ?_⟩⟩
  · intro t ht
    obtain rfl : NDArray.full [5, 3] 7 = t := Option.some.inj ht
    exact Nat.zero_lt_two
  · intro out hout
    have hout' : out ∈ [NDArray.full [2, 1] 7, NDArray.full [1, 2] 7] := hout
    rcases List.mem_pair.1 hout' with rfl | rfl <;> rfl

end BloomBee.MicrobatchOps
