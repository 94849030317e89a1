import BloomBee.Sanity.LiveDecode
import BloomBee.Sanity.RpcSlices

/-! The submissions of a live step on the paths of the server. A submission that has a mask
writes the rows the mask marks, one that has none writes all its rows at one place, and the
submissions of a tiling write together what one write of all rows does
(`runWhole_tiles`). -/

set_option autoImplicit false

namespace BloomBee.LiveDecode

open RpcInference
open BackendStep
  (ChunkConfig ChunkKvs OneChunk estimateMaxChunkLength estimateMaxChunkLength_pos oneChunk_iff_le)

variable {κ : Type}

/-! ### Writes without a mask -/

/-- New slots that fill the cache land at its first slot, wherever they were meant for. -/
theorem placement_fill {seqLen : ℕ} (start : ℕ) {kv : List κ} (hpos : 0 < seqLen)
    (h : kv.length = seqLen) : placement seqLen start kv = some (0, kv) := by
  rw [placement]
  by_cases hfit : start < seqLen ∧ start + kv.length ≤ seqLen
  · rw [if_pos hfit, show start = 0 by omega]
  · rw [if_neg hfit]
    simp only [if_neg (show ¬seqLen = 0 by omega), h, Nat.sub_self, List.drop_zero, if_true]

theorem placement_cases {seqLen start s : ℕ} {kv slots : List κ}
    (h : placement seqLen start kv = some (s, slots)) :
    (s = start ∧ slots = kv ∧ start + kv.length ≤ seqLen) ∨
      (s = 0 ∧ slots.length = seqLen ∧ ∀ x ∈ slots, x ∈ kv) := by
  rw [placement] at h
  by_cases hfit : start < seqLen ∧ start + kv.length ≤ seqLen
  · rw [if_pos hfit] at h
    cases h
    exact .inl ⟨rfl, rfl, hfit.2⟩
  · rw [if_neg hfit] at h
    right
    have hsub : ∀ x ∈ (if seqLen = 0 then kv else kv.drop (kv.length - seqLen)), x ∈ kv := by
      intro x hx
      split_ifs at hx
      · exact hx
      · exact List.mem_of_mem_drop hx
    revert hsub h
    generalize (if seqLen = 0 then kv else kv.drop (kv.length - seqLen)) = tail
    intro h hsub
    by_cases hlen : tail.length = seqLen
    · simp only [hlen, if_true] at h
      cases h
      exact ⟨rfl, hlen, hsub⟩
    · simp only [if_neg hlen] at h
      cases tail with
      | nil => cases h
      | cons x tail =>
        cases tail with
        | cons y tail => cases h
        | nil =>
          -- `copy_` repeats a single slot
          cases h
          refine ⟨rfl, List.length_replicate, fun y hy => ?_⟩
          rw [List.eq_of_mem_replicate hy]
          exact hsub x (List.mem_singleton.mpr rfl)

def placedRows (seqLen start batchOffset : ℕ) (new : List (List κ)) (b : ℕ) :
    Option (ℕ × List κ) :=
  if batchOffset ≤ b then (new[b - batchOffset]?).bind (placement seqLen start) else none

/-- What a write without a mask does, if it goes through. -/
theorem writeKvs_eq_some {slab slab' : Slab κ} {start batchOffset : ℕ} {new : List (List κ)}
    (h : writeKvs slab start batchOffset new = some slab') :
    slab' = place slab (placedRows slab.seqLen start batchOffset new) ∧
      ∀ kv ∈ new, (placement slab.seqLen start kv).isSome := by
  rw [writeKvs] at h
  cases hp : new.mapM (placement slab.seqLen start) with
  | none => rw [hp] at h; cases h
  | some placed =>
    have hmap := Fallible.mapM_eq_some_iff.mp hp
    rw [hp] at h
    cases h
    refine ⟨Slab.ext' rfl rfl fun b => ?_, fun kv hkv => ?_⟩
    · have hb : ∀ i : ℕ, (new[i]?).bind (placement slab.seqLen start) = placed[i]? := by
        intro i
        have := congrArg (fun l => l[i]?) hmap
        simp only [List.getElem?_map] at this
        cases hn : new[i]? with
        | none =>
          rw [hn] at this
          cases hq : placed[i]? with
          | none => rfl
          | some q => rw [hq] at this; cases this
        | some kv =>
          rw [hn] at this
          cases hq : placed[i]? with
          | none => rw [hq] at this; cases this
          | some q =>
            rw [hq, Option.map_some, Option.map_some, Option.some.injEq] at this
            rw [Option.bind_some, this]
      simp only [place, placedRows, hb]
      by_cases hle : batchOffset ≤ b
      · rw [if_pos hle, if_pos hle]
        cases placed[b - batchOffset]? <;> rfl
      · rw [if_neg hle, if_neg hle]
    · have : placement slab.seqLen start kv ∈ placed.map some := by
        rw [← hmap]
        exact List.mem_map_of_mem hkv
      obtain ⟨p, -, hp⟩ := List.mem_map.mp this
      rw [← hp]
      rfl

theorem writeKvs_of_placed {slab : Slab κ} {start batchOffset : ℕ} {new : List (List κ)}
    (h : ∀ kv ∈ new, (placement slab.seqLen start kv).isSome) :
    writeKvs slab start batchOffset new =
      some (place slab (placedRows slab.seqLen start batchOffset new)) := by
  have hall : ∃ placed, new.mapM (placement slab.seqLen start) = some placed := by
    clear batchOffset
    induction new with
    | nil => exact ⟨[], rfl⟩
    | cons kv new ih =>
      obtain ⟨p, hp⟩ := Option.isSome_iff_exists.mp (h kv List.mem_cons_self)
      obtain ⟨rest, hrest⟩ := ih fun kv' hkv' => h kv' (List.mem_cons_of_mem _ hkv')
      exact ⟨p :: rest, by rw [List.mapM_cons, hp, hrest]; rfl⟩
  obtain ⟨placed, hp⟩ := hall
  obtain ⟨slab', hw⟩ : ∃ slab', writeKvs slab start batchOffset new = some slab' := by
    rw [writeKvs, hp]
    exact ⟨_, rfl⟩
  rw [hw, (writeKvs_eq_some hw).1]

/-! ### One submission -/

theorem writeRuns_shape {batchOffset : ℕ} {new : List (List κ)} (runs : List (ℕ × ℕ × ℕ)) :
    ∀ {slab slab' : Slab κ}, writeRuns batchOffset new runs slab = some slab' →
      slab'.seqLen = slab.seqLen ∧ slab'.batch = slab.batch := by
  induction runs with
  | nil =>
    intro slab slab' h
    cases h
    exact ⟨rfl, rfl⟩
  | cons run runs ih =>
    intro slab slab' h
    obtain ⟨rowStart, rowEnd, startPosition⟩ := run
    rw [writeRuns] at h
    cases hw : writeKvs slab startPosition (batchOffset + rowStart)
        ((new.drop rowStart).take (rowEnd - rowStart)) with
    | none => rw [hw] at h; cases h
    | some slab₁ =>
      rw [hw] at h
      obtain ⟨h₁, h₂⟩ := ih h
      rw [(writeKvs_eq_some hw).1] at h₁ h₂
      exact ⟨h₁, h₂⟩

/-- A submission that goes through: its window and its rows are in the cache, and the cache keeps
its shape. -/
theorem updateCache_ok {slab slab' : Slab κ} {info : InferenceInfo} {width : ℕ}
    {new : List (List κ)} (h : updateCache slab info width new = .ok slab') :
    selectPrefixLength info new.length width ≤ slab.seqLen ∧
      info.batchOffset + new.length ≤ slab.batch ∧
      finalizeCacheUpdate slab (selectPrefixLength info new.length width) info new = some slab' ∧
      slab'.seqLen = slab.seqLen ∧ slab'.batch = slab.batch := by
  rw [updateCache] at h
  by_cases hwin : slab.seqLen < selectPrefixLength info new.length width
  · rw [if_pos hwin] at h; cases h
  · by_cases hrows : slab.batch < info.batchOffset + new.length
    · rw [if_neg hwin, if_pos hrows] at h; cases h
    · rw [if_neg hwin, if_neg hrows] at h
      cases hf : finalizeCacheUpdate slab (selectPrefixLength info new.length width) info new with
      | none => rw [hf] at h; cases h
      | some slab₁ =>
        rw [hf] at h
        cases h
        refine ⟨Nat.le_of_not_lt hwin, Nat.le_of_not_lt hrows, rfl, ?_⟩
        rw [finalizeCacheUpdate] at hf
        cases hm : activeMaskList info.activeMask new.length with
        | none =>
          rw [hm] at hf
          rw [(writeKvs_eq_some hf).1]
          exact ⟨rfl, rfl⟩
        | some mask =>
          rw [hm] at hf
          exact writeRuns_shape _ hf

theorem updateCache_of_finalize {slab slab' : Slab κ} {info : InferenceInfo} {width : ℕ}
    {new : List (List κ)} (hwin : selectPrefixLength info new.length width ≤ slab.seqLen)
    (hrows : info.batchOffset + new.length ≤ slab.batch)
    (h : finalizeCacheUpdate slab (selectPrefixLength info new.length width) info new =
      some slab') : updateCache slab info width new = .ok slab' := by
  rw [updateCache, if_neg (Nat.not_lt.mpr hwin), if_neg (Nat.not_lt.mpr hrows), h]

theorem updateCache_masked {slab : Slab κ} {info : InferenceInfo} {width : ℕ}
    {new : List (List κ)} {mask : List Bool} {positions : List ℕ}
    (hmask : activeMaskList info.activeMask new.length = some mask)
    (hpositions : rowPositionList info.prefillLength new.length = some positions)
    (hwin : selectPrefixLength info new.length width ≤ slab.seqLen)
    (hrows : info.batchOffset + new.length ≤ slab.batch)
    (hroom : Room slab.seqLen (activeRows info.batchOffset mask positions new)) :
    updateCache slab info width new =
      .ok (place slab (activeRows info.batchOffset mask positions new)) := by
  apply updateCache_of_finalize hwin hrows
  rw [finalizeCacheUpdate, hmask, hpositions]
  exact writeRuns_activePositionRowRuns hroom

/-- Without a mask, or without positions of its own, a submission reads from the common prefix. -/
theorem selectPrefixLength_plain {info : InferenceInfo} {rows width : ℕ}
    (h : activeMaskList info.activeMask rows = none ∨
      rowPositionList info.prefillLength rows = none) :
    selectPrefixLength info rows width = info.prefixLength := by
  have hnone : liveRowPositions info rows width = none := by
    rw [liveRowPositions]
    rcases h with h | h
    · rw [h]
      split_ifs <;> rfl
    · rw [h]
      cases activeMaskList info.activeMask rows <;> simp
  rw [selectPrefixLength, hnone]

theorem updateCache_unmasked {slab : Slab κ} {info : InferenceInfo} {width : ℕ}
    {new : List (List κ)} (hmask : activeMaskList info.activeMask new.length = none)
    (hwin : info.prefixLength ≤ slab.seqLen) (hrows : info.batchOffset + new.length ≤ slab.batch)
    (hplaced : ∀ kv ∈ new, (placement slab.seqLen info.prefixLength kv).isSome) :
    updateCache slab info width new =
      .ok (place slab (placedRows slab.seqLen info.prefixLength info.batchOffset new)) := by
  have hsel := @selectPrefixLength_plain info new.length width (.inl hmask)
  apply updateCache_of_finalize (by rwa [hsel]) hrows
  rw [finalizeCacheUpdate, hmask, hsel]
  exact writeKvs_of_placed hplaced

theorem updateCache_unmasked_ok {slab slab' : Slab κ} {info : InferenceInfo} {width : ℕ}
    {new : List (List κ)} (hmask : activeMaskList info.activeMask new.length = none)
    (h : updateCache slab info width new = .ok slab') :
    info.prefixLength ≤ slab.seqLen ∧
      slab' = place slab (placedRows slab.seqLen info.prefixLength info.batchOffset new) ∧
      ∀ kv ∈ new, (placement slab.seqLen info.prefixLength kv).isSome := by
  have hsel := @selectPrefixLength_plain info new.length width (.inl hmask)
  obtain ⟨hwin, -, hf, -⟩ := updateCache_ok h
  rw [hsel] at hwin
  rw [finalizeCacheUpdate, hmask, hsel] at hf
  exact ⟨hwin, writeKvs_eq_some hf⟩

/-! ### The submissions of a step -/

/-- Submissions without their chunks: each updates the cache for the keys and values of its rows. -/
def runWhole (width : ℕ) (new : List (List κ)) :
    List ((ℕ × ℕ) × InferenceInfo) → Slab κ → Except Error (Slab κ)
  | [], slab => .ok slab
  | ((start, stop), info) :: rest, slab =>
    match updateCache slab info width ((new.drop start).take (stop - start)) with
    | .error e => .error e
    | .ok slab => runWhole width new rest slab

section

variable {chunks : ChunkConfig} {rows width : ℕ} {new : ChunkKvs κ rows width}

theorem whole_length (new : ChunkKvs κ rows width) : new.whole.length = rows :=
  new.chunk_length new.chunk_whole

/-- A submission of one chunk is an update of the cache. -/
theorem submitRows_single {range : ℕ × ℕ} {info : InferenceInfo} (hpos : 0 < width)
    (hone : OneChunk chunks (range.2 - range.1) width info.prefixLength) (hle : range.2 ≤ rows)
    (slab : Slab κ) :
    submitRows chunks new range info slab =
      updateCache slab info width ((new.whole.drop range.1).take (range.2 - range.1)) := by
  obtain ⟨m, hm, hlen⟩ := hone
  have hslice : ((new.whole.drop range.1).take (range.2 - range.1)).length =
      range.2 - range.1 := by
    rw [List.length_take, List.length_drop, whole_length]
    omega
  rw [submitRows, Option.mem_def.mp hm]
  simp only [new.newKvs_single hpos hlen]
  by_cases hwin : slab.seqLen < selectPrefixLength info (range.2 - range.1) width
  · rw [if_pos hwin, updateCache, hslice, if_pos hwin]
  · rw [if_neg hwin]

theorem runSubmissions_single (hpos : 0 < width) (subs : List ((ℕ × ℕ) × InferenceInfo))
    (hsubs : ∀ s ∈ subs, s.1.2 ≤ rows ∧
      OneChunk chunks (s.1.2 - s.1.1) width s.2.prefixLength) :
    ∀ slab : Slab κ, runSubmissions chunks new subs slab = runWhole width new.whole subs slab := by
  induction subs with
  | nil => exact fun slab => rfl
  | cons sub subs ih =>
    intro slab
    obtain ⟨range, info⟩ := sub
    obtain ⟨hle, hone⟩ := hsubs _ List.mem_cons_self
    rw [runSubmissions, submitRows_single hpos hone hle, runWhole]
    cases updateCache slab info width ((new.whole.drop range.1).take (range.2 - range.1)) with
    | error e => rfl
    | ok slab₁ => exact ih (fun s hs => hsubs s (List.mem_cons_of_mem _ hs)) slab₁

/-- Submissions of a block that raises on a piece of its tokens go through in single chunks only. -/
theorem oneChunk_of_runSubmissions (hraise : ∀ n < width, new.chunk 0 n = none)
    (subs : List ((ℕ × ℕ) × InferenceInfo)) :
    ∀ {slab slab' : Slab κ}, runSubmissions chunks new subs slab = .ok slab' →
      ∀ s ∈ subs, OneChunk chunks (s.1.2 - s.1.1) width s.2.prefixLength := by
  induction subs with
  | nil =>
    intro _ _ _ s hs
    cases hs
  | cons sub subs ih =>
    intro slab slab' h s hs
    obtain ⟨range, info⟩ := sub
    rw [runSubmissions] at h
    cases hsub : submitRows chunks new range info slab with
    | error e =>
      rw [hsub] at h
      cases h
    | ok slab₁ =>
      rw [hsub] at h
      rcases List.mem_cons.mp hs with rfl | hs
      · rw [submitRows] at hsub
        cases hm : estimateMaxChunkLength chunks (range.2 - range.1) width info.prefixLength with
        | none =>
          rw [hm] at hsub
          cases hsub
        | some m =>
          refine (oneChunk_iff_le hm).mpr ?_
          by_contra hlt
          have hnone := new.newKvs_raises (estimateMaxChunkLength_pos hm).1 (by omega)
            (hraise m (by omega))
          simp only [hm, hnone] at hsub
          split_ifs at hsub
      · exact ih h s hs

end

/-- Every submission of a step that goes through went through, on a cache of the same shape. -/
theorem runWhole_mem {width : ℕ} {new : List (List κ)}
    (subs : List ((ℕ × ℕ) × InferenceInfo)) :
    ∀ {slab slab' : Slab κ}, runWhole width new subs slab = .ok slab' →
      ∀ s ∈ subs, ∃ slab₁ slab₂ : Slab κ, slab₁.seqLen = slab.seqLen ∧
        updateCache slab₁ s.2 width ((new.drop s.1.1).take (s.1.2 - s.1.1)) = .ok slab₂ := by
  induction subs with
  | nil =>
    intro _ _ _ s hs
    cases hs
  | cons sub subs ih =>
    intro slab slab' h s hs
    obtain ⟨⟨start, stop⟩, info⟩ := sub
    rw [runWhole] at h
    cases hu : updateCache slab info width ((new.drop start).take (stop - start)) with
    | error e => rw [hu] at h; cases h
    | ok slab₁ =>
      rw [hu] at h
      rcases List.mem_cons.mp hs with rfl | hs
      · exact ⟨slab, slab₁, rfl, hu⟩
      · obtain ⟨slab₂, slab₃, hshape, hok⟩ := ih h s hs
        exact ⟨slab₂, slab₃, hshape.trans (updateCache_ok hu).2.2.2.1, hok⟩

def within (r : ℕ × ℕ) (f : ℕ → Option (ℕ × List κ)) (b : ℕ) : Option (ℕ × List κ) :=
  if r.1 ≤ b ∧ b < r.2 then f b else none

/-- Submissions that tile the rows from `a` to `c`, each writing its part of `f`. -/
theorem runWhole_tiles {width : ℕ} {new : List (List κ)} {a c : ℕ} {rs : List (ℕ × ℕ)}
    (ht : Tiles a c rs) {infoOf : ℕ × ℕ → InferenceInfo} {f : ℕ → Option (ℕ × List κ)} :
    ∀ slab : Slab κ,
      (∀ r ∈ rs, ∀ slab' : Slab κ, slab'.seqLen = slab.seqLen → slab'.batch = slab.batch →
        updateCache slab' (infoOf r) width ((new.drop r.1).take (r.2 - r.1)) =
          .ok (place slab' (within r f))) →
      runWhole width new (rs.map fun r => (r, infoOf r)) slab =
        .ok (place slab (within (a, c) f)) := by
  induction ht with
  | nil a =>
    intro slab _
    have hnone : within (a, a) f = fun _ => none := by
      funext b
      exact if_neg (by simp only; omega)
    rw [hnone, place_none]
    rfl
  | @cons a b c rs hab t ih =>
    intro slab hr
    have hbc := t.le
    rw [List.map_cons, runWhole, hr (a, b) List.mem_cons_self slab rfl rfl]
    simp only
    rw [ih (place slab (within (a, b) f)) fun r hm slab' hs hb =>
      hr r (List.mem_cons_of_mem _ hm) slab' hs hb, place_place]
    · congr 2
      funext i
      simp only [within]
      by_cases hi : b ≤ i ∧ i < c
      · rw [if_pos hi, if_neg (show ¬(a ≤ i ∧ i < b) by omega), Option.or_none,
          if_pos (by omega)]
      · rw [if_neg hi, Option.none_or]
        by_cases hi' : a ≤ i ∧ i < b
        · rw [if_pos hi', if_pos (by omega)]
        · rw [if_neg hi', if_neg (by omega)]
    · intro i
      simp only [within]
      by_cases hi : b ≤ i ∧ i < c
      · exact .inr (if_neg (by omega))
      · exact .inl (if_neg hi)

theorem shouldSplitBatch_iff {cfg : Config} {batchSize : ℕ} :
    shouldSplitBatch cfg batchSize = true ↔
      0 < cfg.microBatchSize.getD 0 ∧ cfg.microBatchSize.getD 0 < batchSize := by
  rw [shouldSplitBatch]
  cases cfg.microBatchSize with
  | none => simp
  | some m => simp

theorem rangesFrom_size {microBatchSize batchSize fuel start : ℕ} {r : ℕ × ℕ}
    (hr : r ∈ rangesFrom microBatchSize batchSize fuel start) : r.2 ≤ r.1 + microBatchSize := by
  induction fuel generalizing start with
  | zero => cases hr
  | succ fuel ih =>
    rw [rangesFrom] at hr
    split_ifs at hr
    · rcases List.mem_cons.mp hr with rfl | hr
      · exact Nat.min_le_left _ _
      · exact ih hr
    · cases hr

end BloomBee.LiveDecode
