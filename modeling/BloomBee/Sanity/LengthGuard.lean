import BloomBee.Sanity.LivePaths
import BloomBee.Sanity.RowRuns
import BloomBee.Spec.LengthGuard

/-! The logged operations do to the caches what the operations without a log do, and their logs
follow from the arguments: a write that was to stay below `max_length` lands where it was to, and a
write that cannot be placed leaves no entry. -/

set_option autoImplicit false

namespace BloomBee.LengthGuard

open RpcInference (Config Error Slab placement writeKvs)
open LiveDecode
open BackendStep (ChunkConfig ChunkKvs estimateMaxChunkLength)
open Speculative (cacheLenOf extendIds compactRow compactRow_length maxNewLength doReorderTask
  reorderAndWriteCache)

variable {κ : Type}

/-! ### Results -/

theorem logWrite_result (slab : Slab κ) (start batchOffset : ℕ) (new : List (List κ)) :
    (logWrite slab start batchOffset new).result =
      (writeKvs slab start batchOffset new).elim (.error .shapeMismatch) .ok := by
  rw [logWrite]
  cases writeKvs slab start batchOffset new <;> rfl

theorem logRuns_result {batchOffset : ℕ} {new : List (List κ)} (runs : List (ℕ × ℕ × ℕ)) :
    ∀ slab : Slab κ, (logRuns batchOffset new runs slab).result =
      (writeRuns batchOffset new runs slab).elim (.error .shapeMismatch) .ok := by
  induction runs with
  | nil => exact fun slab => rfl
  | cons run runs ih =>
    intro slab
    obtain ⟨rowStart, rowEnd, startPosition⟩ := run
    rw [logRuns, writeRuns, Logged.result_bind, logWrite_result]
    cases writeKvs slab startPosition (batchOffset + rowStart)
        ((new.drop rowStart).take (rowEnd - rowStart)) with
    | none => rfl
    | some slab₁ => exact ih slab₁

theorem logUpdate_result (slab : Slab κ) (info : InferenceInfo) (width : ℕ)
    (new : List (List κ)) :
    (logUpdate slab info width new).result = updateCache slab info width new := by
  rw [logUpdate, updateCache]
  by_cases hwin : slab.seqLen < selectPrefixLength info new.length width
  · rw [if_pos hwin, if_pos hwin]
    rfl
  · rw [if_neg hwin, if_neg hwin]
    by_cases hrows : slab.batch < info.batchOffset + new.length
    · rw [if_pos hrows, if_pos hrows]
      rfl
    · rw [if_neg hrows, if_neg hrows, finalizeCacheUpdate]
      cases activeMaskList info.activeMask new.length with
      | none =>
        dsimp only
        rw [logWrite_result]
        cases writeKvs slab (selectPrefixLength info new.length width) info.batchOffset new <;> rfl
      | some mask =>
        dsimp only
        rw [logRuns_result]
        generalize writeRuns info.batchOffset new _ slab = o
        cases o <;> rfl

theorem logReorder_result (zero : κ) (slab : Slab κ) (batchOffset : ℕ) (ids : List (List ℤ))
    (treeLen : ℕ) (new : List (List κ)) :
    (logReorder zero slab batchOffset ids treeLen new).result =
      .ok (doReorderTask zero slab batchOffset ids treeLen new) := by
  rw [logReorder, doReorderTask]
  dsimp only
  by_cases hzero : cacheLenOf ids = 0
  · rw [if_pos hzero, if_pos hzero, Logged.result_recover, logWrite_result]
    cases writeKvs slab 0 batchOffset new <;> rfl
  · rw [if_neg hzero, if_neg hzero, Logged.result_recover, Logged.result_bind, logWrite_result]
    cases writeKvs slab (cacheLenOf ids) batchOffset new with
    | none => rfl
    | some slab₁ =>
      by_cases hlen : slab₁.seqLen < cacheLenOf (extendIds ids (cacheLenOf ids) treeLen)
      · simp only [Option.elim_some, Except.bind, if_pos hlen]
        rfl
      · simp only [Option.elim_some, Except.bind, if_neg hlen, Logged.result_recover,
          logWrite_result, reorderAndWriteCache]
        generalize writeKvs slab₁ 0 batchOffset _ = o
        cases o <;> rfl

/-- A block of `RpcInference`, after its chunks, updates its cache like a submission without a
mask. -/
theorem inferenceStep_slab {τ : Type} {b : RpcInference.Backend τ κ}
    {prefixLength batchOffset m : ℕ} {hidden : RpcInference.Batch τ} {out : List (List τ × List κ)}
    (hest : estimateMaxChunkLength b.chunkConfig hidden.rows.length hidden.width prefixLength =
      some m)
    (hout : RpcInference.forwardRows b m prefixLength batchOffset hidden = some out)
    (hwidth : ∀ r ∈ out.map Prod.fst, r.length = hidden.width) :
    (RpcInference.inferenceStep b prefixLength batchOffset hidden).map (fun out => out.2.slab) =
      (logUpdate b.slab ⟨prefixLength, none, none, batchOffset⟩ hidden.width
        (out.map Prod.snd)).result := by
  have hlength : (out.map Prod.snd).length = hidden.rows.length := by
    have := congrArg List.length (Fallible.mapM_eq_some_iff.mp hout)
    simp only [List.length_map, List.length_mapIdx] at this
    rw [List.length_map, this]
  rw [logUpdate_result, updateCache, selectPrefixLength_plain (.inl rfl), hlength,
    RpcInference.inferenceStep, hest]
  dsimp only
  by_cases hwin : b.slab.seqLen < prefixLength
  · rw [if_pos hwin, if_pos hwin]
    rfl
  · rw [if_neg hwin, if_neg hwin]
    by_cases hrows : b.slab.batch < batchOffset + hidden.rows.length
    · rw [if_pos hrows, if_pos hrows]
      rfl
    · rw [if_neg hrows, if_neg hrows, hout]
      simp only [RpcInference.outputBatch, dif_pos hwidth, finalizeCacheUpdate, activeMaskList,
        batchAligned]
      cases writeKvs b.slab prefixLength batchOffset (out.map Prod.snd) <;> rfl

theorem runBlock_plain {rows width : ℕ} (zero : κ) (chunks : ChunkConfig) (info : InferenceInfo)
    (range : ℕ × ℕ) (computed : ChunkKvs κ rows width) (slab : Slab κ) :
    ((Submission.plain info).runBlock zero chunks range computed slab).result =
      submitRows chunks computed range info slab := by
  rw [Submission.runBlock, submitRows,
    show (Submission.plain info).prefixLength = info.prefixLength from rfl]
  cases estimateMaxChunkLength chunks (range.2 - range.1) width info.prefixLength with
  | none => rfl
  | some m =>
    dsimp only
    rw [show (Submission.plain info).window (range.2 - range.1) width =
        selectPrefixLength info (range.2 - range.1) width from rfl,
      show (Submission.plain info).newKvs computed m = computed.newKvs m from rfl]
    by_cases hwin : slab.seqLen < selectPrefixLength info (range.2 - range.1) width
    · rw [if_pos hwin, if_pos hwin]
      rfl
    · rw [if_neg hwin, if_neg hwin]
      cases computed.newKvs m with
      | none => rfl
      | some new => exact logUpdate_result _ _ _ _

theorem submitAll_plain {zero : κ} {chunks : ℕ → ChunkConfig} {rows width : ℕ}
    {computed : ℕ → ChunkKvs κ rows width} (subs : List ((ℕ × ℕ) × InferenceInfo)) :
    ∀ slab : Slab κ, (submitAll zero chunks computed (subs.map fun s => (s.1, .plain s.2))
      [slab]).result = (runSubmissions (chunks 0) (computed 0) subs slab).map
        fun slab' => [slab'] := by
  induction subs with
  | nil => exact fun slab => rfl
  | cons sub subs ih =>
    intro slab
    obtain ⟨range, info⟩ := sub
    rw [List.map_cons, submitAll, Logged.result_bind, submit, Logged.result_bind, runBlock_plain,
      runSubmissions]
    cases submitRows (chunks 0) (computed 0) range info slab with
    | error e => rfl
    | ok slab₁ => exact ih slab₁

theorem submissions_live {cfg : Config} {r : FullBatch κ} {step : LiveStep}
    (hrows : r.rows = step.batchSize) (hwidth : r.width = step.width)
    (hoffset : r.batchOffset = step.batchOffset)
    (hmode : r.mode = .decode (some step.rawMask) (some step.positions)) :
    r.submissions cfg step.prefixLength =
      (submissions cfg step .full).map fun s => (s.1, .plain s.2) := by
  rw [FullBatch.submissions, hmode, submissions]
  dsimp only [Option.bind_some]
  rw [hrows, hwidth, hoffset]
  split_ifs
  · rw [List.map_map]
    rfl
  · rfl
  · rfl

def liveRequest (step : LiveStep) (computed : ℕ → ChunkKvs κ step.batchSize step.width) :
    FullBatch κ where
  rows := step.batchSize
  width := step.width
  computed := computed
  startFromPosition := some step.prefixLength
  batchOffset := step.batchOffset
  mode := .decode (some step.rawMask) (some step.positions)

/-- On one block it is a live step of `LiveDecode`. -/
theorem processFull_live {σ : Type} {cfg : Config} {chunks : ℕ → ChunkConfig} {zero : κ}
    {st : State σ κ} {step : LiveStep} {computed : ℕ → ChunkKvs κ step.batchSize step.width}
    {slab : Slab κ} (hslabs : st.slabs = [slab]) :
    (processFull cfg chunks zero st (liveRequest step computed)).result.map State.slabs =
      (processLive cfg (chunks 0) .full step (computed 0) slab).map fun slab' => [slab'] := by
  have hstart : st.start (.full (liveRequest step computed)) = step.prefixLength := rfl
  have hincrement : (liveRequest step computed).tokenIncrement = step.width := rfl
  have hsubs := @submissions_live κ cfg (liveRequest step computed) step rfl rfl rfl rfl
  have hnumel : (liveRequest step computed).numel ≠ 0 :=
    Nat.mul_ne_zero (Nat.ne_of_gt step.batch_pos) (Nat.ne_of_gt step.width_pos)
  rw [processFull, processLive, hstart, hincrement]
  by_cases hlong : cfg.maxLength < step.prefixLength + step.width
  · rw [if_pos hlong, if_pos hlong]
    rfl
  · rw [if_neg hlong, if_neg hlong, if_neg hnumel, Logged.result_bind, hsubs, hslabs,
      submitAll_plain]
    change Except.map State.slabs (Except.bind (Except.map (fun slab' => [slab'])
      (runSubmissions (chunks 0) (computed 0) (submissions cfg step .full) slab)) _) = _
    cases runSubmissions (chunks 0) (computed 0) (submissions cfg step .full) slab <;> rfl

/-! ### Entries -/

/-- The tokens were for positions below `maxLength`, and they are there. -/
def Write.InRange (maxLength : ℕ) (w : Write) : Prop :=
  w.slot = w.position ∧ w.position + w.tokens ≤ maxLength

instance (maxLength : ℕ) (w : Write) : Decidable (w.InRange maxLength) :=
  inferInstanceAs (Decidable (_ ∧ _))

theorem placement_slot {seqLen start : ℕ} {kv : List κ} {p : ℕ × List κ} (hpos : 0 < seqLen)
    (hfit : start + kv.length ≤ seqLen) (h : placement seqLen start kv = some p) :
    p.1 = start := by
  rw [placement] at h
  by_cases hlt : start < seqLen
  · rw [if_pos ⟨hlt, hfit⟩] at h
    cases h
    rfl
  · -- at the end of the cache there is room for no tokens, and `copy_` refuses these
    obtain rfl : kv = [] := List.eq_nil_of_length_eq_zero (by omega)
    rw [if_neg (by omega)] at h
    simp only [List.drop_nil, ite_self, List.length_nil] at h
    rw [if_neg (by omega)] at h
    cases h

/-- What `copy_` refuses: more than one slot, but fewer than the whole row of the cache. -/
theorem placement_eq_none {seqLen start : ℕ} {kv : List κ} (hfit : seqLen < start + kv.length)
    (hone : 1 < kv.length) (hlt : kv.length < seqLen) : placement seqLen start kv = none := by
  rw [placement, if_neg (by omega), if_neg (show ¬seqLen = 0 by omega),
    show kv.length - seqLen = 0 by omega, List.drop_zero, if_neg (by omega)]
  cases kv with
  | nil => cases hone
  | cons x kv =>
    cases kv with
    | nil => exact absurd hone (lt_irrefl 1)
    | cons y kv => rfl

section

variable {cfg : Config} {slab : Slab κ} {start batchOffset width : ℕ} {new : List (List κ)}

theorem maxLength_le_cacheSlots (cfg : Config) : cfg.maxLength ≤ cacheSlots cfg := le_max_right _ _

theorem cacheSlots_pos (cfg : Config) : 0 < cacheSlots cfg := lt_of_lt_of_le Nat.one_pos (le_max_left _ _)

theorem logWrite_satisfies (hslots : slab.seqLen = cacheSlots cfg)
    (hwidth : ∀ kv ∈ new, kv.length = width) (hfit : start + width ≤ cfg.maxLength) :
    (logWrite slab start batchOffset new).Satisfies (Write.InRange cfg.maxLength)
      (fun slab' => slab'.seqLen = cacheSlots cfg) := by
  rw [logWrite]
  cases hw : writeKvs slab start batchOffset new with
  | none => exact Logged.satisfies_fail _
  | some slab' =>
    refine ⟨fun w hmem => ?_, fun a ha => ?_⟩
    · obtain ⟨kv, hkv, hentry⟩ := List.mem_filterMap.mp hmem
      obtain ⟨p, hplaced, hw⟩ := Option.map_eq_some_iff.mp hentry
      subst hw
      have hlen := hwidth kv hkv
      have hle := maxLength_le_cacheSlots cfg
      have hpos := cacheSlots_pos cfg
      have hslot : p.1 = start := placement_slot (by omega) (by omega) hplaced
      exact ⟨hslot, by rw [hlen]; exact hfit⟩
    · cases ha
      rw [(writeKvs_eq_some hw).1]
      exact hslots

theorem logWrite_refused (hnew : new ≠ []) (hwidth : ∀ kv ∈ new, kv.length = width)
    (hfit : slab.seqLen < start + width) (hone : 1 < width) (hlt : width < slab.seqLen) :
    (logWrite slab start batchOffset new).Refused := by
  have hnone : writeKvs slab start batchOffset new = none := by
    obtain ⟨kv, hkv⟩ := List.exists_mem_of_ne_nil new hnew
    have hlen := hwidth kv hkv
    have hp := @placement_eq_none κ slab.seqLen start kv (by omega) (by omega) (by omega)
    cases hw : writeKvs slab start batchOffset new with
    | none => rfl
    | some slab' =>
      have := (writeKvs_eq_some hw).2 kv hkv
      rw [hp] at this
      cases this
  rw [logWrite, hnone]
  exact Logged.refused_fail _

theorem logRuns_satisfies (hwidth : ∀ kv ∈ new, kv.length = width) (runs : List (ℕ × ℕ × ℕ))
    (hfit : ∀ q ∈ runs, q.2.2 + width ≤ cfg.maxLength) :
    ∀ {slab : Slab κ}, slab.seqLen = cacheSlots cfg →
      (logRuns batchOffset new runs slab).Satisfies (Write.InRange cfg.maxLength)
        (fun slab' => slab'.seqLen = cacheSlots cfg) := by
  induction runs with
  | nil => exact fun hslots => Logged.satisfies_pure hslots
  | cons run runs ih =>
    intro slab hslots
    obtain ⟨rowStart, rowEnd, startPosition⟩ := run
    rw [logRuns]
    have hslice : ∀ kv ∈ (new.drop rowStart).take (rowEnd - rowStart), kv.length = width :=
      fun kv hkv => hwidth kv (List.mem_of_mem_drop (List.mem_of_mem_take hkv))
    have hfirst := hfit (rowStart, rowEnd, startPosition) List.mem_cons_self
    refine (logWrite_satisfies hslots hslice hfirst).bind fun slab₁ hslots₁ => ?_
    exact ih (fun q hq => hfit q (List.mem_cons_of_mem _ hq)) hslots₁

end

/-! ### Updates -/

section

variable {cfg : Config} {slab : Slab κ} {width : ℕ} {new : List (List κ)} {info : InferenceInfo}

/-- An update with the tokens of a chunk writes below `max_length` when the step does and the rows
that have a position of their own do. -/
theorem logUpdate_satisfies {n : ℕ} (hslots : slab.seqLen = cacheSlots cfg)
    (hwidth : ∀ kv ∈ new, kv.length = n) (hfit : info.prefixLength + n ≤ cfg.maxLength)
    (hlive : ∀ mask positions, activeMaskList info.activeMask new.length = some mask →
      rowPositionList info.prefillLength new.length = some positions →
      ∀ position, (true, position) ∈ mask.zip positions → position + n ≤ cfg.maxLength) :
    (logUpdate slab info width new).Satisfies (Write.InRange cfg.maxLength)
      (fun slab' => slab'.seqLen = cacheSlots cfg) := by
  rw [logUpdate]
  split_ifs
  · exact Logged.satisfies_fail _
  · exact Logged.satisfies_fail _
  · cases hm : activeMaskList info.activeMask new.length with
    | none =>
      dsimp only
      rw [selectPrefixLength_plain (.inl hm)]
      exact logWrite_satisfies hslots hwidth hfit
    | some mask =>
      apply logRuns_satisfies hwidth _ _ hslots
      intro q hq
      have hmem := (mem_activePositionRowRuns hq).1
      cases hp : rowPositionList info.prefillLength new.length with
      | some positions =>
        rw [hp] at hmem
        exact hlive mask positions hm hp _ hmem
      | none =>
        rw [hp] at hmem
        have hposition := List.eq_of_mem_replicate (List.of_mem_zip hmem).2
        rw [selectPrefixLength_plain (.inr hp)] at hposition
        rw [hposition]
        exact hfit

/-- When the cache refuses an update whose rows have no positions of their own. -/
theorem logUpdate_refused (hprefill : info.prefillLength = none)
    (hwidth : ∀ kv ∈ new, kv.length = width)
    (h : slab.seqLen < info.prefixLength ∨ slab.batch < info.batchOffset + new.length ∨
      (new ≠ [] ∧ slab.seqLen < info.prefixLength + width ∧ 1 < width ∧ width < slab.seqLen ∧
        ∀ mask, activeMaskList info.activeMask new.length = some mask → true ∈ mask)) :
    (logUpdate slab info width new).Refused := by
  have hnone : rowPositionList info.prefillLength new.length = none := by
    rw [hprefill]
    rfl
  rw [logUpdate, selectPrefixLength_plain (.inr hnone)]
  by_cases hwin : slab.seqLen < info.prefixLength
  · rw [if_pos hwin]
    exact Logged.refused_fail _
  · rw [if_neg hwin]
    by_cases hrows : slab.batch < info.batchOffset + new.length
    · rw [if_pos hrows]
      exact Logged.refused_fail _
    · rw [if_neg hrows]
      obtain ⟨hnew, hfit, hone, hlt, hactive⟩ := (h.resolve_left hwin).resolve_left hrows
      cases hm : activeMaskList info.activeMask new.length with
      | none => exact logWrite_refused hnew hwidth hfit hone hlt
      | some mask =>
        dsimp only
        rw [hnone, Option.getD_none]
        obtain ⟨i, hi, htrue⟩ := List.mem_iff_getElem.mp (hactive mask hm)
        have hlen := (batchAligned_length hm).2
        obtain ⟨q, hq, -⟩ := mem_runs.mpr
          ⟨show mask[i]? = some true by rw [List.getElem?_eq_getElem hi, htrue],
            show (List.replicate new.length info.prefixLength)[i]? = some info.prefixLength by
              rw [List.getElem?_replicate, if_pos (by omega)]⟩
        cases hruns : activePositionRowRuns mask
            (List.replicate new.length info.prefixLength) with
        | nil =>
          rw [hruns] at hq
          cases hq
        | cons run runs =>
          obtain ⟨hmem, hrun, hend⟩ := mem_activePositionRowRuns (by rw [hruns]; exact
            List.mem_cons_self)
          obtain ⟨rowStart, rowEnd, startPosition⟩ := run
          obtain rfl : startPosition = info.prefixLength :=
            List.eq_of_mem_replicate (List.of_mem_zip hmem).2
          rw [logRuns]
          apply Logged.Refused.bind
          apply @logWrite_refused κ slab _ _ width
          · intro hnil
            have := congrArg List.length hnil
            simp only [List.length_take, List.length_drop, List.length_nil] at this hrun hend
            omega
          · exact fun kv hkv => hwidth kv (List.mem_of_mem_drop (List.mem_of_mem_take hkv))
          · exact hfit
          · exact hone
          · exact hlt

/-- A tree is written below `max_length` when it ends there before and after the compaction. -/
theorem logReorder_satisfies (zero : κ) {batchOffset : ℕ} {ids : List (List ℤ)}
    (hslots : slab.seqLen = cacheSlots cfg) (hwidth : ∀ kv ∈ new, kv.length = width)
    (hfit : cacheLenOf ids + width ≤ cfg.maxLength)
    (hcompact : cacheLenOf ids ≠ 0 → maxNewLength (cacheLenOf (extendIds ids (cacheLenOf ids) width))
      (extendIds ids (cacheLenOf ids) width) ≤ cfg.maxLength) :
    (logReorder zero slab batchOffset ids width new).Satisfies (Write.InRange cfg.maxLength)
      (fun slab' => slab'.seqLen = cacheSlots cfg) := by
  rw [logReorder]
  by_cases hzero : cacheLenOf ids = 0
  · rw [if_pos hzero]
    exact (logWrite_satisfies hslots hwidth (by omega)).recover hslots
  · rw [if_neg hzero]
    refine ((logWrite_satisfies hslots hwidth hfit).bind fun slab₁ hslots₁ => ?_).recover hslots
    dsimp only
    split_ifs
    · exact Logged.satisfies_pure hslots₁
    · have hstart : 0 + maxNewLength (cacheLenOf (extendIds ids (cacheLenOf ids) width))
          (extendIds ids (cacheLenOf ids) width) ≤ cfg.maxLength := by
        rw [Nat.zero_add]
        exact hcompact hzero
      refine (logWrite_satisfies hslots₁ (fun kv hkv => ?_) hstart).recover hslots₁
      obtain ⟨b, hb, rfl⟩ := List.mem_mapIdx.mp hkv
      exact compactRow_length _ _ _ _

end

end BloomBee.LengthGuard
