import BloomBee.Sanity.RpcRows
import BloomBee.Spec.BackendStep
import Mathlib.Algebra.GroupWithZero.Nat

/-! Chunks and hypotheses in an inference step. The chunks of a row all run over the same cached
prefix, so the first position of a later chunk attends to too little (`runRow_context`), and a step
in chunks is the step in one piece only if there is a single chunk. The step reads and writes each
row of the cache in place, so it honours `hypo_ids` only where the rows they exchange are the
same. -/

set_option autoImplicit false

namespace BloomBee.BackendStep

open RpcInference

variable {τ κ : Type} {att : Attention τ κ} {past : List κ} {xs : List τ}

/-! ### Chunks -/

theorem positionIds_length (cacheLen chunkLength offset : ℕ) :
    (positionIds cacheLen chunkLength offset).length = chunkLength := by
  rw [positionIds, List.length_map, List.length_range]

theorem forward_length (att : Attention τ κ) (past : List κ) (xs : List τ) (ids : List ℕ) :
    (att.forward past xs ids).1.length = min xs.length ids.length := by
  rw [Attention.forward, List.length_mapIdx, List.length_zip]

/-- Position `i` of a chunk attends to the cached prefix and to `i + 1` tokens. -/
theorem forward_context {ids : List ℕ} {i : ℕ} {p : Position τ κ}
    (h : (att.forward past xs ids).1[i]? = some p) :
    p.context.length = past.length + (i + 1) := by
  have hi := (List.getElem?_eq_some_iff.mp h).1
  rw [forward_length] at hi
  simp only [Attention.forward, List.getElem?_mapIdx, Option.map_eq_some_iff] at h
  obtain ⟨x, -, rfl⟩ := h
  rw [List.length_append, List.length_take, List.length_zipWith]
  omega

theorem chunkLoop_fst (att : Attention τ κ) (m cacheLen : ℕ) (past : List κ) (xs : List τ)
    (offsets : List ℕ) : ∀ acc, (chunkLoop att m cacheLen past xs offsets acc).1 =
      acc.1 ++ offsets.flatMap fun offset =>
        (att.forward past ((xs.drop offset).take m)
          (positionIds cacheLen (min m (xs.length - offset)) offset)).1 := by
  induction offsets with
  | nil =>
    intro acc
    rw [chunkLoop, List.flatMap_nil, List.append_nil]
  | cons offset offsets ih =>
    intro acc
    rw [chunkLoop, ih, List.flatMap_cons, List.append_assoc]

theorem runRow_single {m cacheLen : ℕ} (hpos : 0 < xs.length) (hle : xs.length ≤ m) :
    runRow att m cacheLen past xs =
      att.forward past xs (positionIds cacheLen xs.length 0) := by
  rw [runRow, chunkOffsets_single hpos hle, chunkLoop, chunkLoop]
  simp only [List.nil_append, List.drop_zero, Nat.sub_zero]
  rw [List.take_of_length_le hle, Nat.min_eq_right hle]

/-- The first position of the second chunk attends to the cached prefix and to itself. -/
theorem runRow_context {m cacheLen : ℕ} (hpos : 0 < m) (hlt : m < xs.length) :
    ∃ p, (runRow att m cacheLen past xs).1[m]? = some p ∧
      p.context.length = past.length + 1 := by
  obtain ⟨rest, hoffsets⟩ := chunkOffsets_several hpos hlt
  have hfirst : (att.forward past ((xs.drop 0).take m)
      (positionIds cacheLen (min m (xs.length - 0)) 0)).1.length = m := by
    rw [forward_length, positionIds_length, List.length_take, List.length_drop]
    omega
  have hsecond : 0 < (att.forward past ((xs.drop m).take m)
      (positionIds cacheLen (min m (xs.length - m)) m)).1.length := by
    rw [forward_length, positionIds_length, List.length_take, List.length_drop]
    omega
  refine ⟨_, ?_, forward_context (List.getElem?_eq_getElem hsecond)⟩
  rw [runRow, hoffsets, chunkLoop_fst, List.flatMap_cons, List.flatMap_cons, List.nil_append,
    List.getElem?_append_right (by omega), hfirst, Nat.sub_self,
    List.getElem?_append_left hsecond, List.getElem?_eq_getElem hsecond]

theorem inferenceStep_ok {c : Slab κ} {s : Step τ} {r : StepResult τ κ}
    (h : inferenceStep att c s = .ok r) :
    0 < s.hidden.width ∧ r.rows = (runRows att c s).map Prod.fst ∧
      writeKvs c s.prefixLength s.batchOffset ((runRows att c s).map Prod.snd) = some r.slab := by
  unfold inferenceStep at h
  split_ifs at h with hlen hrows hzero
  cases hwrite : writeKvs c s.prefixLength s.batchOffset ((runRows att c s).map Prod.snd) with
  | none =>
    rw [hwrite] at h
    cases h
  | some slab =>
    rw [hwrite] at h
    cases h
    exact ⟨Nat.pos_of_ne_zero hzero, rfl, rfl⟩

theorem runRows_onePiece {c : Slab κ} {s : Step τ} (hpos : 0 < s.hidden.width)
    (hle : s.hidden.width ≤ s.maxChunkLength) : runRows att c s.onePiece = runRows att c s := by
  unfold runRows
  refine List.ext_getElem (by rw [List.length_mapIdx, List.length_mapIdx]; rfl) ?_
  intro i h₁ h₂
  rw [List.length_mapIdx] at h₂
  have hwidth : (s.hidden.rows[i]).length = s.hidden.width :=
    s.hidden.rows_width _ (List.getElem_mem h₂)
  simp only [List.getElem_mapIdx, Step.onePiece]
  rw [runRow_single (by omega) (by omega), runRow_single (by omega) (by omega)]

/-- A step is the same in chunks and in one piece, in what every position attends to, in the
position ids, the outputs and the cache it leaves, if and only if it has a single chunk. -/
theorem chunked_eq_onePiece_iff {cfg : ChunkConfig} {c : Slab κ} {s : Step τ}
    {one : StepResult τ κ}
    (hest : estimateMaxChunkLength cfg s.hidden.rows.length s.hidden.width s.prefixLength =
      some s.maxChunkLength)
    (hone : inferenceStep att c s.onePiece = .ok one) :
    inferenceStep att c s = .ok one ↔ s.hidden.width ≤ s.maxChunkLength := by
  obtain ⟨hm, hbatch⟩ := estimateMaxChunkLength_pos hest
  obtain ⟨hpos, hrows, -⟩ := inferenceStep_ok hone
  constructor
  · intro hstep
    by_contra hlt
    obtain ⟨-, hrows', -⟩ := inferenceStep_ok hstep
    have hwidth : (s.hidden.rows[0]).length = s.hidden.width :=
      s.hidden.rows_width _ (List.getElem_mem hbatch)
    -- the first row, where its second chunk begins
    obtain ⟨p, hp, hshort⟩ := @runRow_context τ κ att
      (selectCache c s.prefixLength s.batchOffset s.hypoIds 0) s.hidden.rows[0]
      s.maxChunkLength s.prefixLength hm (by omega)
    have hsame : (runRows att c s).map Prod.fst = (runRows att c s.onePiece).map Prod.fst := by
      rw [← hrows', ← hrows]
    have hzero := congrArg (fun l => l[0]?) hsame
    simp only [runRows, Step.onePiece, List.getElem?_map, List.getElem?_mapIdx,
      List.getElem?_eq_getElem hbatch, Option.map_some, Option.some.injEq] at hzero
    rw [hzero, runRow_single (by omega) (by omega)] at hp
    have hlong := forward_context hp
    omega
  · intro hle
    rw [← hone]
    unfold inferenceStep
    rw [@runRows_onePiece τ κ att c s hpos hle]
    rfl

def tagged : Attention ℕ (ℕ × ℕ) where
  keyValue x p := (x, p)
  output _ x _ := x

def twoRows (first second : List (ℕ × ℕ)) (h : first.length = 4 ∧ second.length = 4) :
    Slab (ℕ × ℕ) where
  seqLen := 4
  batch := 2
  row b := if b = 0 then first else second
  row_length b := by
    split_ifs
    · exact h.1
    · exact h.2

def blank : Slab (ℕ × ℕ) := twoRows (List.replicate 4 (0, 0)) (List.replicate 4 (0, 0)) ⟨rfl, rfl⟩

def promptStep (maxChunkLength : ℕ) : Step ℕ := ⟨0, 0, ⟨2, [[5, 6]], by decide⟩, [0], maxChunkLength⟩

theorem chunked_eq_onePiece_iff_prompt :
    ∃ one, inferenceStep tagged blank (promptStep 2) = .ok one ∧
      one.slab.row 0 = [(5, 0), (6, 1), (0, 0), (0, 0)] := by
  have hest : estimateMaxChunkLength ⟨1, 1, 4⟩ 1 2 0 = some 2 := rfl
  refine ⟨_, (@chunked_eq_onePiece_iff ℕ (ℕ × ℕ) tagged ⟨1, 1, 4⟩ blank (promptStep 2) _ hest
    rfl).mpr (by decide), by decide⟩

/-- With room for one token in a chunk, the second token attends to itself only, and it is the only
one that the cache keeps. -/
theorem chunked_loses_token :
    estimateMaxChunkLength ⟨1, 1, 2⟩ 1 2 0 = some 1 ∧
      ∃ r one, inferenceStep tagged blank (promptStep 1) = .ok r ∧
        inferenceStep tagged blank (promptStep 1).onePiece = .ok one ∧
        r.rows = [[⟨[(5, 0)], 0, 5⟩, ⟨[(6, 1)], 1, 6⟩]] ∧
        one.rows = [[⟨[(5, 0)], 0, 5⟩, ⟨[(5, 0), (6, 1)], 1, 6⟩]] ∧
        r.slab.row 0 = [(6, 1), (0, 0), (0, 0), (0, 0)] ∧
        one.slab.row 0 = [(5, 0), (6, 1), (0, 0), (0, 0)] :=
  ⟨rfl, _, _, rfl, rfl, by decide, by decide, by decide, by decide⟩

/-! ### The block of a backend -/

/-- The block of a backend that is causal attention. Its chunks never raise. -/
def Attention.block (att : Attention τ κ) : Block τ κ where
  forward past xs :=
    let out := att.forward past xs (positionIds past.length xs.length 0)
    (out.1.map Position.output, out.2)
  forwardChunk _ offset past xs :=
    let out := att.forward past xs (positionIds past.length xs.length offset)
    some (out.1.map Position.output, out.2)
  out_length past xs := by
    rw [List.length_map, forward_length, positionIds_length, Nat.min_self]
  kv_length past xs := by
    rw [Attention.forward, List.length_zipWith, positionIds_length, Nat.min_self]
  chunk_whole _ _ := rfl

theorem chunkLoop_snd (att : Attention τ κ) (m cacheLen : ℕ) (past : List κ) (xs : List τ)
    (offsets : List ℕ) : ∀ offset acc,
    (chunkLoop att m cacheLen past xs (offset :: offsets) acc).2 =
      (att.forward past ((xs.drop (offsets.getLastD offset)).take m)
        (positionIds cacheLen (min m (xs.length - offsets.getLastD offset))
          (offsets.getLastD offset))).2 := by
  induction offsets with
  | nil => exact fun offset acc => rfl
  | cons next offsets ih =>
    intro offset acc
    rw [chunkLoop, ih next, List.getLastD_cons]

theorem block_runRow {m : ℕ} (hpos : 0 < xs.length) :
    att.block.runRow m past xs =
      some ((runRow att m past.length past xs).1.map Position.output,
        (runRow att m past.length past xs).2) := by
  obtain ⟨rest, hoffsets⟩ : ∃ rest, chunkOffsets xs.length m xs.length 0 = 0 :: rest := by
    obtain ⟨k, hk⟩ : ∃ k, xs.length = k + 1 := ⟨xs.length - 1, by omega⟩
    rw [hk, chunkOffsets, if_pos (by omega)]
    exact ⟨_, rfl⟩
  have hlength (offset : ℕ) :
      ((xs.drop offset).take m).length = min m (xs.length - offset) := by
    rw [List.length_take, List.length_drop]
  rw [Block.runRow, runRow, hoffsets]
  simp only [Attention.block, hlength]
  rw [runChunks_some, chunkLoop_snd, chunkLoop_fst, List.nil_append, List.map_flatMap]

theorem sum_chunkOffsets {n m : ℕ} (hm : 0 < m) (fuel : ℕ) : ∀ offset, n - offset ≤ fuel →
    ((chunkOffsets n m fuel offset).map fun o => min m (n - o)).sum = n - offset := by
  induction fuel with
  | zero =>
    intro offset hfuel
    rw [chunkOffsets, List.map_nil, List.sum_nil]
    omega
  | succ fuel ih =>
    intro offset hfuel
    rw [chunkOffsets]
    split_ifs with hlt
    · rw [List.map_cons, List.sum_cons, ih _ (by omega)]
      omega
    · rw [List.map_nil, List.sum_nil]
      omega

theorem runRow_length {m cacheLen : ℕ} (hm : 0 < m) :
    (runRow att m cacheLen past xs).1.length = xs.length := by
  have hlength (offset : ℕ) : (att.forward past ((xs.drop offset).take m)
      (positionIds cacheLen (min m (xs.length - offset)) offset)).1.length =
        min m (xs.length - offset) := by
    rw [forward_length, positionIds_length, List.length_take, List.length_drop, Nat.min_self]
  rw [runRow, chunkLoop_fst, List.nil_append, List.length_flatMap]
  simp only [hlength]
  exact sum_chunkOffsets hm _ 0 (Nat.sub_le _ _)

/-- With the chunk length that is estimated, the step of a backend is this step. -/
theorem rpc_inferenceStep {cfg : ChunkConfig} {c : Slab κ} {s : Step τ}
    (hest : estimateMaxChunkLength cfg s.hidden.rows.length s.hidden.width s.prefixLength =
      some s.maxChunkLength) :
    (RpcInference.inferenceStep ⟨att.block, c, cfg⟩ s.prefixLength s.batchOffset s.hidden).map
        (fun out => (out.1.rows, out.2.slab)) =
      (inferenceStep att c s).map fun r => (r.rows.map (·.map Position.output), r.slab) := by
  obtain ⟨hm, hbatch⟩ := estimateMaxChunkLength_pos hest
  simp only [RpcInference.inferenceStep, hest, inferenceStep]
  split_ifs with hlen hrows hwidth
  · rfl
  · rfl
  · -- no chunk runs
    have hnil : s.hidden.rows[0] = [] := by
      have := s.hidden.rows_width _ (List.getElem_mem hbatch)
      exact List.length_eq_zero_iff.mp (this.trans hwidth)
    have hnone : forwardRows (⟨att.block, c, cfg⟩ : Backend τ κ) s.maxChunkLength s.prefixLength
        s.batchOffset s.hidden = none := by
      obtain ⟨row, rest, hcons⟩ := List.exists_cons_of_length_pos hbatch
      simp only [hcons, List.getElem_cons_zero] at hnil
      simp only [forwardRows, hcons, hnil, List.mapIdx_cons, List.mapM_cons]
      rfl
    rw [hnone]
    rfl
  · have hpast (i : ℕ) : ((c.row i).take s.prefixLength).length = s.prefixLength := by
      rw [List.length_take, c.row_length]
      omega
    have hsome : forwardRows (⟨att.block, c, cfg⟩ : Backend τ κ) s.maxChunkLength s.prefixLength
        s.batchOffset s.hidden =
        some ((runRows att c s).map fun run => (run.1.map Position.output, run.2)) := by
      rw [forwardRows, Fallible.mapM_eq_some_iff]
      refine List.ext_getElem (by simp [runRows]) fun i h₁ h₂ => ?_
      simp only [List.length_map, List.length_mapIdx] at h₁
      have hpos : 0 < (s.hidden.rows[i]).length := by
        rw [s.hidden.rows_width _ (List.getElem_mem h₁)]
        omega
      simp only [List.getElem_map, List.getElem_mapIdx, runRows, selectCache, id]
      rw [block_runRow hpos, hpast]
    have hfit : ∀ r ∈ ((runRows att c s).map fun run =>
        (run.1.map Position.output, run.2)).map Prod.fst, r.length = s.hidden.width := by
      intro r hr
      rw [List.map_map] at hr
      obtain ⟨run, hrun, rfl⟩ := List.mem_map.mp hr
      obtain ⟨i, hi, rfl⟩ := List.mem_mapIdx.mp hrun
      rw [Function.comp_apply, List.length_map, runRow_length hm]
      exact s.hidden.rows_width _ (List.getElem_mem hi)
    have hkvs : ((runRows att c s).map fun run => (run.1.map Position.output, run.2)).map
        Prod.snd = (runRows att c s).map Prod.snd := by
      rw [List.map_map]
      rfl
    rw [hsome]
    simp only [outputBatch, dif_pos hfit, hkvs]
    cases writeKvs c s.prefixLength s.batchOffset ((runRows att c s).map Prod.snd) with
    | none => rfl
    | some slab =>
      simp only [Except.map, List.map_map]
      rfl

/-! ### Hypotheses -/

theorem forward_kvs_length (att : Attention τ κ) (past : List κ) (xs : List τ) (ids : List ℕ) :
    (att.forward past xs ids).2.length ≤ xs.length := by
  rw [Attention.forward, List.length_zipWith]
  exact Nat.min_le_left _ _

theorem runRow_kvs_length (att : Attention τ κ) (m cacheLen : ℕ) (past : List κ) (xs : List τ) :
    (runRow att m cacheLen past xs).2.length ≤ xs.length := by
  have hloop : ∀ (offsets : List ℕ) (acc : List (Position τ κ) × List κ),
      acc.2.length ≤ xs.length →
        (chunkLoop att m cacheLen past xs offsets acc).2.length ≤ xs.length := by
    intro offsets
    induction offsets with
    | nil => exact fun acc hacc => hacc
    | cons offset offsets ih =>
      intro acc _
      refine ih _ (Nat.le_trans (forward_kvs_length att past _ _) ?_)
      rw [List.length_take, List.length_drop]
      omega
  exact hloop _ _ (Nat.zero_le _)

/-- The step has tokens, it lies in the cache, its `hypo_ids` are rows of the step, and its chunks
are as long as estimated for it. -/
structure Step.InRange (s : Step τ) (cfg : ChunkConfig) (seqLen batch : ℕ) : Prop where
  tokens : 0 < s.hidden.width
  slots : s.prefixLength + s.hidden.width ≤ seqLen
  rows : s.batchOffset + s.hidden.rows.length ≤ batch
  hypos : s.hypoIds.length = s.hidden.rows.length
  hypos_lt : ∀ h ∈ s.hypoIds, h < s.hidden.rows.length
  estimated : estimateMaxChunkLength cfg s.hidden.rows.length s.hidden.width s.prefixLength =
    some s.maxChunkLength

/-- A step in range runs every row over its own cached prefix, and appends to that. -/
theorem inferenceStep_inRange {cfg : ChunkConfig} {c : Slab κ} {s : Step τ}
    (h : s.InRange cfg c.seqLen c.batch) :
    ∃ r, inferenceStep att c s = .ok r ∧ r.rows = (runRows att c s).map Prod.fst ∧
      r.slab.seqLen = c.seqLen ∧ r.slab.batch = c.batch ∧
      ∀ b xs, s.hidden.rows[b]? = some xs → ∀ run,
        run = runRow att s.maxChunkLength s.prefixLength
          ((c.row (s.batchOffset + b)).take s.prefixLength) xs →
        (r.slab.row (s.batchOffset + b)).take (s.prefixLength + run.2.length) =
          (c.row (s.batchOffset + b)).take s.prefixLength ++ run.2 := by
  obtain ⟨htokens, hslots, hrows, -, -, -⟩ := h
  have hlen : ∀ kv ∈ (runRows att c s).map Prod.snd,
      s.prefixLength < c.seqLen ∧ s.prefixLength + kv.length ≤ c.seqLen := by
    intro kv hkv
    obtain ⟨run, hrun, rfl⟩ := List.mem_map.mp hkv
    obtain ⟨i, hi, rfl⟩ := List.mem_mapIdx.mp hrun
    have hwidth := s.hidden.rows_width _ (List.getElem_mem hi)
    have := runRow_kvs_length att s.maxChunkLength s.prefixLength
      (selectCache c s.prefixLength s.batchOffset s.hypoIds i) s.hidden.rows[i]
    omega
  rw [inferenceStep, if_neg (by omega), if_neg (by omega), if_neg (by omega)]
  simp only [writeKvs, mapM_placement hlen, Option.map_some]
  refine ⟨_, rfl, rfl, rfl, rfl, ?_⟩
  intro b xs hb run hrun
  have hlong : s.prefixLength + run.2.length ≤ (c.row (s.batchOffset + b)).length := by
    have := runRow_kvs_length att s.maxChunkLength s.prefixLength
      ((c.row (s.batchOffset + b)).take s.prefixLength) xs
    have hwidth := s.hidden.rows_width xs (List.mem_of_getElem? hb)
    rw [c.row_length, hrun]
    omega
  have hget : (((runRows att c s).map Prod.snd).map fun kv => (s.prefixLength, kv))[b]? =
      some (s.prefixLength, run.2) := by
    rw [List.getElem?_map, List.getElem?_map, runRows, List.getElem?_mapIdx, hb, hrun]
    rfl
  simp only [Nat.le_add_right, if_true, Nat.add_sub_cancel_left, hget]
  exact overwrite_take_new hlong

/-- Every row of the step is causal attention over what the row of its hypothesis had cached and
over its own tokens, and its cache is that, followed by the keys and values of all its tokens. -/
def Honoured (att : Attention τ κ) (c : Slab κ) (s : Step τ) : Prop :=
  ∃ r, inferenceStep att c s = .ok r ∧
    ∀ b xs h, s.hidden.rows[b]? = some xs → s.hypoIds[b]? = some h →
      ∀ past, past = (c.row (s.batchOffset + h)).take s.prefixLength →
        ∀ run, run = att.forward past xs (positionIds s.prefixLength xs.length 0) →
          r.rows[b]? = some run.1 ∧
            (r.slab.row (s.batchOffset + b)).take (s.prefixLength + xs.length) = past ++ run.2

def SamePrefixes (c : Slab κ) (s : Step τ) : Prop :=
  ∀ b h, s.hypoIds[b]? = some h →
    (c.row (s.batchOffset + h)).take s.prefixLength =
      (c.row (s.batchOffset + b)).take s.prefixLength

theorem forward_kvs_whole (att : Attention τ κ) (past : List κ) (xs : List τ) (cacheLen : ℕ) :
    (att.forward past xs (positionIds cacheLen xs.length 0)).2.length = xs.length := by
  rw [Attention.forward, List.length_zipWith, positionIds_length, Nat.min_self]

theorem width_le_of_honoured {cfg : ChunkConfig} {c : Slab κ} {s : Step τ}
    (hin : s.InRange cfg c.seqLen c.batch) (h : Honoured att c s) :
    s.hidden.width ≤ s.maxChunkLength := by
  obtain ⟨hm, hbatch⟩ := estimateMaxChunkLength_pos hin.estimated
  by_contra hlt
  obtain ⟨r, hr, hall⟩ := h
  obtain ⟨-, hrows, -⟩ := inferenceStep_ok hr
  have hslots := hin.slots
  have hxs : s.hidden.rows[0]? = some s.hidden.rows[0] := List.getElem?_eq_getElem hbatch
  have hwidth : (s.hidden.rows[0]).length = s.hidden.width :=
    s.hidden.rows_width _ (List.getElem_mem hbatch)
  obtain ⟨hypoId, hhypo⟩ : ∃ hypoId, s.hypoIds[0]? = some hypoId :=
    ⟨_, List.getElem?_eq_getElem (hin.hypos ▸ hbatch)⟩
  have hown := (hall 0 _ _ hxs hhypo _ rfl _ rfl).1
  -- the first row, where its second chunk begins
  obtain ⟨p, hp, hshort⟩ := @runRow_context τ κ att
    (selectCache c s.prefixLength s.batchOffset s.hypoIds 0) s.hidden.rows[0]
    s.maxChunkLength s.prefixLength hm (by omega)
  rw [hrows, List.getElem?_map, runRows, List.getElem?_mapIdx, hxs, Option.map_some,
    Option.map_some, Option.some.injEq] at hown
  rw [hown] at hp
  have hlong := forward_context hp
  simp only [selectCache, List.length_take, c.row_length] at hshort hlong
  omega

theorem honoured_iff {cfg : ChunkConfig} {c : Slab κ} {s : Step τ}
    (hin : s.InRange cfg c.seqLen c.batch) :
    Honoured att c s ↔ s.hidden.width ≤ s.maxChunkLength ∧ SamePrefixes c s := by
  obtain ⟨r, hr, hrows, hseq, hbatch, hcache⟩ := @inferenceStep_inRange τ κ att cfg c s hin
  have htokens := hin.tokens
  have hwidth : ∀ (b : ℕ) (xs : List τ), s.hidden.rows[b]? = some xs → xs.length = s.hidden.width :=
    fun b xs hxs => s.hidden.rows_width xs (List.mem_of_getElem? hxs)
  -- in a single chunk a row is its forward pass
  have hsingle : s.hidden.width ≤ s.maxChunkLength →
      ∀ (b : ℕ) (xs : List τ), s.hidden.rows[b]? = some xs →
        ∀ past, runRow att s.maxChunkLength s.prefixLength past xs =
        att.forward past xs (positionIds s.prefixLength xs.length 0) := by
    intro hle b xs hxs past
    have := hwidth b xs hxs
    exact runRow_single (by omega) (by omega)
  constructor
  · intro hhon
    have hle := width_le_of_honoured hin hhon
    refine ⟨hle, ?_⟩
    obtain ⟨r', hr', hall⟩ := hhon
    intro b h hb
    rw [hr, Except.ok.injEq] at hr'
    subst hr'
    have hlt : b < s.hidden.rows.length := by
      rw [← hin.hypos]
      exact (List.getElem?_eq_some_iff.mp hb).1
    have hxs : s.hidden.rows[b]? = some s.hidden.rows[b] := List.getElem?_eq_getElem hlt
    -- the step never writes before `prefix_length`
    have hown := congrArg (List.take s.prefixLength) (hcache b _ hxs _ rfl)
    have hhypo := congrArg (List.take s.prefixLength) (hall b _ h hxs hb _ rfl _ rfl).2
    have hlen (i : ℕ) : ((c.row i).take s.prefixLength).length = s.prefixLength := by
      have := hin.slots
      rw [List.length_take, c.row_length]
      omega
    rw [List.take_take, Nat.min_eq_left (Nat.le_add_right _ _),
      List.take_left' (hlen _)] at hown hhypo
    rw [← hhypo, hown]
  · rintro ⟨hle, hsame⟩
    refine ⟨r, hr, ?_⟩
    rintro b xs h hxs hb past rfl run rfl
    have hrun := hsingle hle b xs hxs ((c.row (s.batchOffset + b)).take s.prefixLength)
    rw [hsame b h hb]
    refine ⟨?_, ?_⟩
    · rw [hrows, List.getElem?_map, runRows, List.getElem?_mapIdx, hxs, Option.map_some,
        Option.map_some, selectCache, hrun]
    · have hown := hcache b xs hxs _ rfl
      rwa [hrun, forward_kvs_whole] at hown

/-- Every step of a run honours its hypotheses, in the cache that the steps before it left. -/
def RunHonoured (att : Attention τ κ) : Slab κ → List (Step τ) → Prop
  | _, [] => True
  | c, s :: steps =>
    Honoured att c s ∧ ∀ r, inferenceStep att c s = .ok r → RunHonoured att r.slab steps

/-- Every step of a run has a single chunk, and finds the same cached prefixes in the rows that it
exchanges. -/
def RunSamePrefixes (att : Attention τ κ) : Slab κ → List (Step τ) → Prop
  | _, [] => True
  | c, s :: steps =>
    (s.hidden.width ≤ s.maxChunkLength ∧ SamePrefixes c s) ∧
      ∀ r, inferenceStep att c s = .ok r → RunSamePrefixes att r.slab steps

/-- The steps of a run honour their hypotheses if and only if each step has a single chunk and each
of its rows has the cached prefix of the row of its hypothesis before the step. -/
theorem runHonoured_iff {cfg : ChunkConfig} (steps : List (Step τ)) : ∀ c : Slab κ,
    (∀ s ∈ steps, s.InRange cfg c.seqLen c.batch) →
      (RunHonoured att c steps ↔ RunSamePrefixes att c steps) := by
  induction steps with
  | nil => exact fun _ _ => Iff.rfl
  | cons s steps ih =>
    intro c hin
    have hs := hin s List.mem_cons_self
    refine and_congr (honoured_iff hs) (forall_congr' fun r => imp_congr_right fun hr => ?_)
    obtain ⟨r', hr', -, hseq, hbatch, -⟩ := @inferenceStep_inRange τ κ att cfg c s hs
    rw [hr, Except.ok.injEq] at hr'
    subst hr'
    refine ih r.slab fun s' hs' => ?_
    rw [hseq, hbatch]
    exact hin s' (List.mem_cons_of_mem _ hs')

/-- The first step of a beam search: both rows hold the prompt, and both go on from row 1. -/
def beamStep : Step ℕ := ⟨1, 0, ⟨1, [[5], [6]], by decide⟩, [1, 1], 1⟩

theorem beamStep_inRange : ∀ s ∈ [beamStep], Step.InRange s ⟨1, 1, 4⟩ 4 2 := by
  intro s hs
  rw [List.mem_singleton.mp hs]
  constructor <;> decide

theorem runHonoured_iff_prompt : RunHonoured tagged blank [beamStep] := by
  refine (runHonoured_iff [beamStep] blank beamStep_inRange).mpr
    ⟨⟨by decide, ?_⟩, fun _ _ => trivial⟩
  intro b h _
  simp [blank, twoRows]

def apart : Slab (ℕ × ℕ) := twoRows ((1, 0) :: List.replicate 3 (0, 0))
  ((2, 0) :: List.replicate 3 (0, 0)) ⟨rfl, rfl⟩

/-- Row 0 goes on from its own token, not from that of row 1. -/
theorem hypothesis_ignored :
    (∃ r, inferenceStep tagged apart beamStep = .ok r ∧
      r.rows[0]? = some [⟨[(1, 0), (5, 1)], 1, 5⟩] ∧
      r.slab.row 0 = [(1, 0), (5, 1), (0, 0), (0, 0)]) ∧
      ¬RunHonoured tagged apart [beamStep] := by
  refine ⟨⟨_, rfl, by decide, by decide⟩, ?_⟩
  rintro ⟨⟨r, hr, hall⟩, -⟩
  cases hr
  have := (hall 0 [5] 1 (by decide) (by decide) _ rfl _ rfl).1
  exact absurd this (by decide)

end BloomBee.BackendStep
