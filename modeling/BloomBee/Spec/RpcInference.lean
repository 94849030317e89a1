import BloomBee.Spec.ChunkLoop
import Mathlib.Data.List.AList
import Mathlib.Logic.Function.Iterate

/-! `iterate_rpc_inference` of `server/block_functions.py` for regular decoding: no
speculative trees, no deep prompts, no live mask, and a cache that holds the full batch.
A block works row by row, `Block.forward` is what it does to one row: the cached keys and
values of the row and the row's tokens give the row's outputs and its new keys and values.
`Block.forwardChunk` is what it does to a piece of a row, under the mask of the whole row. Every
item of the input iterator is taken through one call of `process`. -/

set_option autoImplicit false

namespace BloomBee.RpcInference

open BackendStep (estimateMaxChunkLength chunkOffsets runChunks)

/-- A tensor by its batch rows. All rows have one width, also when there are none. -/
structure Batch (α : Type) where
  width : ℕ
  rows : List (List α)
  rows_width : ∀ r ∈ rows, r.length = width
  deriving DecidableEq

variable {α τ κ σ : Type}

def Batch.numel (b : Batch α) : ℕ := b.rows.length * b.width

def Batch.slice (b : Batch α) (start stop : ℕ) : Batch α where
  width := b.width
  rows := (b.rows.drop start).take (stop - start)
  rows_width r hr := b.rows_width r (List.mem_of_mem_drop (List.mem_of_mem_take hr))

def maxWidth (outputs : List (Batch α)) : ℕ := outputs.foldr (fun b w => max b.width w) 0

theorem width_le_maxWidth {outputs : List (Batch α)} {b : Batch α} (h : b ∈ outputs) :
    b.width ≤ maxWidth outputs := by
  induction outputs with
  | nil => cases h
  | cons c rest ih =>
    rcases List.mem_cons.mp h with rfl | h
    · exact le_max_left _ _
    · exact le_trans (ih h) (le_max_right _ _)

/-- `merge_microbatch_outputs` and `merge_microbatch_keep_indices`: the rows one after the
other, each filled up with `pad` to the largest width. -/
def mergeMicrobatchOutputs (pad : α) (outputs : List (Batch α)) : Batch α where
  width := maxWidth outputs
  rows := outputs.flatMap fun b => b.rows.map fun r =>
    r ++ List.replicate (maxWidth outputs - b.width) pad
  rows_width := by
    intro r hr
    obtain ⟨b, hb, hr⟩ := List.mem_flatMap.mp hr
    obtain ⟨r', hr', rfl⟩ := List.mem_map.mp hr
    have hw := width_le_maxWidth hb
    have hl := b.rows_width r' hr'
    simp only [List.length_append, List.length_replicate]
    omega

/-- One transformer block on one batch row. `forwardChunk` gets the length of the row, the offset of
the chunk in it, the cached keys and values and the tokens of the chunk. It raises where the mask of
the whole row does not fit the chunk. -/
structure Block (τ κ : Type) where
  forward : List κ → List τ → List τ × List κ
  forwardChunk : ℕ → ℕ → List κ → List τ → Option (List τ × List κ)
  out_length : ∀ past xs, (forward past xs).1.length = xs.length
  kv_length : ∀ past xs, (forward past xs).2.length = xs.length
  chunk_whole : ∀ past xs, forwardChunk xs.length 0 past xs = some (forward past xs)

/-- The cache tensor of a block: `batch` rows of `seqLen` slots. -/
structure Slab (κ : Type) where
  seqLen : ℕ
  batch : ℕ
  row : ℕ → List κ
  row_length : ∀ b, (row b).length = seqLen

structure Backend (τ κ : Type) where
  block : Block τ κ
  slab : Slab κ
  chunkConfig : BackendStep.ChunkConfig

inductive Error where
  | maximumLengthExceeded (prefixLength current maxLength : ℕ)
  | prefixTooLong (prefixLength seqLen : ℕ)
  | shapeMismatch
  /-- Raised by what is not modelled: a tensor that cannot be read, a device. -/
  | other
  deriving DecidableEq, Repr

/-- Where `_write_kvs` puts the new slots of a row, and which. Out of range it keeps the last
`seqLen` of them for the whole row; `copy_` then repeats a single slot and refuses any other
size. -/
def placement (seqLen start : ℕ) (new : List κ) : Option (ℕ × List κ) :=
  if start < seqLen ∧ start + new.length ≤ seqLen then some (start, new)
  else
    let tail := if seqLen = 0 then new else new.drop (new.length - seqLen)
    if tail.length = seqLen then some (0, tail)
    else match tail with
      | [x] => some (0, List.replicate seqLen x)
      | _ => none

def overwrite (row : List κ) (start : ℕ) (new : List κ) : List κ :=
  row.mapIdx fun i x => if start ≤ i then new.getD (i - start) x else x

/-- `_write_kvs` with a cache for the full batch: row `batchOffset + i` takes `new[i]`. -/
def writeKvs (c : Slab κ) (start batchOffset : ℕ) (new : List (List κ)) : Option (Slab κ) :=
  (new.mapM (placement c.seqLen start)).map fun placed =>
    { c with
      row := fun b =>
        if batchOffset ≤ b then
          match placed[b - batchOffset]? with
          | some (s, slots) => overwrite (c.row b) s slots
          | none => c.row b
        else c.row b
      row_length := by
        intro b
        split
        · split
          · rw [overwrite, List.length_mapIdx, c.row_length]
          · exact c.row_length b
        · exact c.row_length b }

/-- A row in chunks. The cached keys and values are the same for all of them. -/
def Block.runRow (block : Block τ κ) (maxChunkLength : ℕ) (past : List κ) (xs : List τ) :
    Option (List τ × List κ) :=
  runChunks (fun offset => block.forwardChunk xs.length offset past
      ((xs.drop offset).take maxChunkLength))
    (chunkOffsets xs.length maxChunkLength xs.length 0)

/-- The rows of a batch through one block, each over the cached prefix of its own row. -/
def forwardRows (b : Backend τ κ) (maxChunkLength prefixLength batchOffset : ℕ)
    (hidden : Batch τ) : Option (List (List τ × List κ)) :=
  (hidden.rows.mapIdx fun i xs =>
    b.block.runRow maxChunkLength ((b.slab.row (batchOffset + i)).take prefixLength) xs).mapM id

/-- `output_hidden_states`, whose shape is that of the input. -/
def outputBatch (width : ℕ) (rows : List (List τ)) : Option (Batch τ) :=
  if h : ∀ r ∈ rows, r.length = width then some ⟨width, rows, h⟩ else none

/-- `TransformerBackend.inference_step` with `select_cache` and `update_cache`. -/
def inferenceStep (b : Backend τ κ) (prefixLength batchOffset : ℕ) (hidden : Batch τ) :
    Except Error (Batch τ × Backend τ κ) :=
  match estimateMaxChunkLength b.chunkConfig hidden.rows.length hidden.width prefixLength with
  | none => .error .other
  | some maxChunkLength =>
    if prefixLength > b.slab.seqLen then .error (.prefixTooLong prefixLength b.slab.seqLen)
    else if batchOffset + hidden.rows.length > b.slab.batch then .error .shapeMismatch
    else
      match forwardRows b maxChunkLength prefixLength batchOffset hidden with
      | none => .error .other
      | some out =>
        match outputBatch hidden.width (out.map Prod.fst),
            writeKvs b.slab prefixLength batchOffset (out.map Prod.snd) with
        | some hidden, some slab => .ok (hidden, { b with slab })
        | _, _ => .error .shapeMismatch

def runBackends (prefixLength batchOffset : ℕ) :
    List (Backend τ κ) → Batch τ → Except Error (Batch τ × List (Backend τ κ))
  | [], hidden => .ok (hidden, [])
  | b :: bs, hidden => do
    let (hidden, b) ← inferenceStep b prefixLength batchOffset hidden
    let (hidden, bs) ← runBackends prefixLength batchOffset bs hidden
    return (hidden, b :: bs)

def defaultKeep (batchSize seqLen : ℕ) : Batch ℤ where
  width := seqLen
  rows := List.replicate batchSize ((List.range seqLen).map Int.ofNat)
  rows_width r hr := by rw [List.eq_of_mem_replicate hr, List.length_map, List.length_range]

/-- `_normalize_keep_indices` on a two-dimensional tensor. -/
def normalizeKeepIndices (batchSize seqLen : ℕ) (keep : Batch ℤ) : Batch ℤ :=
  if keep.numel = 0 then defaultKeep batchSize seqLen
  else if h : keep.rows.length = 1 ∧ batchSize > 1 then
    { keep with
      rows := List.replicate batchSize (keep.rows.headD [])
      rows_width := by
        intro r hr
        obtain ⟨x, hx⟩ := List.length_eq_one_iff.mp h.1
        rw [List.eq_of_mem_replicate hr, hx]
        exact keep.rows_width x (by simp [hx]) }
  else if keep.rows.length = batchSize then keep
  else defaultKeep batchSize seqLen

def maxShortInferenceTokens : ℕ := 81920

/-- The keep indices after all blocks. With merged pools every block reads those of the
request, otherwise each block reads what the one before it returned. -/
def keepAfter (blocks : ℕ) (hidden : Batch τ) (keep : Batch ℤ) : Batch ℤ :=
  let normalize := normalizeKeepIndices hidden.rows.length hidden.width
  if hidden.rows.length * hidden.width ≤ maxShortInferenceTokens then
    if blocks = 0 then keep else normalize keep
  else normalize^[blocks] keep

def submitTask (bs : List (Backend τ κ)) (prefixLength batchOffset : ℕ) (hidden : Batch τ)
    (keep : Batch ℤ) : Except Error ((Batch τ × Batch ℤ) × List (Backend τ κ)) := do
  let (out, bs') ← runBackends prefixLength batchOffset bs hidden
  return ((out, keepAfter bs.length hidden keep), bs')

/-- `max_length` of the session and, when micro-batching is enabled, the micro-batch size. -/
structure Config where
  maxLength : ℕ
  microBatchSize : Option ℕ

def shouldSplitBatch (cfg : Config) (batchSize : ℕ) : Bool :=
  match cfg.microBatchSize with
  | none => false
  | some m => 0 < m && m < batchSize

/-- The loop of `compute_micro_batch_ranges` from `start` on. -/
def rangesFrom (microBatchSize batchSize : ℕ) : ℕ → ℕ → List (ℕ × ℕ)
  | 0, _ => []
  | fuel + 1, start =>
    if start < batchSize then
      let stop := min (start + microBatchSize) batchSize
      (start, stop) :: rangesFrom microBatchSize batchSize fuel stop
    else []

def computeMicroBatchRanges (microBatchSize batchSize : ℕ) : List (ℕ × ℕ) :=
  if batchSize = 0 then []
  else if microBatchSize = 0 then [(0, batchSize)]
  else rangesFrom microBatchSize batchSize batchSize 0

/-- The local micro-batches of a full batch, one after the other. -/
def runRanges (prefixLength : ℕ) (hidden : Batch τ) (keep : Batch ℤ) :
    List (ℕ × ℕ) → List (Backend τ κ) →
      Except Error (List (Batch τ × Batch ℤ) × List (Backend τ κ))
  | [], bs => .ok ([], bs)
  | (start, stop) :: ranges, bs => do
    let keepSlice := if keep.rows.length = hidden.rows.length then keep.slice start stop else keep
    let (out, bs) ← submitTask bs prefixLength start (hidden.slice start stop) keepSlice
    let (outs, bs) ← runRanges prefixLength hidden keep ranges bs
    return (out :: outs, bs)

/-- A full-batch request, sent by the client or pushed by the server before this one. -/
structure FullRequest (σ τ : Type) where
  stepId : σ
  startFromPosition : Option ℕ
  batchOffset : ℕ
  hidden : Batch τ
  keepIndices : Batch ℤ

/-- A micro-batch queue item. `payload` is `none` when the push carries no tensor. -/
structure MicroBatch (σ τ : Type) where
  stepId : σ
  mbIdx : ℕ
  expectedNumMb : ℕ
  offset : ℕ
  startFromPosition : Option ℕ
  payload : Option (Batch τ × Batch ℤ)

/-- What `_iterate_inference_steps` yields. -/
inductive Item (σ τ : Type) where
  | full (r : FullRequest σ τ)
  | microBatch (m : MicroBatch σ τ)

structure Accum (τ : Type) where
  expected : ℕ
  results : AList fun _ : ℕ => Batch τ × Batch ℤ
  tokenIncrement : ℕ

structure Response (σ τ : Type) where
  stepId : σ
  hidden : Batch τ
  keepIndices : Batch ℤ

/-- The local variables of `iterate_rpc_inference`, the caches of its backends and the
accumulators of its session. -/
structure State (σ τ κ : Type) where
  prefixLength : ℕ
  backends : List (Backend τ κ)
  accums : AList fun _ : σ => Accum τ

/-- The compute part of the micro-batch path. -/
def computeMicroBatch (bs : List (Backend τ κ)) (prefixLength batchOffset : ℕ) (hidden : Batch τ)
    (keep : Batch ℤ) : Except Error ((Batch τ × Batch ℤ) × List (Backend τ κ)) :=
  if hidden.numel = 0 then .ok ((hidden, keep), bs)
  else submitTask bs prefixLength batchOffset hidden keep

variable [Inhabited τ]

/-- The compute part of the full-batch path. -/
def computeFull (cfg : Config) (bs : List (Backend τ κ)) (prefixLength : ℕ)
    (r : FullRequest σ τ) :
    Except Error ((Batch τ × Batch ℤ) × List (Backend τ κ)) :=
  if r.hidden.numel = 0 then .ok ((r.hidden, r.keepIndices), bs)
  else if shouldSplitBatch cfg r.hidden.rows.length then do
    let ranges := computeMicroBatchRanges (cfg.microBatchSize.getD 0) r.hidden.rows.length
    let (outs, bs) ← runRanges prefixLength r.hidden r.keepIndices ranges bs
    return ((mergeMicrobatchOutputs default (outs.map Prod.fst),
      mergeMicrobatchOutputs (-1) (outs.map Prod.snd)), bs)
  else submitTask bs prefixLength r.batchOffset r.hidden r.keepIndices

def processFull (cfg : Config) (st : State σ τ κ) (r : FullRequest σ τ) :
    Except Error (State σ τ κ × Option (Response σ τ)) := do
  let prefixLength := r.startFromPosition.getD st.prefixLength
  if prefixLength + r.hidden.width > cfg.maxLength then
    throw (.maximumLengthExceeded prefixLength r.hidden.width cfg.maxLength)
  let (out, backends) ← computeFull cfg st.backends prefixLength r
  return ({ st with prefixLength := prefixLength + r.hidden.width, backends },
    some ⟨r.stepId, out.1, out.2⟩)

/-- The results of a step in the order of their indices, merged. -/
def Accum.merge (a : Accum τ) (stepId : σ) : Response σ τ :=
  let results := (a.results.keys.mergeSort fun i j => i ≤ j).filterMap a.results.lookup
  ⟨stepId, mergeMicrobatchOutputs default (results.map Prod.fst),
    mergeMicrobatchOutputs (-1) (results.map Prod.snd)⟩

def Accum.add (a : Accum τ) (mbIdx tokenIncrement : ℕ) (result : Batch τ × Batch ℤ) : Accum τ :=
  { a with
    results := a.results.insert mbIdx result
    tokenIncrement := max a.tokenIncrement tokenIncrement }

variable [DecidableEq σ]

/-- The bookkeeping of a computed micro-batch: the last one of a step merges the results,
drops the accumulator and moves `prefix_length`. -/
def accumulate (st : State σ τ κ) (m : MicroBatch σ τ) (tokenIncrement : ℕ)
    (result : Batch τ × Batch ℤ) : State σ τ κ × Option (Response σ τ) :=
  let accum := ((st.accums.lookup m.stepId).getD ⟨m.expectedNumMb, ∅, tokenIncrement⟩).add
    m.mbIdx tokenIncrement result
  if accum.expected ≤ accum.results.keys.length then
    ({ st with
        prefixLength := st.prefixLength + accum.tokenIncrement
        accums := st.accums.erase m.stepId }, some (accum.merge m.stepId))
  else ({ st with accums := st.accums.insert m.stepId accum }, none)

def processMicroBatch (st : State σ τ κ) (m : MicroBatch σ τ) :
    Except Error (State σ τ κ × Option (Response σ τ)) := do
  let prefixLength := m.startFromPosition.getD st.prefixLength
  match m.payload with
  | none => return ({ st with prefixLength }, none)
  | some (hidden, keep) =>
    let (result, backends) ← computeMicroBatch st.backends prefixLength m.offset hidden keep
    return accumulate { st with prefixLength, backends } m hidden.width result

/-- One turn of the loop of `iterate_rpc_inference`. -/
def process (cfg : Config) (st : State σ τ κ) :
    Item σ τ → Except Error (State σ τ κ × Option (Response σ τ))
  | .full r => processFull cfg st r
  | .microBatch m => processMicroBatch st m

/-- The sweep of `_touch_mb_step_state` drops the accumulator of a step that nothing touched
for a while. Any session's micro-batches run it. -/
def expire (st : State σ τ κ) (stepId : σ) : State σ τ κ :=
  { st with accums := st.accums.erase stepId }

end BloomBee.RpcInference
