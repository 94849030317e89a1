import BloomBee.Lib.Logged
import BloomBee.Spec.LiveDecode
import BloomBee.Spec.SpecCache

/-! The writes of `iterate_rpc_inference` (`server/block_functions.py`) to the caches of a session,
for every item its input iterator yields: full-batch requests and streamed micro-batches, of plain,
live and speculative steps. The new keys and values of the blocks come with the item, whatever
they are, for each chunk that they can be asked for. `micro_batch_size` is the number of rows of the
submission, and a speculative request starts at the first row of the batch. Rows behind those of the
cache raise: they belong to a cache that does not hold the full batch, whose working slots are not
part of this model. -/

set_option autoImplicit false

namespace BloomBee.LengthGuard

open RpcInference (Config Error Slab placement writeKvs shouldSplitBatch computeMicroBatchRanges
  maxShortInferenceTokens)
open LiveDecode (InferenceInfo selectPrefixLength activeMaskList rowPositionList
  activePositionRowRuns liveActiveMask sliceBatchAligned)
open BackendStep (ChunkConfig ChunkKvs estimateMaxChunkLength runUncut)
open Speculative (cacheLenOf selectLen extendIds compactRow maxNewLength)

variable {σ κ : Type}

/-! ### Writes -/

/-- One row of a write that went through: where it was to start, its tokens, and the slot of the
first one that was kept. -/
structure Write where
  position : ℕ
  tokens : ℕ
  slot : ℕ
  deriving DecidableEq, Repr

/-- `_write_kvs` -/
def logWrite (slab : Slab κ) (start batchOffset : ℕ) (new : List (List κ)) :
    Logged Write Error (Slab κ) :=
  match writeKvs slab start batchOffset new with
  | none => .fail .shapeMismatch
  | some slab' =>
    ⟨new.filterMap fun r =>
      (placement slab.seqLen start r).map fun p => ⟨start, r.length, p.1⟩, .ok slab'⟩

/-- `LiveDecode.writeRuns` -/
def logRuns (batchOffset : ℕ) (new : List (List κ)) :
    List (ℕ × ℕ × ℕ) → Slab κ → Logged Write Error (Slab κ)
  | [], slab => .pure slab
  | (rowStart, rowEnd, startPosition) :: runs, slab =>
    (logWrite slab startPosition (batchOffset + rowStart)
      ((new.drop rowStart).take (rowEnd - rowStart))).bind (logRuns batchOffset new runs)

/-- `LiveDecode.updateCache` -/
def logUpdate (slab : Slab κ) (info : InferenceInfo) (width : ℕ) (new : List (List κ)) :
    Logged Write Error (Slab κ) :=
  let cacheLen := selectPrefixLength info new.length width
  if slab.seqLen < cacheLen then .fail (.prefixTooLong cacheLen slab.seqLen)
  else if slab.batch < info.batchOffset + new.length then .fail .shapeMismatch
  else
    match activeMaskList info.activeMask new.length with
    | some mask =>
      logRuns info.batchOffset new
        (activePositionRowRuns mask ((rowPositionList info.prefillLength new.length).getD
          (List.replicate new.length cacheLen))) slab
    | none => logWrite slab cacheLen info.batchOffset new

/-- `Speculative.doReorderTask` -/
def logReorder (zero : κ) (slab : Slab κ) (batchOffset : ℕ) (ids : List (List ℤ)) (treeLen : ℕ)
    (new : List (List κ)) : Logged Write Error (Slab κ) :=
  let writePosition := cacheLenOf ids
  if writePosition = 0 then (logWrite slab 0 batchOffset new).recover slab
  else
    ((logWrite slab writePosition batchOffset new).bind fun slab =>
      let extended := extendIds ids writePosition treeLen
      let cacheLen := cacheLenOf extended
      if slab.seqLen < cacheLen then .pure slab
      else
        (logWrite slab 0 batchOffset (extended.mapIdx fun b r =>
          compactRow zero ((slab.row (batchOffset + b)).take cacheLen) r
            (maxNewLength cacheLen extended))).recover slab).recover slab

/-! ### Submissions -/

/-- `is_dummy` of position ids. -/
def noIds (ids : List (List ℤ)) : Bool := ids.all List.isEmpty

/-- The metadata of a submission. A speculative one has position ids, and the mask of its tree
when it came with one. -/
inductive Submission where
  | plain (info : InferenceInfo)
  | tree (prefixLength batchOffset : ℕ) (ids : List (List ℤ)) (hasMask : Bool)

/-- What `inference_step` does to the cache of one block. Without a mask a speculative step raises
before it writes. -/
def Submission.onBlock (zero : κ) (s : Submission) (width : ℕ) (slab : Slab κ)
    (new : List (List κ)) : Logged Write Error (Slab κ) :=
  match s with
  | .plain info => logUpdate slab info width new
  | .tree prefixLength batchOffset ids hasMask =>
    let window := if noIds ids then prefixLength else selectLen ids
    if slab.seqLen < window then .fail (.prefixTooLong window slab.seqLen)
    else if !hasMask then .fail .other
    else if slab.batch < batchOffset + new.length then .fail .shapeMismatch
    else logReorder zero slab batchOffset ids width new

def Submission.prefixLength : Submission → ℕ
  | .plain info => info.prefixLength
  | .tree prefixLength _ _ _ => prefixLength

/-- The window that `select_cache` is asked for. -/
def Submission.window (s : Submission) (rows width : ℕ) : ℕ :=
  match s with
  | .plain info => selectPrefixLength info rows width
  | .tree prefixLength _ ids _ => if noIds ids then prefixLength else selectLen ids

/-- `new_kvs` of a submission. FlexGen's blocks, the only ones that serve trees, raise on a chunk
under the mask of all tokens. -/
def Submission.newKvs {rows width : ℕ} (s : Submission) (computed : ChunkKvs κ rows width)
    (maxChunkLength : ℕ) : Option (List (List κ)) :=
  match s with
  | .plain _ => computed.newKvs maxChunkLength
  | .tree .. => runUncut width maxChunkLength computed.whole

def Submission.runBlock (zero : κ) (chunks : ChunkConfig) {rows width : ℕ} (s : Submission)
    (range : ℕ × ℕ) (computed : ChunkKvs κ rows width) (slab : Slab κ) :
    Logged Write Error (Slab κ) :=
  let batchSize := range.2 - range.1
  match estimateMaxChunkLength chunks batchSize width s.prefixLength with
  | none => .fail .other
  | some maxChunkLength =>
    if slab.seqLen < s.window batchSize width then
      .fail (.prefixTooLong (s.window batchSize width) slab.seqLen)
    else
      match s.newKvs computed maxChunkLength with
      | none => .fail .other
      | some new => s.onBlock zero width slab ((new.drop range.1).take batchSize)

/-- The rows `range` of a submission through all blocks, each with the length of its chunks. -/
def submit (zero : κ) {rows width : ℕ} (s : Submission) (range : ℕ × ℕ) :
    (ℕ → ChunkConfig) → (ℕ → ChunkKvs κ rows width) → List (Slab κ) →
      Logged Write Error (List (Slab κ))
  | _, _, [] => .pure []
  | chunks, computed, slab :: slabs =>
    (s.runBlock zero (chunks 0) range (computed 0) slab).bind fun slab =>
      (submit zero s range (fun i => chunks (i + 1)) (fun i => computed (i + 1)) slabs).bind
        fun slabs => .pure (slab :: slabs)

def submitAll (zero : κ) (chunks : ℕ → ChunkConfig) {rows width : ℕ}
    (computed : ℕ → ChunkKvs κ rows width) :
    List ((ℕ × ℕ) × Submission) → List (Slab κ) → Logged Write Error (List (Slab κ))
  | [], slabs => .pure slabs
  | (range, s) :: rest, slabs =>
    (submit zero s range chunks computed slabs).bind (submitAll zero chunks computed rest)

/-! ### Items -/

/-- The tokens of an item, with the keys and values that each block computes for them. -/
structure Payload (κ : Type) where
  rows : ℕ
  width : ℕ
  computed : ℕ → ChunkKvs κ rows width

def Payload.numel (p : Payload κ) : ℕ := p.rows * p.width

/-- What the tensors and the metadata of a full-batch request say about its `rows` rows. -/
inductive Mode (rows : ℕ) where
  | decode (rawMask : Option (List Bool)) (prefillLength : Option (List ℕ))
  | speculative (ids : List (List ℤ)) (hasMask : Bool)
      (aligned : noIds ids = true ∨ ids.length = rows)

structure FullBatch (κ : Type) extends Payload κ where
  startFromPosition : Option ℕ
  batchOffset : ℕ
  mode : Mode rows

/-- A micro-batch queue item. Its push has no position ids, no mask of a tree, and one number for
`prefill_length`. -/
structure MicroBatchPush (σ κ : Type) where
  stepId : σ
  mbIdx : ℕ
  expectedNumMb : ℕ
  offset : ℕ
  fullBatchSize : ℕ
  startFromPosition : Option ℕ
  rawMask : Option (List Bool)
  batchOffset : ℕ
  microBatchSize : ℕ
  isSpecDec : Bool
  payload : Option (Payload κ)

/-- An item of the iterator, or the sweep that drops the accumulator of a step. -/
inductive Item (σ κ : Type) where
  | full (r : FullBatch κ)
  | microBatch (m : MicroBatchPush σ κ)
  | expire (stepId : σ)

/-- `_effective_token_increment` -/
def Mode.tokenIncrement {rows : ℕ} (width : ℕ) : Mode rows → ℕ
  | .decode _ _ => width
  | .speculative ids _ _ => if noIds ids then width else (ids.headD []).length

def FullBatch.tokenIncrement (r : FullBatch κ) : ℕ := r.mode.tokenIncrement r.width

def FullBatch.submissions (cfg : Config) (prefixLength : ℕ) (r : FullBatch κ) :
    List ((ℕ × ℕ) × Submission) :=
  let ranges := computeMicroBatchRanges (cfg.microBatchSize.getD 0) r.rows
  match r.mode with
  | .decode rawMask prefillLength =>
    let mask := rawMask.bind fun m => liveActiveMask m r.batchOffset r.rows r.rows
    if shouldSplitBatch cfg r.rows then
      ranges.map fun q => (q, .plain ⟨prefixLength,
        mask.map fun m => sliceBatchAligned m q.1 q.2 r.rows,
        prefillLength.map fun l => sliceBatchAligned l q.1 q.2 r.rows, q.1⟩)
    else if r.rows * r.width ≤ maxShortInferenceTokens then
      [((0, r.rows), .plain ⟨prefixLength, mask, prefillLength, r.batchOffset⟩)]
    else [((0, r.rows), .plain ⟨prefixLength, none, prefillLength, r.batchOffset⟩)]
  | .speculative ids hasMask _ =>
    if shouldSplitBatch cfg r.rows then
      ranges.map fun q => (q, .tree prefixLength q.1 (sliceBatchAligned ids q.1 q.2 r.rows) hasMask)
    else [((0, r.rows), .tree prefixLength 0 ids hasMask)]

def MicroBatchPush.submission (prefixLength : ℕ) (m : MicroBatchPush σ κ) : Submission :=
  if m.isSpecDec then .tree prefixLength m.offset [] false
  else .plain ⟨prefixLength, m.rawMask.bind fun mask =>
    liveActiveMask mask m.batchOffset m.microBatchSize m.fullBatchSize, none, m.offset⟩

/-! ### The loop -/

/-- What an entry of `_MB_ACCUMULATORS` says about `prefix_length`. -/
structure Accum where
  expected : ℕ
  received : List ℕ
  tokenIncrement : ℕ
  deriving DecidableEq

/-- The variables of `iterate_rpc_inference`, the caches of its blocks and the accumulators of its
session. -/
structure State (σ κ : Type) where
  prefixLength : ℕ
  slabs : List (Slab κ)
  accums : AList fun _ : σ => Accum

/-- `prefix_length` once `start_from_position` is read. -/
def State.start (st : State σ κ) : Item σ κ → ℕ
  | .full r => r.startFromPosition.getD st.prefixLength
  | .microBatch m => m.startFromPosition.getD st.prefixLength
  | .expire _ => st.prefixLength

def processFull (cfg : Config) (chunks : ℕ → ChunkConfig) (zero : κ) (st : State σ κ)
    (r : FullBatch κ) : Logged Write Error (State σ κ) :=
  let prefixLength := st.start (.full r)
  if cfg.maxLength < prefixLength + r.tokenIncrement then
    .fail (.maximumLengthExceeded prefixLength r.tokenIncrement cfg.maxLength)
  else
    (if r.numel = 0 then .pure st.slabs
      else submitAll zero chunks r.computed (r.submissions cfg prefixLength) st.slabs).bind
        fun slabs => .pure { st with prefixLength := prefixLength + r.tokenIncrement, slabs }

variable [DecidableEq σ]

def accumulate (st : State σ κ) (m : MicroBatchPush σ κ) (tokenIncrement : ℕ) : State σ κ :=
  let old := (st.accums.lookup m.stepId).getD ⟨m.expectedNumMb, [], tokenIncrement⟩
  let accum : Accum :=
    ⟨old.expected, old.received.insert m.mbIdx, max old.tokenIncrement tokenIncrement⟩
  if accum.expected ≤ accum.received.length then
    { st with
      prefixLength := st.prefixLength + accum.tokenIncrement
      accums := st.accums.erase m.stepId }
  else { st with accums := st.accums.insert m.stepId accum }

def processMicroBatch (chunks : ℕ → ChunkConfig) (zero : κ) (st : State σ κ)
    (m : MicroBatchPush σ κ) : Logged Write Error (State σ κ) :=
  let prefixLength := st.start (.microBatch m)
  match m.payload with
  | none => .pure { st with prefixLength }
  | some p =>
    (if p.numel = 0 then .pure st.slabs
      else submit zero (m.submission prefixLength) (0, p.rows) chunks p.computed st.slabs).bind
        fun slabs => .pure (accumulate { st with prefixLength, slabs } m p.width)

/-- One turn of the loop, or a sweep between two turns. -/
def process (cfg : Config) (chunks : ℕ → ChunkConfig) (zero : κ) (st : State σ κ) :
    Item σ κ → Logged Write Error (State σ κ)
  | .full r => processFull cfg chunks zero st r
  | .microBatch m => processMicroBatch chunks zero st m
  | .expire stepId => .pure { st with accums := st.accums.erase stepId }

/-- The items a session processes, each with the state before it. What raises ends the session. -/
def reached (cfg : Config) (chunks : ℕ → ChunkConfig) (zero : κ) :
    State σ κ → List (Item σ κ) → List (State σ κ × Item σ κ)
  | _, [] => []
  | st, item :: items =>
    (st, item) ::
      match (process cfg chunks zero st item).result with
      | .ok st' => reached cfg chunks zero st' items
      | .error _ => []

end BloomBee.LengthGuard
