import BloomBee.Spec.RpcInference

/-! Steps with the active mask of live continuous batching: what `iterate_rpc_inference`
(`server/block_functions.py`) makes of the mask on each of its paths, and what
`TransformerBackend.inference_step` (`server/backend.py`) reads and writes for the rows of one
submission. The cache holds the full batch, as it does without GPU multiplexing. On every path
`micro_batch_size` is the number of rows of the submission. -/

set_option autoImplicit false

namespace BloomBee.LiveDecode

open RpcInference
open BackendStep (ChunkConfig ChunkKvs OneChunk estimateMaxChunkLength)

variable {α τ κ : Type}

/-! ### `InferenceMetadata` -/

/-- What a regular step reads of it. `prefillLength` is `none` when it is a plain number. -/
structure InferenceInfo where
  prefixLength : ℕ
  activeMask : Option (List Bool)
  prefillLength : Option (List ℕ)
  batchOffset : ℕ

/-- A value with one entry for each row, and nothing otherwise. -/
def batchAligned (value : Option (List α)) (expectedBatch : ℕ) : Option (List α) :=
  match value with
  | none => none
  | some l => if 0 < expectedBatch ∧ l.length = expectedBatch then some l else none

def activeMaskList (value : Option (List Bool)) (expectedBatch : ℕ) : Option (List Bool) :=
  batchAligned value expectedBatch

def rowPositionList (value : Option (List ℕ)) (expectedBatch : ℕ) : Option (List ℕ) :=
  batchAligned value expectedBatch

/-- `live_row_positions` of `inference_step`. -/
def liveRowPositions (info : InferenceInfo) (rows width : ℕ) : Option (List ℕ) :=
  if width = 1 then
    match activeMaskList info.activeMask rows with
    | some _ => rowPositionList info.prefillLength rows
    | none => none
  else none

def selectPrefixLength (info : InferenceInfo) (rows width : ℕ) : ℕ :=
  match liveRowPositions info rows width with
  | some positions => positions.foldr max 0
  | none => info.prefixLength

/-! ### `_finalize_cache_update` -/

/-- The loop of `_active_position_row_runs` from row `index` on. `run` is the open run with the
position of its rows. -/
def rowRuns : ℕ → Option (ℕ × ℕ) → List (Bool × ℕ) → List (ℕ × ℕ × ℕ)
  | _, none, [] => []
  | index, some (start, startPosition), [] => [(start, index, startPosition)]
  | index, none, (true, position) :: rows => rowRuns (index + 1) (some (index, position)) rows
  | index, none, (false, _) :: rows => rowRuns (index + 1) none rows
  | index, some (start, startPosition), (true, position) :: rows =>
    if position ≠ startPosition then
      (start, index, startPosition) :: rowRuns (index + 1) (some (index, position)) rows
    else rowRuns (index + 1) (some (start, startPosition)) rows
  | index, some (start, startPosition), (false, _) :: rows =>
    (start, index, startPosition) :: rowRuns (index + 1) none rows

/-- `_active_position_row_runs`: maximal runs of active rows with one position. -/
def activePositionRowRuns (mask : List Bool) (rowPositions : List ℕ) : List (ℕ × ℕ × ℕ) :=
  rowRuns 0 none (mask.zip rowPositions)

/-- One call of `update_cache` for each run. -/
def writeRuns (batchOffset : ℕ) (new : List (List κ)) :
    List (ℕ × ℕ × ℕ) → Slab κ → Option (Slab κ)
  | [], slab => some slab
  | (rowStart, rowEnd, startPosition) :: runs, slab =>
    match writeKvs slab startPosition (batchOffset + rowStart)
      ((new.drop rowStart).take (rowEnd - rowStart)) with
    | some slab => writeRuns batchOffset new runs slab
    | none => none

def finalizeCacheUpdate (slab : Slab κ) (cacheLen : ℕ) (info : InferenceInfo)
    (new : List (List κ)) : Option (Slab κ) :=
  match activeMaskList info.activeMask new.length with
  | some mask =>
    writeRuns info.batchOffset new
      (activePositionRowRuns mask ((rowPositionList info.prefillLength new.length).getD
        (List.replicate new.length cacheLen))) slab
  | none => writeKvs slab cacheLen info.batchOffset new

/-- What a submission does to the cache of one block, for the keys and values `new` that the
block computes: the checks of `select_cache`, and the update. -/
def updateCache (slab : Slab κ) (info : InferenceInfo) (width : ℕ) (new : List (List κ)) :
    Except Error (Slab κ) :=
  if slab.seqLen < selectPrefixLength info new.length width then
    .error (.prefixTooLong (selectPrefixLength info new.length width) slab.seqLen)
  else if slab.batch < info.batchOffset + new.length then .error .shapeMismatch
  else
    match finalizeCacheUpdate slab (selectPrefixLength info new.length width) info new with
    | none => .error .shapeMismatch
    | some slab => .ok slab

/-- The slots of the cache of a session. -/
def cacheSlots (cfg : Config) : ℕ := max 1 cfg.maxLength

/-! ### A live step -/

/-- A step of a client that stages the tick for the whole batch: the mask has a place for every
row of the batch, `hidden_states` has the `batchSize` rows from `batchOffset` on, and
`prefill_length` has the positions of these rows. -/
structure LiveStep where
  rawMask : List Bool
  batchOffset : ℕ
  batchSize : ℕ
  width : ℕ
  positions : List ℕ
  prefixLength : ℕ
  batch_pos : 0 < batchSize
  width_pos : 0 < width
  positions_length : positions.length = batchSize
  inside : batchOffset + batchSize ≤ rawMask.length

def LiveStep.active (step : LiveStep) : List Bool :=
  (step.rawMask.drop step.batchOffset).take step.batchSize

/-- `_live_active_mask_from_step_metadata` for `batchSize` rows. -/
def liveActiveMask (rawMask : List Bool) (batchOffset microBatchSize batchSize : ℕ) :
    Option (List Bool) :=
  if batchSize = 0 then none
  else if rawMask.length = batchSize then some rawMask
  else if microBatchSize ≠ batchSize then none
  else if rawMask.length < batchOffset + batchSize then none
  else some ((rawMask.drop batchOffset).take batchSize)

def sliceBatchAligned (value : List α) (mbStart mbEnd fullBatchSize : ℕ) : List α :=
  if value.length = fullBatchSize then (value.drop mbStart).take (mbEnd - mbStart) else value

/-- How a step reaches the server: in one request, or as the micro-batches of a server before it
that cuts its batches to `microBatchSize` rows. -/
inductive Route where
  | full
  | streamed (microBatchSize : ℕ)

/-- `live_active_mask` of the full-batch paths. -/
def LiveStep.mask (step : LiveStep) : Option (List Bool) :=
  liveActiveMask step.rawMask step.batchOffset step.batchSize step.batchSize

def LiveStep.mergedInfo (step : LiveStep) : InferenceInfo :=
  ⟨step.prefixLength, step.mask, some step.positions, step.batchOffset⟩

def LiveStep.separateInfo (step : LiveStep) : InferenceInfo :=
  ⟨step.prefixLength, none, some step.positions, step.batchOffset⟩

/-- A local micro-batch, of merged or separate pools. -/
def LiveStep.splitInfo (step : LiveStep) (mbStart mbEnd : ℕ) : InferenceInfo :=
  ⟨step.prefixLength, step.mask.map fun m => sliceBatchAligned m mbStart mbEnd step.batchSize,
    some (sliceBatchAligned step.positions mbStart mbEnd step.batchSize), mbStart⟩

def LiveStep.streamedInfo (step : LiveStep) (mbStart mbEnd : ℕ) : InferenceInfo :=
  ⟨step.prefixLength,
    liveActiveMask step.rawMask step.batchOffset (mbEnd - mbStart) step.batchSize, none, mbStart⟩

def submissions (cfg : Config) (step : LiveStep) : Route → List ((ℕ × ℕ) × InferenceInfo)
  | .full =>
    if shouldSplitBatch cfg step.batchSize then
      (computeMicroBatchRanges (cfg.microBatchSize.getD 0) step.batchSize).map fun r =>
        (r, step.splitInfo r.1 r.2)
    else if step.batchSize * step.width ≤ maxShortInferenceTokens then
      [((0, step.batchSize), step.mergedInfo)]
    else [((0, step.batchSize), step.separateInfo)]
  | .streamed microBatchSize =>
    (computeMicroBatchRanges microBatchSize step.batchSize).map fun r =>
      (r, step.streamedInfo r.1 r.2)

/-- The rows of a range through one block: the chunks of their forward passes, and the update of
the cache after them. -/
def submitRows (chunks : ChunkConfig) {rows width : ℕ} (new : ChunkKvs κ rows width)
    (range : ℕ × ℕ) (info : InferenceInfo) (slab : Slab κ) : Except Error (Slab κ) :=
  let batchSize := range.2 - range.1
  match estimateMaxChunkLength chunks batchSize width info.prefixLength with
  | none => .error .other
  | some maxChunkLength =>
    if slab.seqLen < selectPrefixLength info batchSize width then
      .error (.prefixTooLong (selectPrefixLength info batchSize width) slab.seqLen)
    else
      match new.newKvs maxChunkLength with
      | none => .error .other
      | some kvs => updateCache slab info width ((kvs.drop range.1).take batchSize)

def runSubmissions (chunks : ChunkConfig) {rows width : ℕ} (new : ChunkKvs κ rows width) :
    List ((ℕ × ℕ) × InferenceInfo) → Slab κ → Except Error (Slab κ)
  | [], slab => .ok slab
  | (range, info) :: rest, slab =>
    match submitRows chunks new range info slab with
    | .error e => .error e
    | .ok slab => runSubmissions chunks new rest slab

/-- A live step on the cache of one block. Only a full request is checked against
`max_length`. -/
def processLive (cfg : Config) (chunks : ChunkConfig) (route : Route) (step : LiveStep)
    (new : ChunkKvs κ step.batchSize step.width) (slab : Slab κ) : Except Error (Slab κ) :=
  match route with
  | .full =>
    if cfg.maxLength < step.prefixLength + step.width then
      .error (.maximumLengthExceeded step.prefixLength step.width cfg.maxLength)
    else runSubmissions chunks new (submissions cfg step .full) slab
  | .streamed m => runSubmissions chunks new (submissions cfg step (.streamed m)) slab

/-! ### The blocks -/

/-- Where a block takes the rotary positions of a decode step from. Qwen, Mixtral and Gemma
blocks use `position_ids`, Falcon blocks the length of the past, Llama blocks (through FlexGen)
the length of the attention mask, and their prefill code when the first row is at position 0. -/
inductive Rotary where
  | positionIds
  | pastLength
  | flexgen
  deriving DecidableEq

/-- What the attention of a block gets for one row: the cached keys and values that its mask
row admits, the rotary position of the new token, and the token. -/
structure Attention (τ κ : Type) where
  past : List κ
  rotary : ℕ
  token : τ

/-- A block. `masked` says whether its attention gets the mask of the step: Mixtral blocks drop
it, and Falcon blocks build a causal one in its place. -/
structure LiveBlock (τ κ : Type) where
  rotary : Rotary
  masked : Bool
  chunkConfig : ChunkConfig
  attend : Attention τ κ → τ × κ

/-- The rotary position of row `row`, `none` when the block raises: FlexGen's prefill code
cannot view scores over a past as a square. -/
def Rotary.position (r : Rotary) (cacheLen : ℕ) (positionIds : List ℕ) (row : ℕ) : Option ℕ :=
  match r with
  | .positionIds => positionIds[row]?
  | .pastLength => some cacheLen
  | .flexgen =>
    if positionIds.head? = some 0 then if cacheLen = 0 then some 0 else none else some cacheLen

/-- `position_ids` for one token: the positions of the rows, or the end of the window. -/
def positionIds (info : InferenceInfo) (rows cacheLen : ℕ) : List ℕ :=
  (liveRowPositions info rows 1).getD (List.replicate rows cacheLen)

/-- The row's part of the window. `_live_decode_attention_mask_for_row_positions` admits the
slots before the position of the row, the plain decode mask all of them, and so does a block that
gets no mask. -/
def visible (masked : Bool) (slab : Slab κ) (info : InferenceInfo) (rows row : ℕ) : List κ :=
  let cacheLen := selectPrefixLength info rows 1
  let window := (slab.row (info.batchOffset + row)).take cacheLen
  match liveRowPositions info rows 1 with
  | some positions => if masked then window.take (min (positions.getD row 0) cacheLen) else window
  | none => window

def attentionRow (block : LiveBlock τ κ) (slab : Slab κ) (info : InferenceInfo) (rows row : ℕ)
    (token : τ) : Option (Attention τ κ) :=
  (block.rotary.position (selectPrefixLength info rows 1)
    (positionIds info rows (selectPrefixLength info rows 1)) row).map fun rotary =>
      ⟨visible block.masked slab info rows row, rotary, token⟩

/-- `inference_step` of one block for one token a row: what its attention gets, the outputs, and
the cache afterwards. One token is a chunk, unless the estimate of its length raises. -/
def inferenceStep (block : LiveBlock τ κ) (slab : Slab κ) (info : InferenceInfo)
    (hidden : List τ) : Except Error (List (Attention τ κ) × Slab κ) :=
  if ¬OneChunk block.chunkConfig hidden.length 1 info.prefixLength then .error .other
  else if slab.seqLen < selectPrefixLength info hidden.length 1 then
    .error (.prefixTooLong (selectPrefixLength info hidden.length 1) slab.seqLen)
  else
    match (hidden.mapIdx fun i t => attentionRow block slab info hidden.length i t).mapM id with
    | none => .error .shapeMismatch
    | some inputs =>
      match updateCache slab info 1 (inputs.map fun a => [(block.attend a).2]) with
      | .error e => .error e
      | .ok slab => .ok (inputs, slab)

def runBlocks (info : InferenceInfo) :
    List (LiveBlock τ κ × Slab κ) → List τ →
      Except Error (List (List (Attention τ κ)) × List (LiveBlock τ κ × Slab κ))
  | [], _ => .ok ([], [])
  | (block, slab) :: rest, hidden =>
    match inferenceStep block slab info hidden with
    | .error e => .error e
    | .ok (inputs, slab) =>
      match runBlocks info rest (inputs.map fun a => (block.attend a).1) with
      | .error e => .error e
      | .ok (trace, rest) => .ok (inputs :: trace, (block, slab) :: rest)

/-! ### Runs of single-token steps -/

structure TokenStep (τ : Type) extends LiveStep where
  hidden : List τ
  width_one : width = 1
  hidden_length : hidden.length = batchSize

/-- One step on the merged full-batch path. -/
def serveToken (cfg : Config) (t : TokenStep τ) (blocks : List (LiveBlock τ κ × Slab κ)) :
    Except Error (List (List (Attention τ κ)) × List (LiveBlock τ κ × Slab κ)) :=
  if cfg.maxLength < t.prefixLength + t.width then
    .error (.maximumLengthExceeded t.prefixLength t.width cfg.maxLength)
  else runBlocks t.mergedInfo blocks t.hidden

/-- The steps one after the other. The trace has, for each step and block, what the attention of
each row got. -/
def serveTokens (cfg : Config) :
    List (TokenStep τ) → List (LiveBlock τ κ × Slab κ) →
      Except Error (List (List (List (Attention τ κ))) × List (LiveBlock τ κ × Slab κ))
  | [], blocks => .ok ([], blocks)
  | t :: steps, blocks =>
    match serveToken cfg t blocks with
    | .error e => .error e
    | .ok (inputs, blocks) =>
      match serveTokens cfg steps blocks with
      | .error e => .error e
      | .ok (trace, blocks) => .ok (inputs :: trace, blocks)

/-- Whether row `r` of the full batch takes part in the step and is marked active. -/
def LiveStep.serves (step : LiveStep) (r : ℕ) : Prop :=
  step.batchOffset ≤ r ∧ step.active[r - step.batchOffset]? = some true

instance (step : LiveStep) (r : ℕ) : Decidable (step.serves r) :=
  inferInstanceAs (Decidable (_ ∧ _))

def LiveStep.position (step : LiveStep) (r : ℕ) : ℕ :=
  step.positions.getD (r - step.batchOffset) 0

/-- The end of the window all rows of a step share. -/
def LiveStep.window (step : LiveStep) : ℕ := step.positions.foldr max 0

/-- Every active row is at the position after the tokens it has written. `count` has the number
of these before the first step. -/
def FollowsCounts : (ℕ → ℕ) → List (TokenStep τ) → Prop
  | _, [] => True
  | count, t :: steps =>
    (∀ r, t.serves r → t.position r = count r) ∧
      FollowsCounts (fun r => if t.serves r then count r + 1 else count r) steps

/-- What the attention of row `r` got in each step that served it, block by block. -/
def rowTrace (r : ℕ) : List (TokenStep τ) → List (List (List (Attention τ κ))) →
    List (List (Attention τ κ))
  | t :: steps, inputs :: trace =>
    if t.serves r then
      inputs.filterMap (fun rows => rows[r - t.batchOffset]?) :: rowTrace r steps trace
    else rowTrace r steps trace
  | _, _ => []

def rowTokens (r : ℕ) (steps : List (TokenStep τ)) : List τ :=
  steps.filterMap fun t => if t.serves r then t.hidden[r - t.batchOffset]? else none

def TokenStep.alone (t : TokenStep τ) (r : ℕ) : Option (TokenStep τ) :=
  if t.serves r then
    (t.hidden[r - t.batchOffset]?).map fun token =>
      { rawMask := [true]
        batchOffset := 0
        batchSize := 1
        width := 1
        positions := [t.position r]
        prefixLength := t.prefixLength
        batch_pos := Nat.one_pos
        width_pos := Nat.one_pos
        positions_length := rfl
        inside := Nat.le_refl 1
        hidden := [token]
        width_one := rfl
        hidden_length := rfl }
  else none

/-- When the rotary positions a block uses are those of the active rows. -/
def Rotary.Handles (rotary : Rotary) (step : LiveStep) : Prop :=
  match rotary with
  | .positionIds => True
  | .pastLength => ∀ r, step.serves r → step.position r = step.window
  | .flexgen => (∀ r, step.serves r → step.position r = step.window) ∧
      (step.positions.head? = some 0 → step.window = 0)

/-- What a step needs of a block: room for the window and for the new tokens, rotary positions it
can handle, the mask of the step unless the rows have written the whole window, and a length for
its chunk. -/
structure Accepts (p : LiveBlock τ κ × Slab κ) (step : LiveStep) : Prop where
  window : step.window ≤ p.2.seqLen
  room : ∀ r, step.serves r → step.position r < p.2.seqLen
  rows : step.batchOffset + step.batchSize ≤ p.2.batch
  rotary : p.1.rotary.Handles step
  mask : p.1.masked = false → ∀ r, step.serves r → step.position r = step.window
  chunk : OneChunk p.1.chunkConfig step.batchSize 1 step.prefixLength

/-! ### A row alone -/

/-- One token through the blocks, over what the row has cached in each of them. -/
def decodeToken : List (LiveBlock τ κ) → List (List κ) → τ → List (Attention τ κ) × List (List κ)
  | block :: blocks, past :: pasts, token =>
    let input : Attention τ κ := ⟨past, past.length, token⟩
    let rest := decodeToken blocks pasts (block.attend input).1
    (input :: rest.1, (past ++ [(block.attend input).2]) :: rest.2)
  | _, _, _ => ([], [])

def decodeRow (blocks : List (LiveBlock τ κ)) :
    List (List κ) → List τ → List (List (Attention τ κ)) × List (List κ)
  | pasts, [] => ([], pasts)
  | pasts, token :: tokens =>
    let first := decodeToken blocks pasts token
    let rest := decodeRow blocks first.2 tokens
    (first.1 :: rest.1, rest.2)

end BloomBee.LiveDecode
