import BloomBee.Spec.RpcInference

/-! The two ways in which a step reaches a server behind the first one: the request that the
client sends it (`_ServerInferenceSession.step`), and what the server before it pushes
(`_push_outputs` and `_push_microbatch` of `server/handler.py`). A tensor is given by its
rows along the first dimension, each flattened; hidden states have one entry per token. -/

set_option autoImplicit false

namespace BloomBee.PushPath

open RpcInference

def dummy : Batch ℤ := ⟨0, [], fun _ h => (List.not_mem_nil h).elim⟩

def isDummy (t : Batch ℤ) : Bool := decide (t.numel = 0)

def zerosLike (t : Batch ℤ) : Batch ℤ where
  width := t.width
  rows := t.rows.map fun r => List.replicate r.length 0
  rows_width := by
    intro r hr
    obtain ⟨r', hr', rfl⟩ := List.mem_map.mp hr
    rw [List.length_replicate, t.rows_width r' hr']

/-- `torch.zeros(batch)`. -/
def zeros (batch : ℕ) : Batch ℤ where
  width := 1
  rows := List.replicate batch [0]
  rows_width r hr := by rw [List.eq_of_mem_replicate hr]; rfl

inductive Layout where
  | decodeMinimalV2
  | decodeCompactV2
  | specCompactV1
  deriving DecidableEq, Repr

/-- The part of the request metadata that decides how a step is run. -/
structure Metadata where
  isSpecDec : Bool
  needPruning : Bool
  layout : Option Layout
  startFromPosition : ℕ
  fullBatchSize : ℕ
  microBatchSize : ℕ
  batchOffset : Option ℕ
  prefillLength : Option ℤ
  /-- `live_continuous_batching`: the `active_mask` of its first tick batch. -/
  activeMask : Option (List Bool)

structure Request where
  tensors : List (Batch ℤ)
  metadata : Metadata

/-- A staged tick batch of live continuous batching. -/
structure LiveBatch where
  batchOffset : Option ℕ
  fullBatchSize : Option ℕ
  microBatchSize : Option ℕ
  activeMask : Option (List Bool)

/-- The arguments of `InferenceSession.step`; a tensor that is not given is a dummy. -/
structure StepArgs where
  batch : ℕ
  tokens : ℕ
  isSpecDec : Bool
  prompts : Batch ℤ
  hypoIds : Batch ℤ
  treeAttentionMask : Batch ℤ
  kvCachePositionIds : Batch ℤ
  draftTokens : Batch ℤ
  prefillLength : Option (Batch ℤ)
  live : Option LiveBatch

def StepArgs.prefill (a : StepArgs) : Batch ℤ := a.prefillLength.getD (zeros a.batch)

/-- A server of the chain and the client's session with it, before the step. -/
structure Stage where
  spanStart : ℕ
  spanEnd : ℕ
  position : ℕ
  stepped : Bool
  liveFullBatchSize : ℕ
  /-- The tensors of the first request of the session. -/
  firstTensors : List (Batch ℤ)
  /-- The hidden states that the client sends, and those that the server answers with. -/
  inputs : Batch ℤ
  outputs : Batch ℤ
  config : Config
  /-- What the pruner of the server keeps of the draft tree, if it has one. -/
  pruned : Option (Batch ℤ)

section Client

variable (live : Option LiveBatch) (s : Stage) (a : StepArgs)

def liveFullBatchSize : ℕ := (live.bind fun l => l.fullBatchSize).getD s.liveFullBatchSize

def liveMicrobatchActive : Bool :=
  decide (0 < liveFullBatchSize live s) &&
    (decide (s.inputs.rows.length < liveFullBatchSize live s) ||
      decide (0 < (live.bind fun l => l.batchOffset).getD 0))

/-- `_live_row_local_position(prefill_length)`. -/
def liveRowLocalPosition : ℕ :=
  if isDummy a.prefill then s.position else (a.prefill.rows.flatten.headD 0).toNat

/-- A session that has not stepped resends its rows from the beginning. -/
def resendsLiveHistory : Bool :=
  !s.stepped && liveMicrobatchActive live s && decide (0 < liveRowLocalPosition s a)

def startFromPosition : ℕ :=
  if a.isSpecDec then s.position + a.kvCachePositionIds.width
  else if liveMicrobatchActive live s then
    if resendsLiveHistory live s a then 0 else liveRowLocalPosition s a
  else s.position

def sentPrefill : Batch ℤ :=
  if resendsLiveHistory live s a then zerosLike a.prefill else a.prefill

def inferBatchDim (t : Batch ℤ) : ℕ := if isDummy t then 0 else t.rows.length

def logicalFullBatchSize (keep : Batch ℤ) : ℕ :=
  [inferBatchDim s.inputs, inferBatchDim a.hypoIds, inferBatchDim keep,
    inferBatchDim (sentPrefill live s a), inferBatchDim a.draftTokens,
    inferBatchDim a.treeAttentionMask, s.liveFullBatchSize, liveFullBatchSize live s, 1].foldl max 0

def StepArgs.layout (prompts : Batch ℤ) : Layout :=
  if a.isSpecDec then .specCompactV1
  else if isDummy prompts && isDummy a.hypoIds then .decodeMinimalV2
  else .decodeCompactV2

end Client

/-- The tick batch is staged at the session of the first server only. -/
def stagedLive (i : ℕ) (a : StepArgs) : Option LiveBatch := if i = 0 then a.live else none

/-- The request of the client to the `i`-th server of the chain. -/
def directRequest (i : ℕ) (s : Stage) (a : StepArgs) (keep : Batch ℤ) : Request :=
  let live := stagedLive i a
  let prompts := a.prompts.slice s.spanStart s.spanEnd
  let prefill := sentPrefill live s a
  { tensors :=
      match a.layout prompts with
      | .decodeMinimalV2 => [s.inputs, keep, prefill]
      | .decodeCompactV2 => [s.inputs, keep, prefill, prompts, a.hypoIds]
      | .specCompactV1 =>
        [s.inputs, keep, a.treeAttentionMask, a.kvCachePositionIds, a.draftTokens, prefill, prompts,
          a.hypoIds]
    metadata :=
      { isSpecDec := a.isSpecDec
        needPruning := a.isSpecDec && decide (i = 0)
        layout := some (a.layout prompts)
        startFromPosition := startFromPosition live s a
        fullBatchSize :=
          (live.bind fun l => l.fullBatchSize).getD (logicalFullBatchSize live s a keep)
        microBatchSize := (live.bind fun l => l.microBatchSize).getD s.inputs.rows.length
        batchOffset := live.bind fun l => l.batchOffset
        prefillLength := none
        activeMask := live.bind fun l => l.activeMask } }

/-- The tensors of a request under their names. -/
structure Fields where
  hidden : Batch ℤ
  keepIndices : Batch ℤ
  prefillLength : Batch ℤ
  prompts : Batch ℤ
  hypoIds : Batch ℤ
  treeAttentionMask : Option (Batch ℤ)
  kvCachePositionIds : Option (Batch ℤ)
  draftTokens : Option (Batch ℤ)

/-- The layout when the metadata names none. -/
def inferLayout (m : Metadata) (numTensors : ℕ) : Option Layout :=
  match m.layout with
  | some layout => some layout
  | none =>
    if !m.isSpecDec && numTensors == 3 then some .decodeMinimalV2
    else if !m.isSpecDec && numTensors == 5 then some .decodeCompactV2
    else if m.isSpecDec && numTensors == 8 then some .specCompactV1
    else none

/-- The unpacking of a full-batch request; `none` where it raises. -/
def unpack (r : Request) : Option Fields :=
  match inferLayout r.metadata r.tensors.length, r.tensors with
  | some .decodeMinimalV2, hidden :: keep :: prefill :: _ =>
    some ⟨hidden, keep, prefill, dummy, dummy, none, none, none⟩
  | some .decodeCompactV2, hidden :: keep :: prefill :: prompts :: hypoIds :: _ =>
    some ⟨hidden, keep, prefill, prompts, hypoIds, none, none, none⟩
  | some .specCompactV1, hidden :: keep :: tree :: kv :: draft :: prefill :: prompts :: hypoIds :: _ =>
    some ⟨hidden, keep, prefill, prompts, hypoIds, some tree, some kv,
      if isDummy draft then none else some draft⟩
  | _, _ => none

/-- Rows and tokens that the blocks see: speculative hidden states are restored to the rows of
the keep indices and the width of the draft tree. -/
def Fields.shape (f : Fields) (isSpecDec : Bool) : ℕ × ℕ :=
  match isSpecDec, f.draftTokens with
  | true, some draft => (f.keepIndices.rows.length, draft.width)
  | _, _ => (f.hidden.rows.length, f.hidden.width)

/-- `_live_active_mask_from_step_metadata`. -/
def liveActiveMask (m : Metadata) (batchSize : ℕ) : Option (List Bool) :=
  if batchSize = 0 then none
  else m.activeMask.bind fun mask =>
    if mask.length = batchSize then some mask
    else if m.microBatchSize ≠ batchSize then none
    else if mask.length < m.batchOffset.getD 0 + batchSize then none
    else some ((mask.drop (m.batchOffset.getD 0)).take batchSize)

/-- What a server runs one row of the batch with. -/
structure RowRun where
  cacheRow : ℕ
  hypoId : Option ℤ
  keepIndices : Option (List ℤ)
  prefillLength : Option ℤ
  active : Option Bool
  deriving DecidableEq

/-- What a server runs a step with. -/
structure Run where
  prompts : Option (Batch ℤ)
  treeAttentionMask : Option (Batch ℤ)
  kvCachePositionIds : Option (Batch ℤ)
  startFromPosition : ℕ
  fullBatchSize : ℕ
  rows : List RowRun
  deriving DecidableEq

/-- The hypothesis that a row continues; a dummy continues every row with itself. -/
def hypoAt (hypoIds : Batch ℤ) (row : ℕ) : Option ℤ :=
  if isDummy hypoIds then some row else hypoIds.rows.flatten[row]?

def prefillAt (prefill : Batch ℤ) (row : ℕ) : Option ℤ := prefill.rows.flatten[row]?

/-- The full batch size of `_fullbatch_metadata_kwargs`. -/
def fullBatch (fullBatchSize batchSize : ℕ) : ℕ :=
  if fullBatchSize = 0 then max 1 batchSize else fullBatchSize

/-- The full-batch path splits a batch locally by the configuration of the server. -/
def Fields.splits (s : Stage) (isSpecDec : Bool) (f : Fields) : Bool :=
  decide (f.hidden.numel ≠ 0) && shouldSplitBatch s.config (f.shape isSpecDec).1

/-- The mask that the blocks get. A large batch that is not split goes through separate pools,
without it. -/
def Fields.activeMask (s : Stage) (m : Metadata) (f : Fields) : Option (List Bool) :=
  let (batchSize, tokens) := f.shape m.isSpecDec
  if f.splits s m.isSpecDec = true ∨ batchSize * tokens ≤ maxShortInferenceTokens then
    liveActiveMask m batchSize
  else none

def runFull (s : Stage) (r : Request) : Option Run :=
  (unpack r).map fun f =>
    let m := r.metadata
    let batchSize := (f.shape m.isSpecDec).1
    let splits := f.splits s m.isSpecDec
    let mask := f.activeMask s m
    { prompts := if isDummy f.prompts then none else some f.prompts
      treeAttentionMask := f.treeAttentionMask
      kvCachePositionIds := f.kvCachePositionIds
      startFromPosition := m.startFromPosition
      fullBatchSize := if splits then batchSize else fullBatch m.fullBatchSize batchSize
      rows := (List.range batchSize).map fun row =>
        { cacheRow := (if splits then 0 else m.batchOffset.getD 0) + row
          hypoId := hypoAt f.hypoIds row
          keepIndices := f.keepIndices.rows[row]?
          prefillLength := prefillAt f.prefillLength row
          active := mask.bind fun m => m[row]? } }

/-- One micro-batch of a step: the rows it stands for, its tokens and its keep indices. -/
structure MicroBatchPush where
  offset : ℕ
  size : ℕ
  tokens : ℕ
  keepIndices : Batch ℤ

/-- The micro-batches of a step, with the metadata they share. -/
structure MicroBatches where
  parts : List MicroBatchPush
  metadata : Metadata

/-- The micro-batches of a step at a server, taken together. No prompts, the rows continue
themselves, and the prefill length comes from the metadata. -/
def runMicroBatches (ms : MicroBatches) : Run :=
  { prompts := none
    treeAttentionMask := none
    kvCachePositionIds := none
    startFromPosition := ms.metadata.startFromPosition
    fullBatchSize := ms.metadata.fullBatchSize
    rows := ms.parts.flatMap fun p => (List.range p.size).map fun row =>
      { cacheRow := p.offset + row
        hypoId := some ((p.offset + row : ℕ) : ℤ)
        keepIndices := p.keepIndices.rows[row]?
        prefillLength := some (ms.metadata.prefillLength.getD 0)
        active := (liveActiveMask ms.metadata ms.metadata.fullBatchSize).bind fun m => m[row]? } }

/-- The keep indices that a full batch leaves a server with. -/
def keepAnswer (s : Stage) (m : Metadata) (f : Fields) : Batch ℤ :=
  if f.hidden.numel = 0 then f.keepIndices
  else
    match m.isSpecDec && m.needPruning, s.pruned with
    | true, some pruned => pruned
    | _, _ =>
      normalizeKeepIndices (f.shape m.isSpecDec).1 (f.shape m.isSpecDec).2 f.keepIndices

def Metadata.forward (m : Metadata) : Metadata :=
  { m with needPruning := false, batchOffset := none, activeMask := none }

/-- `_push_outputs`: the outputs of the step and, after them, tensors of the first request of
the session. `none` where an index is out of range. -/
def pushTensors (layout : Option Layout) (first outputs : List (Batch ℤ)) : Option (List (Batch ℤ)) :=
  match outputs with
  | [hidden, keep] =>
    match layout with
    | some .decodeMinimalV2 => first[2]?.map fun prefill => [hidden, keep, prefill]
    | _ => some (hidden :: keep :: first.drop 2)
  | [hidden, keep, _, tree, kv, draft] =>
    match layout with
    | some .specCompactV1 =>
      match first[5]?, first[6]?, first[7]? with
      | some prefill, some prompts, some hypoIds =>
        some [hidden, keep, tree, kv, draft, prefill, prompts, hypoIds]
      | _, _, _ => none
    | _ => some (outputs ++ first.drop 6)
  | _ => none

/-- What a full batch is answered with. -/
def outputTensors (s : Stage) (m : Metadata) (f : Fields) : List (Batch ℤ) :=
  if m.isSpecDec then
    [s.outputs, keepAnswer s m f, dummy, f.treeAttentionMask.getD dummy,
      f.kvCachePositionIds.getD dummy, f.draftTokens.getD dummy]
  else [s.outputs, keepAnswer s m f]

/-- The push after a full batch; deep prompts rule it out. -/
def pushFull (s : Stage) (first : List (Batch ℤ)) (r : Request) : Option Request :=
  (unpack r).bind fun f =>
    if isDummy f.prompts then
      (pushTensors r.metadata.layout first (outputTensors s r.metadata f)).map fun tensors =>
        ⟨tensors, r.metadata.forward⟩
    else none

/-- The micro-batches of a full batch that are pushed while it is computed. -/
def pushParts (s : Stage) (f : Fields) : List MicroBatchPush :=
  let batchSize := f.hidden.rows.length
  (computeMicroBatchRanges (s.config.microBatchSize.getD 0) batchSize).map fun (start, stop) =>
    let keep := if f.keepIndices.rows.length = batchSize then f.keepIndices.slice start stop
      else f.keepIndices
    ⟨start, stop - start, s.outputs.width, normalizeKeepIndices (stop - start) f.hidden.width keep⟩

/-- `_push_microbatch`, for a full batch. -/
def pushSplit (s : Stage) (r : Request) : Option MicroBatches :=
  (unpack r).bind fun f =>
    if !r.metadata.isSpecDec && f.splits s false then
      some ⟨pushParts s f, { r.metadata.forward with
        layout := none
        fullBatchSize := f.hidden.rows.length
        microBatchSize := s.config.microBatchSize.getD 0 }⟩
    else none

/-- `is_microbatch_enabled`: a server without it runs the micro-batches that it gets, and pushes
none on. -/
def microbatchEnabled (cfg : Config) : Bool := cfg.microBatchSize.any fun size => 0 < size

/-- The keep indices of a micro-batch after a server. -/
def MicroBatchPush.answer (p : MicroBatchPush) : Batch ℤ :=
  normalizeKeepIndices p.size p.tokens p.keepIndices

/-- `_push_microbatch`, for a micro-batch that was itself pushed. -/
def relayParts (s : Stage) (ms : MicroBatches) : MicroBatches :=
  { ms with parts := ms.parts.map fun p => { p with tokens := s.outputs.width, keepIndices := p.answer } }

/-- The push of the merged outputs when the last micro-batch of a step was computed. -/
def pushMerged (s : Stage) (first : List (Batch ℤ)) (ms : MicroBatches) : Option Request :=
  (pushTensors ms.metadata.layout first
      [s.outputs, mergeMicrobatchOutputs (-1) (ms.parts.map MicroBatchPush.answer)]).map
    fun tensors => ⟨tensors, ms.metadata.forward⟩

structure Step where
  args : StepArgs
  length : ℕ
  stage : ℕ → Stage

inductive Arrival where
  | full (r : Request)
  | microBatches (ms : MicroBatches)

namespace Step

variable (st : Step)

/-- The keep indices that the client starts from. -/
def initialKeep : Batch ℤ := defaultKeep st.args.batch st.args.tokens

def firstDirect : Request := directRequest 0 (st.stage 0) st.args st.initialKeep

/-- The keep indices that the client sends on after the first server answered. -/
def laterKeep : Batch ℤ :=
  if st.args.isSpecDec then
    match unpack st.firstDirect with
    | some f => keepAnswer (st.stage 0) st.firstDirect.metadata f
    | none => st.initialKeep
  else st.initialKeep

def keep (i : ℕ) : Batch ℤ := if i = 0 then st.initialKeep else st.laterKeep

def direct (i : ℕ) : Request := directRequest i (st.stage i) st.args (st.keep i)

/-- `rpc_inference` keeps the first request of the session for all its pushes. -/
def first (i : ℕ) : List (Batch ℤ) :=
  if (st.stage i).stepped then (st.stage i).firstTensors else (st.direct i).tensors

/-- The server `i` has a next server to push to (`_collect_next_servers`). -/
def Hop (i : ℕ) : Prop := i + 1 < st.length ∧ (st.stage (i + 1)).stepped = true

/-- What the server `i` pushes for a copy of the step that it ran. -/
def pushes (i : ℕ) : Arrival → List Arrival
  | .full r =>
    match pushSplit (st.stage i) r with
    | some ms => [.microBatches ms]
    | none => ((pushFull (st.stage i) (st.first i) r).map Arrival.full).toList
  | .microBatches ms =>
    (if microbatchEnabled (st.stage i).config then
      [.microBatches (relayParts (st.stage i) ms)] else []) ++
      ((pushMerged (st.stage i) (st.first i) ms).map Arrival.full).toList

def run (i : ℕ) : Arrival → Option Run
  | .full r => runFull (st.stage i) r
  | .microBatches ms => some (runMicroBatches ms)

/-- The copies that are pushed to the server `i`, over any number of servers. -/
inductive Pushed : ℕ → Arrival → Prop where
  | direct {i : ℕ} {p : Arrival} (h : st.Hop i) (hp : p ∈ st.pushes i (.full (st.direct i))) :
      Pushed (i + 1) p
  | relayed {i : ℕ} {q p : Arrival} (hq : Pushed i q) (h : st.Hop i) (hp : p ∈ st.pushes i q) :
      Pushed (i + 1) p

end Step

end BloomBee.PushPath
