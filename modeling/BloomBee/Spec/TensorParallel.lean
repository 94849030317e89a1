import BloomBee.Spec.FlexgenAttention

/-! Tensor parallelism over FlexGen kernels, `server/flexgen_tensor_parallel.py`: every shard has some
heads and some channels of the MLP, its kernels run on whole hidden states, and the partial results
are added. A shard on another device than the output keeps its part of the cache from call to call. -/

set_option autoImplicit false

namespace BloomBee.TensorParallel

open BackendStep (ChunkConfig chunkOffsets estimateMaxChunkLength runChunksIn)
open FlexgenAttention

/-- What the constructor reads of a `PretrainedConfig`. -/
structure Config where
  hiddenSize : ℕ
  numAttentionHeads : ℕ
  numKeyValueHeads : ℕ
  intermediateSize : ℕ

structure ShardLayout where
  rank : ℕ
  qHeadStart : ℕ
  qHeadEnd : ℕ
  qHiddenStart : ℕ
  qHiddenEnd : ℕ
  ffnStart : ℕ
  ffnEnd : ℕ

namespace ShardLayout

def localHeads (l : ShardLayout) : ℕ := l.qHeadEnd - l.qHeadStart

def localHidden (l : ShardLayout) : ℕ := l.qHiddenEnd - l.qHiddenStart

def localIntermediate (l : ShardLayout) : ℕ := l.ffnEnd - l.ffnStart

end ShardLayout

/-- The layouts that `FlexgenLlamaTensorParallel` makes for `devices` devices; each check raises a
`ValueError`. -/
def shardLayouts (config : Config) (devices : ℕ) : Option (List ShardLayout) :=
  if devices < 2 then none
  else if config.numKeyValueHeads ≠ config.numAttentionHeads then none
  else if config.numAttentionHeads % devices ≠ 0 then none
  else if config.intermediateSize % devices ≠ 0 then none
  else
    let localHeads := config.numAttentionHeads / devices
    let headDim := config.hiddenSize / config.numAttentionHeads
    let localHidden := localHeads * headDim
    let localIntermediate := config.intermediateSize / devices
    some ((List.range devices).map fun rank =>
      { rank := rank
        qHeadStart := rank * localHeads
        qHeadEnd := rank * localHeads + localHeads
        qHiddenStart := rank * localHidden
        qHiddenEnd := rank * localHidden + localHidden
        ffnStart := rank * localIntermediate
        ffnEnd := rank * localIntermediate + localIntermediate })

variable {R : Type}

/-- The cached keys and values of a call, `b` batch rows of `n_head` heads, and where they lie. -/
structure LayerPast (R : Type) where
  keyPtr : ℕ
  valuePtr : ℕ
  keyOffset : ℕ
  valueOffset : ℕ
  batchSize : ℕ
  k : List (Frame R)
  v : List (Frame R)

/-- `_RemoteShardCacheState`. The head size is that of the configuration. -/
structure RemoteShardCacheState (R : Type) where
  keyPtr : ℕ
  valuePtr : ℕ
  keyOffset : ℕ
  valueOffset : ℕ
  batchSize : ℕ
  seqLen : ℕ
  capacity : ℕ
  keyBuffer : List (Frame R)
  valueBuffer : List (Frame R)

/-- `_FlexgenLlamaShard`. -/
structure Shard (R : Type) where
  layout : ShardLayout
  numAttentionHeads : ℕ
  isOutputShard : Bool
  remoteCacheReuseEnabled : Bool
  remoteCacheState : Option (RemoteShardCacheState R)
  attn : AttentionWeights R
  mlp : MlpWeights R

/-- `_init_attention_weights` and `_init_mlp_weights`: rows of the projections into the heads and
the MLP, columns of those out of them. -/
def initShard (config : Config) (w : LlamaBlock R) (isOutputShard : Bool) (l : ShardLayout) :
    Shard R where
  layout := l
  numAttentionHeads := config.numAttentionHeads
  isOutputShard := isOutputShard
  remoteCacheReuseEnabled := true
  remoteCacheState := none
  attn :=
    { hiddenSize := config.hiddenSize
      qkvHiddenSize := l.localHidden
      kvHiddenSize := l.localHidden
      wQ := fun o j => w.attn.wQ (l.qHiddenStart + o) j
      wK := fun o j => w.attn.wK (l.qHiddenStart + o) j
      wV := fun o j => w.attn.wV (l.qHiddenStart + o) j
      wOut := fun c o => w.attn.wOut c (l.qHiddenStart + o)
      inputLayernorm := w.attn.inputLayernorm
      invFreqSize := config.hiddenSize / config.numAttentionHeads / 2
      rotaryEmbInvFreq := w.attn.rotaryEmbInvFreq }
  mlp :=
    { hiddenSize := config.hiddenSize
      intermediateSize := l.localIntermediate
      gate := fun m j => w.mlp.gate (l.ffnStart + m) j
      down := fun c m => w.mlp.down c (l.ffnStart + m)
      up := fun m j => w.mlp.up (l.ffnStart + m) j
      postAttentionLayernorm := w.mlp.postAttentionLayernorm }

/-- `FlexgenLlamaTensorParallel.__init__`, with a flag for each device: whether it is the output
device. -/
def init (config : Config) (w : LlamaBlock R) (isOutput : List Bool) : Option (List (Shard R)) :=
  (shardLayouts config isOutput.length).map fun layouts =>
    List.zipWith (initShard config w) isOutput layouts

/-- What `set_remote_cache_reuse_enabled` does to a shard; all shards have the flag of the module. -/
def Shard.setReuse (enabled : Bool) (s : Shard R) : Shard R :=
  if s.remoteCacheReuseEnabled = enabled then s
  else
    { s with
      remoteCacheReuseEnabled := enabled
      remoteCacheState := if enabled then s.remoteCacheState else none }

def setRemoteCacheReuseEnabled (enabled : Bool) (shards : List (Shard R)) : List (Shard R) :=
  shards.map (Shard.setReuse enabled)

/-! ### The cache of a shard -/

/-- The loop of `_next_capacity`, for at most `fuel` turns. -/
def nextCapacityLoop (required : ℕ) : ℕ → ℕ → ℕ
  | 0, capacity => capacity
  | fuel + 1, capacity =>
    if capacity < required then nextCapacityLoop required fuel (capacity <<< 1) else capacity

/-- `_next_capacity`; the capacity doubles, so `required` turns are enough. -/
def nextCapacity (required : ℕ) : ℕ := max (nextCapacityLoop required required 1) 1

/-- `_build_local_cache_tensors` of keys or values: the heads of the shard, from `seqStart` on. -/
def localFrames (l : ShardLayout) (totalHeads seqStart : ℕ) (t : List (Frame R)) : List (Frame R) :=
  (t.drop seqStart).map fun x bh =>
    x (bh / l.localHeads * totalHeads + (l.qHeadStart + bh % l.localHeads))

namespace RemoteShardCacheState

/-- The state is about the tensors of `past`. -/
def Matches (s : RemoteShardCacheState R) (past : LayerPast R) : Prop :=
  s.keyPtr = past.keyPtr ∧ s.valuePtr = past.valuePtr ∧ s.keyOffset = past.keyOffset ∧
    s.valueOffset = past.valueOffset ∧ s.batchSize = past.batchSize

instance (s : RemoteShardCacheState R) (past : LayerPast R) : Decidable (s.Matches past) :=
  inferInstanceAs (Decidable (_ ∧ _))

/-- `_wrap_cached_remote_past`. -/
def wrap (s : RemoteShardCacheState R) : List (Frame R) × List (Frame R) :=
  (s.keyBuffer.take s.seqLen, s.valueBuffer.take s.seqLen)

/-- New buffers for `past`, of which the shard has `k` and `v`; `empty` is what lies in a cell that
`torch.empty` allocates. -/
def fresh (empty : Frame R) (past : LayerPast R) (k v : List (Frame R)) :
    RemoteShardCacheState R :=
  let seqLen := past.k.length
  let capacity := nextCapacity (max seqLen (seqLen + 32))
  { keyPtr := past.keyPtr
    valuePtr := past.valuePtr
    keyOffset := past.keyOffset
    valueOffset := past.valueOffset
    batchSize := past.batchSize
    seqLen := seqLen
    capacity := capacity
    keyBuffer := assignAt (List.replicate capacity empty) 0 k
    valueBuffer := assignAt (List.replicate capacity empty) 0 v }

/-- Larger buffers if `seqLen` positions do not fit. -/
def grow (empty : Frame R) (s : RemoteShardCacheState R) (seqLen : ℕ) : RemoteShardCacheState R :=
  if s.capacity < seqLen then
    let capacity := nextCapacity (max seqLen (seqLen + 32))
    { s with
      keyBuffer := assignAt (List.replicate capacity empty) 0 (s.keyBuffer.take s.seqLen)
      valueBuffer := assignAt (List.replicate capacity empty) 0 (s.valueBuffer.take s.seqLen)
      capacity := capacity }
  else s

/-- The tail of a longer cache is copied behind what is there. -/
def extend (empty : Frame R) (s : RemoteShardCacheState R) (seqLen : ℕ)
    (tailKey tailValue : List (Frame R)) : RemoteShardCacheState R :=
  { s.grow empty seqLen with
    keyBuffer := assignAt (s.grow empty seqLen).keyBuffer s.seqLen tailKey
    valueBuffer := assignAt (s.grow empty seqLen).valueBuffer s.seqLen tailValue
    seqLen := seqLen }

end RemoteShardCacheState

namespace Shard

/-- The shard's part of keys or values, from `seqStart` on. -/
def build (s : Shard R) (seqStart : ℕ) (t : List (Frame R)) : List (Frame R) :=
  localFrames s.layout s.numAttentionHeads seqStart t

/-- What a remote shard keeps after a call. -/
def nextState (empty : Frame R) (s : Shard R) (past : LayerPast R) : RemoteShardCacheState R :=
  let fresh := RemoteShardCacheState.fresh empty past (s.build 0 past.k) (s.build 0 past.v)
  match s.remoteCacheState with
  | none => fresh
  | some state =>
    if state.Matches past then
      if past.k.length = state.seqLen then state
      else if state.seqLen < past.k.length then
        state.extend empty past.k.length (s.build state.seqLen past.k)
          (s.build state.seqLen past.v)
      else fresh
    else fresh

def localLayerPast (empty : Frame R) (s : Shard R) :
    Option (LayerPast R) → Option (List (Frame R) × List (Frame R)) × Shard R
  | none => (none, s)
  | some past =>
    if s.isOutputShard then (some (s.build 0 past.k, s.build 0 past.v), s)
    else if !s.remoteCacheReuseEnabled then
      (some (s.build 0 past.k, s.build 0 past.v), { s with remoteCacheState := none })
    else
      let state := s.nextState empty past
      (some state.wrap, { s with remoteCacheState := some state })

end Shard

/-! ### Layouts -/

structure Tensor3 (R : Type) where
  shape : ℕ × ℕ × ℕ
  entry : ℕ → ℕ → ℕ → R

/-- `permute(0, 2, 1)`. -/
def Tensor3.permute021 (t : Tensor3 R) : Tensor3 R where
  shape := (t.shape.1, t.shape.2.2, t.shape.2.1)
  entry i j k := t.entry i k j

/-- Keys in the layout that `_merge_cache_parts` gives them, `(b * n_head, head_dim, s)`. -/
def keyLayout [Zero R] (batchHeads headDim : ℕ) (k : List (Frame R)) : Tensor3 R where
  shape := (batchHeads, headDim, k.length)
  entry bh d j := frameAt k j bh d

/-- Values in theirs, `(b * n_head, s, head_dim)`. -/
def valueLayout [Zero R] (batchHeads headDim : ℕ) (v : List (Frame R)) : Tensor3 R where
  shape := (batchHeads, v.length, headDim)
  entry bh j d := frameAt v j bh d

/-- Keys or values with `head_dim` last: what has it there stays, and what has it before is
permuted. -/
def Tensor3.toBhsd (headDim : ℕ) (t : Tensor3 R) : Option (Tensor3 R) :=
  if t.shape.2.2 = headDim then some t
  else if t.shape.2.1 = headDim then some t.permute021
  else none

/-- The frames of a tensor `(b * n_head, s, head_dim)`. -/
def Tensor3.frames (t : Tensor3 R) (seqLen : ℕ) : List (Frame R) :=
  (List.range seqLen).map fun j bh d => t.entry bh j d

/-- `_unpack_layer_past` of tensors of three dimensions, as the batch size and the frames; `view`
raises if the numbers of entries differ. -/
def unpackLayerPast (config : Config) (key value : Tensor3 R) :
    Option (ℕ × List (Frame R) × List (Frame R)) :=
  let headDim := config.hiddenSize / config.numAttentionHeads
  let batchSize := key.shape.1 / config.numAttentionHeads
  if config.numAttentionHeads = 0 ∨ key.shape.1 % config.numAttentionHeads ≠ 0 then none
  else
    match key.toBhsd headDim, value.toBhsd headDim with
    | some k, some v =>
      let seqLen := k.shape.2.1
      let size := batchSize * config.numAttentionHeads * seqLen * headDim
      if k.shape.1 * k.shape.2.1 * k.shape.2.2 = size ∧
          v.shape.1 * v.shape.2.1 * v.shape.2.2 = size then
        some (batchSize, k.frames seqLen, v.frames seqLen)
      else none
    | _, _ => none

/-! ### The forward pass -/

section

variable [Field R]

def buildScoreAttentionMask (queryLength pastKeyValuesLength : ℕ) : Mask R where
  tgt := queryLength
  src := queryLength + pastKeyValuesLength
  score _ i j := if j < pastKeyValuesLength + i + 1 then 0 else maskedScore

/-- `_reduce_partials`: every partial result has the residual in it, and one is to stay. -/
def reducePartials (partials : List (List (Frame R))) (residual : List (Frame R)) :
    Option (List (Frame R)) :=
  if partials = [] then none
  else
    some (residual.mapIdx fun i x b c =>
      (partials.map fun p => frameAt p i b c).sum - (partials.length - 1 : ℕ) * x b c)

/-- Head `head` of batch row `b` of parts that are concatenated along the heads. -/
def mergedHead (b : ℕ) : List (ℕ × Frame R) → ℕ → ℕ → R
  | [], _ => fun _ => 0
  | (localHeads, t) :: parts, head =>
    if head < localHeads then t (b * localHeads + head)
    else mergedHead b parts (head - localHeads)

/-- `_merge_cache_parts`, for keys or values; parts of different lengths and shards without heads
raise. -/
def mergeCacheParts (localHeads : List ℕ) (parts : List (List (Frame R))) :
    Option (List (Frame R)) :=
  match parts with
  | [] => none
  | first :: _ =>
    if (∀ part ∈ parts, part.length = first.length) ∧ ∀ n ∈ localHeads, 0 < n then
      some ((List.range first.length).map fun j bh =>
        mergedHead (bh / localHeads.sum) (localHeads.zip (parts.map fun part => frameAt part j))
          (bh % localHeads.sum))
    else none

variable [LinearOrder R] (E : Elementary R) (empty : Frame R)

def Shard.attentionForward (s : Shard R) (hidden : List (Frame R)) (mask : Mask R)
    (rotaryPositionIds : Option (ℕ → ℕ → ℕ)) (layerPast : Option (LayerPast R)) :
    Option (Attended R) × Shard R :=
  match s.localLayerPast empty layerPast with
  | (none, s) => (mhaLlama E s.attn s.layout.localHeads rotaryPositionIds mask hidden, s)
  | (some (k, v), s) =>
    ((mhaGenLlama E s.attn s.layout.localHeads rotaryPositionIds mask k v hidden).map
      CachedAttended.toAttended, s)

/-- The shards one after another, up to one that raises. -/
def attentionForwards (hidden : List (Frame R)) (mask : Mask R)
    (rotaryPositionIds : Option (ℕ → ℕ → ℕ)) (layerPast : Option (LayerPast R)) :
    List (Shard R) → Option (List (Attended R)) × List (Shard R)
  | [] => (some [], [])
  | s :: shards =>
    match s.attentionForward E empty hidden mask rotaryPositionIds layerPast with
    | (none, s) => (none, s :: shards)
    | (some a, s) =>
      let (rest, shards) := attentionForwards hidden mask rotaryPositionIds layerPast shards
      (rest.map (a :: ·), s :: shards)

/-- What follows in `forward`: the reductions, the MLP of every shard, and the merged cache. -/
def finish (shards : List (Shard R)) (hidden : List (Frame R)) (parts : List (Attended R)) :
    Option (Attended R) := do
  let attnOutput ← reducePartials (parts.map Attended.value) hidden
  let output ← reducePartials
    (shards.map fun s => attnOutput.map fun x b => mlpLlama E s.mlp (x b)) attnOutput
  let localHeads := shards.map fun s => s.layout.localHeads
  let key ← mergeCacheParts localHeads (parts.map Attended.kNew)
  let value ← mergeCacheParts localHeads (parts.map Attended.vNew)
  return ⟨output, key, value⟩

/-- `FlexgenLlamaTensorParallel.forward` with `use_cache`, and the shards after it. -/
def forward (shards : List (Shard R)) (hidden : List (Frame R)) (layerPast : Option (LayerPast R))
    (attentionMask : Option (Mask R)) (rotaryPositionIds : Option (ℕ → ℕ → ℕ)) :
    Option (Attended R) × List (Shard R) :=
  let mask := attentionMask.getD
    (buildScoreAttentionMask hidden.length ((layerPast.map fun past => past.k.length).getD 0))
  let (parts, shards) :=
    attentionForwards E empty hidden mask rotaryPositionIds layerPast shards
  (parts.bind (finish E shards hidden), shards)

/-! ### A session -/

/-- A block of a session: its shards, its cache, and where the tensors of that lie. -/
structure ShardedBlock (R : Type) where
  shards : List (Shard R)
  cache : BlockCache R
  keyPtr : ℕ
  valuePtr : ℕ
  keyOffset : ℕ
  valueOffset : ℕ
  batchSize : ℕ

/-- What `select_cache` gives the block. -/
def ShardedBlock.layerPast (t : ShardedBlock R) (prefixLength : ℕ) : Option (LayerPast R) :=
  (t.cache.select prefixLength).map fun past =>
    { keyPtr := t.keyPtr
      valuePtr := t.valuePtr
      keyOffset := t.keyOffset
      valueOffset := t.valueOffset
      batchSize := t.batchSize
      k := past.1
      v := past.2 }

/-- A regular `inference_step` of such a block, as of a block on one device; `reuseAllowed` is what
the backend makes of the step. -/
def ShardedBlock.inferenceStep (chunks : ChunkConfig) (batchSize : ℕ) (reuseAllowed : Bool)
    (prefixLength : ℕ) (t : ShardedBlock R) (hidden : List (Frame R)) :
    Option (ShardedBlock R × List (Frame R)) :=
  match estimateMaxChunkLength chunks batchSize hidden.length prefixLength with
  | none => none
  | some maxChunkLength =>
    let chunk shards offset :=
      let r := forward E empty shards ((hidden.drop offset).take maxChunkLength)
        (t.layerPast prefixLength) (some (stepMask prefixLength hidden.length)) none
      (r.1.map fun a => (a.value, a), r.2)
    match runChunksIn chunk (chunkOffsets hidden.length maxChunkLength hidden.length 0)
        (setRemoteCacheReuseEnabled reuseAllowed t.shards) with
    | (none, _) => none
    | (some (out, last), shards) =>
      some ({ t with
        shards := shards
        cache := t.cache.update prefixLength last.kNew last.vNew }, out)

variable (chunks : ℕ → ChunkConfig) (batchSize : ℕ)

/-- The steps of the blocks from number `b` on, one after another. -/
def serveShards (reuseAllowed : Bool) (prefixLength : ℕ) :
    ℕ → List (ShardedBlock R) → List (Frame R) → Option (List (ShardedBlock R) × List (Frame R))
  | _, [], hidden => some ([], hidden)
  | b, t :: ts, hidden =>
    match t.inferenceStep E empty (chunks b) batchSize reuseAllowed prefixLength hidden with
    | none => none
    | some (t, value) =>
      match serveShards reuseAllowed prefixLength (b + 1) ts value with
      | none => none
      | some (ts, out) => some (t :: ts, out)

/-- The answers to the requests of a session, each with whether reuse is allowed. -/
def serveShardedRequests :
    List (ShardedBlock R) → List (Bool × Request R) → Option (List (List (Frame R)))
  | _, [] => some []
  | ts, (reuseAllowed, r) :: rs =>
    if r.hidden = [] then (serveShardedRequests ts rs).map ([] :: ·)
    else
      match serveShards E empty chunks batchSize reuseAllowed r.startFromPosition 0 ts r.hidden with
      | none => none
      | some (ts, out) => (serveShardedRequests ts rs).map (out :: ·)

end

end BloomBee.TensorParallel
