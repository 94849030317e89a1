import BloomBee.Spec.ChunkLoop
import BloomBee.Spec.FlexgenAttention
import BloomBee.Spec.KVSlab
import Mathlib.Algebra.Field.Rat

/-! The blocks of `models/*/block.py` that wrap a decoder layer of transformers,
`WrappedQwen3Block`, `WrappedQwen3MoeBlock`, `WrappedMiniMaxM2Block` and `WrappedGemma4Block`, and
`WrappedFalconBlock`, whose keys and values take another way from the cache and back; and
`inference_step` of `server/backend.py` on such a block, over the KV slab. The step is a regular
one: no speculative decoding, no positions of its own for each row. A batch row is a list of
tokens. -/

set_option autoImplicit false

namespace BloomBee.WrappedBlocks

open BackendStep (ChunkConfig chunkOffsets estimateMaxChunkLength runChunks)
open FlexgenAttention (Mask stepMask)
open KVSlab (Cache Cell MicroBatch Pkv Staging selectCache writeAndOffload)
open PagedKV (BlockConfig NewKvs)

variable {τ α : Type}

/-- Hidden states of shape `(batch, seq_length)`. -/
structure Hidden (τ : Type) where
  batch : ℕ
  seqLength : ℕ
  token : ℕ → ℕ → τ

def Hidden.row (x : Hidden τ) (b : ℕ) : List τ := (List.range x.seqLength).map (x.token b)

def Hidden.rows (x : Hidden τ) : List (List τ) := (List.range x.batch).map x.row

/-- `hidden_states[:, offset : offset + n]` -/
def Hidden.chunk (x : Hidden τ) (offset n : ℕ) : Hidden τ where
  batch := x.batch
  seqLength := min n (x.seqLength - offset)
  token b i := x.token b (offset + i)

def Hidden.append (x y : Hidden τ) : Hidden τ where
  batch := x.batch
  seqLength := x.seqLength + y.seqLength
  token b i := if i < x.seqLength then x.token b i else y.token b (i - x.seqLength)

def Hidden.ofRow [Inhabited τ] (xs : List τ) : Hidden τ := ⟨1, xs.length, fun _ i => xs.getD i default⟩

structure DecoderLayer (τ α : Type) where
  numKeyValueHeads : ℕ
  headDim : ℕ
  /-- The key and the value of a token at a position, for a head. -/
  keyValue : τ → ℕ → ℕ → Cell α
  /-- What a token at a position gets from the keys and values that it attends to. -/
  output : List (Fin numKeyValueHeads → Cell α) → τ → ℕ → τ

/-! ### Masks -/

/-- A mask of shape `(1 or batch, tgt, src)`: the keys that a query is to attend to have zero added
to their scores, and the others the least number of a type. -/
structure AttentionMask where
  tgt : ℕ
  src : ℕ
  keeps : ℕ → ℕ → ℕ → Bool

def AttentionMask.ofScores (mask : Mask ℚ) : AttentionMask where
  tgt := mask.tgt
  src := mask.src
  keeps b i j := decide (mask.score b i j = 0)

inductive LayerType where
  | fullAttention
  | slidingAttention
  deriving DecidableEq, Repr

def buildLayerTypeMask (layerType : LayerType) (slidingWindow : Option ℕ)
    (queryLength pastLength : ℕ) : AttentionMask where
  tgt := queryLength
  src := pastLength + queryLength
  keeps _ i k :=
    let q := pastLength + i
    let causal := decide (q < k)
    let tooOld := decide ((k : ℤ) < q - (slidingWindow.getD 0 - 1))
    !(if layerType = .slidingAttention ∧ 0 < slidingWindow.getD 0 then causal || tooOld else causal)

/-- The mask that the other wrappers build, by `torch.triu`. -/
def causalMask (queryLength pastLength : ℕ) : AttentionMask where
  tgt := queryLength
  src := pastLength + queryLength
  keeps _ i k := !decide (pastLength + 1 + i ≤ k)

/-! ### Blocks -/

/-- A `forward` with `use_cache`: it is given the mask, the cached keys and values and the positions,
and returns the output and the new keys and values. -/
abbrev Forward (τ α : Type) :=
  Option AttentionMask → Option (Pkv (Cell α)) → Option (ℕ → ℕ → ℕ) → Hidden τ →
    Option (Hidden τ × NewKvs α)

/-- A block on a whole sequence, as `TransformerBackend.forward` runs it. -/
def whole [Inhabited τ] (forward : Forward τ α) (xs : List τ) : List τ :=
  (forward none none none (.ofRow xs)).elim [] fun out => out.1.row 0

inductive Wrapper where
  | qwen3
  | qwen3Moe
  | miniMaxM2
  /-- `layer_types[layer_idx]` and `sliding_window` of the config. -/
  | gemma4 (layerType : LayerType) (slidingWindow : Option ℕ)
  deriving DecidableEq, Repr

/-- The mask of a wrapper that is not given one. -/
def Wrapper.buildMask : Wrapper → ℕ → ℕ → AttentionMask
  | .qwen3 | .qwen3Moe | .miniMaxM2 => causalMask
  | .gemma4 layerType slidingWindow =>
    buildLayerTypeMask layerType (if layerType = .slidingAttention then slidingWindow else none)

structure WrappedBlock (τ α : Type) where
  wrapper : Wrapper
  layer : DecoderLayer τ α

/-- `_reorder_cache_from_bloom` on cached keys and values of four dimensions, for a batch row. -/
def reorderCacheFromBloom (numKeyValueHeads : ℕ) (layerPast : Option (Pkv (Cell α))) (b : ℕ) :
    List (Fin numKeyValueHeads → Cell α) :=
  layerPast.elim [] fun pkv => (List.range pkv.len).map fun s h => pkv.cell b h s

/-- Keys of another shape cannot be put before the new ones. -/
def Fits (layer : DecoderLayer τ α) (batch : ℕ) (layerPast : Option (Pkv (Cell α))) : Prop :=
  ∀ pkv ∈ layerPast,
    pkv.batch = batch ∧ layer.numKeyValueHeads ≤ pkv.heads ∧ pkv.d = layer.headDim

instance (layer : DecoderLayer τ α) (batch : ℕ) (layerPast : Option (Pkv (Cell α))) :
    Decidable (Fits layer batch layerPast) :=
  inferInstanceAs (Decidable (∀ _ ∈ _, _))

/-- The keys and values that query `i` attends to. -/
def attended {κ : Type} (mask : AttentionMask) (b i : ℕ) (kvs : List κ) : List κ :=
  (kvs.zipIdx.filter fun kv => mask.keeps b i kv.2).map Prod.fst

/-- `forward`, with the new keys and values as `_reorder_cache_to_bloom` lays them out. -/
def WrappedBlock.forward (w : WrappedBlock τ α) : Forward τ α :=
  fun attentionMask layerPast positionIds x =>
  let nkv := w.layer.numKeyValueHeads
  let pastLength := layerPast.elim 0 Pkv.len
  let mask := attentionMask.getD (w.wrapper.buildMask x.seqLength pastLength)
  let position b i := (positionIds.getD fun _ i => pastLength + i) b i
  let new b i := w.layer.keyValue (x.token b i) (position b i)
  if Fits w.layer x.batch layerPast ∧ mask.tgt = x.seqLength ∧
      mask.src = pastLength + x.seqLength then
    some
      ({ x with
          token b i :=
            w.layer.output
              (attended mask b i (reorderCacheFromBloom nkv layerPast b ++
                (List.range x.seqLength).map fun t h => new b t h.val))
              (x.token b i) (position b i) },
        { bh := x.batch * nkv
          d := w.layer.headDim
          sNew := x.seqLength
          key bh e t := (new (bh / nkv) t (bh % nkv)).key e
          value bh t e := (new (bh / nkv) t (bh % nkv)).value e })
  else none

/-! ### `WrappedFalconBlock` -/

/-- What is read of a `FalconConfig`. -/
structure FalconConfig where
  numAttentionHeads : ℕ
  numKvHeads : ℕ
  newDecoderArchitecture : Bool
  multiQuery : Bool
  pos : 0 < numAttentionHeads
  divides : numKvHeads ∣ numAttentionHeads
  /-- Without queries that share a key, each head has one. -/
  own : newDecoderArchitecture = false → multiQuery = false → numKvHeads = numAttentionHeads

namespace FalconConfig

variable (config : FalconConfig)

def numKeyValueGroups : ℕ :=
  if config.newDecoderArchitecture then config.numAttentionHeads / config.numKvHeads
  else if config.multiQuery then config.numAttentionHeads
  else 1

/-- `num_kv_heads` of `OptimizedFalconAttention`, the heads that the cache has of a row. -/
def cachedHeads : ℕ :=
  if config.newDecoderArchitecture || !config.multiQuery then config.numKvHeads else 1

/-- `num_kv_heads` in its `forward`, the heads that the attention has of a row. -/
def stateHeads : ℕ :=
  if config.newDecoderArchitecture then config.numAttentionHeads else config.cachedHeads

/-- The head that `split_heads` broadcasts to head `h`. -/
def headOf (h : ℕ) : ℕ := if config.newDecoderArchitecture then h / config.numKeyValueGroups else h

end FalconConfig

structure States (κ : Type) where
  rows : ℕ
  len : ℕ
  d : ℕ
  cell : ℕ → ℕ → κ

section States

variable {κ : Type} (config : FalconConfig)

/-- `_expand_states`. A `view` or `reshape` to another number of entries raises. -/
def expandStates (state : States κ) : Option (States κ) :=
  let batch := state.rows / config.numKvHeads
  if config.numKvHeads ≠ 0 ∧ batch * config.numKvHeads = state.rows ∧
      batch * config.numKvHeads * config.numKeyValueGroups = batch * config.numAttentionHeads then
    some
      { state with
        rows := batch * config.numAttentionHeads
        cell r := state.cell (r / config.numKeyValueGroups) }
  else none

def collapseStates (state : States κ) : Option (States κ) :=
  let batch := state.rows / config.numAttentionHeads
  if batch * config.numKvHeads * config.numKeyValueGroups = state.rows then
    some
      { state with
        rows := batch * config.numKvHeads
        cell r := state.cell (r * config.numKeyValueGroups) }
  else none

/-- `_reorder_cache_from_bloom_to_falcon`, of cached keys and values of four dimensions. -/
def reorderCacheFromBloomToFalcon (pkv : Pkv κ) : Option (States κ) :=
  let heads := if !config.newDecoderArchitecture && config.multiQuery then min 1 pkv.heads
    else pkv.heads
  let state : States κ :=
    ⟨pkv.batch * heads, pkv.len, pkv.d, fun r s => pkv.cell (r / heads) (r % heads) s⟩
  if config.newDecoderArchitecture then expandStates config state else some state

def reorderCacheFromFalconToBloom (state : States κ) : Option (States κ) :=
  if config.newDecoderArchitecture then collapseStates config state else some state

/-- `torch.cat((past, new), dim=1)` -/
def States.cat (past new : States κ) : Option (States κ) :=
  if past.rows = new.rows ∧ past.d = new.d then
    some
      { new with
        len := past.len + new.len
        cell r s := if s < past.len then past.cell r s else new.cell r (s - past.len) }
  else none

/-- `state[:, n:, :]` -/
def States.drop (state : States κ) (n : ℕ) : States κ :=
  { state with len := state.len - n, cell := fun r s => state.cell r (n + s) }

end States

structure FalconLayer (config : FalconConfig) (τ α : Type) where
  headDim : ℕ
  /-- The key and the value that `query_key_value` gives a token at a position, for a head. -/
  keyValue : τ → ℕ → ℕ → Cell α
  /-- What a token at a position gets from the keys and values that it attends to. -/
  output : List (Fin config.stateHeads → Cell α) → τ → ℕ → τ

section Falcon

variable {config : FalconConfig} (layer : FalconLayer config τ α) (x : Hidden τ)

/-- The new keys and values, broadcast to the heads of the attention. -/
def FalconLayer.newStates (pastLength : ℕ) : States (Cell α) where
  rows := x.batch * config.stateHeads
  len := x.seqLength
  d := layer.headDim
  cell r t :=
    layer.keyValue (x.token (r / config.stateHeads) t) (pastLength + t)
      (config.headOf (r % config.stateHeads))

/-- The outputs over all states, and the new ones among these as they are given back. -/
def FalconLayer.outputs (pastLength : ℕ) (states : States (Cell α)) :
    Option (Hidden τ × NewKvs α) :=
  (reorderCacheFromFalconToBloom config (states.drop pastLength)).map fun present =>
    ({ x with
        token b i :=
          layer.output
            (attended (causalMask x.seqLength pastLength) b i
              ((List.range states.len).map fun s h =>
                states.cell (b * config.stateHeads + h.val) s))
            (x.token b i) (pastLength + i) },
      { bh := present.rows
        d := present.d
        sNew := present.len
        key bh e t := (present.cell bh t).key e
        value bh t e := (present.cell bh t).value e })

/-- `WrappedFalconBlock.forward`. The mask and the positions that it is given are not used. -/
def FalconLayer.forward : Forward τ α := fun _ layerPast _ x =>
  match layerPast with
  | none => layer.outputs x 0 (layer.newStates x 0)
  | some pkv =>
    match reorderCacheFromBloomToFalcon config pkv with
    | none => none
    | some past =>
      match past.cat (layer.newStates x past.len) with
      | none => none
      | some states => layer.outputs x past.len states

end Falcon

/-! ### Steps -/

structure Step (τ : Type) where
  microBatch : MicroBatch
  prefixLength : ℕ
  hidden : Hidden τ

/-- `inference_step`. The mask is that of the backend for all tokens, whatever the chunk. -/
def inferenceStep (forward : Forward τ α) (cfg : BlockConfig) (p : KVMultiplex.Policy)
    (chunks : ChunkConfig) (st : Staging (Cell α)) (c : Cache (Cell α)) (s : Step τ) :
    Option ((Staging (Cell α) × Cache (Cell α)) × Hidden τ) :=
  let seqLen := s.hidden.seqLength
  match estimateMaxChunkLength chunks s.hidden.batch seqLen s.prefixLength with
  | none => none
  | some maxChunkLength =>
    match selectCache cfg p st c s.prefixLength s.microBatch with
    | (_, .error _) => none
    | ((st, c), .ok layerPast) =>
      let cacheLen := layerPast.elim 0 Pkv.len
      let chunk offset :=
        (forward (some (.ofScores (stepMask cacheLen seqLen))) layerPast
          (some fun _ i => cacheLen + offset + i) (s.hidden.chunk offset maxChunkLength)).map
            fun out => ([out.1], out.2)
      match runChunks chunk (chunkOffsets seqLen maxChunkLength seqLen 0) with
      | none => none
      | some ([], _) => none
      | some (out :: outs, new) =>
        let written := writeAndOffload cfg p st c cacheLen s.microBatch new
        match written.outcome with
        | .error _ => none
        | .ok () => some ((written.staging, written.cache), outs.foldl Hidden.append out)

def serve (forward : Forward τ α) (cfg : BlockConfig) (p : KVMultiplex.Policy)
    (chunks : ChunkConfig) :
    Staging (Cell α) → Cache (Cell α) → List (Step τ) → Option (List (Hidden τ))
  | _, _, [] => some []
  | st, c, s :: ss =>
    match inferenceStep forward cfg p chunks st c s with
    | none => none
    | some ((st, c), out) => (serve forward cfg p chunks st c ss).map (out :: ·)

end BloomBee.WrappedBlocks
