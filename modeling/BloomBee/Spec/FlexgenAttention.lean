import BloomBee.Lib.Softmax
import BloomBee.Spec.ChunkLoop

/-! A FlexGen Llama block in exact arithmetic: `mha_llama`, `mha_gen_llama` and `mlp_llama` of
`flexgen_utils/pytorch_backend.py`, as `FLEX_LlamaAttention.forward`, `FLEX_LlamaMLP.forward` and
`OptimizedLlamaDecoderLayer.forward` call them with one GPU batch. Weights and cache are not
compressed, and attention is dense (`attn_sparsity` is 1). A tensor is the list of the positions of
its sequence, each a frame: hidden states have an entry for each batch row and channel, keys and
values one for each of the `b * n_head` heads and channel. -/

set_option autoImplicit false

namespace BloomBee.FlexgenAttention

open BackendStep (ChunkConfig chunkOffsets estimateMaxChunkLength runChunks)

structure Elementary (R : Type) where
  exp : R → R
  rsqrt : R → R
  cos : R → R
  sin : R → R
  /-- `ACT2FN[config.hidden_act]`. -/
  act : R → R
  /-- `math.sqrt(head_dim)`. -/
  sqrt : ℕ → R

abbrev Frame (R : Type) := ℕ → ℕ → R

structure AttentionWeights (R : Type) where
  hiddenSize : ℕ
  /-- `w_q.shape[0]`. -/
  qkvHiddenSize : ℕ
  /-- `w_k.shape[0]`. -/
  kvHiddenSize : ℕ
  wQ : ℕ → ℕ → R
  wK : ℕ → ℕ → R
  wV : ℕ → ℕ → R
  wOut : ℕ → ℕ → R
  inputLayernorm : ℕ → R
  invFreqSize : ℕ
  rotaryEmbInvFreq : ℕ → R

structure MlpWeights (R : Type) where
  hiddenSize : ℕ
  intermediateSize : ℕ
  gate : ℕ → ℕ → R
  down : ℕ → ℕ → R
  up : ℕ → ℕ → R
  postAttentionLayernorm : ℕ → R

/-- Scores that are added to those of a query, for each batch row, query and key. -/
structure Mask (R : Type) where
  tgt : ℕ
  src : ℕ
  score : ℕ → ℕ → ℕ → R

variable {R : Type}

/-! ### Vectors -/

section

variable [Field R]

/-- `F.linear` on a vector of `inputs` channels. -/
def linear (inputs : ℕ) (w : ℕ → ℕ → R) (x : ℕ → R) (o : ℕ) : R :=
  ∑ j ∈ Finset.range inputs, x j * w o j

/-- `rms_norm` with its default `variance_epsilon`. -/
def rmsNorm (E : Elementary R) (hiddenSize : ℕ) (weight x : ℕ → R) (c : ℕ) : R :=
  x c * E.rsqrt ((∑ j ∈ Finset.range hiddenSize, x j ^ 2) / hiddenSize + 1 / 100000) * weight c

/-- `apply_rotary_emb` on the channels of a head: channel `d` and channel `half + d` are the parts
of a complex number that is turned by `angle d`. -/
def applyRotaryEmb (E : Elementary R) (half : ℕ) (angle x : ℕ → R) (d : ℕ) : R :=
  if d < half then x d * E.cos (angle d) - x (half + d) * E.sin (angle d)
  else x (d - half) * E.sin (angle (d - half)) + x d * E.cos (angle (d - half))

end

namespace AttentionWeights

def headDim (w : AttentionWeights R) (nHead : ℕ) : ℕ := w.qkvHiddenSize / nHead

def numKvHeads (w : AttentionWeights R) (nHead : ℕ) : ℕ := w.kvHiddenSize / w.headDim nHead

def groups (w : AttentionWeights R) (nHead : ℕ) : ℕ := nHead / w.numKvHeads nHead

/-- Where this fails, the assertion on `q_proj`, the rotation or one of the reshapes raises. -/
def Fits (w : AttentionWeights R) (nHead : ℕ) : Prop :=
  0 < nHead ∧ w.qkvHiddenSize % nHead = 0 ∧
    w.numKvHeads nHead * w.headDim nHead = w.kvHiddenSize ∧
    w.numKvHeads nHead * w.groups nHead = nHead ∧ w.headDim nHead = 2 * w.invFreqSize

instance (w : AttentionWeights R) (nHead : ℕ) : Decidable (w.Fits nHead) :=
  inferInstanceAs (Decidable (_ ∧ _))

variable [Field R] (E : Elementary R) (w : AttentionWeights R) (nHead : ℕ)

/-- The channels of head `head` of a projection of the normed hidden state `x`. -/
def project (proj : ℕ → ℕ → R) (x : ℕ → R) (head d : ℕ) : R :=
  linear w.hiddenSize proj (rmsNorm E w.hiddenSize w.inputLayernorm x) (head * w.headDim nHead + d)

/-- `precompute_freqs_cis` at a position, and the rotation by it. -/
def rotate (position : ℕ) (x : ℕ → R) : ℕ → R :=
  applyRotaryEmb E (w.headDim nHead / 2) (fun i => position * w.rotaryEmbInvFreq i) x

def queryHead (position : ℕ) (x : ℕ → R) (head : ℕ) : ℕ → R :=
  w.rotate E nHead position (w.project E nHead w.wQ x head)

/-- `repeat_interleave` gives a key head to `groups` query heads, after the rotation. -/
def keyHead (position : ℕ) (x : ℕ → R) (head : ℕ) : ℕ → R :=
  w.rotate E nHead position (w.project E nHead w.wK x (head / w.groups nHead))

def valueHead (x : ℕ → R) (head : ℕ) : ℕ → R :=
  w.project E nHead w.wV x (head / w.groups nHead)

end AttentionWeights

/-! ### Attention -/

/-- Rows of `freq_cis` without `rotary_position_ids`: `2048 * 2`. -/
def maxRotaryPositions : ℕ := 4096

/-- The position of token `i` of a row, from `rotary_position_ids` or counted from `start`. -/
def rotaryPosition (rotaryPositionIds : Option (ℕ → ℕ → ℕ)) (start b i : ℕ) : ℕ :=
  match rotaryPositionIds with
  | none => start + i
  | some ids => ids b i

/-- `freq_cis` has a row for each of the `src` positions, or the positions are given. -/
def RotaryRows (rotaryPositionIds : Option (ℕ → ℕ → ℕ)) (src : ℕ) : Prop :=
  rotaryPositionIds.isSome ∨ src ≤ maxRotaryPositions

instance (rotaryPositionIds : Option (ℕ → ℕ → ℕ)) (src : ℕ) :
    Decidable (RotaryRows rotaryPositionIds src) :=
  inferInstanceAs (Decidable (_ ∨ _))

def frameAt [Zero R] (t : List (Frame R)) (j bh d : ℕ) : R := (t.getD j fun _ _ => 0) bh d

variable [Field R] [LinearOrder R]

/-- `_attention_value` for one query of one head, over `n` keys and values. -/
def attentionValue (E : Elementary R) (headDim n : ℕ) (mask q : ℕ → R) (k v : ℕ → ℕ → R)
    (d : ℕ) : R :=
  Softmax.weighted E.exp n
    (fun j => (∑ e ∈ Finset.range headDim, q e * k j e) / E.sqrt headDim + mask j) fun j => v j d

section

variable (E : Elementary R) (w : AttentionWeights R) (nHead : ℕ)

def newKeys (rotaryPositionIds : Option (ℕ → ℕ → ℕ)) (start : ℕ) (hidden : List (Frame R)) :
    List (Frame R) :=
  hidden.mapIdx fun i x bh =>
    w.keyHead E nHead (rotaryPosition rotaryPositionIds start (bh / nHead) i) (x (bh / nHead))
      (bh % nHead)

def newValues (hidden : List (Frame R)) : List (Frame R) :=
  hidden.map fun x bh => w.valueHead E nHead (x (bh / nHead)) (bh % nHead)

/-- The heads attend to `k` and `v`, `w_out` takes them together, and the input is added. -/
def attend (rotaryPositionIds : Option (ℕ → ℕ → ℕ)) (start : ℕ) (mask : Mask R)
    (hidden k v : List (Frame R)) : List (Frame R) :=
  hidden.mapIdx fun i x b c =>
    linear w.qkvHiddenSize w.wOut (fun o =>
      let bh := b * nHead + o / w.headDim nHead
      attentionValue E (w.headDim nHead) k.length (mask.score b i)
        (w.queryHead E nHead (rotaryPosition rotaryPositionIds start b i) (x b)
          (o / w.headDim nHead))
        (fun j => frameAt k j bh) (fun j => frameAt v j bh) (o % w.headDim nHead)) c + x b c

end

/-- What the attention gives back: the hidden states and the new keys and values. -/
structure Attended (R : Type) where
  value : List (Frame R)
  kNew : List (Frame R)
  vNew : List (Frame R)

/-- `mha_llama`. A mask of another shape cannot be added to the scores. -/
def mhaLlama (E : Elementary R) (w : AttentionWeights R) (nHead : ℕ)
    (rotaryPositionIds : Option (ℕ → ℕ → ℕ)) (mask : Mask R) (hidden : List (Frame R)) :
    Option (Attended R) :=
  if w.Fits nHead ∧ RotaryRows rotaryPositionIds hidden.length ∧
      mask.tgt = hidden.length ∧ mask.src = hidden.length then
    let k := newKeys E w nHead rotaryPositionIds 0 hidden
    let v := newValues E w nHead hidden
    some ⟨attend E w nHead rotaryPositionIds 0 mask hidden k v, k, v⟩
  else none

/-- `t[start : start + new.length] = new`. -/
def assignAt (t : List (Frame R)) (start : ℕ) (new : List (Frame R)) : List (Frame R) :=
  t.take start ++ new ++ t.drop (start + new.length)

/-- The cached tensor `t` as `mha_gen_llama` leaves it, and what is attended to. If the keys have
room for `src` frames, the tensor takes the new ones in place, and else they are put behind it. -/
def withNew (capacity : ℕ) (t new : List (Frame R)) (src : ℕ) : List (Frame R) × List (Frame R) :=
  if src ≤ capacity then
    (assignAt t (src - new.length) new, (assignAt t (src - new.length) new).take src)
  else (t, t ++ new)

structure CachedAttended (R : Type) extends Attended R where
  kCache : List (Frame R)
  vCache : List (Frame R)

/-- `mha_gen_llama`. Keys and values are reshaped to the length of the mask, and new values cannot
be assigned behind the end of `v_cache`. -/
def mhaGenLlama (E : Elementary R) (w : AttentionWeights R) (nHead : ℕ)
    (rotaryPositionIds : Option (ℕ → ℕ → ℕ)) (mask : Mask R) (kCache vCache : List (Frame R))
    (hidden : List (Frame R)) : Option (CachedAttended R) :=
  let start := mask.src - hidden.length
  let kNew := newKeys E w nHead rotaryPositionIds start hidden
  let vNew := newValues E w nHead hidden
  let k := withNew kCache.length kCache kNew mask.src
  let v := withNew kCache.length vCache vNew mask.src
  if w.Fits nHead ∧ RotaryRows rotaryPositionIds mask.src ∧ mask.tgt = hidden.length ∧
      hidden.length ≤ mask.src ∧ (mask.src ≤ kCache.length → mask.src ≤ vCache.length) ∧
      k.2.length = mask.src ∧ v.2.length = mask.src then
    some ⟨⟨attend E w nHead rotaryPositionIds start mask hidden k.2 v.2, kNew, vNew⟩, k.1, v.1⟩
  else none

def mlpLlama (E : Elementary R) (w : MlpWeights R) (x : ℕ → R) (c : ℕ) : R :=
  let srcOut := rmsNorm E w.hiddenSize w.postAttentionLayernorm x
  linear w.intermediateSize w.down (fun m =>
    E.act (linear w.hiddenSize w.gate srcOut m) * linear w.hiddenSize w.up srcOut m) c + x c

/-! ### A block -/

structure LlamaBlock (R : Type) where
  attn : AttentionWeights R
  mlp : MlpWeights R
  numAttentionHeads : ℕ

/-- `OptimizedLlamaDecoderLayer.forward`: at position 0 the prefill runs, whatever was cached, and
else the decoding, which needs a cache. -/
def LlamaBlock.forward (E : Elementary R) (w : LlamaBlock R)
    (rotaryPositionIds : Option (ℕ → ℕ → ℕ)) (mask : Mask R) (startPosition : ℕ)
    (pastKeyValue : Option (List (Frame R) × List (Frame R))) (hidden : List (Frame R)) :
    Option (Attended R) :=
  let attended :=
    if startPosition = 0 then mhaLlama E w.attn w.numAttentionHeads rotaryPositionIds mask hidden
    else
      match pastKeyValue with
      | none => none
      | some (k, v) =>
        (mhaGenLlama E w.attn w.numAttentionHeads rotaryPositionIds mask k v hidden).map
          CachedAttended.toAttended
  attended.map fun a => { a with value := a.value.map fun x b => mlpLlama E w.mlp (x b) }

/-- What a mask adds to a score that is not to count, the least value in half precision. -/
def maskedScore : R := -65504

/-- The mask of a regular step of `inference_step` with `seqLen` tokens over `cacheLen` cached ones:
zeros for one token, and else `_create_causal_attention_mask` and `convert_mask_to_scores`. -/
def stepMask (cacheLen seqLen : ℕ) : Mask R where
  tgt := seqLen
  src := cacheLen + seqLen
  score _ i j := if seqLen = 1 then 0 else if j ≤ cacheLen + i then 0 else maskedScore

/-- The keys and values of a block in the cache of a session, as far as they are filled. -/
structure BlockCache (R : Type) where
  k : List (Frame R)
  v : List (Frame R)

/-- `select_cache`. -/
def BlockCache.select (cache : BlockCache R) (prefixLength : ℕ) :
    Option (List (Frame R) × List (Frame R)) :=
  if prefixLength = 0 then none
  else some (cache.k.take prefixLength, cache.v.take prefixLength)

/-- `update_cache`. What was behind the new frames is not read again. -/
def BlockCache.update (cache : BlockCache R) (prefixLength : ℕ) (kNew vNew : List (Frame R)) :
    BlockCache R :=
  ⟨cache.k.take prefixLength ++ kNew, cache.v.take prefixLength ++ vNew⟩

/-- A regular `inference_step` of a block for `batchSize` rows. The chunks run one after another
over what was cached before the step, under the mask of all tokens. -/
def LlamaBlock.inferenceStep (E : Elementary R) (w : LlamaBlock R) (chunks : ChunkConfig)
    (batchSize prefixLength : ℕ) (cache : BlockCache R) (hidden : List (Frame R)) :
    Option (BlockCache R × List (Frame R)) :=
  match estimateMaxChunkLength chunks batchSize hidden.length prefixLength with
  | none => none
  | some maxChunkLength =>
    let chunk offset :=
      (w.forward E none (stepMask prefixLength hidden.length) (prefixLength + offset)
        (cache.select prefixLength) ((hidden.drop offset).take maxChunkLength)).map
          fun a => (a.value, a)
    (runChunks chunk (chunkOffsets hidden.length maxChunkLength hidden.length 0)).map
      fun (out, last) => (cache.update prefixLength last.kNew last.vNew, out)

section

variable (E : Elementary R) (blocks : ℕ → LlamaBlock R) (chunks : ℕ → ChunkConfig) (batchSize : ℕ)

/-- The steps of the blocks from number `b` on, one after another. -/
def serveFrames (prefixLength : ℕ) :
    ℕ → List (BlockCache R) → List (Frame R) → Option (List (BlockCache R) × List (Frame R))
  | _, [], hidden => some ([], hidden)
  | b, cache :: caches, hidden =>
    match (blocks b).inferenceStep E (chunks b) batchSize prefixLength cache hidden with
    | none => none
    | some (cache, value) =>
      match serveFrames prefixLength (b + 1) caches value with
      | none => none
      | some (caches, out) => some (cache :: caches, out)

end

structure Request (R : Type) where
  startFromPosition : ℕ
  hidden : List (Frame R)

/-- The answers to the requests of a session. One without tokens runs no block. -/
def serveRequests (E : Elementary R) (blocks : ℕ → LlamaBlock R) (chunks : ℕ → ChunkConfig)
    (batchSize b : ℕ) : List (BlockCache R) → List (Request R) → Option (List (List (Frame R)))
  | _, [] => some []
  | caches, r :: rs =>
    if r.hidden = [] then
      (serveRequests E blocks chunks batchSize b caches rs).map ([] :: ·)
    else
      match serveFrames E blocks chunks batchSize r.startFromPosition b caches r.hidden with
      | none => none
      | some (caches, out) =>
        (serveRequests E blocks chunks batchSize b caches rs).map (out :: ·)

end BloomBee.FlexgenAttention
