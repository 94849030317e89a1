import BloomBee.Spec.SpecCache
import BloomBee.Spec.TreeBatch
import BloomBee.Spec.VerifyBatch

/-! The first round of speculative decoding (`_verify_trees_with_forward` in
`models/llama/speculative_model.py`): the request with the prompts and the trees, what the server
writes in its cache, and the position ids of the client. An entry of the cache is modelled by the
place of the request that it was computed for. -/

set_option autoImplicit false

namespace BloomBee.Speculative

open RpcInference
open BackendStep (ChunkConfig estimateMaxChunkLength runUncut)

/-- A prompt that is padded on the right. The drafter raises where no token counts. -/
structure PaddedPrompt where
  prompt : List ℕ
  padding : List ℕ
  counted : ∃ t ∈ prompt ++ padding, t ∉ ignoreTokenIds

namespace PaddedPrompt

def inputIds (row : PaddedPrompt) : List ℕ := row.prompt ++ row.padding

def seqLength (row : PaddedPrompt) : ℕ := row.inputIds.countP fun t => t ∉ ignoreTokenIds

end PaddedPrompt

structure FirstBatch where
  rows : List PaddedPrompt
  trees : List SpeculativeTree
  width : ℕ
  rect : ∀ row ∈ rows, row.inputIds.length = width
  size : trees.length = rows.length
  nonempty : rows ≠ []

namespace FirstBatch

variable (batch : FirstBatch)

def seqLengths : List ℕ := batch.rows.map PaddedPrompt.seqLength

def maxSeqLen : ℕ := batch.seqLengths.foldr max 0

/-- The arguments of `prepare_incremental_tree_batch`, whose `past_len` is the width. -/
def args : BatchArgs where
  inputLen := batch.width
  padTokenId := 0
  seqLengths := some batch.seqLengths
  isPrefill := true
  kvCachePositionIds := none

def fullSequence (treeTokens : List (List ℕ)) : List (List ℕ) :=
  List.zipWith (fun row tokens => row.inputIds.take batch.maxSeqLen ++ tokens) batch.rows treeTokens

end FirstBatch

/-- The row and the column of a request, if the entry has been written. -/
abbrev Origin := Option (ℕ × ℕ)

def origins (fullSequence : List (List ℕ)) : List (List Origin) :=
  fullSequence.mapIdx fun b row => row.mapIdx fun c _ => some (b, c)

/-- `[SPEC_MASK_ALIGN]`: a mask that is larger than the request is cut off. -/
def alignMask (mask : BoolMatrix) (expectedRows expectedCols : ℕ) : BoolMatrix :=
  if expectedRows < mask.rows ∨ expectedCols < mask.cols then
    { mask with rows := min mask.rows expectedRows, cols := min mask.cols expectedCols }
  else mask

/-- What the round has come to: the masks that the server uses, its cache, the accepted nodes of
each row, and the position ids for the next round. -/
structure FirstRound where
  masks : List BoolMatrix
  slab : Slab Origin
  accepted : List (List (Node ℕ))
  kvCachePositionIds : List (List ℤ)

def Node.toToken (n : Node TreeNode) : Node ℕ := ⟨n.token.tokenId, n.position⟩

/-- The rows that `_extract_best_verified_paths_fixed` goes through. -/
def FirstBatch.verifyInputs (batch : FirstBatch) (nodePaths : List (List (List (Node TreeNode))))
    (logits : List (List LogitsRow)) : List VerifyInput :=
  (logits.zip (nodePaths.zip batch.seqLengths)).map fun (rows, paths, actualLen) =>
    ⟨rows, paths.map (List.map Node.toToken), actualLen⟩

/-- The round, with the logits of the target model. Without any drafted node the fallback sends no
mask: the server raises, nothing is written, and the position ids are zeros. A request of several
chunks raises in the first one, and the round with it. -/
def firstRound (chunks : ChunkConfig) (batch : FirstBatch) (slab : Slab Origin)
    (logits : List (List LogitsRow)) : Option FirstRound := do
  let prepared ← prepareIncrementalTreeBatch batch.trees batch.args
  match prepared.attentionMask with
  | none => return ⟨[], slab, batch.rows.map fun _ => [], batch.rows.map fun _ => [0]⟩
  | some masks =>
    let treeLen := (prepared.treeTokens.headD []).length
    let seqLen := batch.maxSeqLen + treeLen
    let maxChunkLength ← estimateMaxChunkLength chunks batch.rows.length seqLen 0
    let new ← runUncut seqLen maxChunkLength (origins (batch.fullSequence prepared.treeTokens))
    let inputs := batch.verifyInputs prepared.nodePaths logits
    let verified ← inputs.mapM (verifyBatchRow treeLen true)
    let out ← extractBestVerifiedPathsFixed treeLen true inputs
    return {
      masks := masks.map fun mask => alignMask mask seqLen seqLen
      slab := doReorderTask none slab 0 [] seqLen new
      accepted := verified.map VerifiedRow.kept
      kvCachePositionIds := out.kvCachePositionIds }

end BloomBee.Speculative
