import BloomBee.Lib.BoolMatrix
import BloomBee.Spec.SpeculativeTree

/-! `prepare_incremental_tree_batch` (`models/llama/spe_dec_tree.py`): the padded tokens, the
attention masks and the node paths of a batch of trees. -/

set_option autoImplicit false

namespace BloomBee.Speculative

def maskEntry (mask : List (List Bool)) (i j : ℕ) : Bool := (mask.getD i []).getD j false

/-- The mask of the prefill phase for one tree, before its padding. `past_len` is the width of the
padded prompts. -/
def prefillInputsMask (pastLen promptLen treeLen : ℕ) (treeMask : List (List Bool)) : BoolMatrix :=
  let totalLen := pastLen + treeLen
  let rootPos := promptLen
  let mask := BoolMatrix.zeros totalLen totalLen
  let mask := mask.assignIf (0 < promptLen) 0 promptLen 0 promptLen fun i j => decide (j ≤ i)
  let mask := mask.assignIf (0 < promptLen) rootPos (rootPos + 1) 0 promptLen fun _ _ => true
  let mask := mask.assign rootPos (rootPos + 1) rootPos (rootPos + 1) fun _ _ => true
  let mask := mask.assignIf (0 < treeLen ∧ 0 < promptLen) pastLen (pastLen + treeLen) 0 promptLen
    fun _ _ => true
  let mask := mask.assignIf (0 < treeLen) pastLen (pastLen + treeLen) rootPos (rootPos + 1)
    fun _ _ => true
  mask.assignIf (0 < treeLen) pastLen (pastLen + treeLen) pastLen (pastLen + treeLen)
    (maskEntry treeMask)

/-- The mask of the prefill phase for one tree. `none` where the root lies outside of it. -/
def prefillMask (pastLen currSeqLen maxTreeSize treeLen : ℕ) (treeMask : List (List Bool)) :
    Option BoolMatrix :=
  let totalLen := pastLen + treeLen
  let promptLen := currSeqLen - 1
  if totalLen ≤ promptLen then none
  else
    let mask := prefillInputsMask pastLen promptLen treeLen treeMask
    if treeLen < maxTreeSize then
      let totalPaddedLen := pastLen + maxTreeSize
      let padded := BoolMatrix.zeros totalPaddedLen totalPaddedLen
      let padded := padded.assign 0 totalLen 0 totalLen mask.entry
      some (padded.assignIf (0 < currSeqLen) totalLen totalPaddedLen 0 currSeqLen fun _ _ => true)
    else some mask

/-- The mask of the generation phase for one tree, before its padding: the rows of the root and of
the nodes, over the cache and these inputs. -/
def generationInputsMask (cacheLen treeLen : ℕ) (cacheValid : List Bool)
    (treeMask : List (List Bool)) : BoolMatrix :=
  let inputsLen := treeLen + 1
  let totalLen := cacheLen + inputsLen
  let cached : ℕ → ℕ → Bool := fun _ j => cacheValid.getD j false
  let mask := BoolMatrix.zeros inputsLen totalLen
  let mask := mask.assign 0 1 0 cacheLen cached
  let mask := mask.assign 0 1 cacheLen (cacheLen + 1) fun _ _ => true
  let mask := mask.assignIf (0 < treeLen) 1 inputsLen 0 cacheLen cached
  let mask := mask.assignIf (0 < treeLen) 1 inputsLen cacheLen (cacheLen + 1) fun _ _ => true
  mask.assignIf (0 < treeLen) 1 inputsLen (cacheLen + 1) totalLen (maskEntry treeMask)

/-- The mask of the generation phase for one tree. The rows of the padding see the cache. -/
def generationMask (cacheLen maxTreeSize treeLen : ℕ) (cacheValid : List Bool)
    (treeMask : List (List Bool)) : BoolMatrix :=
  let inputsLen := treeLen + 1
  let mask := generationInputsMask cacheLen treeLen cacheValid treeMask
  let maxInputsLen := maxTreeSize + 1
  if inputsLen < maxInputsLen then
    let padded := BoolMatrix.zeros maxInputsLen (cacheLen + maxInputsLen)
    let padded := padded.assign 0 inputsLen 0 (cacheLen + inputsLen) mask.entry
    padded.assign inputsLen maxInputsLen 0 cacheLen fun _ j => cacheValid.getD j false
  else mask

structure BatchRow where
  tokens : List ℕ
  mask : BoolMatrix
  nodePaths : List (List (Node TreeNode))

/-- What `prepare_incremental_tree_batch` returns. -/
structure TreeBatch where
  treeTokens : List (List ℕ)
  attentionMask : Option (List BoolMatrix)
  nodePaths : List (List (List (Node TreeNode)))

/-- The arguments besides the trees. `inputLen` is the width of `input_ids`. -/
structure BatchArgs where
  inputLen : ℕ
  padTokenId : ℕ
  seqLengths : Option (List ℕ)
  isPrefill : Bool
  kvCachePositionIds : Option (List (List ℤ))

/-- `cache_len`, over the whole batch. -/
def BatchArgs.cacheLen (args : BatchArgs) : ℕ :=
  if args.isPrefill then 0
  else
    match args.kvCachePositionIds with
    | some ids => cacheLenOf ids
    | none => 0

/-- `kv_cache_position_ids[i]` -/
def BatchArgs.positionIds (args : BatchArgs) (i : ℕ) : Option (List ℤ) :=
  args.kvCachePositionIds.bind fun ids => ids[i]?

def BatchArgs.currSeqLen (args : BatchArgs) (i : ℕ) : Option ℕ :=
  match args.seqLengths with
  | some lengths => lengths[i]?
  | none => some args.inputLen

/-- One turn of the loop over the trees. -/
def batchRow (args : BatchArgs) (maxTreeSize : ℕ) (tree : SpeculativeTree) (i : ℕ) :
    Option BatchRow := do
  let currSeqLen ← args.currSeqLen i
  let lin := linearizeTreeWithPositions tree
  let tokens := lin.linearizedNodes.map TreeNode.tokenId
  let treeLen := tokens.length
  let treeMask ← buildTreeAttentionMaskWithRoot (treeLen + 1) treeLen lin.parentIndices
  let mask ←
    if args.isPrefill then prefillMask args.inputLen currSeqLen maxTreeSize treeLen treeMask
    else (args.positionIds i).map fun ids =>
      generationMask args.cacheLen maxTreeSize treeLen (cacheValidMask ids args.cacheLen) treeMask
  return {
    tokens := tokens ++ List.replicate (maxTreeSize - treeLen) args.padTokenId
    mask
    nodePaths := tree.children.leafNodePaths }

/-- Tensors of one shape can be put together. -/
def SameShape (rows : List BatchRow) : Prop :=
  ∀ r ∈ rows, ∀ r' ∈ rows, r.tokens.length = r'.tokens.length ∧
    r.mask.rows = r'.mask.rows ∧ r.mask.cols = r'.mask.cols

instance (rows : List BatchRow) : Decidable (SameShape rows) :=
  inferInstanceAs (Decidable (∀ r ∈ rows, ∀ r' ∈ rows, r.tokens.length = r'.tokens.length ∧
    r.mask.rows = r'.mask.rows ∧ r.mask.cols = r'.mask.cols))

/-- `prepare_incremental_tree_batch`. `none` stands for what it raises. -/
def prepareIncrementalTreeBatch (trees : List SpeculativeTree) (args : BatchArgs) :
    Option TreeBatch :=
  if ∀ tree ∈ trees, tree.totalNodes ≤ 1 then
    some ⟨trees.map fun _ => [], none, trees.map fun _ => []⟩
  else do
    let maxTreeSize := ((trees.filter fun tree => 1 < tree.totalNodes).map
      fun tree => tree.totalNodes - 1).foldr max 0
    let rows ← trees.zipIdx.mapM fun (tree, i) => batchRow args maxTreeSize tree i
    if SameShape rows then
      some ⟨rows.map BatchRow.tokens, some (rows.map BatchRow.mask), rows.map BatchRow.nodePaths⟩
    else none

end BloomBee.Speculative
