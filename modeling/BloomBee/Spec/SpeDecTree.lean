import BloomBee.Lib.Select
import Mathlib.Data.Int.Notation

/-! The trees of speculative decoding (`models/llama/spe_dec_tree.py`): linearization, the node
paths, and the attention masks of `prepare_incremental_tree_batch`. -/

set_option autoImplicit false

namespace BloomBee.Speculative

variable {α : Type}

/-- The children of a node in order: the first one with its own children, then its siblings. A
`SpeculativeTree` is a root token and the forest under it. -/
inductive Forest (α : Type) where
  | nil
  | cons (token : α) (children siblings : Forest α)
  deriving DecidableEq

namespace Forest

/-- `total_nodes - 1` -/
def size : Forest α → ℕ
  | nil => 0
  | cons _ children siblings => children.size + 1 + siblings.size

/-- The token ids of `linearize_tree_with_positions`, depth first. -/
def tokens : Forest α → List α
  | nil => []
  | cons token children siblings => token :: (children.tokens ++ siblings.tokens)

/-- The `parent_indices` of a forest whose first node is at `start` and whose parent is at
`parent`, which is -1 for the root. -/
def parentIndices : ℤ → ℕ → Forest α → List ℤ
  | _, _, nil => []
  | parent, start, cons _ children siblings =>
    parent :: (children.parentIndices start (start + 1) ++
      siblings.parentIndices parent (start + 1 + children.size))

end Forest

/-- A drafted node with its `position_in_sequence`. -/
structure Node (α : Type) where
  token : α
  position : ℕ
  deriving DecidableEq

namespace Forest

/-- The paths from the roots of the forest to its leaves, the first node being at `start`. -/
def leafPathsFrom : ℕ → Forest α → List (List (Node α))
  | _, nil => []
  | start, cons token nil siblings => [⟨token, start⟩] :: siblings.leafPathsFrom (start + 1)
  | start, cons token (cons t c s) siblings =>
    ((cons t c s).leafPathsFrom (start + 1)).map (⟨token, start⟩ :: ·) ++
      siblings.leafPathsFrom (start + 1 + (cons t c s).size)

/-- `get_all_leaf_node_paths` of the root. A tree without drafted nodes has one empty path. -/
def leafNodePaths : Forest α → List (List (Node α))
  | nil => [[]]
  | forest => forest.leafPathsFrom 0

end Forest

/-! ### Masks -/

/-- The loop of `build_tree_attention_mask_with_root` over the parents of `current`. -/
def ancestors (parents : List ℤ) : ℕ → ℕ → List ℕ
  | 0, _ => []
  | fuel + 1, current =>
    match parents[current]? with
    | some (Int.ofNat parent) => parent :: ancestors parents fuel parent
    | _ => []

/-- Row `i` of `build_tree_attention_mask_with_root`: the node and its ancestors. -/
def treeMaskRow (parents : List ℤ) (i : ℕ) : List Bool :=
  (List.range parents.length).map fun j =>
    decide (j = i ∨ j ∈ ancestors parents parents.length i)

/-- `cache_len` of a batch of position ids: one more than the largest valid one. -/
def cacheLenOf (positionIds : List (List ℤ)) : ℕ :=
  (positionIds.flatten.map fun p => (p + 1).toNat).foldr max 0

/-- The first valid id of a row, and its first id if none is valid. -/
def rootPosition (ids : List ℤ) : ℤ := (ids.find? fun p => 0 ≤ p).getD (ids.headD 0)

/-- The stop of the slice `[:stop]` of a sequence of `length` entries. -/
def sliceStop (stop : ℤ) (length : ℕ) : ℕ :=
  if stop < 0 then (length + stop).toNat else min stop.toNat length

/-- `_compute_single_cache_valid_mask` -/
def cacheValidMask (ids : List ℤ) (cacheLen : ℕ) : List Bool :=
  (List.range cacheLen).map fun j =>
    decide (j < sliceStop (rootPosition ids) cacheLen ∨
      ∃ p ∈ ids, 0 ≤ p ∧ min p.toNat (cacheLen - 1) = j)

def maxTreeSize (trees : List (Forest α)) : ℕ := (trees.map Forest.size).foldr max 0

/-- The tree tokens of a row, filled up with `pad`. -/
def paddedTokens (pad : α) (maxSize : ℕ) (tree : Forest α) : List α :=
  tree.tokens ++ List.replicate (maxSize - tree.size) pad

/-- Row `i` of the mask of the generation phase. Input 0 is the root, then come the nodes, and
after these the padding. -/
def generationMaskRow (ids : List ℤ) (cacheLen maxSize : ℕ) (tree : Forest α) (i : ℕ) :
    List Bool :=
  let parents := tree.parentIndices (-1) 0
  let cached := cacheValidMask ids cacheLen
  let filler := List.replicate (maxSize - tree.size) false
  match i with
  | 0 => cached ++ true :: (List.replicate tree.size false ++ filler)
  | i + 1 =>
    if i < tree.size then cached ++ true :: (treeMaskRow parents i ++ filler)
    else cached ++ false :: (List.replicate tree.size false ++ filler)

/-- Row `i` of the mask of the prefill phase, for a prompt of `pastLen` places of which the
first `seqLen` count. -/
def prefillMaskRow (pastLen seqLen maxSize : ℕ) (tree : Forest α) (i : ℕ) : List Bool :=
  let parents := tree.parentIndices (-1) 0
  let rootPos := seqLen - 1
  let prompt (f : ℕ → Bool) := (List.range pastLen).map f
  let noNode := List.replicate maxSize false
  if i < pastLen then
    if i ≤ rootPos then prompt (fun j => decide (j ≤ i)) ++ noNode
    else prompt (fun _ => false) ++ noNode
  else if i - pastLen < tree.size then
    prompt (fun j => decide (j ≤ rootPos)) ++
      (treeMaskRow parents (i - pastLen) ++ List.replicate (maxSize - tree.size) false)
  else
    -- the rows of the padding
    prompt (fun j => decide (j < seqLen)) ++ noNode

end BloomBee.Speculative
