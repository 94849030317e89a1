import Mathlib.Algebra.Order.Ring.Rat
import Mathlib.Data.List.Basic
import BloomBee.Lib.Positions

/-! `AdaptiveNeuralPruner.prune_branches`
(`server/speculative_pruner/adaptive_neural_pruner.py`) from the decision probabilities on. -/

set_option autoImplicit false

namespace BloomBee.NeuralPruner

/-- A row of the batch: the probabilities for all positions but the first, and the mask over the
prefix and the tree. -/
structure PrunerRow where
  decisionProbsInner : List ℚ
  treeAttentionMask : List (List Bool)

def PrunerRow.seqLen (row : PrunerRow) : ℕ := row.decisionProbsInner.length + 1

/-- The tensors of a call, which are as long for every row. -/
structure PrunerBatch where
  rows : List PrunerRow
  seqLen : ℕ
  totalLen : ℕ
  fits : seqLen ≤ totalLen
  shape : ∀ row ∈ rows, row.seqLen = seqLen ∧ row.treeAttentionMask.length = seqLen ∧
    ∀ r ∈ row.treeAttentionMask, r.length = totalLen

def PrunerBatch.prefixLen (batch : PrunerBatch) : ℕ := batch.totalLen - batch.seqLen

/-- `initial_keep`: the probability of the root is 1, and it is kept in any case. -/
def initialKeep (neuralThreshold : ℚ) (row : PrunerRow) : List Bool :=
  (((1 : ℚ) :: row.decisionProbsInner).map fun p => decide (neuralThreshold < p)).set 0 true

/-! ### `_propagate_prune_mask_batched` -/

/-- One turn of the loop, for position `i`. -/
def discardStep (adj : List (List Bool)) (discarded : List Bool) (i : ℕ) : List Bool :=
  let hasDiscardedParent := (List.zipWith (· && ·) (adj.getD i []) discarded).any id
  discarded.set i (discarded.getD i false || hasDiscardedParent)

def propagatePruneMask (initialKeep : List Bool) (treeAttentionMask : List (List Bool))
    (prefixLen : ℕ) : List Bool :=
  let adj := treeAttentionMask.map (List.drop prefixLen)
  let discarded := (List.range' 1 (initialKeep.length - 1)).foldl (discardStep adj)
    (initialKeep.map (!·))
  discarded.map (!·)

/-! ### Indices -/

/-- The first columns of the sorted ranks, with -1 for the sentinel. -/
def paddedIndices (width : ℕ) (mask : List Bool) : List ℤ :=
  (((ranks mask).mergeSort (fun a b => decide (a ≤ b))).take width).map fun r =>
    if r = mask.length then -1 else (r : ℤ)

/-- `max_prune` -/
def maxPruned (numPruned : List ℕ) : Option ℕ :=
  if numPruned.any fun n => decide (n ≠ 0) then numPruned.max? else some 0

structure Pruned where
  keepIndices : List (List ℤ)
  pruneIndices : List (List ℤ)
  validLengths : List ℕ

/-- `prune_branches`. The maximum of an empty batch raises. -/
def pruneBranches (neuralThreshold : ℚ) (batch : PrunerBatch) : Option Pruned := do
  let finalKeep := batch.rows.map fun row =>
    propagatePruneMask (initialKeep neuralThreshold row) row.treeAttentionMask batch.prefixLen
  let validLengths := finalKeep.map (List.countP id)
  let maxKeep ← validLengths.max?
  let pruneMask := finalKeep.map (List.map (!·))
  let maxPrune ← maxPruned (pruneMask.map (List.countP id))
  return {
    keepIndices := finalKeep.map (paddedIndices maxKeep)
    pruneIndices :=
      if 0 < maxPrune then pruneMask.map (paddedIndices maxPrune) else batch.rows.map fun _ => []
    validLengths := validLengths }

end BloomBee.NeuralPruner
