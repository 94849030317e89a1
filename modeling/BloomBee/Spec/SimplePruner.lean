import Mathlib.Algebra.Order.Field.Rat
import Mathlib.Data.List.Basic
import BloomBee.Lib.Positions

/-! `SimpleProbabilityPruner.prune_branches`
(`server/speculative_pruner/simple_probability_pruner.py`) from the softmax of the logits on, for
batches; the ids of a top-k are those that torch selects. -/

set_option autoImplicit false

namespace BloomBee.SimplePruner

/-- A row of the batch: the probabilities after every node, the drafted ids, and the mask over the
prefix and the tree. -/
structure SimpleRow where
  probs : List (List ℚ)
  draftTokens : List ℤ
  treeAttentionMask : List (List Bool)

/-- The tensors of a call, which are as long for every row. -/
structure SimpleBatch where
  rows : List SimpleRow
  seqLen : ℕ
  totalLen : ℕ
  vocabSize : ℕ
  fits : seqLen ≤ totalLen
  shape : ∀ row ∈ rows, row.probs.length = seqLen ∧ (∀ p ∈ row.probs, p.length = vocabSize) ∧
    row.draftTokens.length = seqLen ∧ row.treeAttentionMask.length = seqLen ∧
    ∀ r ∈ row.treeAttentionMask, r.length = totalLen

def SimpleBatch.prefixLen (batch : SimpleBatch) : ℕ := batch.totalLen - batch.seqLen

/-- `tree_attention_mask[b, i, j + prefix]` -/
def SimpleRow.sees (row : SimpleRow) (prefixLen i j : ℕ) : Bool :=
  (row.treeAttentionMask.getD i []).getD (j + prefixLen) false

/-- `_get_parent_postion_batched`: the last earlier node that node `i` sees, or the node itself. -/
def parentPosition (row : SimpleRow) (prefixLen i : ℕ) : ℕ :=
  (((List.range i).reverse).find? fun j => row.sees prefixLen i j).getD i

/-- The probabilities that a node is judged by. -/
def probsAt (row : SimpleRow) (prefixLen i : ℕ) : List ℚ :=
  row.probs.getD (parentPosition row prefixLen i) []

/-- `topk` -/
def topkCount : ℕ := 50

/-- `torch.topk` on the probabilities: the ids of the largest entries, ties as torch has them. -/
abbrev Topk := List ℚ → ℕ → List ℕ

/-- `keep_mask`, `discarded` and `scores` of a row. -/
structure RowState where
  keepMask : List Bool
  discarded : List Bool
  scores : List ℚ

def rowStart (seqLen : ℕ) : RowState where
  keepMask := List.replicate seqLen true
  discarded := List.replicate seqLen false
  scores := List.replicate seqLen 0

/-- All nodes after node `i` that see it are discarded. -/
def discardDescendants (row : SimpleRow) (prefixLen i : ℕ) (s : RowState) : RowState where
  keepMask := s.keepMask.mapIdx fun j k => k && !(decide (i < j) && row.sees prefixLen j i)
  discarded := s.discarded.mapIdx fun j d => d || (decide (i < j) && row.sees prefixLen j i)
  scores := s.scores

/-- One turn of the loop over the nodes. -/
def nodeStep (topk : Topk) (vocabSize prefixLen : ℕ) (row : SimpleRow) (s : RowState) (i : ℕ) :
    RowState :=
  if i = 0 then
    { s with keepMask := s.keepMask.set 0 true, scores := s.scores.set 0 1 }
  else if s.discarded.getD i false then
    { s with keepMask := s.keepMask.set i false, scores := s.scores.set i 0 }
  else
    let probs := probsAt row prefixLen i
    let draftId := row.draftTokens.getD i 0
    if draftId < 0 ∨ (probs.length : ℤ) ≤ draftId then
      { s with keepMask := s.keepMask.set i false, discarded := s.discarded.set i true }
    else
      let scored := { s with scores := s.scores.set i (probs.getD draftId.toNat 0) }
      if draftId.toNat ∈ topk probs (min topkCount vocabSize) then scored
      else
        discardDescendants row prefixLen i
          { scored with
            keepMask := scored.keepMask.set i false
            discarded := scored.discarded.set i true }

def pruneRow (topk : Topk) (batch : SimpleBatch) (row : SimpleRow) : RowState :=
  (List.range batch.seqLen).foldl (nodeStep topk batch.vocabSize batch.prefixLen row)
    (rowStart batch.seqLen)

/-- Lists of indices in one tensor, padded with -1. -/
def padIndices (width : ℕ) (indices : List ℕ) : List ℤ :=
  indices.map (fun i : ℕ => (i : ℤ)) ++ List.replicate (width - indices.length) (-1)

structure Stats where
  totalBranches : ℕ
  prunedBranches : ℕ

structure Pruned where
  keepIndices : List (List ℤ)
  pruneIndices : List (List ℤ)
  keepProbs : List (List ℚ)
  keepMask : List (List Bool)
  validLengths : List ℕ
  avgScore : ℚ

/-- The mean of the kept scores, 0 without any. -/
def avgScore (states : List RowState) : ℚ :=
  let kept := states.flatMap fun s =>
    ((List.zip s.scores s.keepMask).filter Prod.snd).map Prod.fst
  if kept = [] then 0 else kept.sum / kept.length

/-- `prune_branches`. The maximum of an empty batch raises. -/
def pruneBranches (topk : Topk) (batch : SimpleBatch) (stats : Stats) :
    Option (Pruned × Stats) := do
  let states := batch.rows.map (pruneRow topk batch)
  let keepIndices := states.map fun s => positions s.keepMask
  let pruneIndices := states.map fun s => positions (s.keepMask.map (!·))
  let maxKeepLen ← (keepIndices.map List.length).max?
  let maxPruneLen ← (pruneIndices.map List.length).max?
  let padded := keepIndices.map (padIndices maxKeepLen)
  let result := {
    keepIndices := padded
    pruneIndices := pruneIndices.map (padIndices maxPruneLen)
    keepProbs := states.map RowState.scores
    keepMask := states.map RowState.keepMask
    validLengths := padded.map (List.countP fun i => decide (0 ≤ i))
    avgScore := avgScore states }
  return (result, {
    totalBranches := stats.totalBranches + batch.seqLen * batch.rows.length
    prunedBranches := stats.prunedBranches + (pruneIndices.map List.length).sum })

end BloomBee.SimplePruner
