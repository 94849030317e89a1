import BloomBee.Spec.SpecCache
import BloomBee.Spec.SpeculativeModel

/-! `_extract_best_verified_paths_fixed` (`models/llama/speculative_model.py`) for a whole batch,
without sampling and without logits processors: the verified tokens, the position ids of the
cache, the tokens of the target model and the valid lengths. -/

set_option autoImplicit false

namespace BloomBee.Speculative

/-- A row of the batch: its logits, the paths of its tree, and its entry of `seq_lengths`. -/
structure VerifyInput where
  logits : List LogitsRow
  nodePaths : List (List (Node ℕ))
  actualLen : ℕ

/-- What the loop over the rows appends: the nodes that are kept, their position ids with that of
the root, and the token of the target model. -/
structure VerifiedRow where
  kept : List (Node ℕ)
  positions : List ℤ
  llmToken : ℕ
  deriving DecidableEq

structure Verified where
  verifiedTokens : Option (List (List ℤ))
  kvCachePositionIds : List (List ℤ)
  llmGeneratedTokens : List ℕ
  validLengths : List ℕ
  deriving DecidableEq

/-- `logits[batch_idx, real_fallback_pos - 1:real_fallback_pos]`, and the last row of logits where
that is empty. -/
def fallbackLogits (logits : List LogitsRow) (fallbackPos : ℕ) : Option LogitsRow :=
  (if 0 < fallbackPos then logits[fallbackPos - 1]? else none).or logits.getLast?

def bestOf (input : VerifyInput) : List (Node ℕ) :=
  bestVerified input.logits.length (fun i => (input.logits[i]?.map LogitsRow.argmax).getD 0)
    input.nodePaths

/-- The position ids of the root and of some nodes of the tree. -/
def slotsOf (actualLen : ℕ) (nodes : List (Node ℕ)) : List ℤ :=
  let treeRootPosition : ℤ := actualLen - 1
  treeRootPosition :: nodes.map fun n => treeRootPosition + n.position + 1

/-- One turn of the loop over the batch. `none` for an index outside of the logits. -/
def verifyBatchRow (treeLen : ℕ) (isFirstIteration : Bool) (input : VerifyInput) :
    Option VerifiedRow := do
  let seqLen := input.logits.length
  let realFallbackPos := if isFirstIteration then input.actualLen else seqLen - treeLen
  let best := bestOf input
  match best.getLast? with
  | some last =>
    let finalLogits ← input.logits[last.position + 1]?
    if finalLogits.zero then
      -- a pruned position: the last verified token is the token of the target model
      return ⟨best.dropLast, slotsOf input.actualLen best.dropLast, last.token⟩
    else return ⟨best, slotsOf input.actualLen best, finalLogits.argmax⟩
  | none =>
    let finalLogits ← fallbackLogits input.logits realFallbackPos
    return ⟨[], slotsOf input.actualLen [], finalLogits.argmax⟩

/-- `_extract_best_verified_paths_fixed`. An empty batch has nothing to stack. -/
def extractBestVerifiedPathsFixed (treeLen : ℕ) (isFirstIteration : Bool)
    (batch : List VerifyInput) : Option Verified := do
  let rows ← batch.mapM (verifyBatchRow treeLen isFirstIteration)
  if rows.isEmpty then none
  else
    let tokens := rows.map fun r => r.kept.map fun n => (n.token : ℤ)
    let maxVerifiedLen := (tokens.map List.length).foldr max 0
    return {
      verifiedTokens := if 0 < maxVerifiedLen then some (padIds tokens) else none
      kvCachePositionIds := padIds (rows.map VerifiedRow.positions)
      llmGeneratedTokens := rows.map VerifiedRow.llmToken
      validLengths := rows.map fun r => r.kept.length }

end BloomBee.Speculative
