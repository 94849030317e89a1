import Mathlib.Data.List.Basic
import Mathlib.Algebra.Ring.Nat
import Mathlib.Tactic.Common

/-! The rotary positions of a speculative step: `_create_tree_position_ids_with_invalid_cache` and
its call in `inference_step` (`server/backend.py`). -/

set_option autoImplicit false

namespace BloomBee.Speculative

/-- `dfs_generate`, where `left` counts down to the depth. -/
def dfsGenerate (width : ℕ) : ℕ → ℕ → List ℕ
  | 0, nodeDepth => [nodeDepth]
  | left + 1, nodeDepth =>
    nodeDepth :: (List.replicate width (dfsGenerate width left (nodeDepth + 1))).flatten

/-- `_slice_batch_aligned`, which is called only when the ids are those of more rows than the
micro-batch has. -/
def alignedRows {α : Type} (kvCachePositionIds : List α) (batch batchOffset : ℕ) : List α :=
  if kvCachePositionIds.length = batch then kvCachePositionIds
  else (kvCachePositionIds.drop batchOffset).take batch

/-- The template for the rows of a generation step: cut off, or its last entry repeated. -/
def extendedTemplate (template : List ℕ) (targetSeqLen : Option ℕ) : List ℕ :=
  match targetSeqLen with
  | none => template
  | some actualTreeLen =>
    if template.length < actualTreeLen then
      template ++ List.replicate (actualTreeLen - template.length) (template.getLastD 0)
    else template.take actualTreeLen

/-- `base_positions` of a row: one more than its largest valid position. -/
def basePosition (ids : List ℤ) : Option ℤ :=
  (ids.map fun id => if 0 ≤ id then id else -1).max?.map (· + 1)

/-- `_create_tree_position_ids_with_invalid_cache`. In the prefill phase the assignment of the
tree positions raises if the tree is longer than the row, and the maximum of an empty batch
raises. -/
def createTreePositionIdsWithInvalidCache (width depth : ℕ) (prefillLength : List ℤ)
    (kvCachePositionIds : Option (List (List ℤ))) (batchOffset : ℕ) (targetSeqLen : Option ℕ) :
    Option (List (List ℤ)) :=
  let treePositionIds := dfsGenerate width depth 0
  let treeLen := treePositionIds.length
  let ids := kvCachePositionIds.getD []
  if ids.flatten.isEmpty then do
    -- prefill
    let maxPrefillLen ← prefillLength.max?
    let promptPartLen : ℤ :=
      match targetSeqLen with
      | some totalLen => (totalLen : ℤ) - treeLen
      | none => maxPrefillLen
    if promptPartLen < 0 then none
    else return prefillLength.map fun treeBase =>
      (List.range promptPartLen.toNat).map (fun p : ℕ => (p : ℤ)) ++
        treePositionIds.map fun p : ℕ => treeBase + (p : ℤ)
  else do
    -- generation
    let basePositions ← (alignedRows ids prefillLength.length batchOffset).mapM basePosition
    return basePositions.map fun base =>
      (extendedTemplate treePositionIds targetSeqLen).map fun p : ℕ => base + (p : ℤ)

/-- `rotary_position_ids` in `inference_step`. -/
def rotaryPositionIds (isSpecDecoding : Bool) (prefillLength : List ℤ)
    (kvCachePositionIds : Option (List (List ℤ))) (batchOffset seqLen : ℕ) :
    Option (Option (List (List ℤ))) :=
  if isSpecDecoding then
    (createTreePositionIdsWithInvalidCache 1 4 (prefillLength.map (· - 1)) kvCachePositionIds
      batchOffset (some seqLen)).map some
  else some none

end BloomBee.Speculative
