import BloomBee.Spec.RpcInference

/-! Hidden states of a pruned speculative step. The last block sends only the rows that
`keep_indices` names, packed into one axis (`server/backend.py`); the micro-batches of a step are
merged (`server/block_functions.py`, `utils/microbatch_ops.py`); and the receiver puts the rows back
to their positions (`restore_hidden_states` on the server, `_restore_hidden_states` of
`client/inference_session.py`). A hidden vector is one entry here. -/

set_option autoImplicit false

namespace BloomBee.RestoreHidden

open RpcInference

variable {V : Type}

/-- A tensor of hidden vectors. With three dimensions its first two are those of a `Batch`. -/
inductive HiddenStates (V : Type) where
  | twoDim (rows : List V)
  | threeDim (hidden : Batch V)
  | otherDim (ndim : ℕ)

/-- What the functions raise, with the values their texts print. -/
inductive Raised where
  | unexpectedDim (ndim : ℕ)
  | rowsShorter (group hiddenRows validKeep : ℕ)
  | dimensionMismatch (flat valid : ℕ)
  | incompatibleTensors
  | indexError
  | runtimeError
  deriving DecidableEq, Repr

/-! Keep indices. A negative entry is padding. -/

/-- `(keep_indices >= 0).sum()`. -/
def validCount (rows : List (List ℤ)) : ℕ := rows.flatten.countP (0 ≤ ·)

/-- `keep_indices[valid_mask]` of one row. -/
def validOfRow (row : List ℤ) : List ℕ := (row.filter (0 ≤ ·)).map Int.toNat

/-- `zip(batch_idx[valid_mask], keep_indices[valid_mask])`, for rows counted from `b`. -/
def validIndices : ℕ → List (List ℤ) → List (ℕ × ℕ)
  | _, [] => []
  | b, row :: rows => (validOfRow row).map (b, ·) ++ validIndices (b + 1) rows

/-! Packing. -/

/-- `hidden_states[b, p]`. -/
def hiddenAt (hidden : List (List V)) (i : ℕ × ℕ) : Except Raised V :=
  match hidden[i.1]? with
  | none => .error .indexError
  | some row =>
    match row[i.2]? with
    | none => .error .indexError
    | some v => .ok v

/-- A tensor `[1, N, H]`. -/
def unsqueeze (flat : List V) : HiddenStates V :=
  .threeDim { width := flat.length, rows := [flat], rows_width := by simp }

/-- The end of `inference_step` in the last block: the kept rows of the batch in one axis. -/
def flattenKept (hidden : Batch V) (keep : Batch ℤ) : Except Raised (HiddenStates V) :=
  -- `torch.arange(batch_size).unsqueeze(1).expand_as(keep_indices)`
  if hidden.rows.length ≠ keep.rows.length ∧ hidden.rows.length ≠ 1 then .error .runtimeError
  else do
    let batchIdx (b : ℕ) : ℕ := if hidden.rows.length = 1 then 0 else b
    let flat ← (validIndices 0 keep.rows).mapM fun i => hiddenAt hidden.rows (batchIdx i.1, i.2)
    return unsqueeze flat

/-! Merging. -/

/-- `merge_microbatch_outputs` on two or three dimensions. -/
def mergeOutputs [Zero V] : List (HiddenStates V) → Except Raised (HiddenStates V)
  | [out] => .ok out
  | outputs =>
    let three := outputs.filterMap fun | .threeDim b => some b | _ => none
    let two := outputs.filterMap fun | .twoDim rows => some rows | _ => none
    if three.length = outputs.length then .ok (.threeDim (mergeMicrobatchOutputs 0 three))
    else if two.length = outputs.length then .ok (.twoDim two.flatten)
    else .error .incompatibleTensors

/-- The packed rows of one output: `[1, N, H]` squeezed, or two dimensions. -/
def flattenedChunk : HiddenStates V → Option (List V)
  | .threeDim b =>
    match b.rows with
    | [flat] => some flat
    | _ => none
  | .twoDim rows => some rows
  | .otherDim _ => none

def mergeInferenceMicrobatchHiddenStates [Zero V] (isSpecDec isLastBlock : Bool)
    (outputs : List (HiddenStates V)) : Except Raised (Option (HiddenStates V)) :=
  if outputs = [] then .ok none
  else if ¬(isSpecDec ∧ isLastBlock) then (mergeOutputs outputs).map some
  else
    match outputs.mapM flattenedChunk with
    | none => (mergeOutputs outputs).map some
    | some chunks => .ok (some (unsqueeze chunks.flatten))

/-! Restoring. -/

/-- The groups of `[num_micro_batches, max_valid_per_mb, H]`, from group `g`: each gives as many
rows as its part of the batch keeps. -/
def groupedRows (batchPerGroup : ℕ) (keep : List (List ℤ)) : ℕ → List (List V) →
    Except Raised (List V)
  | _, [] => .ok []
  | g, group :: groups =>
    let valid := validCount ((keep.drop (g * batchPerGroup)).take batchPerGroup)
    if valid = 0 then groupedRows batchPerGroup keep (g + 1) groups
    else if group.length < valid then .error (.rowsShorter g group.length valid)
    else do
      let rest ← groupedRows batchPerGroup keep (g + 1) groups
      return group.take valid ++ rest

/-- `_flatten_hidden_with_keep_layout` on three dimensions. -/
def flattenHiddenWithKeepLayout [DecidableEq V] [Zero V] (hidden : Batch V) (keep : Batch ℤ) :
    Except Raised (List V) :=
  if hidden.rows.length = keep.rows.length ∧ hidden.width = keep.width then
    .ok ((hidden.rows.zip keep.rows).flatMap fun r =>
      ((r.1.zip r.2).filter (0 ≤ ·.2)).map Prod.fst)
  else if 0 < hidden.rows.length ∧ keep.rows.length % hidden.rows.length = 0 then
    groupedRows (keep.rows.length / hidden.rows.length) keep.rows 0 hidden.rows
  else
    let flat := hidden.rows.flatten
    let expected := validCount keep.rows
    .ok (if flat.length > expected ∧ (flat.drop expected).all (· = 0) then flat.take expected
      else flat)

/-- The restored tensor `[B, original_seq_len, H]`. -/
structure Restored (V : Type) where
  batch : ℕ
  seqLen : ℕ
  data : ℕ → ℕ → V

/-- `restored[batch_idx, seq_idx, :] = flat_hidden`, one row after the other. -/
def scatterRows (data : ℕ → ℕ → V) (rows : List ((ℕ × ℕ) × V)) : ℕ → ℕ → V :=
  rows.foldl (fun data r b p => if (b, p) = r.1 then r.2 else data b p) data

/-- The code that server and client share, word for word. -/
def restoreRows [DecidableEq V] [Zero V] (flattened : HiddenStates V) (keep : Batch ℤ)
    (originalSeqLen : ℕ) : Except Raised (Restored V) := do
  let flat ← match flattened with
    | .twoDim rows => .ok rows
    | .threeDim hidden => flattenHiddenWithKeepLayout hidden keep
    | .otherDim n => .error (.unexpectedDim n)
  let valid := validIndices 0 keep.rows
  if flat.length ≠ valid.length then .error (.dimensionMismatch flat.length valid.length)
  else if ∃ i ∈ valid, originalSeqLen ≤ i.2 then .error .indexError
  else return { batch := keep.rows.length, seqLen := originalSeqLen
                data := scatterRows (fun _ _ => 0) (valid.zip flat) }

/-- `restore_hidden_states` of the server. -/
def restoreHiddenStates [DecidableEq V] [Zero V] (flattened : HiddenStates V) (keep : Batch ℤ)
    (originalSeqLen : ℕ) : Except Raised (Restored V) :=
  restoreRows flattened keep originalSeqLen

/-- `InferenceSession._restore_hidden_states` of the client. -/
def InferenceSession.restoreHiddenStates [DecidableEq V] [Zero V] (flattened : HiddenStates V)
    (keep : Batch ℤ) (originalSeqLen : ℕ) : Except Raised (Restored V) :=
  restoreRows flattened keep originalSeqLen

end BloomBee.RestoreHidden
