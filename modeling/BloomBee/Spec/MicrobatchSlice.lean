import BloomBee.Lib.NDArray

/-! The request fields of a micro-batch (`server/microbatch.py`), and how the backend reads the keep
indices it is given (`_normalize_keep_indices` in `server/backend.py`). -/

set_option autoImplicit false

namespace BloomBee.MicrobatchSlice

variable {τ α β : Type}

/-- A request field: `None`, a tensor, or something else. -/
inductive Field (α β : Type) where
  | none
  | tensor (t : NDArray α)
  | other (value : β)

def isDummy (t : NDArray α) : Bool := t.numel = 0

/-- `value[mb_start:mb_end]`, refused for a tensor of no dimensions. -/
def sliceRows (t : NDArray α) (mbStart mbEnd : ℕ) : Option (NDArray α) := t.slice 0 mbStart mbEnd

def sliceBatchAligned (value : Field α β) (mbStart mbEnd fullBatchSize : ℕ) :
    Option (Field α β) :=
  match value with
  | .none => some .none
  | .other v => some (.other v)
  | .tensor t =>
    if isDummy t then some (.tensor t)
    else if t.shape.length = 0 then some (.tensor t)
    else if t.size 0 = fullBatchSize then (sliceRows t mbStart mbEnd).map .tensor
    else some (.tensor t)

def sliceKeepIndices (keepIndices : Field α β) (mbStart mbEnd fullBatchSize : ℕ) :
    Option (Field α β) :=
  sliceBatchAligned keepIndices mbStart mbEnd fullBatchSize

/-- The fields of a request, and those of a micro-batch. -/
structure Fields (τ α β : Type) where
  hiddenStates : NDArray τ
  hypoIds : Field α β
  treeAttentionMask : Field α β
  kvCachePositionIds : Field α β
  draftTokens : Field α β
  prefillLength : Field α β
  keepIndices : Field α β
  activeMask : Field α β

structure MicrobatchInputs (τ α β : Type) extends Fields τ α β where
  batchOffset : ℕ
  fullBatchSize : ℕ
  microBatchSize : ℕ

def sliceHypoIds (hypoIds : Field α β) (mbStart mbEnd : ℕ) : Option (Field α β) :=
  match hypoIds with
  | .none => some .none
  | .other _ => none
  | .tensor t => if isDummy t then some (.tensor t) else (sliceRows t mbStart mbEnd).map .tensor

/-- `slice_microbatch_inputs`, and `none` where an exception is raised. -/
def sliceMicrobatchInputs (r : Fields τ α β) (mbStart mbEnd fullBatchSize : ℕ) :
    Option (MicrobatchInputs τ α β) := do
  let mbHypo ← sliceHypoIds r.hypoIds mbStart mbEnd
  let mbHiddenStates ← sliceRows r.hiddenStates mbStart mbEnd
  let mbTree ← sliceBatchAligned r.treeAttentionMask mbStart mbEnd fullBatchSize
  let mbPositions ← sliceBatchAligned r.kvCachePositionIds mbStart mbEnd fullBatchSize
  let mbDraft ← sliceBatchAligned r.draftTokens mbStart mbEnd fullBatchSize
  let mbPrefill ← sliceBatchAligned r.prefillLength mbStart mbEnd fullBatchSize
  let mbKeep ← sliceKeepIndices r.keepIndices mbStart mbEnd fullBatchSize
  let mbActive ← sliceBatchAligned r.activeMask mbStart mbEnd fullBatchSize
  return ⟨⟨mbHiddenStates, mbHypo, mbTree, mbPositions, mbDraft, mbPrefill, mbKeep, mbActive⟩,
    mbStart, fullBatchSize, mbEnd - mbStart⟩

/-- `_normalize_keep_indices`: the positions that are kept of each row, and `none` where an
exception is raised. -/
def normalizeKeepIndices (keepIndices : Field ℤ β) (batchSize seqLen : ℕ) :
    Option (List (List ℤ)) :=
  let defaultKeep := List.replicate batchSize ((List.range seqLen).map fun i => (i : ℤ))
  match keepIndices with
  | .none => some defaultKeep
  | .other _ => none
  | .tensor t =>
    if isDummy t then some defaultKeep
    else if t.shape.length ≤ 1 then some (List.replicate batchSize t.entries)
    else if t.size 0 = 1 ∧ 1 < batchSize then
      some (List.replicate batchSize (t.rows.headD []))
    else if t.size 0 ≠ batchSize then some defaultKeep
    else some t.rows

/-! ### What a field is about -/

/-- A tensor with a row for each row of the batch. -/
def Field.PerRow (batchSize : ℕ) (f : Field α β) : Prop :=
  ∃ t, f = .tensor t ∧ t.numel ≠ 0 ∧ t.shape.length ≠ 0 ∧ t.size 0 = batchSize

/-- Keep indices of one dimension are those of every row. -/
def Field.KeepPerRow (batchSize : ℕ) (f : Field α β) : Prop :=
  ∃ t, f = .tensor t ∧ t.numel ≠ 0 ∧ 2 ≤ t.shape.length ∧ t.size 0 = batchSize

/-- Keep indices for every row, as many of them as rows. -/
def Field.GlobalOfLength (batchSize : ℕ) (f : Field α β) : Prop :=
  ∃ t, f = .tensor t ∧ t.numel ≠ 0 ∧ t.shape = [batchSize]

/-- A request of the full-batch path: the hidden states have the batch's rows, and so have
hypothesis ids that are not a placeholder. -/
structure Accepted (batchSize : ℕ) (r : Fields τ α β) : Prop where
  hiddenStates : r.hiddenStates.shape.length = 3 ∧ r.hiddenStates.size 0 = batchSize
  hypoIds : r.hypoIds = .none ∨ (∃ t, r.hypoIds = .tensor t ∧ t.numel = 0) ∨
    r.hypoIds.PerRow batchSize

/-- The micro-batches carry a field as they should: the rows in order where it has a row for each
row of the batch, and else the whole field each. -/
def Carried (perRow : Prop) (whole : Field α β) (parts : List (Field α β)) : Prop :=
  (perRow → ∃ t ts, whole = .tensor t ∧ parts = ts.map .tensor ∧ NDArray.cat 0 ts = some t) ∧
    (¬perRow → ∀ part ∈ parts, part = whole)

structure CarriedAll (batchSize : ℕ) (r : Fields τ α β) (mbs : List (MicrobatchInputs τ α β)) :
    Prop where
  hiddenStates : NDArray.cat 0 (mbs.map fun mb => mb.hiddenStates) = some r.hiddenStates
  hypoIds : Carried (r.hypoIds.PerRow batchSize) r.hypoIds (mbs.map fun mb => mb.hypoIds)
  treeAttentionMask : Carried (r.treeAttentionMask.PerRow batchSize) r.treeAttentionMask
    (mbs.map fun mb => mb.treeAttentionMask)
  kvCachePositionIds : Carried (r.kvCachePositionIds.PerRow batchSize) r.kvCachePositionIds
    (mbs.map fun mb => mb.kvCachePositionIds)
  draftTokens : Carried (r.draftTokens.PerRow batchSize) r.draftTokens
    (mbs.map fun mb => mb.draftTokens)
  prefillLength : Carried (r.prefillLength.PerRow batchSize) r.prefillLength
    (mbs.map fun mb => mb.prefillLength)
  keepIndices : Carried (r.keepIndices.KeepPerRow batchSize) r.keepIndices
    (mbs.map fun mb => mb.keepIndices)
  activeMask : Carried (r.activeMask.PerRow batchSize) r.activeMask
    (mbs.map fun mb => mb.activeMask)

end BloomBee.MicrobatchSlice
