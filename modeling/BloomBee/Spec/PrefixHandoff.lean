import Mathlib.Logic.Function.Basic
import BloomBee.Spec.PagedShim

/-! `KVCacheManager.copy_prefix_from_handle` (`server/memory_cache_manager.py`) and its caller
`TransformerBackend._maybe_record_runtime_kv_prefix_reuse_handoff` (`server/backend.py`). All slabs
of a server have one dtype. -/

set_option autoImplicit false

namespace BloomBee.PrefixHandoff

open PagedKV (Tensor)

abbrev Handle := ℕ

/-- A tensor of a handle, or something with a shape that holds its tensors in parts. -/
inductive Value (κ : Type) where
  | tensor (t : Tensor κ)
  | other (shape : List ℕ)

/-- What the cache has: `_allocated_tensors` and the counter of tokens. A dtype without a numpy
counterpart is bfloat16. -/
structure CacheState (κ : Type) where
  allocated : Handle → Option (Value κ × Value κ)
  currentSizeTokens : ℕ
  numpyDtype : Bool

inductive Raised where
  | valueError (message : String)
  | keyError (message : String)
  | typeError (message : String)
  /-- `numpy()` of a bfloat16 tensor. -/
  | unsupportedScalarType
  deriving DecidableEq, Repr

/-- `f"{type(exc).__name__}: {exc}"` -/
def Raised.text : Raised → String
  | .valueError message => "ValueError: " ++ message
  | .keyError message => "KeyError: '" ++ message ++ "'"
  | .typeError message => "TypeError: " ++ message
  | .unsupportedScalarType => "TypeError: Got unsupported ScalarType BFloat16"

variable {κ : Type}

/-! ### `copy_prefix_from_handle` -/

structure CopyArgs where
  sourceHandle : Handle
  destinationHandle : Handle
  prefixLength : ℤ
  bhSlice : Option (ℤ × ℤ) := none
  sourceBhSlice : Option (ℤ × ℤ) := none
  destinationBhSlice : Option (ℤ × ℤ) := none

/-- `_tensor` -/
def tensorOf : Value κ → Except Raised (Tensor κ)
  | .tensor t => .ok t
  | .other _ => .error (.typeError "KV prefix handoff currently requires tensor-backed cache slabs")

def normalizeBhSlice (value : ℤ × ℤ) (maxBh : ℕ) (label : String) : Except Raised (ℕ × ℕ) :=
  if value.1 < 0 ∨ value.2 ≤ value.1 then
    .error (.valueError (label ++ " must be a non-empty positive range"))
  else if (maxBh : ℤ) < value.2 then
    .error (.valueError (label ++ " exceeds source or destination BH capacity"))
  else .ok (value.1.toNat, value.2.toNat)

/-- `source_slice` and `destination_slice` for slabs of that many columns. -/
def resolveSlices (a : CopyArgs) (srcBh dstBh : ℕ) : Except Raised ((ℕ × ℕ) × (ℕ × ℕ)) :=
  let sharedBhLimit := min srcBh dstBh
  match a.sourceBhSlice, a.destinationBhSlice with
  | none, none =>
    match a.bhSlice with
    | none => .ok ((0, sharedBhLimit), (0, sharedBhLimit))
    | some value => do
      let slice ← normalizeBhSlice value sharedBhLimit "bh_slice"
      return (slice, slice)
  | some source, some destination =>
    if a.bhSlice ≠ none then
      .error (.valueError
        "bh_slice cannot be combined with source_bh_slice/destination_bh_slice")
    else do
      let sourceSlice ← normalizeBhSlice source srcBh "source_bh_slice"
      let destinationSlice ← normalizeBhSlice destination dstBh "destination_bh_slice"
      if sourceSlice.2 - sourceSlice.1 ≠ destinationSlice.2 - destinationSlice.1 then
        .error (.valueError "source_bh_slice and destination_bh_slice must have the same width")
      else return (sourceSlice, destinationSlice)
  | _, _ =>
    .error (.valueError "source_bh_slice and destination_bh_slice must be provided together")

/-- What the copy works on once nothing was refused. -/
structure Validated (κ : Type) where
  srcK : Tensor κ
  srcV : Tensor κ
  dstK : Tensor κ
  dstV : Tensor κ
  prefixLength : ℕ
  sourceSlice : ℕ × ℕ
  destinationSlice : ℕ × ℕ

/-- The checks of two slabs, in their order. -/
def validateSlabs (a : CopyArgs) (srcK srcV dstK dstV : Tensor κ) : Except Raised (Validated κ) :=
  if srcK.shape.length ≠ 3 ∨ srcV.shape.length ≠ 3 ∨ dstK.shape.length ≠ 3 ∨
      dstV.shape.length ≠ 3 then
    .error (.valueError "KV prefix handoff requires (S, BH, D) cache slabs")
  else if srcK.shape ≠ srcV.shape ∨ dstK.shape ≠ dstV.shape then
    .error (.valueError "key/value cache slab shapes must match per handle")
  else if srcK.shape.getD 2 0 ≠ dstK.shape.getD 2 0 then
    .error (.valueError "source and destination KV head dimensions differ")
  else if srcK.shape.getD 0 0 < a.prefixLength ∨ dstK.shape.getD 0 0 < a.prefixLength then
    .error (.valueError "prefix_length exceeds source or destination cache capacity")
  else do
    let slices ← resolveSlices a (srcK.shape.getD 1 0) (dstK.shape.getD 1 0)
    if a.sourceHandle = a.destinationHandle ∧
        ¬(slices.1.2 ≤ slices.2.1 ∨ slices.2.2 ≤ slices.1.1) then
      .error (.valueError
        "same-handle KV prefix handoff requires distinct non-overlapping BH slices")
    else return ⟨srcK, srcV, dstK, dstV, a.prefixLength.toNat, slices.1, slices.2⟩

def validate (st : CacheState κ) (a : CopyArgs) : Except Raised (Validated κ) :=
  if a.prefixLength ≤ 0 then .error (.valueError "prefix_length must be positive")
  else match st.allocated a.sourceHandle, st.allocated a.destinationHandle with
  | some (srcK, srcV), some (dstK, dstV) => do
    let srcK ← tensorOf srcK
    let srcV ← tensorOf srcV
    let dstK ← tensorOf dstK
    let dstV ← tensorOf dstV
    validateSlabs a srcK srcV dstK dstV
  | _, _ => .error (.keyError "source or destination cache handle is not allocated")

/-- `t[:prefix_length, lo:hi].copy_(src)` for a source of the shape of the slice. -/
def copyCells (t : Tensor κ) (prefixLength lo hi : ℕ) (src : ℕ → ℕ → ℕ → κ) : Tensor κ where
  shape := t.shape
  data := fun s c e =>
    if s < prefixLength ∧ lo ≤ c ∧ c < hi then src s (c - lo) e else t.data s c e

/-- `t[:prefix_length, lo:]`, cloned. -/
def clonedFrom (t : Tensor κ) (lo : ℕ) : ℕ → ℕ → ℕ → κ := fun s c e => t.data s (lo + c) e

/-- The numbers of a prefix in the order of its bytes. -/
def prefixCells (t : Tensor κ) (prefixLength lo hi : ℕ) : List κ :=
  (List.range prefixLength).flatMap fun s => (List.range (hi - lo)).flatMap fun c =>
    (List.range (t.shape.getD 2 0)).map fun e => clonedFrom t lo s c e

structure Report where
  serverHandleHandoffObserved : Bool
  cacheReadSourceHandleId : Handle
  cacheWriteDestinationHandleId : Handle
  serverRecoveredPrefixTokenCount : ℕ
  prefixLength : ℕ
  bhSlice : ℕ × ℕ
  cacheReadSourceBhSlice : ℕ × ℕ
  cacheWriteDestinationBhSlice : ℕ × ℕ
  kvPrefixByteChecksumSha256 : String
  deriving DecidableEq, Repr

/-- The two copies, both sources cloned before. -/
def Validated.write (v : Validated κ) (st : CacheState κ) (destination : Handle) : CacheState κ :=
  let dstK := copyCells v.dstK v.prefixLength v.destinationSlice.1 v.destinationSlice.2
    (clonedFrom v.srcK v.sourceSlice.1)
  let dstV := copyCells v.dstV v.prefixLength v.destinationSlice.1 v.destinationSlice.2
    (clonedFrom v.srcV v.sourceSlice.1)
  { st with
    allocated := Function.update st.allocated destination (some (.tensor dstK, .tensor dstV)) }

/-- `copy_prefix_from_handle`. The checksum comes after the copies, and raises where the bytes cannot
be taken by numpy. -/
def copyPrefixFromHandle (sha256 : List κ → String) (st : CacheState κ) (a : CopyArgs) :
    CacheState κ × Except Raised Report :=
  match validate st a with
  | .error e => (st, .error e)
  | .ok v =>
    let st' := v.write st a.destinationHandle
    if st.numpyDtype then
      let checksum := sha256
        (prefixCells v.srcK v.prefixLength v.sourceSlice.1 v.sourceSlice.2 ++
          prefixCells v.srcV v.prefixLength v.sourceSlice.1 v.sourceSlice.2)
      (st', .ok {
        serverHandleHandoffObserved := true
        cacheReadSourceHandleId := a.sourceHandle
        cacheWriteDestinationHandleId := a.destinationHandle
        serverRecoveredPrefixTokenCount := v.prefixLength
        prefixLength := v.prefixLength
        bhSlice := v.destinationSlice
        cacheReadSourceBhSlice := v.sourceSlice
        cacheWriteDestinationBhSlice := v.destinationSlice
        kvPrefixByteChecksumSha256 := checksum })
    else (st', .error .unsupportedScalarType)

/-! ### `_maybe_record_runtime_kv_prefix_reuse_handoff` -/

/-- The fields of `InferenceMetadata` that are read. -/
structure InferenceInfo where
  cacheHandles : List Handle
  kvPrefixReuseEnabled : Bool := false
  kvPrefixReuseCommonPrefixTokenCount : ℤ := 0
  kvPrefixReuseRequestCount : ℤ := 0
  fullBatchSize : ℕ := 0

/-- `_kv_handoff_diagnostic`, with what some callers add. -/
structure Diagnostic where
  source : String := "bloombee.server.backend"
  claimBoundary : String := "kv_prefix_reuse_server_handoff_diagnostic_no_proof"
  reason : String
  serverObservedKvCacheReuse : Bool := false
  liveKvCacheReuseProven : Bool := false
  speedupProven : Bool := false
  canUpdateDemoStatus : Bool := false
  batchSize : ℕ
  commonPrefixTokenCount : ℤ
  prefixLength : ℤ
  kvPrefixReuseEnabled : Option Bool := none
  kvPrefixReuseRequestCount : Option ℤ := none
  cacheReadSourceHandleId : Option Handle := none
  cacheTensorShape : Option (List ℕ) := none
  error : Option String := none
  deriving DecidableEq, Repr

def kvHandoffDiagnostic (reason : String) (info : InferenceInfo) (batchSize : ℕ) : Diagnostic where
  reason := reason
  batchSize := batchSize
  commonPrefixTokenCount := info.kvPrefixReuseCommonPrefixTokenCount
  prefixLength := info.kvPrefixReuseCommonPrefixTokenCount

/-- `kv_prefix_reuse_server_handoff`: the report with the defaults that are set. -/
structure ServerHandoff extends Report where
  source : String := "bloombee.server.backend"
  clientClaimedPrefixTokenCount : ℤ
  deriving DecidableEq, Repr

/-- The metadata of the step: the empty dict, or a dict with one of two keys. -/
inductive RuntimeMetadata where
  | empty
  | serverHandoffDiagnostic (d : Diagnostic)
  | serverHandoff (h : ServerHandoff)
  deriving DecidableEq, Repr

def Value.shape : Value κ → List ℕ
  | .tensor t => t.shape
  | .other shape => shape

def rowBhWidthFromCacheShape (shape : List ℕ) (batchSize : ℕ) : Option ℕ :=
  if batchSize < 2 then none
  else if 4 ≤ shape.length ∧ batchSize ≤ shape.getD 0 0 then some (shape.getD 1 0)
  else if 3 ≤ shape.length ∧ batchSize ≤ shape.getD 1 0 ∧ shape.getD 1 0 % batchSize = 0 then
    some (shape.getD 1 0 / batchSize)
  else none

/-- `_maybe_record_runtime_kv_prefix_reuse_handoff`. `reuseEnv` says that
`BLOOMBEE_ENABLE_KV_PREFIX_REUSE` is 1. The manager has the copy, and its report is always of a
handoff that was observed. -/
def maybeRecordRuntimeKvPrefixReuseHandoff (sha256 : List κ → String) (reuseEnv : Bool)
    (st : CacheState κ) (info : InferenceInfo) (batchSize : ℕ) : CacheState κ × RuntimeMetadata :=
  let diagnose (d : Diagnostic) := (st, RuntimeMetadata.serverHandoffDiagnostic d)
  if info.kvPrefixReuseEnabled = false then
    if reuseEnv = true ∧ 2 ≤ batchSize then
      diagnose { kvHandoffDiagnostic "runtime_kv_prefix_metadata_not_armed" info batchSize with
        kvPrefixReuseEnabled := some false
        kvPrefixReuseRequestCount := some info.kvPrefixReuseRequestCount }
    else (st, .empty)
  else if info.kvPrefixReuseRequestCount < 2 ∨ batchSize < 2 then
    diagnose (kvHandoffDiagnostic "batch_size_below_two" info batchSize)
  else if info.kvPrefixReuseCommonPrefixTokenCount ≤ 0 then
    diagnose (kvHandoffDiagnostic "missing_positive_prefix_length" info batchSize)
  else match info.cacheHandles with
  | [] => diagnose (kvHandoffDiagnostic "missing_cache_handle" info batchSize)
  | handle :: _ =>
    match st.allocated handle with
    | none =>
      diagnose { kvHandoffDiagnostic "missing_cache_tensor_shape" info batchSize with
        cacheReadSourceHandleId := some handle }
    | some pair =>
      let shape := pair.1.shape
      let fullBatchSize := if info.fullBatchSize = 0 then batchSize else info.fullBatchSize
      let rowBhWidth := (rowBhWidthFromCacheShape shape fullBatchSize).getD 0
      if rowBhWidth = 0 then
        diagnose { kvHandoffDiagnostic "unsupported_cache_tensor_shape" info batchSize with
          cacheReadSourceHandleId := some handle
          cacheTensorShape := some shape }
      else
        match copyPrefixFromHandle sha256 st {
            sourceHandle := handle
            destinationHandle := handle
            prefixLength := info.kvPrefixReuseCommonPrefixTokenCount
            sourceBhSlice := some (0, rowBhWidth)
            destinationBhSlice := some (rowBhWidth, rowBhWidth * 2) } with
        | (st', .error e) =>
          (st', .serverHandoffDiagnostic
            { kvHandoffDiagnostic "copy_prefix_from_handle_failed" info batchSize with
              cacheReadSourceHandleId := some handle
              cacheTensorShape := some shape
              error := some e.text })
        | (st', .ok report) =>
          (st', .serverHandoff {
            toReport := report
            clientClaimedPrefixTokenCount := info.kvPrefixReuseCommonPrefixTokenCount })

end BloomBee.PrefixHandoff
