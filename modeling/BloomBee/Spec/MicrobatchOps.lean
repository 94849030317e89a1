import BloomBee.Lib.NDArray
import BloomBee.Spec.RpcInference

/-! How a batch is cut into micro-batches and put together again (`utils/microbatch_ops.py`, and the
number of micro-batches a receiver waits for, `server/microbatch.py`). -/

set_option autoImplicit false

namespace BloomBee.MicrobatchOps

open RpcInference (computeMicroBatchRanges)

variable {α : Type}

inductive Raised where
  | indexError
  | valueError (message : String)
  /-- `torch.cat` refused its arguments -/
  | cat
deriving DecidableEq, Repr

/-! ### Configuration -/

/-- The two variables of the environment: whether the pipeline is switched on, and the size where
it is an integer. -/
structure Environ where
  flag : Bool
  size : Option ℤ

def DEFAULT_MICRO_BATCH_SIZE : ℕ := 0

def Environ.getMicroBatchSize (env : Environ) : ℕ :=
  if env.flag = false then 0
  else
    match env.size with
    | none => DEFAULT_MICRO_BATCH_SIZE
    | some size => if size < 1 then 0 else size.toNat

def Environ.isMicrobatchEnabled (env : Environ) : Bool :=
  env.flag && 0 < env.getMicroBatchSize

def shouldSplitBatch (env : Environ) (batchSize : ℕ) : Bool :=
  if env.isMicrobatchEnabled = false then false
  else if env.getMicroBatchSize ≤ 0 then false
  else env.getMicroBatchSize < batchSize

/-- What is given where an integer is expected: nothing, an integer, or what `int` refuses. -/
inductive Given where
  | none
  | int (value : ℤ)
  | other

def resolveExpectedNumMicrobatches (env : Environ) (fullBatchSize : ℕ)
    (totalMicroBatches configuredMicroBatchSize : Given) : ℤ :=
  match totalMicroBatches with
  | .int total => max 1 total
  | _ =>
    let microBatchSize : ℤ :=
      match configuredMicroBatchSize with
      | .none => env.getMicroBatchSize
      | .int size => size
      | .other => 0
    if microBatchSize > 0 then max 1 ((fullBatchSize + microBatchSize - 1) / microBatchSize) else 1

/-! ### Split and merge -/

/-- One chunk of `split_tensor_to_microbatches`. -/
def chunk (tensor : NDArray α) (dim start stop : ℕ) : Except Raised (Option (NDArray α)) :=
  let cut :=
    if dim = 0 then tensor.slice 0 start stop
    else if dim = 1 then tensor.slice 1 start stop
    else tensor.narrow dim start (stop - start)
  match cut with
  | none => .error .indexError
  | some t => .ok (some t)

def splitTensorToMicrobatches (env : Environ) (tensor : Option (NDArray α)) (dim : ℕ) :
    Except Raised (List (Option (NDArray α))) :=
  match tensor with
  | none => .ok [none]
  | some t =>
    match t.shape[dim]? with
    | none => .error .indexError
    | some batchSize =>
      if shouldSplitBatch env batchSize = false then .ok [some t]
      else
        (computeMicroBatchRanges env.getMicroBatchSize batchSize).mapM fun r => chunk t dim r.1 r.2

def cat (outputs : List (NDArray α)) (dim : ℕ) : Except Raised (Option (NDArray α)) :=
  match NDArray.cat dim outputs with
  | none => .error .cat
  | some merged => .ok (some merged)

/-- `max_shape`, after one more output. -/
def maxWith (dim : ℕ) (maxShape : List ℕ) (shape : List ℕ) : List ℕ :=
  maxShape.mapIdx fun axis size => if axis = dim then size else max size (shape.getD axis 0)

/-- An output in a batch of the given sizes: as it is where it fits, else within an array full of
`pad`. -/
def padOutput (dim : ℕ) (pad : α) (maxShape : List ℕ) (out : NDArray α) : NDArray α :=
  let paddedShape := maxShape.set dim (out.size dim)
  if out.shape = paddedShape then out else (NDArray.full paddedShape pad).overwrite out

/-- What the two merges do with the outputs that are there. -/
def mergeValid (dim : ℕ) (pad : α) (message : String) (first : NDArray α) (rest : List (NDArray α)) :
    Except Raised (Option (NDArray α)) :=
  if ∀ out ∈ rest, NDArray.SameOff dim first.shape out.shape then cat (first :: rest) dim
  else if ∃ out ∈ rest, out.shape.length ≠ first.shape.length then .error (.valueError message)
  else
    let maxShape := rest.foldl (fun maxShape out => maxWith dim maxShape out.shape) first.shape
    cat ((first :: rest).map (padOutput dim pad maxShape)) dim

def mergeMicrobatchOutputs [Zero α] (outputs : List (Option (NDArray α))) (dim : ℕ) :
    Except Raised (Option (NDArray α)) :=
  match outputs with
  | [out] => .ok out
  | _ =>
    match outputs.reduceOption with
    | [] => .ok none
    | first :: rest => mergeValid dim 0 "Incompatible tensors for micro-batch merge" first rest

def mergeMicrobatchKeepIndices (outputs : List (Option (NDArray ℤ))) (dim : ℕ) (padValue : ℤ) :
    Except Raised (Option (NDArray ℤ)) :=
  match outputs.reduceOption with
  | [] => .ok none
  | [out] => .ok (some out)
  | first :: rest =>
    mergeValid dim padValue "Incompatible keep_indices tensors for micro-batch merge" first rest

/-- `merged` holds the outputs one after the other along `dim`: every entry at its own index in the
rows of its output, and `pad` where the output has no entry. -/
structure Merges (dim : ℕ) (pad : α) (outputs : List (NDArray α)) (merged : NDArray α) : Prop where
  ndim : ∀ out ∈ outputs, out.shape.length = merged.shape.length
  rows : merged.size dim = NDArray.sizeSum dim outputs
  sizes : ∀ axis < merged.shape.length, axis ≠ dim →
    (∀ out ∈ outputs, out.size axis ≤ merged.size axis) ∧
      ∃ out ∈ outputs, out.size axis = merged.size axis
  entry : ∀ before out after, outputs = before ++ out :: after → ∀ idx,
    NDArray.OffAxis dim merged.shape idx → idx.getD dim 0 < out.size dim →
      merged.get (idx.modify dim (· + NDArray.sizeSum dim before)) = some ((out.get idx).getD pad)

end BloomBee.MicrobatchOps
