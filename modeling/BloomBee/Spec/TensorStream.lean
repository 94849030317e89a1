import BloomBee.Spec.LosslessWrapper

/-! `deserialize_tensor_stream` of `utils/lossless_transport.py`. A long tensor is sent as several
parts of which only the first has a dtype, and the parts of all tensors are spread over the messages
of a stream. Putting the parts of one tensor together and reading the plain bytes is code of another
package. -/

set_option autoImplicit false

namespace BloomBee.LosslessTransport

/-- The fields of a `runtime_pb2.Tensor` beside its buffer: the one that the stream looks at, and
the rest. -/
structure TensorFields (ρ : Type) where
  dtype : String
  rest : ρ

abbrev Message (ρ : Type) := List (SerializedTensor (TensorFields ρ))

/-- What the transport takes from `hivemind`. -/
structure Hivemind (ρ τ : Type) where
  combineFromStreaming : Message ρ → SerializedTensor (TensorFields ρ)
  deserializeTorchTensor : SerializedTensor (TensorFields ρ) → Except Raised τ

variable {ρ τ : Type}

/-- `deserialize_torch_tensor`: the wrapper is taken off first. -/
def deserializeTorchTensor (H : Hivemind ρ τ) (E : Codecs) (maxDecodedEnv : ℤ)
    (x : SerializedTensor (TensorFields ρ)) : Except Raised τ := do
  H.deserializeTorchTensor (← unwrapSerializedTensor E maxDecodedEnv x)

/-- `tensors` and `tensor_parts`. -/
structure StreamState (ρ τ : Type) where
  tensors : List τ := []
  tensorParts : Message ρ := []

/-- One part: a dtype ends the tensor whose parts were collected so far. -/
def takePart (H : Hivemind ρ τ) (E : Codecs) (maxDecodedEnv : ℤ) (s : StreamState ρ τ)
    (part : SerializedTensor (TensorFields ρ)) : Except Raised (StreamState ρ τ) :=
  if part.fields.dtype ≠ "" ∧ s.tensorParts ≠ [] then do
    let tensor ← deserializeTorchTensor H E maxDecodedEnv (H.combineFromStreaming s.tensorParts)
    return { tensors := s.tensors ++ [tensor], tensorParts := [part] }
  else return { s with tensorParts := s.tensorParts ++ [part] }

/-- The end of the stream ends the last tensor. -/
def finishStream (H : Hivemind ρ τ) (E : Codecs) (maxDecodedEnv : ℤ) (s : StreamState ρ τ) :
    Except Raised (List τ) :=
  if s.tensorParts ≠ [] then do
    let tensor ← deserializeTorchTensor H E maxDecodedEnv (H.combineFromStreaming s.tensorParts)
    return s.tensors ++ [tensor]
  else return s.tensors

def deserializeTensorStream (H : Hivemind ρ τ) (E : Codecs) (maxDecodedEnv : ℤ)
    (stream : List (Message ρ)) : Except Raised (List τ) := do
  let s ← stream.foldlM (fun s parts => parts.foldlM (takePart H E maxDecodedEnv) s) {}
  finishStream H E maxDecodedEnv s

end BloomBee.LosslessTransport
