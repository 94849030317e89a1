import BloomBee.Proofs.LosslessTransport
import BloomBee.Spec.TensorStream

/-! The stream gives back the tensors it was made of. Where a message ends plays no role, since the
parts that were collected are kept from one message to the next. -/

set_option autoImplicit false

namespace BloomBee.LosslessTransport

open Fallible

variable {ρ τ : Type}

/-- `combine_from_streaming` joins the buffers and keeps the fields of the first part. -/
def Hivemind.Joins (H : Hivemind ρ τ) : Prop :=
  ∀ first rest, H.combineFromStreaming (first :: rest) =
    { buffer := ((first :: rest).map SerializedTensor.buffer).flatten, fields := first.fields }

/-- The parts of one tensor: the first has its fields, with a dtype, and no other has a dtype. -/
structure SplitOf (x : SerializedTensor (TensorFields ρ)) (parts : Message ρ) : Prop where
  first : ∃ first rest, parts = first :: rest ∧ first.fields = x.fields ∧
    ∀ part ∈ rest, part.fields.dtype = ""
  dtype : x.fields.dtype ≠ ""
  buffers : (parts.map SerializedTensor.buffer).flatten = x.buffer

theorem SplitOf.combine {H : Hivemind ρ τ} (hH : H.Joins)
    {x : SerializedTensor (TensorFields ρ)} {parts : Message ρ} (h : SplitOf x parts) :
    H.combineFromStreaming parts = x := by
  obtain ⟨first, rest, rfl, hfields, -⟩ := h.first
  rw [hH, h.buffers, hfields]

section Run

variable (H : Hivemind ρ τ) (E : Codecs) (maxDecodedEnv : ℤ)

theorem foldlM_messages (stream : List (Message ρ)) (s : StreamState ρ τ) :
    stream.foldlM (fun s parts => parts.foldlM (takePart H E maxDecodedEnv) s) s =
      stream.flatten.foldlM (takePart H E maxDecodedEnv) s := by
  induction stream generalizing s with
  | nil => rfl
  | cons parts stream ih =>
    rw [List.foldlM_cons, List.flatten_cons, List.foldlM_append]
    exact bind_congr fun s' => ih s'

theorem foldlM_rest {rest : Message ρ} (hrest : ∀ part ∈ rest, part.fields.dtype = "")
    (s : StreamState ρ τ) :
    rest.foldlM (takePart H E maxDecodedEnv) s =
      .ok { s with tensorParts := s.tensorParts ++ rest } := by
  induction rest generalizing s with
  | nil => rw [List.append_nil]; rfl
  | cons part rest ih =>
    obtain ⟨hpart, hrest⟩ := List.forall_mem_cons.mp hrest
    rw [List.foldlM_cons, takePart, if_neg (fun h => h.1 hpart)]
    refine (ih hrest _).trans ?_
    rw [List.append_assoc, List.singleton_append]

/-- The parts of the next tensors, after the parts of one tensor were collected: it is emitted
first, and then each of the others. -/
theorem foldlM_splits (hH : H.Joins) {xs : List (SerializedTensor (TensorFields ρ))}
    {split : List (Message ρ)} (h : List.Forall₂ SplitOf xs split)
    {x : SerializedTensor (TensorFields ρ)} {parts : Message ρ} (hx : SplitOf x parts)
    (tensors : List τ) :
    (do let s ← split.flatten.foldlM (takePart H E maxDecodedEnv) ⟨tensors, parts⟩
        finishStream H E maxDecodedEnv s) =
      (do let rest ← (x :: xs).mapM (deserializeTorchTensor H E maxDecodedEnv)
          return tensors ++ rest) := by
  obtain ⟨first, rest, hparts, -⟩ := hx.first
  have hne : parts ≠ [] := by simp [hparts]
  induction h generalizing x parts tensors first rest with
  | nil =>
    simp only [List.flatten_nil, List.foldlM_nil, pure_bind, finishStream, if_pos hne,
      hx.combine hH, List.mapM_cons, List.mapM_nil, bind_assoc]
  | @cons y next ys later hy hlater ih =>
    obtain ⟨first', rest', hnext, hfields, hrest⟩ := hy.first
    have hdtype : first'.fields.dtype ≠ "" := by rw [hfields]; exact hy.dtype
    rw [List.flatten_cons, List.foldlM_append, hnext, List.foldlM_cons, takePart,
      if_pos ⟨hdtype, hne⟩, hx.combine hH, List.mapM_cons]
    simp only [bind_assoc, pure_bind]
    refine bind_congr fun tensor => ?_
    rw [foldlM_rest H E maxDecodedEnv hrest, ok_bind, List.singleton_append, ← hnext,
      ih hy (tensors ++ [tensor]) first' rest' hnext (by simp [hnext])]
    simp only [List.append_assoc, List.singleton_append]

end Run

/-- For every split of every list of tensors and every grouping of the parts into messages, the
stream gives what the tensors give one by one, in order, errors included. -/
theorem deserializeTensorStream_eq {H : Hivemind ρ τ} (hH : H.Joins) (E : Codecs)
    (maxDecodedEnv : ℤ) {xs : List (SerializedTensor (TensorFields ρ))} {split : List (Message ρ)}
    (hsplit : List.Forall₂ SplitOf xs split) {stream : List (Message ρ)}
    (hstream : stream.flatten = split.flatten) :
    deserializeTensorStream H E maxDecodedEnv stream =
      xs.mapM (deserializeTorchTensor H E maxDecodedEnv) := by
  rw [deserializeTensorStream, foldlM_messages, hstream]
  cases hsplit with
  | nil => rfl
  | @cons x parts xs split hx hsplit =>
    obtain ⟨first, rest, hparts, hfields, hrest⟩ := hx.first
    have hempty : parts.foldlM (takePart H E maxDecodedEnv) {} =
        .ok { tensors := [], tensorParts := parts } := by
      rw [hparts, List.foldlM_cons, takePart, if_neg (fun h => h.2 rfl)]
      exact foldlM_rest H E maxDecodedEnv hrest _
    rw [List.flatten_cons, List.foldlM_append, hempty, ok_bind,
      foldlM_splits H E maxDecodedEnv hH hsplit hx []]
    simp only [List.nil_append, bind_pure]

def bytesHivemind : Hivemind Unit Bytes where
  combineFromStreaming parts :=
    { buffer := (parts.map SerializedTensor.buffer).flatten
      fields := (parts.head?.map SerializedTensor.fields).getD ⟨"", ()⟩ }
  deserializeTorchTensor x := .ok x.buffer

def splitTensors : List (Message Unit) :=
  [[⟨[1, 2], ⟨"uint8", ()⟩⟩, ⟨[3], ⟨"", ()⟩⟩], [⟨[4, 5], ⟨"uint8", ()⟩⟩]]

/-- The second message is empty, and the third holds the end of one tensor and all of the next. -/
theorem deserializeTensorStream_eq_splitTensors :
    deserializeTensorStream bytesHivemind zlibOnly (2 ^ 30)
        [[⟨[1, 2], ⟨"uint8", ()⟩⟩], [], [⟨[3], ⟨"", ()⟩⟩, ⟨[4, 5], ⟨"uint8", ()⟩⟩]] =
      .ok [[1, 2, 3], [4, 5]] := by
  have hsplit : List.Forall₂ SplitOf
      [⟨[1, 2, 3], ⟨"uint8", ()⟩⟩, ⟨[4, 5], ⟨"uint8", ()⟩⟩] splitTensors := by
    refine .cons ⟨⟨_, _, rfl, rfl, ?_⟩, by decide, rfl⟩
      (.cons ⟨⟨_, _, rfl, rfl, ?_⟩, by decide, rfl⟩ .nil) <;> simp
  exact (deserializeTensorStream_eq (H := bytesHivemind) (fun _ _ => rfl) zlibOnly (2 ^ 30) hsplit
    rfl).trans rfl

end BloomBee.LosslessTransport
