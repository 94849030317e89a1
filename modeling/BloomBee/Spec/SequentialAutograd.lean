import BloomBee.Lib.Grouped
import BloomBee.Lib.Retry
import BloomBee.Spec.InferenceSession

/-! `sequential_forward` and `sequential_backward` of `client/sequential_autograd.py`, and the
autograd function that calls them on batches of rows. A tensor of prompts is the list of its
blocks, `DUMMY` the empty one; `torch.cat` along the first dimension is append. `pop` takes the
last entry of a list, as Python does. -/

set_option autoImplicit false

namespace BloomBee.SequentialAutograd

open InferenceSession (Span clampLast)

/-- The blocks: hidden states `H`, gradients `G`, prompts `P` and gradients of prompts `Q`. -/
structure Blocks (H G P Q : Type) where
  forward : ℕ → Option P → H → H
  backward : ℕ → Option P → H → G → G
  /-- The part of a gradient that goes to the prompt. -/
  gradPrompt : P → G → Q

variable {H G P Q : Type}

/-- `prompts[span.start : span.end]`. -/
def slice (prompts : List P) (span : Span) : List P :=
  (prompts.take span.stop).drop span.start

/-- The blocks a server runs, each with its prompt; without prompts all of them are dummies. -/
def requestedBlocks (span : Span) (prompts : List P) : List (ℕ × Option P) :=
  let blocks := List.range' span.start (span.stop - span.start)
  if prompts = [] then blocks.map fun b => (b, none) else blocks.zip (prompts.map some)

/-- `run_rpc_forward`: the chain of requested backends. -/
def rpcForward (B : Blocks H G P Q) (blocks : List (ℕ × Option P)) (inputs : H) : H :=
  blocks.foldl (fun h b => B.forward b.1 b.2 h) inputs

/-- `run_rpc_backward`: forward through all but the last block to get their inputs, then
backward through all of them. -/
def rpcBackward (B : Blocks H G P Q) : List (ℕ × Option P) → H → G → G × List Q
  | [], _, grad => (grad, [])
  | b :: blocks, inputs, grad =>
    let (grad, gradPrompts) := rpcBackward B blocks (B.forward b.1 b.2 inputs) grad
    let grad := B.backward b.1 b.2 inputs grad
    (grad, (b.2.map fun p => B.gradPrompt p grad).toList ++ gradPrompts)

inductive Fate where
  | answered
  /-- `make_sequence` raises; where it is not called, the request does. -/
  | noRoute
  /-- The request raises, or its answer does not arrive. -/
  | failed
  deriving DecidableEq, Repr

structure Attempt where
  fate : Fate
  makeSequence : ℕ → ℕ → List Span

structure Config where
  /-- `len(sequence_manager.block_uids)`. -/
  numBlocks : ℕ
  maxRetries : Option ℕ

inductive Error where
  | assertion
  | retriesExhausted
  /-- The given attempts are used up before the call ends. -/
  | pending
  deriving DecidableEq, Repr

structure Forwarded (H : Type) where
  outputs : H
  intermediateInputs : List H
  doneSequences : List Span

/-- `sequences` after the `make_sequence` of an attempt, `none` if that raises. An empty list
raises at `sequences[-1]`. -/
def Attempt.sequences (a : Attempt) (endIndex blockIdx attemptNo : ℕ) (sequences : List Span) :
    Option (List Span) :=
  if sequences.isEmpty || decide (1 ≤ attemptNo) then
    let sequences := clampLast endIndex (a.makeSequence blockIdx endIndex)
    if a.fate = .noRoute ∨ sequences = [] then none else some sequences
  else some sequences

/-- The two loops of `sequential_forward`. -/
def forwardLoop (cfg : Config) (B : Blocks H G P Q) (prompts : List P) (endIndex : ℕ) :
    List Attempt → List Span → ℕ → ℕ → H → List H → List Span → Except Error (Forwarded H)
  | [], _, blockIdx, _, inputs, intermediateInputs, doneSequences =>
    if blockIdx < endIndex then .error .pending
    else .ok ⟨inputs, intermediateInputs, doneSequences⟩
  | a :: attempts, sequences, blockIdx, attemptNo, inputs, intermediateInputs, doneSequences =>
    if blockIdx < endIndex then
      match a.sequences endIndex blockIdx attemptNo sequences, a.fate with
      | some (span :: sequences), .answered =>
        let outputs := rpcForward B (requestedBlocks span (slice prompts span)) inputs
        forwardLoop cfg B prompts endIndex attempts sequences span.stop 0 outputs
          (intermediateInputs ++ [inputs]) (doneSequences ++ [span])
      | remade, _ =>
        if cfg.maxRetries = some (attemptNo + 1) then .error .retriesExhausted
        else forwardLoop cfg B prompts endIndex attempts ((remade.getD sequences).tail) blockIdx
          (attemptNo + 1) inputs intermediateInputs doneSequences
    else .ok ⟨inputs, intermediateInputs, doneSequences⟩

def sequentialForward (cfg : Config) (B : Blocks H G P Q) (attempts : List Attempt) (inputs : H)
    (prompts : List P) (startIndex : ℕ) (endIndex : Option ℕ) : Except Error (Forwarded H) :=
  let endIndex := endIndex.getD cfg.numBlocks
  if cfg.numBlocks < endIndex ∨ (prompts ≠ [] ∧ prompts.length ≠ cfg.numBlocks) then
    .error .assertion
  else forwardLoop cfg B prompts endIndex attempts [] startIndex 0 inputs [] []

/-- One turn of the retry loop of the backward pass: the attempts of the forward it may make
again, and whether the request is answered. -/
structure BackwardAttempt where
  forward : List Attempt
  answered : Bool

structure BackwardState (H G Q : Type) where
  intermediateInputs : List H
  forwardSequences : List Span
  /-- `attempt_no`, `inputs` and `span` inside the inner loop. -/
  current : Option (ℕ × H × Span)
  gradOutputs : G
  gradPromptsReversed : List (List Q)

/-- `xs.pop()`: the list after it, and the entry. -/
def pop {α : Type} (xs : List α) : Option (List α × α) := xs.getLast?.map fun x => (xs.dropLast, x)

/-- The head of the outer loop, where no span is under way. -/
def BackwardState.next (st : BackwardState H G Q) : Option (BackwardState H G Q × ℕ × H × Span) :=
  match st.current with
  | some current => some (st, current)
  | none =>
    match pop st.intermediateInputs, pop st.forwardSequences with
    | some (intermediateInputs, inputs), some (forwardSequences, span) =>
      some ({ st with intermediateInputs, forwardSequences }, 0, inputs, span)
    | _, _ => none

/-- The forward that an attempt makes again: the lists with the new entries on them, and the
last of these popped. `none` where the forward or one of the assertions raises. -/
def BackwardState.recover (cfg : Config) (B : Blocks H G P Q) (prompts : List P)
    (st : BackwardState H G Q) (attempts : List Attempt) (inputs : H) (span : Span) :
    Option (BackwardState H G Q × H × Span) :=
  match sequentialForward cfg B attempts inputs prompts span.start (some span.stop) with
  | .error _ => none
  | .ok backup =>
    if backup.intermediateInputs.length = backup.doneSequences.length ∧
        (backup.doneSequences.head?.map fun s => s.start) = some span.start ∧
        (backup.doneSequences.getLast?.map fun s => s.stop) = some span.stop then
      match pop (st.intermediateInputs ++ backup.intermediateInputs),
          pop (st.forwardSequences ++ backup.doneSequences) with
      | some (intermediateInputs, inputs), some (forwardSequences, span) =>
        some ({ st with intermediateInputs, forwardSequences }, inputs, span)
      | _, _ => none
    else none

/-- `torch.cat(grad_prompts_reversed[::-1], dim=0) if grad_prompts_reversed else None`. -/
def BackwardState.result (st : BackwardState H G Q) : G × Option (List Q) :=
  (st.gradOutputs,
    if st.gradPromptsReversed = [] then none else some st.gradPromptsReversed.reverse.flatten)

/-- The answer to a backward request. A server without prompts leaves their gradients out. -/
def BackwardState.answer (B : Blocks H G P Q) (prompts : List P) (st : BackwardState H G Q)
    (inputs : H) (span : Span) : BackwardState H G Q :=
  let (gradOutputs, gradPrompts) :=
    rpcBackward B (requestedBlocks span (slice prompts span)) inputs st.gradOutputs
  { st with
    current := none
    gradOutputs
    gradPromptsReversed :=
      st.gradPromptsReversed ++ if gradPrompts = [] then [] else [gradPrompts] }

/-- The two loops of `sequential_backward`. -/
def backwardLoop (cfg : Config) (B : Blocks H G P Q) (prompts : List P) :
    List BackwardAttempt → BackwardState H G Q → Except Error (G × Option (List Q))
  | [], st => if st.next.isSome then .error .pending else .ok st.result
  | a :: attempts, st =>
    match st.next with
    | none => .ok st.result
    | some (st, attemptNo, inputs, span) =>
      let recovered := if attemptNo = 0 then some (st, inputs, span)
        else st.recover cfg B prompts a.forward inputs span
      match recovered, a.answered with
      | some (st, inputs, span), true =>
        backwardLoop cfg B prompts attempts (st.answer B prompts inputs span)
      | recovered, _ =>
        if cfg.maxRetries = some (attemptNo + 1) then .error .retriesExhausted
        else
          let (st, inputs, span) := recovered.getD (st, inputs, span)
          backwardLoop cfg B prompts attempts
            { st with current := some (attemptNo + 1, inputs, span) }

def sequentialBackward (cfg : Config) (B : Blocks H G P Q) (attempts : List BackwardAttempt)
    (gradOutputs : G) (intermediateInputs : List H) (prompts : List P)
    (forwardSequences : List Span) : Except Error (G × Option (List Q)) :=
  if intermediateInputs.length = forwardSequences.length then
    backwardLoop cfg B prompts attempts
      ⟨intermediateInputs, forwardSequences, none, gradOutputs, []⟩
  else .error .assertion

/-! ### Prompts on a server -/

section

variable {R : Type} {seqLen promptLen hidden : ℕ}

/-- `hidden_states[:, : prompt.shape[1]] += prompt`, in one row. A longer prompt raises. -/
def addPrompt [Add R] (prompt : Fin promptLen × Fin hidden → R) (h : Fin seqLen × Fin hidden → R) :
    Fin seqLen × Fin hidden → R :=
  fun x => if hx : x.1 < promptLen then h x + prompt (⟨x.1, hx⟩, x.2) else h x

/-- `grad_outputs[:, : prompt.shape[1]]`, in one row. -/
def slicePrompt (hle : promptLen ≤ seqLen) (grad : Fin seqLen × Fin hidden → R) :
    Fin promptLen × Fin hidden → R :=
  fun x => grad (Fin.castLE hle x.1, x.2)

end

/-- The modules of the backends as `run_rpc_forward` and `run_rpc_backward` use them: each runs, and
is differentiated, where its prompt is added to the input. -/
def serverBlocks (add : P → H → H) (slice : G → Q) (forward : ℕ → H → H)
    (backward : ℕ → H → G → G) : Blocks H G P Q where
  forward i prompt h := forward i (prompt.elim h fun p => add p h)
  backward i prompt h grad := backward i (prompt.elim h fun p => add p h) grad
  gradPrompt _ grad := slice grad

/-! ### The autograd function -/

/-- Blocks on the rows of a batch, each by itself and with its own prompt. -/
def Blocks.batched (B : Blocks H G P Q) : Blocks (List H) (List G) (List P) (List Q) where
  forward i prompts rows := rows.mapIdx fun r h => B.forward i (prompts.bind fun ps => ps[r]?) h
  backward i prompts rows grads := (rows.zip grads).mapIdx fun r x =>
    B.backward i (prompts.bind fun ps => ps[r]?) x.1 x.2
  gradPrompt prompts grads := List.zipWith B.gradPrompt prompts grads

def maxTokensInBatch : ℕ := 1024

/-- The part of `tensor.split(size)` with this index. -/
def part {α : Type} (size k : ℕ) (rows : List α) : List α := (rows.drop (k * size)).take size

/-- How many parts `tensor.split(size)` has: a tensor without rows is one. -/
def numParts (size length : ℕ) : ℕ := max ((length + size - 1) / size) 1

/-- `inputs.split(size)`. -/
def splitInputs {α : Type} (size : ℕ) (rows : List α) : List (List α) :=
  (List.range (numParts size rows.length)).map fun k => part size k rows

/-- `prompts.split(size, dim=1)`: the rows of every block. -/
def splitPrompts (size : ℕ) (prompts : List (List P)) : List (List (List P)) :=
  (List.range (numParts size (prompts.head?.getD []).length)).map fun k =>
    prompts.map (part size k)

/-- `prompts is None or is_dummy(prompts)`. -/
def isDummy (prompts : List (List P)) : Bool := prompts.flatten.isEmpty

/-- What `forward` leaves for `backward`. -/
structure Ctx (H P : Type) where
  promptBatches : List (List (List P))
  intermediateInputBatches : List (List (List H))
  sequencesForBatches : List (List Span)

inductive AutogradError where
  /-- `MAX_TOKENS_IN_BATCH // inputs.shape[1]`. -/
  | zeroDivision
  | assertion
  /-- What a batch raises. -/
  | batch (e : Error)
  deriving DecidableEq, Repr

/-- `max(MAX_TOKENS_IN_BATCH // shape[1], 1)`. -/
def batchSize (seqLen : ℕ) : Except AutogradError ℕ :=
  if seqLen = 0 then .error .zeroDivision else .ok (max (maxTokensInBatch / seqLen) 1)

/-- `_gather_forward`: each batch fails and is routed by itself. -/
def gatherForward (cfg : Config) (B : Blocks (List H) G (List P) Q) (attempts : ℕ → List Attempt)
    (inputBatches : List (List H)) (promptBatches : List (List (List P))) :
    Except AutogradError (List (Forwarded (List H))) :=
  (inputBatches.zip promptBatches).zipIdx.mapM fun x =>
    (sequentialForward cfg B (attempts x.2) x.1.1 x.1.2 0 none).mapError .batch

/-- `_RemoteSequentialAutogradFunction.forward`. -/
def autogradForward (cfg : Config) (B : Blocks (List H) G (List P) Q)
    (attempts : ℕ → List Attempt) (seqLen : ℕ) (inputs : List H) (prompts : List (List P)) :
    Except AutogradError (List H × Ctx H P) := do
  let batchSize ← batchSize seqLen
  let inputBatches := splitInputs batchSize inputs
  let promptBatches := if isDummy prompts then List.replicate inputBatches.length []
    else splitPrompts batchSize prompts
  let outputs ← gatherForward cfg B attempts inputBatches promptBatches
  if outputs.length = inputBatches.length then
    .ok (outputs.flatMap Forwarded.outputs,
      { promptBatches
        intermediateInputBatches := outputs.map Forwarded.intermediateInputs
        sequencesForBatches := outputs.map Forwarded.doneSequences })
  else .error .assertion

def gatherBackward (cfg : Config) (B : Blocks (List H) (List G) (List P) (List Q))
    (attempts : ℕ → List BackwardAttempt) (gradOutputBatches : List (List G))
    (intermediateInputBatches : List (List (List H))) (promptBatches : List (List (List P)))
    (forwardSequences : List (List Span)) :
    Except AutogradError (List (List G × Option (List (List Q)))) :=
  (gradOutputBatches.zip (intermediateInputBatches.zip
    (promptBatches.zip forwardSequences))).zipIdx.mapM fun x =>
      (sequentialBackward cfg B (attempts x.2) x.1.1 x.1.2.1 x.1.2.2.1 x.1.2.2.2).mapError .batch

/-- `torch.cat(parts, dim=1)`: the rows of every block. -/
def catRows {α : Type} (parts : List (List (List α))) : List (List α) :=
  (List.range (parts.head?.getD []).length).map fun b => parts.flatMap fun rows => rows.getD b []

/-- `_RemoteSequentialAutogradFunction.backward`, with what it leaves of `ctx`: the spans of every
batch are popped from the lists that `ctx` holds. -/
def autogradBackward (cfg : Config) (B : Blocks (List H) (List G) (List P) (List Q))
    (attempts : ℕ → List BackwardAttempt) (ctx : Ctx H P) (seqLen : ℕ) (gradOutputs : List G) :
    Except AutogradError ((List G × Option (List (List Q))) × Ctx H P) := do
  let batchSize ← batchSize seqLen
  let gradOutputBatches := splitInputs batchSize gradOutputs
  if ctx.intermediateInputBatches.length = gradOutputBatches.length ∧
      gradOutputBatches.length = ctx.sequencesForBatches.length then
    let outputs ← gatherBackward cfg B attempts gradOutputBatches ctx.intermediateInputBatches
      ctx.promptBatches ctx.sequencesForBatches
    let gradPrompts := if outputs.any fun o => o.2.isNone then none
      else some (catRows (outputs.map fun o => o.2.getD []))
    .ok ((outputs.flatMap Prod.fst, gradPrompts),
      { ctx with sequencesForBatches := ctx.sequencesForBatches.map fun _ => [] })
  else .error .assertion

end BloomBee.SequentialAutograd
