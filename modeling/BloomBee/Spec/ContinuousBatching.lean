import Mathlib.Algebra.Ring.Nat
import BloomBee.Spec.LiveDecodeLoop

/-! `simulate_continuous_decode` of `mvp_capabilities/continuous_batching.py`: the schedule of the
continuous loop, worked out from the target tokens without a step function. A row of its timeline
has the keys of a row of the live loop's. -/

set_option autoImplicit false

namespace BloomBee.ContinuousBatching

open Loop
open LiveDecodeLoop (TimelineEntry)

inductive Error where
  /-- "max_batch_size must be positive" -/
  | maxBatchSize
  /-- "duplicate request_id: {request_id}" -/
  | duplicateRequestId (requestId : String)
  | keyError
  | indexError
  deriving DecidableEq, Repr

structure DecodeRequest where
  requestId : String
  promptTokenIds : List ℤ
  targetTokenIds : List ℤ
  arrivalTick : ℕ
  promptTokenIds_ne_nil : promptTokenIds ≠ []

structure RequestState where
  request : DecodeRequest
  position : ℕ
  generated : List ℤ

structure State where
  pending : List DecodeRequest
  state : OrderedDict String RequestState
  active : List String
  activeSet : Finset String
  completed : List String
  timeline : List TimelineEntry
  tick : ℕ

def validateRequests : List String → List DecodeRequest → Except Error Unit
  | _, [] => .ok ()
  | seen, request :: requests =>
    if request.requestId ∈ seen then .error (.duplicateRequestId request.requestId)
    else validateRequests (request.requestId :: seen) requests

def initState (requests : List DecodeRequest) : State :=
  let pending := requests.mergeSort fun r s => decide (r.arrivalTick ≤ s.arrivalTick)
  { pending
    state := requests.foldl (fun d r => d.set r.requestId ⟨r, 0, []⟩) .empty
    active := []
    activeSet := ∅
    completed := []
    timeline := []
    tick := (pending.head?.map fun r => r.arrivalTick).getD 0 }

/-- The requests that have arrived; one without targets is completed at once. -/
def admitLoop : List DecodeRequest → State → State
  | [], s => { s with pending := [] }
  | request :: pending, s =>
    if request.arrivalTick ≤ s.tick then
      if request.targetTokenIds.length = 0 then
        admitLoop pending { s with completed := s.completed ++ [request.requestId] }
      else
        admitLoop pending
          { s with
            active := s.active ++ [request.requestId]
            activeSet := insert request.requestId s.activeSet }
    else { s with pending := request :: pending }

def takeBatch : ℕ → State → Except Error (List String × State)
  | 0, s => .ok ([], s)
  | n + 1, s =>
    match s.active with
    | [] => .ok ([], s)
    | requestId :: active =>
      if requestId ∈ s.activeSet then do
        let (batchRequestIds, s) ← takeBatch n
          { s with active, activeSet := s.activeSet.erase requestId }
        return (requestId :: batchRequestIds, s)
      else .error .keyError

structure Served where
  state : OrderedDict String RequestState
  completed : List String
  positions : List ℕ
  inputTokenIds : List ℤ
  outputTokenIds : List ℤ
  finishedRequestIds : List String
  requeue : List String

/-- The input of the next step: the last prompt token at first, then the last one generated. -/
def RequestState.inputTokenId (requestState : RequestState) : Option ℤ :=
  if requestState.position = 0 then
    some (requestState.request.promptTokenIds.getLast requestState.request.promptTokenIds_ne_nil)
  else requestState.generated.getLast?

def serveRequest (b : Served) (requestId : String) : Except Error Served :=
  match b.state.get? requestId with
  | none => .error .keyError
  | some requestState =>
    let position := requestState.position
    let targets := requestState.request.targetTokenIds
    match requestState.inputTokenId, targets[position]? with
    | some inputTokenId, some nextToken =>
      let b := { b with
        positions := b.positions ++ [position]
        inputTokenIds := b.inputTokenIds ++ [inputTokenId]
        outputTokenIds := b.outputTokenIds ++ [nextToken]
        state := b.state.set requestId
          ⟨requestState.request, position + 1, requestState.generated ++ [nextToken]⟩ }
      if targets.length ≤ position + 1 then
        .ok { b with
          finishedRequestIds := b.finishedRequestIds ++ [requestId]
          completed := b.completed ++ [requestId] }
      else .ok { b with requeue := b.requeue ++ [requestId] }
    | _, _ => .error .indexError

def requeueId (s : State) (requestId : String) : State :=
  if requestId ∈ s.activeSet then s
  else { s with active := s.active ++ [requestId], activeSet := insert requestId s.activeSet }

def stepTick (maxBatch : ℕ) (s : State) : Except Error State := do
  let (batchRequestIds, s) ← takeBatch maxBatch s
  let b ← batchRequestIds.foldlM serveRequest ⟨s.state, s.completed, [], [], [], [], []⟩
  let s := b.requeue.foldl requeueId s
  return { s with
    state := b.state
    completed := b.completed
    timeline := s.timeline ++
      [⟨s.tick, batchRequestIds, b.positions, b.inputTokenIds, b.outputTokenIds,
        b.finishedRequestIds⟩]
    tick := s.tick + 1 }

def turn (maxBatch : ℕ) (s : State) : Turn State Error :=
  if s.pending = [] ∧ s.active = [] then .stop s
  else
    let s := admitLoop s.pending s
    if s.active = [] then
      match s.pending with
      | request :: _ => .next { s with tick := max (s.tick + 1) request.arrivalTick }
      | [] => .stop s
    else match stepTick maxBatch s with
      | .ok s => .next s
      | .error error => .raise error

structure Report where
  requestCount : ℕ
  maxBatchSize : ℕ
  totalDecodeBatches : ℕ
  serialDecodeBatches : ℕ
  timeline : List TimelineEntry
  outputsByRequest : OrderedDict String (List ℤ)
  expectedByRequest : OrderedDict String (List ℤ)
  completedRequestIds : List String
  /-- "passed". -/
  verificationPassed : Bool

def makeReport (maxBatch : ℕ) (requests : List DecodeRequest) (s : State) : Report :=
  let outputs := requests.foldl (fun d r => d.set r.requestId
    ((s.state.get? r.requestId).elim [] fun requestState => requestState.generated)) .empty
  let expected := requests.foldl (fun d r => d.set r.requestId r.targetTokenIds) .empty
  { requestCount := requests.length
    maxBatchSize := maxBatch
    totalDecodeBatches := s.timeline.length
    serialDecodeBatches := (requests.map fun r => r.targetTokenIds.length).sum
    timeline := s.timeline
    outputsByRequest := outputs
    expectedByRequest := expected
    completedRequestIds := s.completed
    -- both dictionaries have the keys of the requests, in the same order
    verificationPassed := decide (outputs.entries = expected.entries) &&
      decide (s.completed.length = requests.length) }

/-- `none` when the turns of the loop run out. -/
def simulateContinuousDecode (requests : List DecodeRequest) (maxBatchSize : ℤ) (fuel : ℕ) :
    Option (Except Error Report) :=
  if maxBatchSize < 1 then some (.error .maxBatchSize)
  else match validateRequests [] requests with
    | .error error => some (.error error)
    | .ok _ =>
      (Loop.run (turn maxBatchSize.toNat) fuel (initState requests)).map fun result => do
        let s ← result
        return makeReport maxBatchSize.toNat requests s

end BloomBee.ContinuousBatching

namespace BloomBee.LiveDecodeLoop

/-- `LiveContinuousDecodeLoop.__init__`: "max_batch_size must be positive". -/
def LiveContinuousDecodeLoop.init (maxBatchSize : ℤ) :
    Except ContinuousBatching.Error LiveContinuousDecodeLoop :=
  if h : maxBatchSize < 1 then .error .maxBatchSize
  else .ok ⟨maxBatchSize.toNat, by omega⟩

end BloomBee.LiveDecodeLoop
