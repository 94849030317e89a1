import Mathlib.Data.Finset.Basic
import Mathlib.Data.Int.Notation
import Mathlib.Data.List.Sort
import BloomBee.Lib.Loop
import BloomBee.Lib.OrderedDict

/-! `LiveContinuousDecodeLoop.run` of `client/live_continuous_batching.py`. `step_batch` is a
parameter: a function of its calls so far and of the rows of this one. -/

set_option autoImplicit false

namespace BloomBee.LiveDecodeLoop

open Loop

inductive Error where
  /-- "duplicate request_id: {request_id}" -/
  | duplicateRequestId (requestId : String)
  /-- "step_batch output length must match row count" -/
  | outputLength
  | keyError
  | indexError
  deriving DecidableEq, Repr

structure LiveDecodeRequest where
  requestId : String
  inputTokenIds : List ℤ
  targetTokenIds : List ℤ
  arrivalTick : ℕ
  inputTokenIds_ne_nil : inputTokenIds ≠ []

structure LiveDecodeRow where
  requestId : String
  tick : ℕ
  position : ℕ
  inputTokenId : ℤ
  deriving DecidableEq, Repr

inductive Outputs where
  | mapping (outputs : OrderedDict String ℤ)
  | sequence (outputs : List ℤ)

abbrev StepBatch := List (List LiveDecodeRow) → List LiveDecodeRow → Outputs

structure RequestState where
  request : LiveDecodeRequest
  position : ℕ
  generated : List ℤ

structure TimelineEntry where
  tick : ℕ
  requestIds : List String
  positions : List ℕ
  inputTokenIds : List ℤ
  outputTokenIds : List ℤ
  finishedRequestIds : List String
  deriving DecidableEq, Repr

structure State where
  pending : List LiveDecodeRequest
  state : OrderedDict String RequestState
  active : List String
  activeSet : Finset String
  completed : List String
  timeline : List TimelineEntry
  tick : ℕ
  /-- The calls of `step_batch` so far. -/
  calls : List (List LiveDecodeRow)

structure LiveContinuousDecodeLoop where
  maxBatchSize : ℕ
  one_le_maxBatchSize : 1 ≤ maxBatchSize

def validateRequests : List String → List LiveDecodeRequest → Except Error Unit
  | _, [] => .ok ()
  | seen, request :: requests =>
    if request.requestId ∈ seen then .error (.duplicateRequestId request.requestId)
    else validateRequests (request.requestId :: seen) requests

def initState (requests : List LiveDecodeRequest) : State :=
  let pending := requests.mergeSort fun r s => decide (r.arrivalTick ≤ s.arrivalTick)
  { pending
    state := requests.foldl (fun d r => d.set r.requestId ⟨r, 0, []⟩) .empty
    active := []
    activeSet := ∅
    completed := []
    timeline := []
    tick := (pending.head?.map fun r => r.arrivalTick).getD 0
    calls := [] }

/-- The requests that have arrived; one without targets is completed at once. -/
def admitLoop : List LiveDecodeRequest → State → State
  | [], s => { s with pending := [] }
  | request :: pending, s =>
    if request.arrivalTick ≤ s.tick then
      if request.targetTokenIds = [] then
        admitLoop pending { s with completed := s.completed ++ [request.requestId] }
      else
        admitLoop pending
          { s with
            active := s.active ++ [request.requestId]
            activeSet := insert request.requestId s.activeSet }
    else { s with pending := request :: pending }

def admitArrived (s : State) : State := admitLoop s.pending s

def takeBatch : ℕ → State → Except Error (List String × State)
  | 0, s => .ok ([], s)
  | n + 1, s =>
    match s.active with
    | [] => .ok ([], s)
    | requestId :: active =>
      if requestId ∈ s.activeSet then do
        let (batchIds, s) ← takeBatch n
          { s with active, activeSet := s.activeSet.erase requestId }
        return (requestId :: batchIds, s)
      else .error .keyError

def makeRow (s : State) (requestId : String) : Except Error LiveDecodeRow :=
  match s.state.get? requestId with
  | none => .error .keyError
  | some requestState =>
    if requestState.position = 0 then
      .ok ⟨requestId, s.tick, 0,
        requestState.request.inputTokenIds.getLast requestState.request.inputTokenIds_ne_nil⟩
    else match requestState.generated.getLast? with
      | none => .error .indexError
      | some token => .ok ⟨requestId, s.tick, requestState.position, token⟩

def normalizeOutputs (rows : List LiveDecodeRow) :
    Outputs → Except Error (OrderedDict String ℤ)
  | .mapping outputs => do
    let items ← rows.mapM fun row =>
      match outputs.get? row.requestId with
      | none => .error .keyError
      | some token => .ok (row.requestId, token)
    return items.foldl (fun d item => d.set item.1 item.2) .empty
  | .sequence outputs =>
    if outputs.length ≠ rows.length then .error .outputLength
    else .ok ((rows.zip outputs).foldl (fun d item => d.set item.1.requestId item.2) .empty)

structure Collected where
  state : OrderedDict String RequestState
  completed : List String
  finished : List String
  requeue : List String
  outputTokenIds : List ℤ

def collectRow (outputByRequest : OrderedDict String ℤ) (c : Collected) (row : LiveDecodeRow) :
    Except Error Collected :=
  match c.state.get? row.requestId, outputByRequest.get? row.requestId with
  | some requestState, some nextToken =>
    let c := { c with
      outputTokenIds := c.outputTokenIds ++ [nextToken]
      state := c.state.set row.requestId
        ⟨requestState.request, row.position + 1, requestState.generated ++ [nextToken]⟩ }
    if requestState.request.targetTokenIds.length ≤ row.position + 1 then
      .ok { c with
        finished := c.finished ++ [row.requestId]
        completed := c.completed ++ [row.requestId] }
    else .ok { c with requeue := c.requeue ++ [row.requestId] }
  | _, _ => .error .keyError

def requeueId (s : State) (requestId : String) : State :=
  if requestId ∈ s.activeSet then s
  else { s with active := s.active ++ [requestId], activeSet := insert requestId s.activeSet }

def stepTick (loop : LiveContinuousDecodeLoop) (stepBatch : StepBatch) (s : State) :
    Except Error State := do
  let (batchIds, s) ← takeBatch loop.maxBatchSize s
  let rows ← batchIds.mapM (makeRow s)
  let outputByRequest ← normalizeOutputs rows (stepBatch s.calls rows)
  let c ← rows.foldlM (collectRow outputByRequest) ⟨s.state, s.completed, [], [], []⟩
  let s := c.requeue.foldl requeueId s
  return { s with
    state := c.state
    completed := c.completed
    timeline := s.timeline ++
      [⟨s.tick, rows.map fun row => row.requestId, rows.map fun row => row.position,
        rows.map fun row => row.inputTokenId, c.outputTokenIds, c.finished⟩]
    tick := s.tick + 1
    calls := s.calls ++ [rows] }

def turn (loop : LiveContinuousDecodeLoop) (stepBatch : StepBatch) (s : State) :
    Turn State Error :=
  if s.pending = [] ∧ s.active = [] then .stop s
  else
    let s := admitArrived s
    if s.active = [] then
      match s.pending with
      | request :: _ => .next { s with tick := max (s.tick + 1) request.arrivalTick }
      | [] => .stop s
    else match stepTick loop stepBatch s with
      | .ok s => .next s
      | .error error => .raise error

structure Report where
  requestCount : ℕ
  maxBatchSize : ℕ
  timeline : List TimelineEntry
  outputsByRequest : OrderedDict String (List ℤ)
  expectedByRequest : OrderedDict String (List ℤ)
  completedRequestIds : List String
  /-- "passed". -/
  verificationPassed : Bool

def makeReport (loop : LiveContinuousDecodeLoop) (requests : List LiveDecodeRequest) (s : State) :
    Report :=
  let outputs := requests.foldl (fun d r => d.set r.requestId
    ((s.state.get? r.requestId).elim [] fun requestState => requestState.generated)) .empty
  let expected := requests.foldl (fun d r => d.set r.requestId r.targetTokenIds) .empty
  { requestCount := requests.length
    maxBatchSize := loop.maxBatchSize
    timeline := s.timeline
    outputsByRequest := outputs
    expectedByRequest := expected
    completedRequestIds := s.completed
    -- both dictionaries have the keys of the requests, in the same order
    verificationPassed := decide (outputs.entries = expected.entries) &&
      decide (s.completed.length = requests.length) }

/-- `none` when the turns of the loop run out. -/
def run (loop : LiveContinuousDecodeLoop) (stepBatch : StepBatch)
    (requests : List LiveDecodeRequest) (fuel : ℕ) : Option (Except Error Report) :=
  match validateRequests [] requests with
  | .error error => some (.error error)
  | .ok _ => (Loop.run (turn loop stepBatch) fuel (initState requests)).map fun result => do
    let s ← result
    return makeReport loop requests s

end BloomBee.LiveDecodeLoop
