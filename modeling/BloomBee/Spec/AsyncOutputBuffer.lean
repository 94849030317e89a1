import BloomBee.Lib.Runs

/-! `AsyncOutputBuffer` of `utils/pipeline_timing.py`, from `start_sender` on. The producers, the
sender task and the calls of `flush` and `stop` take their steps in any order; a step goes from
one `await` to the next or less. The queue is that of asyncio: items in the order they are
stored, puts that wait while it is full, and the number of unfinished tasks that `join` waits
for. -/

set_option autoImplicit false

namespace BloomBee.AsyncOutputBuffer

/-- What becomes of a call of `push_fn`. -/
inductive Outcome (ε : Type) where
  | sent
  | failed (error : ε)
  /-- The sender is cancelled in the middle of it. -/
  | cancelled
  deriving DecidableEq, Repr

inductive Sender (α : Type) where
  /-- At the condition of its loop. -/
  | looping
  /-- In `wait_for(self._queue.get(), 0.1)`. -/
  | getting
  | pushing (item : α)
  | ended
  deriving DecidableEq, Repr

inductive Kind where
  | flush
  | stop (raiseOnError : Bool)
  deriving DecidableEq, Repr

inductive Phase where
  /-- In `self._queue.join()`. -/
  | joining
  /-- `join` was woken, or had nothing to wait for. -/
  | joined
  /-- `stop` has cancelled the sender and waits for it. -/
  | cancelling
  /-- With whether it raises, and how many calls of `push_fn` have ended. -/
  | returned (raised : Bool) (attempted : ℕ)
  deriving DecidableEq, Repr

/-- A call of `flush` or `stop`, with how many puts were completed before it. -/
structure Call where
  kind : Kind
  completedBefore : ℕ
  phase : Phase
  deriving DecidableEq, Repr

def Call.wake (call : Call) : Call :=
  match call.phase with
  | .joining => { call with phase := .joined }
  | _ => call

structure State (α ε : Type) where
  maxPending : ℕ
  queue : List α
  unfinished : ℕ
  /-- The items of the puts that wait for space. -/
  waiting : List α
  running : Bool
  sender : Sender α
  firstError : Option ε
  calls : List Call
  /-- The items of completed puts. -/
  completed : List α
  /-- The calls of `push_fn` that have ended. -/
  attempts : List (α × Outcome ε)
  deriving DecidableEq, Repr

variable {α ε : Type}

def init (maxPending : ℕ) : State α ε where
  maxPending
  queue := []
  unfinished := 0
  waiting := []
  running := true
  sender := .looping
  firstError := none
  calls := []
  completed := []
  attempts := []

namespace State

/-- `self._queue.full()`; a queue of size 0 is unbounded. -/
def full (s : State α ε) : Bool := 0 < s.maxPending && s.maxPending ≤ s.queue.length

/-- `put_nowait`, with which a put is completed. -/
def store (s : State α ε) (item : α) : State α ε :=
  { s with
    queue := s.queue ++ [item]
    unfinished := s.unfinished + 1
    completed := s.completed ++ [item] }

/-- `task_done` after a call of `push_fn`: the last one wakes those in `join`. -/
def taskDone (s : State α ε) (item : α) (outcome : Outcome ε) : State α ε :=
  { s with
    unfinished := s.unfinished - 1
    attempts := s.attempts ++ [(item, outcome)]
    calls := if s.unfinished - 1 = 0 then s.calls.map Call.wake else s.calls }

def beginCall (s : State α ε) (kind : Kind) : State α ε :=
  { s with calls := s.calls ++
      [⟨kind, s.completed.length, if s.unfinished = 0 then .joined else .joining⟩] }

def setPhase (s : State α ε) (i : ℕ) (call : Call) (phase : Phase) : State α ε :=
  { s with calls := s.calls.set i { call with phase } }

end State

inductive Event (α ε : Type) where
  /-- A call of `put`. -/
  | put (item : α)
  /-- A put that waits finds space; which one is left open. -/
  | resume (i : ℕ)
  /-- The sender at its loop condition. -/
  | loop
  | timeout
  | get
  | sent
  | failed (error : ε)
  | flush
  | stop (raiseOnError : Bool)
  /-- The rest of `flush`, or `stop` up to `await self._send_task`. -/
  | joined (i : ℕ)
  /-- The cancelled sender ends and `stop` returns. -/
  | stopped (i : ℕ)
  deriving DecidableEq, Repr

/-- `put` raises where the buffer does not run or a send has failed. -/
def put (s : State α ε) (item : α) : State α ε :=
  if s.running = false then s
  else if s.firstError.isSome then s
  else if s.full then { s with waiting := s.waiting ++ [item] }
  else s.store item

def step (s : State α ε) : Event α ε → Option (State α ε)
  | .put item => some (put s item)
  | .resume i =>
    match s.waiting[i]? with
    | some item =>
      if s.full then none else some ({ s with waiting := s.waiting.eraseIdx i }.store item)
    | none => none
  | .loop =>
    match s.sender with
    | .looping => some { s with sender := if s.running ∨ s.queue ≠ [] then .getting else .ended }
    | _ => none
  | .timeout =>
    match s.sender with
    | .getting => some { s with sender := .looping }
    | _ => none
  | .get =>
    match s.sender, s.queue with
    | .getting, item :: queue => some { s with queue, sender := .pushing item }
    | _, _ => none
  | .sent =>
    match s.sender with
    | .pushing item => some { s.taskDone item .sent with sender := .looping }
    | _ => none
  | .failed error =>
    match s.sender with
    | .pushing item =>
      some
        { s.taskDone item (.failed error) with
          sender := .looping
          firstError := s.firstError.or (some error) }
    | _ => none
  | .flush => some (s.beginCall .flush)
  | .stop raiseOnError =>
    if s.running then some ({ s with running := false }.beginCall (.stop raiseOnError)) else none
  | .joined i =>
    match s.calls[i]? with
    | some call =>
      if call.phase = .joined then
        match call.kind with
        | .flush =>
          some (s.setPhase i call (.returned s.firstError.isSome s.attempts.length))
        | .stop _ => some (s.setPhase i call .cancelling)
      else none
    | none => none
  | .stopped i =>
    match s.calls[i]? with
    | some call =>
      match call.phase, call.kind with
      | .cancelling, .stop raiseOnError =>
        let s := match s.sender with
          | .pushing item => s.taskDone item .cancelled
          | _ => s
        some
          { s.setPhase i call (.returned (raiseOnError && s.firstError.isSome) s.attempts.length) with
            sender := .ended }
      | _, _ => none
    | none => none

end BloomBee.AsyncOutputBuffer
