import Mathlib.Algebra.BigOperators.Group.List.Defs
import Mathlib.Algebra.Order.Ring.Rat
import Mathlib.Algebra.Ring.Nat
import Mathlib.Data.Prod.Lex
import Mathlib.Order.WithBot
import BloomBee.Lib.OrderedDict
import BloomBee.Lib.Runs

/-! The calls of `PrioritizedTaskPool` in `server/task_pool.py`, taken apart: what a call does to a
queue, a dictionary, the pipe or a future is a step of its own, and the calls interleave as they
may. A `load_batch_to_runtime` that finds no task in time changes nothing and is left out. -/

set_option autoImplicit false

namespace BloomBee.TaskPoolCalls

/-- `torch.device`, its index resolved. -/
inductive Device where
  | cpu
  | cuda (index : ℕ)
  | other (name : String)
  deriving DecidableEq, Repr

structure Tensor (V : Type) where
  device : Device
  shape : List ℕ
  elementSize : ℕ
  data : V
  deriving DecidableEq, Repr

variable {V ε : Type}

/-- `numel() * element_size()`. -/
def Tensor.bytes (t : Tensor V) : ℕ := t.shape.prod * t.elementSize

/-- An argument or an output. A value of a dictionary is a number or anything else. -/
inductive Value (V : Type) where
  | tensor (t : Tensor V)
  | dict (d : OrderedDict String (ℚ ⊕ V))
  | other (v : V)

def moveToDeviceIfTensor (device : Device) : Value V → Value V
  | .tensor t => .tensor { t with device }
  | value => value

def estimateTensorBytes (values : List (Value V)) : ℕ :=
  (values.map fun
    | .tensor t => t.bytes
    | _ => 0).sum

structure Task (V : Type) where
  priority : ℚ
  timeSubmitted : ℚ
  /-- The `_uid` of the future. -/
  uid : ℕ
  args : List (Value V)

def Task.key (task : Task V) : ℚ ×ₗ ℚ := toLex (task.priority, task.timeSubmitted)

/-- `get_task_size`; `none` is the `AttributeError` of a first argument without `ndim`. -/
def getTaskSize (args : List (Value V)) : Option ℕ :=
  match args with
  | [] => some 1
  | .tensor t :: _ =>
    match t.shape with
    | batch :: tokens :: _ => some (batch * tokens)
    | _ => some 1
  | _ :: _ => none

structure RuntimeTiming where
  tCpu2gpuMs : ℚ := 0
  tGpu2gpuMs : ℚ := 0
  inputBytes : ℚ := 0
  gpu2gpuBytes : ℚ := 0
  deriving DecidableEq, Repr

/-- One tensor was moved in `transferMs`. -/
def RuntimeTiming.add (timing : RuntimeTiming) (src dst : Device) (transferMs bytes : ℚ) :
    RuntimeTiming :=
  if src = dst then timing
  else match src, dst with
    | .cpu, .cuda _ =>
      { timing with
        tCpu2gpuMs := timing.tCpu2gpuMs + transferMs
        inputBytes := timing.inputBytes + bytes }
    | .cuda _, .cuda _ =>
      { timing with
        tGpu2gpuMs := timing.tGpu2gpuMs + transferMs
        gpu2gpuBytes := timing.gpu2gpuBytes + bytes }
    | _, _ => timing

/-- The loop over `task.args`; `transferMs` are the measured times. -/
def moveInputs (device : Option Device) :
    List (Value V) → List ℚ → RuntimeTiming → List (Value V) × RuntimeTiming
  | [], _, timing => ([], timing)
  | .tensor t :: args, transferMs, timing =>
    let moved := device.elim t fun device => { t with device }
    let (inputs, timing) := moveInputs device args transferMs.tail
      (timing.add t.device moved.device (transferMs.head?.getD 0) t.bytes)
    (.tensor moved :: inputs, timing)
  | arg :: args, transferMs, timing =>
    let (inputs, timing) := moveInputs device args transferMs timing
    (arg :: inputs, timing)

/-- The entries of `runtime_timing` as the outputs are sent; what a load measured may be missing. -/
def RuntimeTiming.entries (timing : Option RuntimeTiming) (tGpu2cpuMs outputBytes : ℚ) :
    List (String × ℚ) :=
  (timing.elim [] fun timing =>
    [("t_cpu2gpu_ms", timing.tCpu2gpuMs), ("t_gpu2gpu_ms", timing.tGpu2gpuMs),
      ("input_bytes", timing.inputBytes), ("gpu2gpu_bytes", timing.gpu2gpuBytes)]) ++
    [("t_gpu2cpu_ms", tGpu2cpuMs), ("output_bytes", outputBytes), ("runtime_transfer_valid", 1)]

/-- The timing is merged into a dictionary at the end of the outputs, or added there. -/
def withTiming (outputs : List (Value V)) (entries : List (String × ℚ)) : List (Value V) :=
  let merge (d : OrderedDict String (ℚ ⊕ V)) : Value V :=
    .dict (entries.foldl (fun d e => d.set e.1 (.inl e.2)) d)
  match outputs.getLast? with
  | some (.dict d) => outputs.dropLast ++ [merge d]
  | _ => outputs ++ [merge .empty]

inductive Answer (V ε : Type) where
  /-- `send_outputs_from_runtime`, with the measured time. -/
  | outputs (batchOutputs : List (Value V)) (tGpu2cpuMs : ℚ)
  | exception (exception : ε)

inductive Reply (V ε : Type) where
  /-- "Task size greater than max_batch_size ({self.max_batch_size}), it can't be processed", a
  `ValueError`. -/
  | tooLarge (maxBatchSize : ℤ)
  | result (outputs : List (Value V))
  | exception (exception : ε)

/-- `timing` is what was stored for the task. -/
def Answer.reply (trackTransferTiming : Bool) (timing : Option RuntimeTiming) :
    Answer V ε → Reply V ε
  | .outputs batchOutputs tGpu2cpuMs =>
    let outputs := batchOutputs.map (moveToDeviceIfTensor .cpu)
    .result (if trackTransferTiming then
      withTiming outputs (RuntimeTiming.entries timing tGpu2cpuMs (estimateTensorBytes outputs))
    else outputs)
  | .exception e => .exception e

structure Config where
  maxBatchSize : ℤ
  device : Option Device
  trackTransferTiming : Bool

structure Load (V : Type) where
  task : Task V
  inputs : List (Value V)
  timing : RuntimeTiming

inductive Call (V ε : Type) where
  /-- `submit_task` of a task that is too large. -/
  | rejecting (task : Task V)
  | putting (task : Task V)
  | sending (task : Task V)
  | prioritizing (task : Task V)
  /-- `load_batch_to_runtime`, once it has moved the arguments. -/
  | timing (load : Load V)
  | dispatching (load : Load V)
  | receiving (load : Load V)
  | returning (load : Load V)
  /-- `send_outputs_from_runtime` and `send_exception_from_runtime`. -/
  | answering (uid : ℕ) (answer : Answer V ε)
  | popping (uid : ℕ) (reply : Reply V ε)
  | resolving (task : Task V) (reply : Reply V ε)
  | done

/-- The thread of the pool, in `run`. -/
inductive Thread (V : Type) where
  | getting
  | putting (task : Task V)
  | stopped

structure World (V ε : Type) where
  /-- `None` shuts the thread down. -/
  submittedTasks : List (Option (Task V))
  thread : Thread V
  /-- A `PriorityQueue`: only which task comes first matters. -/
  orderedTasks : List (Task V)
  dispatchedTasks : OrderedDict ℕ (Task V)
  runtimeTransferTimings : OrderedDict ℕ RuntimeTiming
  /-- How many messages are in the pipe. -/
  pipe : ℕ
  /-- `⊤` is the pair of infinities. -/
  priority : WithTop (ℚ ×ₗ ℚ)
  /-- The calls of `set_result` and `set_exception`. -/
  futures : List (ℕ × Reply V ε)
  /-- The loads that returned to the runtime and were not answered. -/
  unanswered : List (Load V)
  /-- The tasks of all `submit_task` calls. -/
  submitted : List (Task V)
  /-- The tasks that were entered into `_dispatched_tasks`. -/
  dispatched : List (Task V)
  /-- The loads that returned. -/
  loads : List (Load V)
  answers : List (Load V × Answer V ε)
  /-- "Internal error: task task with index {uid} is missing from the dictionary". -/
  errors : List ℕ

structure State (V ε : Type) where
  world : World V ε
  calls : List (Call V ε)

inductive Event (V ε : Type) where
  | submitTask (uid : ℕ) (priority timeSubmitted : ℚ) (args : List (Value V))
  /-- `load_batch_to_runtime`: which of the first tasks is taken is left open. -/
  | load (i : ℕ) (device : Option Device) (transferMs : List ℚ)
  /-- The runtime answers one of the loads. -/
  | answer (i : ℕ) (answer : Answer V ε)
  /-- A call goes on. -/
  | step (i : ℕ)
  /-- `submitted_tasks.get` of the thread. -/
  | get
  /-- `_ordered_tasks.put` of the thread. -/
  | put
  | shutdown

def least (tasks : List (Task V)) : WithTop (ℚ ×ₗ ℚ) :=
  (tasks.map fun task => (task.key : WithTop (ℚ ×ₗ ℚ))).foldr min ⊤

/-- One step of a call; `none` while it is blocked. -/
def advance (config : Config) (w : World V ε) : Call V ε → Option (World V ε × Call V ε)
  | .rejecting task =>
    some ({ w with futures := w.futures ++ [(task.uid, .tooLarge config.maxBatchSize)] }, .done)
  | .putting task =>
    some ({ w with submittedTasks := w.submittedTasks ++ [some task] }, .sending task)
  | .sending task => some ({ w with pipe := w.pipe + 1 }, .prioritizing task)
  | .prioritizing task =>
    some ({ w with priority :=
      if (task.key : WithTop (ℚ ×ₗ ℚ)) < w.priority then task.key else w.priority }, .done)
  | .timing load =>
    some ({ w with runtimeTransferTimings :=
      if config.trackTransferTiming then w.runtimeTransferTimings.set load.task.uid load.timing
      else w.runtimeTransferTimings }, .dispatching load)
  | .dispatching load =>
    some ({ w with
      dispatchedTasks := w.dispatchedTasks.set load.task.uid load.task
      dispatched := w.dispatched ++ [load.task] }, .receiving load)
  | .receiving load =>
    if w.pipe = 0 then none else some ({ w with pipe := w.pipe - 1 }, .returning load)
  | .returning load =>
    some ({ w with
      priority := if w.orderedTasks = [] then w.priority else least w.orderedTasks
      unanswered := w.unanswered ++ [load]
      loads := w.loads ++ [load] }, .done)
  | .answering uid answer =>
    let reply := answer.reply config.trackTransferTiming (w.runtimeTransferTimings.get? uid)
    match answer with
    | .outputs _ _ =>
      some ({ w with runtimeTransferTimings :=
        if config.trackTransferTiming then w.runtimeTransferTimings.erase uid
        else w.runtimeTransferTimings }, .popping uid reply)
    | .exception _ =>
      some ({ w with runtimeTransferTimings := w.runtimeTransferTimings.erase uid },
        .popping uid reply)
  | .popping uid reply =>
    match w.dispatchedTasks.get? uid with
    | none => some ({ w with errors := w.errors ++ [uid] }, .done)
    | some task =>
      some ({ w with dispatchedTasks := w.dispatchedTasks.erase uid }, .resolving task reply)
  | .resolving task reply =>
    some ({ w with futures := w.futures ++ [(task.uid, reply)] }, .done)
  | .done => none

def step (config : Config) (s : State V ε) : Event V ε → Option (State V ε)
  | .submitTask uid priority timeSubmitted args =>
    -- the exception of `get_task_size` is raised to the caller, who has no future yet
    match getTaskSize args with
    | none => some s
    | some size =>
      let task := ⟨priority, timeSubmitted, uid, args⟩
      let call := if config.maxBatchSize < size then .rejecting task else .putting task
      some ⟨{ s.world with submitted := s.world.submitted ++ [task] }, s.calls ++ [call]⟩
  | .load i device transferMs =>
    match s.world.orderedTasks[i]? with
    | some task =>
      if ∀ other ∈ s.world.orderedTasks, task.key ≤ other.key then
        let (inputs, timing) := moveInputs (device <|> config.device) task.args transferMs {}
        some
          ⟨{ s.world with orderedTasks := s.world.orderedTasks.eraseIdx i },
            s.calls ++ [.timing ⟨task, inputs, timing⟩]⟩
      else none
    | none => none
  | .answer i answer =>
    match s.world.unanswered[i]? with
    | some load =>
      some
        ⟨{ s.world with
            unanswered := s.world.unanswered.eraseIdx i
            answers := s.world.answers ++ [(load, answer)] },
          s.calls ++ [.answering load.task.uid answer]⟩
    | none => none
  | .step i =>
    match s.calls[i]? with
    | some call => (advance config s.world call).map fun (w, call) => ⟨w, s.calls.set i call⟩
    | none => none
  | .get =>
    match s.world.thread, s.world.submittedTasks with
    | .getting, some task :: submittedTasks =>
      some { s with world := { s.world with submittedTasks, thread := .putting task } }
    | .getting, none :: submittedTasks =>
      some { s with world := { s.world with submittedTasks, thread := .stopped } }
    | _, _ => none
  | .put =>
    match s.world.thread with
    | .putting task =>
      some { s with world :=
        { s.world with orderedTasks := s.world.orderedTasks ++ [task], thread := .getting } }
    | _ => none
  | .shutdown =>
    some { s with world := { s.world with submittedTasks := s.world.submittedTasks ++ [none] } }

def start : State V ε :=
  ⟨⟨[], .getting, [], .empty, .empty, 0, ⊤, [], [], [], [], [], [], []⟩, []⟩

def World.empty (w : World V ε) : Bool := decide (w.pipe = 0)

end BloomBee.TaskPoolCalls
