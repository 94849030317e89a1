import Mathlib.Algebra.Order.Ring.Rat
import Mathlib.Data.List.Basic
import Mathlib.Data.Prod.Lex
import Mathlib.Order.WithBot
import BloomBee.Lib.Runs

/-! `PrioritizedTaskPool` of `server/task_pool.py`: the handlers submit tasks, the thread of the
pool moves them to the ordered queue, and the runtime loads the first of these. A call is one
step; pairs of times and priorities are compared from the left. -/

set_option autoImplicit false

namespace BloomBee.TaskPool

structure Task where
  priority : ℚ
  timeSubmitted : ℚ
  /-- The first two dimensions of the first argument, if it has these. -/
  shape : Option (ℕ × ℕ)
  deriving DecidableEq

def Task.key (task : Task) : ℚ ×ₗ ℚ := toLex (task.priority, task.timeSubmitted)

def getTaskSize (task : Task) : ℕ :=
  match task.shape with
  | some (batch, tokens) => batch * tokens
  | none => 1

structure Pool where
  maxBatchSize : ℕ
  submittedTasks : List Task
  /-- A `PriorityQueue`: only which task comes first matters. -/
  orderedTasks : List Task
  /-- `⊤` is the pair of infinities. -/
  priority : WithTop (ℚ ×ₗ ℚ)

inductive Event where
  | submitTask (task : Task)
  /-- A turn of `run`. -/
  | move
  /-- `load_batch_to_runtime`: which of the first tasks is taken is left open. -/
  | load (i : ℕ)

def new (maxBatchSize : ℕ) : Pool := ⟨maxBatchSize, [], [], ⊤⟩

def least (tasks : List Task) : WithTop (ℚ ×ₗ ℚ) :=
  (tasks.map fun task => (task.key : WithTop (ℚ ×ₗ ℚ))).foldr min ⊤

def submitTask (s : Pool) (task : Task) : Pool :=
  if s.maxBatchSize < getTaskSize task then s
  else
    { s with
      submittedTasks := s.submittedTasks ++ [task]
      priority := if (task.key : WithTop (ℚ ×ₗ ℚ)) < s.priority then task.key else s.priority }

def step (s : Pool) : Event → Option Pool
  | .submitTask task => some (submitTask s task)
  | .move =>
    match s.submittedTasks with
    | task :: submittedTasks =>
      some { s with submittedTasks, orderedTasks := s.orderedTasks ++ [task] }
    | [] => none
  | .load i =>
    match s.orderedTasks[i]? with
    | some task =>
      if ∀ other ∈ s.orderedTasks, task.key ≤ other.key then
        let remaining := s.orderedTasks.eraseIdx i
        some
          { s with
            orderedTasks := remaining
            priority := if remaining = [] then s.priority else least remaining }
      else none
    | none => none

def Pool.undispatched (s : Pool) : List Task := s.submittedTasks ++ s.orderedTasks

end BloomBee.TaskPool
