import Mathlib.Data.Nat.Notation
import Mathlib.Logic.Function.Basic

/-! Admission to the attention cache of `server/memory_cache.py`. Every allocation is a
caller of `_schedule_alloc` in some connection-handler process, and all callers share the
counters of one `MemoryCache`. A step is what one caller does between two points where
another process can run: a read of a shared counter, an acquisition or a release of
`_lock_acquire_memory`, or a whole section under `_lock_metadata` or under the lock of
`_enqueued_tokens`. -/

namespace BloomBee.MemoryCache

/-- Where a caller stands. `tokens` is `alloc_tokens_num`; `now` says that `timeout == 0`. -/
inductive Phase where
  | idle
  /-- In the queue, before the check that `timeout == 0` makes without a lock. -/
  | enqueued (tokens : ℕ)
  /-- The same, after `current_size_tokens` was read. -/
  | readCurrent (tokens current : ℕ)
  | acquiring (tokens : ℕ) (now : Bool)
  /-- Inside `_lock_acquire_memory`, before the size check. -/
  | locked (tokens : ℕ) (now : Bool)
  /-- At the loop head of `_wait_until_available`, inside `_lock_acquire_memory`. -/
  | waiting (tokens : ℕ)
  /-- In `_memory_freed_event.wait`, inside `_lock_acquire_memory`. -/
  | sleeping (tokens : ℕ)
  /-- The size check succeeded, `_lock_acquire_memory` is still held. -/
  | passed (tokens : ℕ)
  /-- `_lock_acquire_memory` is released. -/
  | admitted (tokens : ℕ)
  /-- Out of the queue, before the section under `_lock_metadata`. -/
  | dequeued (tokens : ℕ)
  /-- Counted in `current_size_tokens`. -/
  | holding (tokens : ℕ)
  /-- The tokens are given back, the event is not set yet. -/
  | freed
  /-- An error is on its way out, the queue entry is still there. -/
  | failing (tokens : ℕ)
  deriving DecidableEq, Repr

/-- The shared memory. `lock` is the holder of `_lock_acquire_memory`. -/
structure State (ι : Type) where
  currentSizeTokens : ℕ
  enqueuedSizeTokens : ℕ
  lock : Option ι
  memoryFreedEvent : Bool
  phase : ι → Phase

variable {ι : Type}

def State.init : State ι := ⟨0, 0, none, false, fun _ => .idle⟩

inductive Act where
  | enqueue (tokens : ℕ) (now : Bool)
  | readCurrent
  | readEnqueued
  | acquire
  | checkSize
  | checkWait
  | wake
  | timeout
  | release
  | dequeue
  | increment
  | free
  | signal
  | fail
  deriving DecidableEq, Repr

variable [DecidableEq ι]

def State.goto (s : State ι) (i : ι) (p : Phase) : State ι :=
  { s with phase := Function.update s.phase i p }

def step (maxSizeTokens : ℕ) (s : State ι) (i : ι) (a : Act) : Option (State ι) :=
  match a, s.phase i with
  | .enqueue n now, .idle =>
    some ({ s with enqueuedSizeTokens := s.enqueuedSizeTokens + n }.goto i
      (if now then .enqueued n else .acquiring n false))
  | .readCurrent, .enqueued n => some (s.goto i (.readCurrent n s.currentSizeTokens))
  | .readEnqueued, .readCurrent n c =>
    some (s.goto i (if c + s.enqueuedSizeTokens > maxSizeTokens then .failing n
      else .acquiring n true))
  | .acquire, .acquiring n now =>
    if s.lock = none then some ({ s with lock := some i }.goto i (.locked n now)) else none
  | .checkSize, .locked n now =>
    if s.currentSizeTokens + n > maxSizeTokens then
      -- `_wait_until_available` refuses at once what never fits
      if now = true ∨ n > maxSizeTokens then some ({ s with lock := none }.goto i (.failing n))
      else some (s.goto i (.waiting n))
    else some (s.goto i (.passed n))
  | .checkWait, .waiting n =>
    some (s.goto i (if s.currentSizeTokens + n > maxSizeTokens then .sleeping n else .passed n))
  | .wake, .sleeping n =>
    if s.memoryFreedEvent then some ({ s with memoryFreedEvent := false }.goto i (.waiting n))
    else none
  | .timeout, .acquiring n false => some (s.goto i (.failing n))
  | .timeout, .waiting n => some ({ s with lock := none }.goto i (.failing n))
  | .timeout, .sleeping n => some ({ s with lock := none }.goto i (.failing n))
  | .release, .passed n => some ({ s with lock := none }.goto i (.admitted n))
  | .dequeue, .admitted n =>
    some ({ s with enqueuedSizeTokens := s.enqueuedSizeTokens - n }.goto i (.dequeued n))
  | .increment, .dequeued n =>
    some ({ s with currentSizeTokens := s.currentSizeTokens + n }.goto i (.holding n))
  | .free, .holding n =>
    some ({ s with currentSizeTokens := s.currentSizeTokens - n }.goto i .freed)
  | .signal, .freed => some ({ s with memoryFreedEvent := true }.goto i .idle)
  | .fail, .failing n =>
    some ({ s with enqueuedSizeTokens := s.enqueuedSizeTokens - n }.goto i .idle)
  | _, _ => none

def run (maxSizeTokens : ℕ) (s : State ι) : List (ι × Act) → Option (State ι)
  | [] => some s
  | (i, a) :: sched => (step maxSizeTokens s i a).bind fun s' => run maxSizeTokens s' sched

inductive Reaches (maxSizeTokens : ℕ) (s : State ι) : State ι → Prop where
  | refl : Reaches maxSizeTokens s s
  | step {s' s'' : State ι} {i : ι} {a : Act} (h : Reaches maxSizeTokens s s')
      (hs : MemoryCache.step maxSizeTokens s' i a = some s'') : Reaches maxSizeTokens s s''

end BloomBee.MemoryCache
