import Mathlib.Algebra.Order.Ring.Rat
import BloomBee.Lib.Runs

/-! `AdaptivePushConcurrency` of `server/s2s_flow.py`, and the pushes of `_push_microbatch` and
`_do_rpc_push_async` of `server/handler.py` that go through it. What is done under the condition
is one step; measured times are arbitrary rationals. -/

set_option autoImplicit false

namespace BloomBee.PushConcurrency

structure AdaptivePushConcurrency where
  limit : ℤ
  minLimit : ℤ
  maxLimit : ℤ
  ewmaAlpha : ℚ
  decisionInterval : ℕ
  inFlight : ℤ
  ewmaWaitMs : ℚ
  ewmaSendMs : ℚ
  releaseEvents : ℕ
  recentFailures : ℕ
  consecutiveFailures : ℕ
  deriving DecidableEq, Repr

namespace AdaptivePushConcurrency

def new (initialLimit minLimit maxLimit : ℤ) (ewmaAlpha : ℚ) (decisionInterval : ℤ) :
    AdaptivePushConcurrency where
  limit := max minLimit (min maxLimit initialLimit)
  minLimit
  maxLimit
  ewmaAlpha
  decisionInterval := (max 1 decisionInterval).toNat
  inFlight := 0
  ewmaWaitMs := 0
  ewmaSendMs := 0
  releaseEvents := 0
  recentFailures := 0
  consecutiveFailures := 0

def updateEwma (limiter : AdaptivePushConcurrency) (prev sample : ℚ) : ℚ :=
  if prev ≤ 0 then sample
  else prev * (1 - limiter.ewmaAlpha) + sample * limiter.ewmaAlpha

/-- The rest of `acquire` for a push that finds a slot free. -/
def acquire (limiter : AdaptivePushConcurrency) (waitMs : ℚ) : AdaptivePushConcurrency :=
  { limiter with
    inFlight := limiter.inFlight + 1
    ewmaWaitMs := limiter.updateEwma limiter.ewmaWaitMs waitMs }

/-- The decision that every `decision_interval`-th release makes. -/
def adjust (limiter : AdaptivePushConcurrency) : AdaptivePushConcurrency :=
  if 2 ≤ limiter.consecutiveFailures ∨ 3 ≤ limiter.recentFailures then
    { limiter with
      limit := max limiter.minLimit (limiter.limit - 1)
      consecutiveFailures := 0 }
  else if 8 < limiter.ewmaWaitMs ∧ limiter.ewmaSendMs < 220 ∧
      max 1 (limiter.limit - 1) ≤ limiter.inFlight then
    { limiter with limit := min limiter.maxLimit (limiter.limit + 1) }
  else if 320 < limiter.ewmaSendMs ∧ limiter.ewmaWaitMs < 2 then
    { limiter with limit := max limiter.minLimit (limiter.limit - 1) }
  else limiter

def release (limiter : AdaptivePushConcurrency) (sendTimeMs : ℚ) (success : Bool) :
    AdaptivePushConcurrency :=
  let released :=
    { limiter with
      inFlight := max 0 (limiter.inFlight - 1)
      ewmaSendMs := limiter.updateEwma limiter.ewmaSendMs (max 0 sendTimeMs)
      consecutiveFailures := if success then 0 else limiter.consecutiveFailures + 1
      recentFailures :=
        if success then limiter.recentFailures - 1 else min 16 (limiter.recentFailures + 1)
      releaseEvents := limiter.releaseEvents + 1 }
  if released.releaseEvents % released.decisionInterval = 0 then released.adjust else released

end AdaptivePushConcurrency

inductive Push where
  /-- Before the limiter; whatever raises here ends the push. -/
  | serializing (mbIdx : ℕ)
  /-- In `acquire`. -/
  | waiting
  /-- The background task, with `release_slot`. -/
  | sending (releaseSlot : Bool)
  /-- In the `finally` clause of the task, with the measured time. -/
  | releasing (sendTimeMs : ℚ) (success : Bool)
  | done
  deriving DecidableEq, Repr

structure State where
  /-- `BLOOMBEE_MB0_SEMAPHORE_BYPASS`. -/
  mb0Bypass : Bool
  limiter : AdaptivePushConcurrency
  pushes : List Push
  deriving DecidableEq, Repr

inductive Event where
  /-- A call of `_push_microbatch`. -/
  | push (mbIdx : ℕ)
  | raised (i : ℕ)
  | serialized (i : ℕ)
  /-- `acquire` returns. -/
  | acquire (i : ℕ) (waitMs : ℚ)
  /-- `rpc_push` returns, fails or times out. -/
  | sent (i : ℕ) (sendTimeMs : ℚ) (success : Bool)
  /-- `release` returns. -/
  | release (i : ℕ)
  deriving DecidableEq, Repr

def State.set (s : State) (i : ℕ) (push : Push) : State := { s with pushes := s.pushes.set i push }

/-- Nothing else is waited for: a push whose turn it is not refuses the event. -/
def step (s : State) : Event → Option State
  | .push mbIdx => some { s with pushes := s.pushes ++ [.serializing mbIdx] }
  | .raised i =>
    match s.pushes[i]? with
    | some (.serializing _) => some (s.set i .done)
    | _ => none
  | .serialized i =>
    match s.pushes[i]? with
    | some (.serializing mbIdx) =>
      some (s.set i (if s.mb0Bypass ∧ mbIdx = 0 then .sending false else .waiting))
    | _ => none
  | .acquire i waitMs =>
    match s.pushes[i]? with
    | some .waiting =>
      if s.limiter.inFlight < s.limiter.limit then
        some { s.set i (.sending true) with limiter := s.limiter.acquire waitMs }
      else none
    | _ => none
  | .sent i sendTimeMs success =>
    match s.pushes[i]? with
    | some (.sending releaseSlot) =>
      some (s.set i (if releaseSlot then .releasing sendTimeMs success else .done))
    | _ => none
  | .release i =>
    match s.pushes[i]? with
    | some (.releasing sendTimeMs success) =>
      some { s.set i .done with limiter := s.limiter.release sendTimeMs success }
    | _ => none

def init (mb0Bypass : Bool) (limiter : AdaptivePushConcurrency) : State := ⟨mb0Bypass, limiter, []⟩

end BloomBee.PushConcurrency
