import BloomBee.Spec.RpcInference
import Mathlib.Data.Finset.Insert

/-! `_iterate_inference_steps` of `server/handler.py` in front of `iterate_rpc_inference`.
The stream of the client and the push queue of the session are two sources of one loop,
which takes one message at a time; an event is one message in the order the loop takes
them, whatever the preference between the sources. -/

set_option autoImplicit false

namespace BloomBee.InferenceSteps

open RpcInference

variable {σ τ κ : Type}

/-- A message of the session. A full-batch request comes over the stream or from the push
queue, the routing does not tell them apart. -/
inductive Request (σ τ : Type) where
  | microBatch (m : MicroBatch σ τ)
  | full (r : FullRequest σ τ) (isMbStartSignal : Bool)
  /-- Neither tensors nor metadata. -/
  | empty

/-- The three sets that keep a step from being computed twice. -/
structure Routing (σ : Type) where
  processedStepIds : Finset σ
  microbatchStepIds : Finset σ
  processedMicrobatchIds : Finset (σ × ℕ)

def Routing.init : Routing σ := ⟨∅, ∅, ∅⟩

variable [DecidableEq σ]

/-- What the loop yields for a message, with the sets it leaves. A full-batch step is
recorded after the yield, a micro-batch before it; nothing is taken in between. -/
def route (rt : Routing σ) : Request σ τ → Routing σ × Option (Item σ τ)
  | .microBatch m =>
    if m.stepId ∈ rt.processedStepIds ∧ m.stepId ∉ rt.microbatchStepIds then (rt, none)
    else if (m.stepId, m.mbIdx) ∈ rt.processedMicrobatchIds then (rt, none)
    else
      ({ rt with
          microbatchStepIds := insert m.stepId rt.microbatchStepIds
          processedMicrobatchIds := insert (m.stepId, m.mbIdx) rt.processedMicrobatchIds },
        some (.microBatch m))
  | .full r isMbStartSignal =>
    if isMbStartSignal then (rt, none)
    else if r.stepId ∈ rt.microbatchStepIds then (rt, none)
    else if r.stepId ∈ rt.processedStepIds then (rt, none)
    else ({ rt with processedStepIds := insert r.stepId rt.processedStepIds }, some (.full r))
  | .empty => (rt, none)

/-- A session of `rpc_inference`, with everything it yielded so far. -/
structure Session (σ τ κ : Type) where
  routing : Routing σ
  state : State σ τ κ
  yielded : List (Item σ τ)
  responses : List (Response σ τ)
  running : Bool

def Session.init (backends : List (Backend τ κ)) : Session σ τ κ :=
  ⟨.init, ⟨0, backends, ∅⟩, [], [], true⟩

inductive Event (σ τ : Type) where
  /-- The loop takes a message. `fails` says that something outside the model raises while
  the item is processed. -/
  | receive (r : Request σ τ) (fails : Bool)
  | expire (stepId : σ)
  /-- No message within `step_timeout`, or the session is closed. -/
  | stop

variable [Inhabited τ]

/-- An item goes through `iterate_rpc_inference`; an exception ends the session. -/
def handle (cfg : Config) (s : Session σ τ κ) (item : Item σ τ) (fails : Bool) :
    Session σ τ κ :=
  let s := { s with yielded := s.yielded ++ [item] }
  match (if fails then .error .other else process cfg s.state item) with
  | .error _ => { s with running := false }
  | .ok (state, response) =>
    { s with state, responses := s.responses ++ response.toList }

def deliver (cfg : Config) (s : Session σ τ κ) : Event σ τ → Session σ τ κ
  | .stop => { s with running := false }
  | .expire stepId => { s with state := expire s.state stepId }
  | .receive .empty _ => { s with running := false }
  | .receive r fails =>
    let (routing, item) := route s.routing r
    match item with
    | none => { s with routing }
    | some item => handle cfg { s with routing } item fails

def run (cfg : Config) (s : Session σ τ κ) : List (Event σ τ) → Session σ τ κ
  | [] => s
  | e :: es => if s.running then run cfg (deliver cfg s e) es else s

end BloomBee.InferenceSteps
