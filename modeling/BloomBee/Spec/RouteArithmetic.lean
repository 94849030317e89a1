import Mathlib.Algebra.BigOperators.Group.List.Basic
import BloomBee.Spec.SequenceManager

/-! The divisions of `make_sequence` (`client/routing/sequence_manager.py`): the expected speed
that the latency mode logs, and the probabilities of the throughput mode. -/

set_option autoImplicit false

namespace BloomBee.Routing

variable {Peer : Type}

/-- What a mode of `make_sequence` can raise. -/
inductive RouteFailure where
  | routing (error : RoutingError)
  /-- `1 / path.total_cost` with a cost of zero. -/
  | totalCost
  /-- `np.random.choice` refuses the probabilities. -/
  | probabilities
  deriving DecidableEq, Repr

/-- What the validation of a `ServerInfo` admits: rates and pings that are not negative. The other
numbers are natural. -/
structure ServerInfo.Admitted (info : ServerInfo Peer) : Prop where
  inferenceRps : ∀ r ∈ info.inferenceRps, 0 ≤ r
  nextPings : ∀ pings ∈ info.nextPings, ∀ e ∈ pings.entries, ((0 : ℚ) : WithTop ℚ) ≤ e.2

section Speed

variable [DecidableEq Peer]

def Graph.totalCost (g : Graph Peer) (nodes : List (Node Peer)) : ℚ :=
  ((nodes.zip nodes.tail).map fun e => (g.get? e).getD 0).sum

/-- The steps per second that are logged. -/
def expectedSpeed (g : Graph Peer) (nodes : List (Node Peer)) : Except RouteFailure ℚ :=
  let totalCost := g.totalCost nodes
  if totalCost = 0 then .error .totalCost else .ok (1 / totalCost)

/-- `_make_sequence_with_min_latency` with what it logs of a path through the whole model. -/
def makeSequenceWithMinLatencyLogged (st : RoutingState Peer) (startIndex endIndex : ℕ)
    (cacheTokensNeeded : Option ℕ) (findPath : Graph Peer → Option (List (Node Peer))) :
    Except RouteFailure (List (RemoteSpanInfo Peer)) :=
  if startIndex = endIndex then .ok []
  else
    let missing := missingBlocks st startIndex endIndex
    if missing ≠ [] then .error (.routing (.missingBlocks missing))
    else do
      let graph ← (buildInferenceGraph st startIndex endIndex cacheTokensNeeded).mapError .routing
      match findPath graph with
      | none => .error (.routing .noPath)
      | some nodes =>
        let logged :=
          if startIndex = 0 ∧ endIndex = st.info.blockInfos.length then
            (expectedSpeed graph nodes).map fun _ => ()
          else .ok ()
        logged >>= fun _ => (spanSequence st startIndex endIndex nodes).mapError .routing

end Speed

section Weights

variable [DecidableEq Peer]

/-- `span_weights`: the length, or `eps` for a server that is known to be unreachable. -/
def spanWeights (st : RoutingState Peer) (candidates : List (RemoteSpanInfo Peer)) : List ℚ :=
  candidates.map fun span =>
    if st.rtts.get? span.peerId = some ⊤ then 1 / 1000000 else (span.length : ℚ)

/-- `span_weights / span_weights.sum()`. -/
def normalized (weights : List ℚ) : List ℚ := weights.map fun w => w / weights.sum

/-- `np.random.choice(candidates, p=p)`; `draw` is what the generator draws. A sum of zero leaves
NaN in the code and zeros here, which both do not sum up to one. -/
def randomChoice (draw : List (RemoteSpanInfo Peer × ℚ) → RemoteSpanInfo Peer)
    (candidates : List (RemoteSpanInfo Peer)) (p : List ℚ) :
    Except RouteFailure (RemoteSpanInfo Peer) :=
  if candidates ≠ [] ∧ candidates.length = p.length ∧ (∀ q ∈ p, 0 ≤ q) ∧ p.sum = 1 then
    .ok (draw (candidates.zip p))
  else .error .probabilities

/-- `_make_sequence_with_max_throughput` with the weights of its choices. -/
def makeSequenceWithMaxThroughputSampled (st : RoutingState Peer)
    (draw : ℕ → List (RemoteSpanInfo Peer × ℚ) → RemoteSpanInfo Peer) (currentIndex endIndex : ℕ) :
    Except RouteFailure (List (RemoteSpanInfo Peer)) :=
  if currentIndex < endIndex then
    let candidates := st.info.containing currentIndex
    if candidates = [] then .error (.routing (.missingBlocks [currentIndex]))
    else
      match randomChoice (draw currentIndex) candidates (normalized (spanWeights st candidates)) with
      | .error e => .error e
      | .ok chosen =>
        if chosen.start ≤ currentIndex ∧ (currentIndex : ℤ) < chosen.stop then do
          let rest ← makeSequenceWithMaxThroughputSampled st draw chosen.stop.toNat endIndex
          return { chosen with start := currentIndex } :: rest
        else .error (.routing .assertion)
  else .ok []
termination_by endIndex - currentIndex
decreasing_by
  rename_i hlt _ hchosen
  omega

end Weights

end BloomBee.Routing
