import BloomBee.Spec.RemoteSequenceInfo

/-! `make_sequence` of `client/routing/sequence_manager.py` in both modes. `dijkstar` is not part
of the repository: a graph is its table of edges, and `find_path` is a parameter. So are the
random choices of the throughput mode. Delays are rationals. -/

set_option autoImplicit false

namespace BloomBee.Routing

variable {Peer : Type} [DecidableEq Peer]

inductive RoutingError where
  | missingBlocks (blocks : List ℕ)
  /-- `dijkstar.NoPathError`. -/
  | noPath
  | keyError
  | zeroDivision
  /-- A node of the path that is not a pair. -/
  | unpack
  | assertion
  deriving DecidableEq, Repr

/-- The nodes `"start"`, `"end"` and `(peer_id, block_idx)`. -/
inductive Node (Peer : Type) where
  | start
  | server (peer : Peer) (block : ℕ)
  | stop
  deriving DecidableEq

abbrev Graph (Peer : Type) := OrderedDict (Node Peer × Node Peer) ℚ

def Graph.addEdge (g : Graph Peer) (e : (Node Peer × Node Peer) × ℚ) : Graph Peer :=
  OrderedDict.set e.1 e.2 g

structure RoutingState (Peer : Type) where
  info : RemoteSequenceInfo Peer
  /-- `ping_aggregator.to_dict()`. -/
  rtts : OrderedDict Peer (WithTop ℚ)

def rttToDelay : Option (WithTop ℚ) → ℚ
  | none => 15 / 100
  | some none => 5
  | some (some rtt) => min (rtt / 2) 5

def hasCacheFor (span : RemoteSpanInfo Peer) (cacheTokensNeeded : Option ℕ) : Bool :=
  match cacheTokensNeeded, span.serverInfo.cacheTokensLeft with
  | some needed, some left => decide ((needed : ℤ) * 2 * span.length ≤ left)
  | _, _ => true

def overheadDelay : ℚ := 18 / 1000

def allocDelay : ℚ := 10

def entryDelay (rtt : Option (WithTop ℚ)) (span : RemoteSpanInfo Peer)
    (cacheTokensNeeded : Option ℕ) : ℚ :=
  rttToDelay rtt + overheadDelay + if hasCacheFor span cacheTokensNeeded then 0 else allocDelay

/-- `1.0 / inference_rps`, by default with 300. -/
def inferenceDelay (info : ServerInfo Peer) : Except RoutingError ℚ :=
  let inferenceRps := info.inferenceRps.getD 300
  if inferenceRps = 0 then .error .zeroDivision else .ok (1 / inferenceRps)

section Graph

variable (st : RoutingState Peer) (startIndex endIndex : ℕ) (cacheTokensNeeded : Option ℕ)

def missingBlocks : List ℕ :=
  (List.range' startIndex (endIndex - startIndex)).filter fun b => (st.info.containing b).isEmpty

def startEdges : List ((Node Peer × Node Peer) × ℚ) :=
  (st.info.containing startIndex).map fun span =>
    ((.start, .server span.peerId startIndex),
      entryDelay (st.rtts.get? span.peerId) span cacheTokensNeeded)

def endEdges : List ((Node Peer × Node Peer) × ℚ) :=
  (st.info.containing (endIndex - 1)).map fun span =>
    ((.server span.peerId endIndex, .stop), rttToDelay (st.rtts.get? span.peerId))

/-- Server to server: a server is only left at its end. -/
def switchEdges : List ((Node Peer × Node Peer) × ℚ) :=
  (List.range' (startIndex + 1) (endIndex - (startIndex + 1))).flatMap fun b =>
    (st.info.containing (b - 1)).flatMap fun current =>
      if current.stop ≠ (b : ℤ) then []
      else (st.info.containing b).map fun next =>
        ((.server current.peerId b, .server next.peerId b),
          entryDelay (current.serverInfo.nextPings.bind fun pings => pings.get? next.peerId) next
            cacheTokensNeeded)

def computeEdges : Except RoutingError (List ((Node Peer × Node Peer) × ℚ)) :=
  let blocks := st.info.spansByPriority.flatMap fun span =>
    let first := max span.start startIndex
    let last := (min span.stop (endIndex : ℤ)).toNat
    (List.range' first (last - first)).map fun b => (span, b)
  blocks.mapM fun (span, b) => do
    let delay ← inferenceDelay span.serverInfo
    return ((.server span.peerId b, .server span.peerId (b + 1)), delay)

def buildInferenceGraph : Except RoutingError (Graph Peer) :=
  let missing := missingBlocks st startIndex endIndex
  if missing ≠ [] then .error (.missingBlocks missing)
  else do
    let compute ← computeEdges st startIndex endIndex
    let edges := startEdges st startIndex cacheTokensNeeded ++ endEdges st endIndex ++
      switchEdges st startIndex endIndex cacheTokensNeeded ++ compute
    return edges.foldl Graph.addEdge .empty

def serverInfos : OrderedDict Peer (ServerInfo Peer) :=
  ((List.range' startIndex (endIndex - startIndex)).flatMap st.info.containing).foldl
    (fun infos span => infos.set span.peerId span.serverInfo) .empty

/-- A node of the path: the peer goes on, or the next one takes over. -/
def appendNode (infos : OrderedDict Peer (ServerInfo Peer)) (spans : List (RemoteSpanInfo Peer)) :
    Node Peer → Except RoutingError (List (RemoteSpanInfo Peer))
  | .server peer block =>
    match spans.getLast? with
    | some last =>
      if last.peerId = peer then .ok (spans.dropLast ++ [{ last with stop := block }])
      else match infos.get? peer with
        | none => .error .keyError
        | some info => .ok (spans ++ [⟨peer, block, block, info⟩])
    | none => match infos.get? peer with
      | none => .error .keyError
      | some info => .ok (spans ++ [⟨peer, block, block, info⟩])
  | _ => .error .unpack

/-- The spans of `path.nodes`, the first and the last of which are the client. -/
def spanSequence (nodes : List (Node Peer)) : Except RoutingError (List (RemoteSpanInfo Peer)) := do
  let spans ← nodes.tail.dropLast.foldlM (appendNode (serverInfos st startIndex endIndex)) []
  return spans.filter fun span => 0 < span.length

def makeSequenceWithMinLatency (findPath : Graph Peer → Option (List (Node Peer))) :
    Except RoutingError (List (RemoteSpanInfo Peer)) :=
  if startIndex = endIndex then .ok []
  else
    let missing := missingBlocks st startIndex endIndex
    if missing ≠ [] then .error (.missingBlocks missing)
    else do
      let graph ← buildInferenceGraph st startIndex endIndex cacheTokensNeeded
      match findPath graph with
      | none => .error .noPath
      | some nodes => spanSequence st startIndex endIndex nodes

end Graph

/-- `_make_sequence_with_max_throughput`. `choose` is the random choice at a block. -/
def makeSequenceWithMaxThroughput (st : RoutingState Peer)
    (choose : ℕ → List (RemoteSpanInfo Peer) → RemoteSpanInfo Peer) (currentIndex endIndex : ℕ) :
    Except RoutingError (List (RemoteSpanInfo Peer)) :=
  if currentIndex < endIndex then
    let candidates := st.info.containing currentIndex
    if candidates = [] then .error (.missingBlocks [currentIndex])
    else
      let chosen := choose currentIndex candidates
      if chosen.start ≤ currentIndex ∧ (currentIndex : ℤ) < chosen.stop then do
        let rest ← makeSequenceWithMaxThroughput st choose chosen.stop.toNat endIndex
        return { chosen with start := currentIndex } :: rest
      else .error .assertion
  else .ok []
termination_by endIndex - currentIndex
decreasing_by
  rename_i hlt _ hchosen
  change endIndex - chosen.stop.toNat < endIndex - currentIndex
  omega

end BloomBee.Routing
