import Mathlib.Data.Rat.Defs
import Mathlib.Algebra.Order.Ring.Rat
import Mathlib.Order.WithBot
import BloomBee.Lib.OrderedDict

/-! What the client knows about the servers: `compute_spans` of `utils/dht.py`, the filters of
`RemoteSequenceManager._update` and `RemoteSequenceInfo` of `client/routing`. The order of peers
is that of `PeerID`, a ping may be infinite. -/

set_option autoImplicit false

namespace BloomBee.Routing

inductive ServerState where
  | offline
  | joining
  | online
  deriving DecidableEq, Repr

def ServerState.value : ServerState → ℕ
  | .offline => 0
  | .joining => 1
  | .online => 2

structure ServerInfo (Peer : Type) where
  state : ServerState
  startBlock : Option ℕ
  endBlock : Option ℕ
  inferenceRps : Option ℚ
  cacheTokensLeft : Option ℕ
  nextPings : Option (OrderedDict Peer (WithTop ℚ))

structure RemoteModuleInfo (Peer : Type) where
  /-- `parse_uid(uid)[1]`. -/
  blockIndex : ℕ
  servers : OrderedDict Peer (ServerInfo Peer)

/-- The end may come out negative where the announced one is before the first module. -/
structure RemoteSpanInfo (Peer : Type) where
  peerId : Peer
  start : ℕ
  stop : ℤ
  serverInfo : ServerInfo Peer

variable {Peer : Type}

def RemoteSpanInfo.length (s : RemoteSpanInfo Peer) : ℤ := s.stop - s.start

def RemoteSpanInfo.state (s : RemoteSpanInfo Peer) : ServerState := s.serverInfo.state

def RemoteSpanInfo.Contains (s : RemoteSpanInfo Peer) (block : ℕ) : Prop :=
  s.start ≤ block ∧ (block : ℤ) < s.stop

instance (s : RemoteSpanInfo Peer) (block : ℕ) : Decidable (s.Contains block) :=
  inferInstanceAs (Decidable (_ ∧ _))

/-- The span of an entry: the bounds it announces, clipped to the modules, or its own block. -/
def spanOfEntry (blockOffset numBlocks blockIdx : ℕ) (peer : Peer) (info : ServerInfo Peer) :
    RemoteSpanInfo Peer :=
  match info.startBlock, info.endBlock with
  | some startBlock, some endBlock =>
    ⟨peer, startBlock - blockOffset, min ((endBlock : ℤ) - blockOffset) numBlocks, info⟩
  | _, _ => ⟨peer, blockIdx, blockIdx + 1, info⟩

variable [LinearOrder Peer]

/-- The body of the loops of `compute_spans`. -/
def visitEntry (blockOffset numBlocks : ℕ) (minState : ServerState) (blockIdx : ℕ)
    (spans : OrderedDict Peer (RemoteSpanInfo Peer)) (entry : Peer × ServerInfo Peer) :
    OrderedDict Peer (RemoteSpanInfo Peer) :=
  let (peer, info) := entry
  if info.state.value < minState.value then spans
  else
    let new := spanOfEntry blockOffset numBlocks blockIdx peer info
    match spans.get? peer with
    | none => spans.set peer new
    | some span =>
      if span.state.value < info.state.value then spans.set peer new
      else if span.state = info.state then
        spans.set peer { span with stop := max span.stop (blockIdx + 1) }
      else spans

/-- `sorted(module_info.servers.items())`. -/
def sortedServers (info : RemoteModuleInfo Peer) : List (Peer × ServerInfo Peer) :=
  info.servers.entries.mergeSort fun e f => decide (e.1 ≤ f.1)

def computeSpans (moduleInfos : List (RemoteModuleInfo Peer)) (minState : ServerState) :
    OrderedDict Peer (RemoteSpanInfo Peer) :=
  let blockOffset := (moduleInfos.head?.map fun m => m.blockIndex).getD 0
  let numBlocks := moduleInfos.length
  moduleInfos.zipIdx.foldl
    (fun spans m =>
      (sortedServers m.1).foldl (visitEntry blockOffset numBlocks minState m.2) spans)
    .empty

/-- What routing reads of a `RemoteSequenceInfo`. -/
structure RemoteSequenceInfo (Peer : Type) where
  blockInfos : List (RemoteModuleInfo Peer)
  spansByPriority : List (RemoteSpanInfo Peer)
  spansContainingBlock : List (List (RemoteSpanInfo Peer))

/-- `spans_containing_block[block]`. -/
def RemoteSequenceInfo.containing (info : RemoteSequenceInfo Peer) (block : ℕ) :
    List (RemoteSpanInfo Peer) := info.spansContainingBlock.getD block []

/-- Longer spans first, and for each block those that contain it, in the same order. -/
def sortSpans (numBlocks : ℕ) (spans : List (RemoteSpanInfo Peer)) :
    List (RemoteSpanInfo Peer) × List (List (RemoteSpanInfo Peer)) :=
  let spansByPriority := spans.mergeSort fun s t => decide (t.length ≤ s.length)
  (spansByPriority,
    (List.range numBlocks).map fun block => spansByPriority.filter fun s => s.Contains block)

/-- `RemoteSequenceInfo.update_`. -/
def RemoteSequenceInfo.ofBlockInfos (blockInfos : List (RemoteModuleInfo Peer)) :
    RemoteSequenceInfo Peer :=
  let spans := (computeSpans blockInfos .online).entries.map Prod.snd
  let (spansByPriority, spansContainingBlock) := sortSpans blockInfos.length spans
  ⟨blockInfos, spansByPriority, spansContainingBlock⟩

/-- The lists of a `RemoteSequenceManager`. -/
structure PeerLists (Peer : Type) where
  allowedServers : Option (List Peer)
  blockedServers : Option (List Peer)
  bannedPeers : List Peer

/-- The filters of `_update` for one block: the allow and block lists, and the temporary bans
unless they leave no server. -/
def filterServers (lists : PeerLists Peer) (info : RemoteModuleInfo Peer) : RemoteModuleInfo Peer :=
  let servers := info.servers.filter fun e =>
    (lists.allowedServers.all fun allowed => decide (e.1 ∈ allowed)) &&
      lists.blockedServers.all fun blocked => decide (e.1 ∉ blocked)
  let validServers := servers.filter fun e => decide (e.1 ∉ lists.bannedPeers)
  if validServers.entries.length < servers.entries.length ∧ validServers.entries ≠ [] then
    { info with servers := validServers }
  else { info with servers }

def RemoteSequenceInfo.update (lists : PeerLists Peer)
    (newBlockInfos : List (RemoteModuleInfo Peer)) : RemoteSequenceInfo Peer :=
  .ofBlockInfos (newBlockInfos.map (filterServers lists))

end BloomBee.Routing
