import BloomBee.Lib.Runs
import BloomBee.Spec.SequenceManager

/-! `RemoteSequenceManager` between two updates (`client/routing/sequence_manager.py`): failed
requests, the thread that updates, and the routes that are made meanwhile. -/

set_option autoImplicit false

namespace BloomBee.Routing

/-- Where the update thread stands: in `trigger.wait`, in `_update` before `update_`, or after it. -/
inductive ThreadPhase where
  | waiting
  | fetching
  | pinging
  deriving DecidableEq, Repr

structure Manager (Peer : Type) where
  info : RemoteSequenceInfo Peer
  bannedPeers : List Peer
  ready : Bool
  trigger : Bool
  phase : ThreadPhase

inductive ManagerEvent (Peer : Type) where
  /-- A pass of the update thread begins. -/
  | wake
  /-- `update_` with what the DHT has, the allow list and the block list. -/
  | update_ (allowed blocked : Option (List Peer)) (newBlockInfos : List (RemoteModuleInfo Peer))
  /-- `ready.set()` after the pings. -/
  | pinged
  /-- `_update` raises. -/
  | crashed
  | onRequestFailure (peer : Option Peer)
  | onRequestSuccess (peer : Peer)
  /-- The ban of a peer runs out. -/
  | unbanned (peer : Peer)
  /-- `update(wait=...)`, which `make_sequence` calls where `ready` is not set. -/
  | requestUpdate

variable {Peer : Type}

section Failure

variable [DecidableEq Peer]

/-- `info.servers.pop(peer_id, None)` -/
def RemoteModuleInfo.pop (peer : Option Peer) (info : RemoteModuleInfo Peer) :
    RemoteModuleInfo Peer :=
  { info with servers := peer.elim info.servers fun p => info.servers.erase p }

def Manager.onRequestFailure (m : Manager Peer) (peer : Option Peer) : Manager Peer :=
  let blockInfos := m.info.blockInfos.map (RemoteModuleInfo.pop peer)
  let shouldUpdate := blockInfos.any fun info => info.servers.entries.isEmpty
  { m with
    info := { m.info with blockInfos }
    bannedPeers := m.bannedPeers ++ peer.toList
    ready := m.ready && !shouldUpdate
    trigger := m.trigger || shouldUpdate }

end Failure

variable [LinearOrder Peer]

def Manager.step (m : Manager Peer) : ManagerEvent Peer → Option (Manager Peer)
  | .wake => if m.phase = .waiting then some { m with phase := .fetching, trigger := false } else none
  | .update_ allowed blocked newBlockInfos =>
    if m.phase = .fetching ∧ newBlockInfos.length = m.info.blockInfos.length then
      some { m with
        info := .update ⟨allowed, blocked, m.bannedPeers⟩ newBlockInfos
        phase := .pinging }
    else none
  | .pinged => if m.phase = .pinging then some { m with phase := .waiting, ready := true } else none
  | .crashed => if m.phase ≠ .waiting then some { m with phase := .waiting } else none
  | .onRequestFailure peer => some (m.onRequestFailure peer)
  | .onRequestSuccess peer => some { m with bannedPeers := m.bannedPeers.filter (· ≠ peer) }
  | .unbanned peer => some { m with bannedPeers := m.bannedPeers.filter (· ≠ peer) }
  | .requestUpdate => some { m with ready := false, trigger := true }

/-- A new manager, over the infos of another one or over empty ones. -/
def Manager.start (blockInfos : List (RemoteModuleInfo Peer)) (ready : Bool) : Manager Peer where
  info := .ofBlockInfos blockInfos
  bannedPeers := []
  ready := ready
  trigger := false
  phase := .waiting

end BloomBee.Routing
