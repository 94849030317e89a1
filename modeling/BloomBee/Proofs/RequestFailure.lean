import BloomBee.Proofs.ComputeSpans
import BloomBee.Spec.RequestFailure

/-! What a failed request does to the routes before the next update: the peer is taken out of the
servers of the blocks, and stays in the spans that routes are made of. -/

set_option autoImplicit false

namespace BloomBee.Routing

open Runs (run)

variable {Peer : Type}

section Step

variable [LinearOrder Peer] {m m' : Manager Peer} {e : ManagerEvent Peer}

/-- The tables that routes are made of are those of some spans, one per peer. -/
def Manager.Sorted (m : Manager Peer) : Prop :=
  ∃ spans, KnownSpans ⟨m.info, .empty⟩ m.info.blockInfos.length spans

def ManagerEvent.Between : ManagerEvent Peer → Prop
  | .update_ .. => False
  | _ => True

def Manager.SameTables (m m' : Manager Peer) : Prop :=
  m'.info.spansByPriority = m.info.spansByPriority ∧
    m'.info.spansContainingBlock = m.info.spansContainingBlock ∧
    m'.info.blockInfos.length = m.info.blockInfos.length

theorem sorted_of_blockInfos {blockInfos : List (RemoteModuleInfo Peer)}
    (h : m.info = .ofBlockInfos blockInfos) : m.Sorted := by
  have hlen : m.info.blockInfos.length = blockInfos.length := by
    rw [h]
    rfl
  have hknown := @knownSpans_ofBlockInfos _ _ ⟨m.info, .empty⟩ _ h
  rw [← hlen] at hknown
  exact ⟨_, hknown⟩

theorem sameTables_onRequestFailure (m : Manager Peer) (peer : Option Peer) :
    m.SameTables (m.onRequestFailure peer) :=
  ⟨rfl, rfl, List.length_map _⟩

theorem sameTables_step (he : e.Between) (h : m.step e = some m') : m.SameTables m' := by
  cases e with
  | update_ allowed blocked newBlockInfos => cases he
  | onRequestFailure peer =>
    obtain rfl := Option.some.inj h
    exact sameTables_onRequestFailure m peer
  | onRequestSuccess peer | unbanned peer | requestUpdate =>
    obtain rfl := Option.some.inj h
    exact ⟨rfl, rfl, rfl⟩
  | wake | pinged | crashed =>
    simp only [Manager.step] at h
    split_ifs at h
    obtain rfl := Option.some.inj h
    exact ⟨rfl, rfl, rfl⟩

omit [LinearOrder Peer] in
theorem sorted_congr (h : m.SameTables m') (hm : m.Sorted) : m'.Sorted := by
  obtain ⟨spans, hsorted, hpeers⟩ := hm
  refine ⟨spans, ?_, hpeers⟩
  rw [h.2.2]
  exact (Prod.ext h.1 h.2.1).trans hsorted

theorem sorted_step (hm : m.Sorted) (h : m.step e = some m') : m'.Sorted := by
  by_cases he : e.Between
  · exact sorted_congr (sameTables_step he h) hm
  · cases e with
    | update_ allowed blocked newBlockInfos =>
      simp only [Manager.step] at h
      split_ifs at h
      obtain rfl := Option.some.inj h
      exact sorted_of_blockInfos rfl
    | _ => exact absurd trivial he

theorem sorted_run {blockInfos : List (RemoteModuleInfo Peer)} {ready : Bool}
    {events : List (ManagerEvent Peer)}
    (h : run Manager.step (.start blockInfos ready) events = some m) : m.Sorted :=
  Runs.run_invariant (fun _ m => m.Sorted) (sorted_of_blockInfos rfl)
    (fun _ _ _ _ hm hs => sorted_step hm hs) h

/-- Nothing sets `ready` before the next update. -/
def Manager.Blocked (m : Manager Peer) : Prop := m.ready = false ∧ m.phase ≠ .pinging

theorem blocked_step (hm : m.Blocked) (he : e.Between) (h : m.step e = some m') : m'.Blocked := by
  obtain ⟨hready, hphase⟩ := hm
  cases e with
  | update_ allowed blocked newBlockInfos => cases he
  | onRequestFailure peer =>
    obtain rfl := Option.some.inj h
    exact ⟨by simp [Manager.onRequestFailure, hready], hphase⟩
  | onRequestSuccess peer | unbanned peer =>
    obtain rfl := Option.some.inj h
    exact ⟨hready, hphase⟩
  | requestUpdate =>
    obtain rfl := Option.some.inj h
    exact ⟨rfl, hphase⟩
  | wake | crashed =>
    simp only [Manager.step] at h
    split_ifs at h
    obtain rfl := Option.some.inj h
    exact ⟨hready, by simp⟩
  | pinged =>
    simp only [Manager.step, if_neg hphase] at h
    cases h

end Step

/-! ### Routes -/

variable [LinearOrder Peer]

def RemoteSequenceInfo.Holds (info : RemoteSequenceInfo Peer) (peer : Peer) (block : ℕ) : Prop :=
  ∃ entry server, info.blockInfos[block]? = some entry ∧ entry.servers.get? peer = some server

/-- The routes that `make_sequence` may return, in either mode, for blocks that there are. -/
inductive RemoteSequenceInfo.Makes (info : RemoteSequenceInfo Peer) :
    List (RemoteSpanInfo Peer) → Prop where
  | minLatency {rtts : OrderedDict Peer (WithTop ℚ)} {startIndex endIndex : ℕ}
      {cacheTokensNeeded : Option ℕ} {findPath : Graph Peer → Option (List (Node Peer))}
      {route : List (RemoteSpanInfo Peer)} (hle : startIndex ≤ endIndex)
      (hend : endIndex ≤ info.blockInfos.length)
      (hfind : ∀ g nodes, findPath g = some nodes → g.IsPath nodes)
      (h : makeSequenceWithMinLatency ⟨info, rtts⟩ startIndex endIndex cacheTokensNeeded findPath =
        .ok route) : info.Makes route
  | maxThroughput {rtts : OrderedDict Peer (WithTop ℚ)} {startIndex endIndex : ℕ}
      {choose : ℕ → List (RemoteSpanInfo Peer) → RemoteSpanInfo Peer}
      {route : List (RemoteSpanInfo Peer)} (hend : endIndex ≤ info.blockInfos.length)
      (hchoose : ∀ b candidates, candidates ≠ [] → choose b candidates ∈ candidates)
      (h : makeSequenceWithMaxThroughput ⟨info, rtts⟩ choose startIndex endIndex = .ok route) :
      info.Makes route

/-- What is asked of a failed request to peer `p`: no route that is made before the next update
sends a block to `p` that another known server holds, and where `p` was the only server of a block
an update is under way. -/
def Manager.Honours (m : Manager Peer) (p : Peer) : Prop :=
  (∀ (events : List (ManagerEvent Peer)) (m' : Manager Peer) (route : List (RemoteSpanInfo Peer)),
      run Manager.step (m.onRequestFailure (some p)) events = some m' →
      (∀ e ∈ events, e.Between) → m'.ready = true → m'.info.Makes route →
      ∀ s ∈ route, s.peerId = p → ∀ b, s.Contains b → ∀ q, q ≠ p → ¬ m.info.Holds q b) ∧
    ((∃ entry ∈ m.info.blockInfos, (entry.servers.get? p).isSome ∧
        ∀ q, q ≠ p → entry.servers.get? q = none) →
      (m.onRequestFailure (some p)).ready = false ∧ (m.onRequestFailure (some p)).trigger = true)

/-- No route can be returned before the next update: `ready` is not set, or is cleared for a block
without a server but `p`, and no update is on its way to set it. -/
def Manager.Stalled (m : Manager Peer) (p : Peer) : Prop :=
  (m.ready = false ∨ ∃ entry ∈ m.info.blockInfos, ∀ q, q ≠ p → entry.servers.get? q = none) ∧
    m.phase ≠ .pinging

/-- The spans of the blocks that other servers hold are none of `p`. -/
def Manager.Unlisted (m : Manager Peer) (p : Peer) : Prop :=
  ∀ b q, q ≠ p → m.info.Holds q b → ∀ s ∈ m.info.containing b, s.peerId ≠ p

theorem pop_isEmpty_iff {p : Peer} {entry : RemoteModuleInfo Peer} :
    (RemoteModuleInfo.pop (some p) entry).servers.entries.isEmpty = true ↔
      ∀ q, q ≠ p → entry.servers.get? q = none := by
  rw [List.isEmpty_iff, List.eq_nil_iff_forall_not_mem]
  constructor
  · intro h q hq
    rw [OrderedDict.get?_eq_none_iff]
    intro v hv
    exact h (q, v) (OrderedDict.mem_erase.mpr ⟨hv, hq⟩)
  · rintro h ⟨q, v⟩ hmem
    obtain ⟨hmem, hq⟩ := OrderedDict.mem_erase.mp hmem
    exact OrderedDict.get?_eq_none_iff.mp (h q hq) v hmem

theorem shouldUpdate_iff {m : Manager Peer} {p : Peer} :
    ((m.info.blockInfos.map (RemoteModuleInfo.pop (some p))).any fun info =>
        info.servers.entries.isEmpty) = true ↔
      ∃ entry ∈ m.info.blockInfos, ∀ q, q ≠ p → entry.servers.get? q = none := by
  rw [List.any_map, List.any_eq_true]
  exact exists_congr fun entry => and_congr_right fun _ => pop_isEmpty_iff

section Failed

variable {m : Manager Peer} {p : Peer}

theorem ready_onRequestFailure : (m.onRequestFailure (some p)).ready = true ↔
    m.ready = true ∧ ¬ ∃ entry ∈ m.info.blockInfos, ∀ q, q ≠ p → entry.servers.get? q = none := by
  rw [← shouldUpdate_iff]
  simp [Manager.onRequestFailure]

/-- The spans of a route are inside those of the tables. -/
theorem Makes.inside {info : RemoteSequenceInfo Peer} {spans route : List (RemoteSpanInfo Peer)}
    (hknown : ∀ rtts, KnownSpans ⟨info, rtts⟩ info.blockInfos.length spans)
    (h : info.Makes route) : ∀ s ∈ route, ∃ known ∈ spans, known.peerId = s.peerId ∧
      known.start ≤ s.start ∧ s.stop ≤ known.stop := by
  cases h with
  | @minLatency rtts _ _ _ _ _ hle hend hfind h =>
    intro s hs
    obtain ⟨known, hmem, hpeer, hstart, hstop, -⟩ :=
      (minLatency_routes (hknown rtts) hle hend hfind h).inside s hs
    exact ⟨known, hmem, hpeer, hstart, hstop⟩
  | @maxThroughput rtts _ _ _ _ hend hchoose h =>
    exact maxThroughput_inside (hknown rtts) hchoose hend _ _ (Nat.le_refl _) route h

/-- Any span of a block can be the whole route for it. -/
theorem makes_single {info : RemoteSequenceInfo Peer} {b : ℕ} (hb : b < info.blockInfos.length)
    {s : RemoteSpanInfo Peer} (hs : s ∈ info.containing b) (hc : s.Contains b) :
    info.Makes [{ s with start := b }] := by
  classical
  have hstop := hc.2
  let choose := fun (_ : ℕ) (candidates : List (RemoteSpanInfo Peer)) =>
    if s ∈ candidates then s else candidates.headD s
  have hchoose : ∀ b candidates, candidates ≠ [] → choose b candidates ∈ candidates := by
    intro b' candidates hne
    by_cases hmem : s ∈ candidates
    · simp [choose, hmem]
    · obtain ⟨t, rest, rfl⟩ := List.exists_cons_of_ne_nil hne
      simp [choose, hmem]
  have hrest : makeSequenceWithMaxThroughput ⟨info, .empty⟩ choose s.stop.toNat (b + 1) =
      .ok [] := by
    rw [makeSequenceWithMaxThroughput, if_neg (by omega)]
  have hchosen : choose b (info.containing b) = s := if_pos hs
  have hassert : s.start ≤ b ∧ (b : ℤ) < s.stop := hc
  have hroute : makeSequenceWithMaxThroughput ⟨info, .empty⟩ choose b (b + 1) =
      .ok [{ s with start := b }] := by
    rw [makeSequenceWithMaxThroughput, if_pos (Nat.lt_succ_self b)]
    simp only [if_neg (List.ne_nil_of_mem hs), hchosen]
    rw [if_pos hassert, hrest]
    rfl
  exact .maxThroughput hb hchoose hroute

/-- Between updates the tables stay as they are, through any run. -/
theorem sameTables_run {m' : Manager Peer} {events : List (ManagerEvent Peer)}
    (hevents : ∀ e ∈ events, e.Between)
    (h : run Manager.step (m.onRequestFailure (some p)) events = some m') : m.SameTables m' := by
  refine Runs.run_invariant_along (sameTables_onRequestFailure m (some p)) ?_
    (Runs.along_of_forall hevents) h
  intro s e t hs he hstep
  obtain ⟨hpriority, hcontaining, hlen⟩ := sameTables_step he hstep
  exact ⟨hpriority.trans hs.1, hcontaining.trans hs.2.1, hlen.trans hs.2.2⟩

/-- A manager that is stalled returns no route before the next update. -/
theorem Manager.Stalled.not_ready (hm : m.Stalled p) {m' : Manager Peer}
    {events : List (ManagerEvent Peer)} (hevents : ∀ e ∈ events, e.Between)
    (h : run Manager.step (m.onRequestFailure (some p)) events = some m') : m'.ready = false := by
  have hfailed : (m.onRequestFailure (some p)).Blocked := by
    refine ⟨?_, hm.2⟩
    rw [← Bool.not_eq_true, ready_onRequestFailure]
    rintro ⟨hready, hall⟩
    rcases hm.1 with hm | hm
    · rw [hm] at hready
      cases hready
    · exact hall hm
  have hkept : ∀ (s : Manager Peer) e s', s.Blocked → e.Between → s.step e = some s' →
      s'.Blocked := fun _ _ _ hs he hstep => blocked_step hs he hstep
  exact (Runs.run_invariant_along hfailed hkept (Runs.along_of_forall hevents) h).1

theorem RemoteSequenceInfo.Holds.lt {info : RemoteSequenceInfo Peer} {q : Peer} {b : ℕ}
    (h : info.Holds q b) : b < info.blockInfos.length := by
  obtain ⟨entry, -, hentry, -⟩ := h
  exact (List.getElem?_eq_some_iff.mp hentry).1

/-- Where no span of `p` lists a block of another server, no route has one. -/
theorem Manager.Unlisted.routes (hm : m.Unlisted p) (hsorted : m.Sorted) {m' : Manager Peer}
    (htables : m.SameTables m')
    {route : List (RemoteSpanInfo Peer)} (h : m'.info.Makes route) {s : RemoteSpanInfo Peer}
    (hs : s ∈ route) (hp : s.peerId = p) {b : ℕ} (hb : s.Contains b) {q : Peer} (hq : q ≠ p) :
    ¬ m.info.Holds q b := by
  intro hholds
  obtain ⟨spans, hknown⟩ := hsorted
  have hknown' : ∀ rtts, KnownSpans ⟨m'.info, rtts⟩ m'.info.blockInfos.length spans := by
    intro rtts
    rw [htables.2.2]
    exact ⟨(Prod.ext htables.1 htables.2.1).trans hknown.1, hknown.2⟩
  obtain ⟨known, hmem, hpeer, hstart, hstop⟩ := Makes.inside hknown' h s hs
  have hcontains : known.Contains b := ⟨hstart.trans hb.1, hb.2.trans_le hstop⟩
  refine hm b q hq hholds known ?_ (hpeer.trans hp)
  exact (hknown.mem_containing hholds.lt known).mpr ⟨hmem, hcontains⟩

/-- A manager that keeps what is asked is stalled, or never listed `p` for a block of another
server: otherwise the very next route may go through `p`. -/
theorem Manager.Honours.stalled_or_unlisted (h : m.Honours p) (hsorted : m.Sorted) :
    m.Stalled p ∨ m.Unlisted p := by
  rw [or_iff_not_imp_left]
  intro hstalled b q hq hholds s hs hp
  obtain ⟨spans, hknown⟩ := hsorted
  have hb : s.Contains b := ((hknown.mem_containing hholds.lt s).mp hs).2
  obtain ⟨events, m', hbetween, hrun, hready⟩ : ∃ (events : List (ManagerEvent Peer))
      (m' : Manager Peer), (∀ e ∈ events, e.Between) ∧
        run Manager.step (m.onRequestFailure (some p)) events = some m' ∧ m'.ready = true := by
    by_cases hphase : m.phase = .pinging
    · refine ⟨[.pinged], { m.onRequestFailure (some p) with phase := .waiting, ready := true },
        by simp [ManagerEvent.Between], ?_, rfl⟩
      have hphase' : (m.onRequestFailure (some p)).phase = .pinging := hphase
      simp [run, Manager.step, hphase']
    · have hready : (m.onRequestFailure (some p)).ready = true := by
        have hnot : ¬ _ := fun h => hstalled ⟨h, hphase⟩
        rw [not_or, Bool.not_eq_false] at hnot
        exact ready_onRequestFailure.mpr hnot
      exact ⟨[], _, by simp, rfl, hready⟩
  have htables := sameTables_run hbetween hrun
  have hs' : s ∈ m'.info.containing b := by
    rw [RemoteSequenceInfo.containing, htables.2.1]
    exact hs
  have hmade := makes_single (htables.2.2 ▸ hholds.lt) hs' hb
  exact h.1 events m' _ hrun hbetween hready hmade _ (List.mem_singleton_self _) hp b
    ⟨Nat.le_refl b, hb.2⟩ q hq hholds

/-- Where `p` was the only server of a block the update is triggered. -/
theorem triggered_of_only (h : ∃ entry ∈ m.info.blockInfos, (entry.servers.get? p).isSome ∧
    ∀ q, q ≠ p → entry.servers.get? q = none) :
    (m.onRequestFailure (some p)).ready = false ∧ (m.onRequestFailure (some p)).trigger = true := by
  obtain ⟨entry, hmem, -, honly⟩ := h
  have hupdate := shouldUpdate_iff.mpr ⟨entry, hmem, honly⟩
  simp [Manager.onRequestFailure, hupdate]

end Failed

/-- A failed peer leaves the blocks and stays in the spans. Before the next update no route sends
it a block that another known server holds just where no route can be returned at all, or where
its spans had none of these blocks. -/
theorem onRequestFailure_honours_iff (blockInfos : List (RemoteModuleInfo Peer)) (ready : Bool)
    (events : List (ManagerEvent Peer)) (m : Manager Peer) (p : Peer)
    (hrun : run Manager.step (.start blockInfos ready) events = some m) :
    m.Honours p ↔ m.Stalled p ∨ m.Unlisted p := by
  have hsorted := sorted_run hrun
  constructor
  · intro h
    exact h.stalled_or_unlisted hsorted
  · intro h
    refine ⟨?_, triggered_of_only⟩
    intro events m' route hrun hbetween hready hmade s hs hp b hb q hq
    rcases h with hstalled | hunlisted
    · rw [hstalled.not_ready hbetween hrun] at hready
      cases hready
    · exact hunlisted.routes hsorted (sameTables_run hbetween hrun) hmade hs hp hb hq

def managerOfServers (servers : List ℕ) : Manager ℕ :=
  .start [⟨0, servers.foldl (fun known p => known.set p (plainServer .online)) .empty⟩] true

/-- One server, which is the only one: its failure clears `ready`. -/
theorem onRequestFailure_honours_iff_solo : (managerOfServers [1]).Honours 1 := by
  refine (onRequestFailure_honours_iff _ true [] (managerOfServers [1]) 1 rfl).mpr (.inl ⟨?_, ?_⟩)
  · refine .inr ⟨⟨0, OrderedDict.empty.set 1 (plainServer .online)⟩, List.mem_singleton_self _, ?_⟩
    intro q hq
    rw [OrderedDict.get?_set, if_neg hq]
    rfl
  · decide

/-- Two servers hold the block and one of them fails: the very next route goes to it again. -/
theorem failed_peer_routed_again : ¬ (managerOfServers [1, 2]).Honours 1 := by
  intro h
  have hspans : (managerOfServers [1, 2]).info.containing 0 =
      [⟨1, 0, 1, plainServer .online⟩, ⟨2, 0, 1, plainServer .online⟩] := by
    simp [managerOfServers, Manager.start, RemoteSequenceInfo.ofBlockInfos, sortSpans,
      RemoteSequenceInfo.containing, computeSpans, sortedServers, visitEntry, OrderedDict.set,
      OrderedDict.get?, OrderedDict.push, OrderedDict.empty, OrderedDict.erase,
      OrderedDict.filter, OrderedDict.replace, plainServer, spanOfEntry,
      RemoteSpanInfo.length, List.mergeSort, List.MergeSort.Internal.splitInTwo,
      List.range_succ, RemoteSpanInfo.Contains]
  rcases h.stalled_or_unlisted (sorted_of_blockInfos rfl) with hstalled | hunlisted
  · rcases hstalled.1 with hready | ⟨entry, hentry, honly⟩
    · cases hready
    · obtain rfl := List.mem_singleton.mp hentry
      cases honly 2 (by decide)
  · refine hunlisted 0 2 (by decide) ⟨_, plainServer .online, rfl, rfl⟩
      ⟨1, 0, 1, plainServer .online⟩ ?_ rfl
    rw [hspans]
    exact List.mem_cons_self

end BloomBee.Routing
