import BloomBee.Sanity.ComputeSpans
import BloomBee.Proofs.SequenceManager

/-! Which blocks the spans of `compute_spans` take up, and that routes stay inside them. A peer
need not be declared at all of these blocks: its span fills the holes and follows the bounds it
announces. -/

set_option autoImplicit false

namespace BloomBee.Routing

variable {Peer : Type} [LinearOrder Peer]

/-- The index of the first module, which the announced bounds are relative to. -/
def blockOffset (moduleInfos : List (RemoteModuleInfo Peer)) : ℕ :=
  (moduleInfos.head?.map fun m => m.blockIndex).getD 0

theorem spanOf_computeSpans (moduleInfos : List (RemoteModuleInfo Peer)) (minState : ServerState)
    (peer : Peer) :
    SpanOf (blockOffset moduleInfos) moduleInfos.length moduleInfos minState peer
      ((computeSpans moduleInfos minState).get? peer) :=
  spanOf_spansOf _ _ minState peer moduleInfos

theorem mem_computeSpans {moduleInfos : List (RemoteModuleInfo Peer)} {minState : ServerState}
    {peer : Peer} {span : RemoteSpanInfo Peer}
    (h : (peer, span) ∈ (computeSpans moduleInfos minState).entries) :
    span.peerId = peer ∧ ∃ first last info,
      Highest moduleInfos minState peer first last info ∧ ∀ b, span.Contains b ↔
        Spanned (blockOffset moduleInfos) moduleInfos.length first last info b := by
  have hspan := spanOf_computeSpans moduleInfos minState peer
  rw [OrderedDict.get?_eq_some_iff.mpr h] at hspan
  obtain ⟨first, last, info, hhigh, hspan⟩ := hspan
  exact ⟨by rw [hspan, peerId_extended], first, last, info, hhigh,
    contains_iff_spanned hhigh.le hspan⟩

theorem knownSpans_ofBlockInfos {st : RoutingState Peer}
    {blockInfos : List (RemoteModuleInfo Peer)} (h : st.info = .ofBlockInfos blockInfos) :
    KnownSpans st blockInfos.length ((computeSpans blockInfos .online).entries.map Prod.snd) := by
  refine ⟨?_, ?_⟩
  · rw [h]
    rfl
  · have hkeys : ((computeSpans blockInfos .online).entries.map Prod.snd).map
        (fun s => s.peerId) = (computeSpans blockInfos .online).entries.map Prod.fst := by
      rw [List.map_map]
      exact List.map_congr_left fun e he => (mem_computeSpans he).1
    rw [hkeys]
    exact (computeSpans blockInfos .online).nodup

theorem minLatency_routes {st : RoutingState Peer} {numBlocks : ℕ}
    {spans : List (RemoteSpanInfo Peer)} (h : KnownSpans st numBlocks spans)
    {startIndex endIndex : ℕ} (hle : startIndex ≤ endIndex) (hend : endIndex ≤ numBlocks)
    {cacheTokensNeeded : Option ℕ} {findPath : Graph Peer → Option (List (Node Peer))}
    (hfind : ∀ g nodes, findPath g = some nodes → g.IsPath nodes)
    {route : List (RemoteSpanInfo Peer)}
    (hroute : makeSequenceWithMinLatency st startIndex endIndex cacheTokensNeeded findPath =
      .ok route) : Routes spans startIndex endIndex route := by
  have hcall := hroute
  unfold makeSequenceWithMinLatency at hcall
  split_ifs at hcall with heq
  · rw [← Except.ok.inj hcall]
    exact ⟨heq, fun s hs => absurd hs List.not_mem_nil⟩
  dsimp only at hcall
  split_ifs at hcall with hmissing
  obtain ⟨g, hg, -⟩ := Fallible.bind_eq_ok hcall
  have hlt := Nat.lt_of_le_of_ne hle heq
  have hcov := (h.missingBlocks_eq_nil_iff hend).mp (not_not.mp hmissing)
  rw [makeSequenceWithMinLatency_eq heq (not_not.mp hmissing) hg] at hroute
  rcases hnodes : findPath g with - | nodes
  · rw [hnodes] at hroute
    cases hroute
  rw [hnodes, Option.elim_some] at hroute
  have hedge := (h.buildInferenceGraph_spec hlt hend hcov).2 g hg
  obtain ⟨route', hroute', hroutes⟩ := spanSequence_routes h hlt hend hedge (hfind g nodes hnodes)
  rw [hroute'] at hroute
  exact Except.ok.inj hroute ▸ hroutes

/-- The spans of `compute_spans` and the routes over them, exactly. A peer has a span if and only
if it is declared somewhere, and the first and the last entry of its highest state decide which
blocks the span takes up. Every block that a route of either mode sends to a server, after the
filters of `_update`, is one of these. -/
theorem computeSpans_exact (moduleInfos : List (RemoteModuleInfo Peer)) (lists : PeerLists Peer)
    (st : RoutingState Peer) (startIndex endIndex : ℕ) (cacheTokensNeeded : Option ℕ)
    (findPath : Graph Peer → Option (List (Node Peer)))
    (choose : ℕ → List (RemoteSpanInfo Peer) → RemoteSpanInfo Peer)
    (hupdate : st.info = .update lists moduleInfos) (hle : startIndex ≤ endIndex)
    (hend : endIndex ≤ moduleInfos.length)
    (hfind : ∀ g nodes, findPath g = some nodes → g.IsPath nodes)
    (hchoose : ∀ b candidates, candidates ≠ [] → choose b candidates ∈ candidates) :
    (∀ minState peer, match (computeSpans moduleInfos minState).get? peer with
      | none => ∀ b, ¬ Declared moduleInfos minState peer b
      | some span => ∃ first last info, Highest moduleInfos minState peer first last info ∧
          ∀ b, span.Contains b ↔
            Spanned (blockOffset moduleInfos) moduleInfos.length first last info b) ∧
      ∀ route,
        (makeSequenceWithMinLatency st startIndex endIndex cacheTokensNeeded findPath = .ok route ∨
          makeSequenceWithMaxThroughput st choose startIndex endIndex = .ok route) →
        ∀ s ∈ route, ∃ first last info,
          Highest (moduleInfos.map (filterServers lists)) .online s.peerId first last info ∧
            ∀ b, s.Contains b →
              Spanned (blockOffset moduleInfos) moduleInfos.length first last info b := by
  constructor
  · intro minState peer
    rcases h : (computeSpans moduleInfos minState).get? peer with - | span
    · have hspan := spanOf_computeSpans moduleInfos minState peer
      rw [h] at hspan
      exact hspan
    · exact (mem_computeSpans (OrderedDict.get?_eq_some_iff.mp h)).2
  · intro route hroute s hs
    have hknown := knownSpans_ofBlockInfos hupdate
    rw [List.length_map] at hknown
    obtain ⟨known, hmem, hpeer, hstart, hstop⟩ : ∃ known ∈
        (computeSpans (moduleInfos.map (filterServers lists)) .online).entries.map Prod.snd,
        known.peerId = s.peerId ∧ known.start ≤ s.start ∧ s.stop ≤ known.stop := by
      rcases hroute with hroute | hroute
      · obtain ⟨known, hmem, hpeer, hstart, hstop, -⟩ :=
          (minLatency_routes hknown hle hend hfind hroute).inside s hs
        exact ⟨known, hmem, hpeer, hstart, hstop⟩
      · exact maxThroughput_inside hknown hchoose hend _ startIndex (Nat.le_refl _) route hroute s hs
    obtain ⟨⟨peer, known'⟩, hentry, rfl⟩ := List.mem_map.mp hmem
    obtain ⟨hown, first, last, info, hhigh, hblocks⟩ := mem_computeSpans hentry
    have hoffset : blockOffset (moduleInfos.map (filterServers lists)) = blockOffset moduleInfos := by
      unfold blockOffset
      rcases moduleInfos with - | ⟨m, moduleInfos⟩
      · rfl
      · show (filterServers lists m).blockIndex = m.blockIndex
        unfold filterServers
        dsimp only
        split_ifs <;> rfl
    rw [hoffset, List.length_map] at hblocks
    refine ⟨first, last, info, ?_, fun b hb => (hblocks b).mp ⟨?_, ?_⟩⟩
    · rw [← hpeer, hown]
      exact hhigh
    · exact Nat.le_trans hstart hb.1
    · exact Int.lt_of_lt_of_le hb.2 hstop

def atBlocks (info : ServerInfo ℕ) (present : List Bool) : List (RemoteModuleInfo ℕ) :=
  present.mapIdx fun b here => ⟨b, if here then OrderedDict.empty.set 1 info else .empty⟩

def rangeServer : ServerInfo ℕ := ⟨.online, some 0, some 2, none, none, none⟩

/-- What is known of a server that is found at the first and the last of three blocks. -/
def holedState : RoutingState ℕ :=
  ⟨.update ⟨none, none, []⟩ (atBlocks (plainServer .online) [true, false, true]), .empty⟩

def firstCandidate (_ : ℕ) (candidates : List (RemoteSpanInfo ℕ)) : RemoteSpanInfo ℕ :=
  candidates.headD ⟨1, 0, 3, plainServer .online⟩

theorem info_holedState : holedState.info =
    ⟨atBlocks (plainServer .online) [true, false, true], [⟨1, 0, 3, plainServer .online⟩],
      List.replicate 3 [⟨1, 0, 3, plainServer .online⟩]⟩ := by
  simp [holedState, RemoteSequenceInfo.update, RemoteSequenceInfo.ofBlockInfos, filterServers,
    sortSpans, computeSpans, atBlocks, sortedServers, visitEntry, OrderedDict.set,
    OrderedDict.get?, OrderedDict.push, OrderedDict.empty, OrderedDict.erase, OrderedDict.filter,
    OrderedDict.replace, plainServer, spanOfEntry, RemoteSpanInfo.state, List.zipIdx,
    List.range_succ, RemoteSpanInfo.Contains]

theorem route_holedState : makeSequenceWithMaxThroughput holedState firstCandidate 0 3 =
    .ok [⟨1, 0, 3, plainServer .online⟩] := by
  have hcontaining : holedState.info.containing 0 = [⟨1, 0, 3, plainServer .online⟩] := by
    rw [info_holedState]
    rfl
  rw [makeSequenceWithMaxThroughput, hcontaining]
  show (do
    let rest ← makeSequenceWithMaxThroughput holedState firstCandidate 3 3
    return (⟨1, 0, 3, plainServer .online⟩ : RemoteSpanInfo ℕ) :: rest) = _
  rw [makeSequenceWithMaxThroughput]
  rfl

/-- A server that is not declared at block 1: its span fills the hole, or follows the bounds that
it announces, and a route sends block 1 to it. -/
theorem spans_fill_holes :
    (∃ span, (computeSpans (atBlocks (plainServer .online) [true, false, true]) .online).get? 1 =
        some span ∧ span.Contains 1 ∧
      ¬ Declared (atBlocks (plainServer .online) [true, false, true]) .online 1 1 ∧
      makeSequenceWithMaxThroughput holedState firstCandidate 0 3 = .ok [span]) ∧
    ∃ span, (computeSpans (atBlocks rangeServer [true, false]) .online).get? 1 = some span ∧
      span.Contains 1 ∧ ¬ Declared (atBlocks rangeServer [true, false]) .online 1 1 := by
  refine ⟨⟨⟨1, 0, 3, plainServer .online⟩, ?_, by decide, ?_, route_holedState⟩,
    ⟨1, 0, 2, rangeServer⟩, ?_, by decide, ?_⟩
  · simp [computeSpans, atBlocks, sortedServers, visitEntry, OrderedDict.set, OrderedDict.get?,
      OrderedDict.push, OrderedDict.empty, OrderedDict.erase, OrderedDict.filter,
      OrderedDict.replace, plainServer, spanOfEntry, RemoteSpanInfo.state, List.zipIdx]
  · rintro ⟨info, h, -⟩
    cases h
  · simp [computeSpans, atBlocks, sortedServers, visitEntry, OrderedDict.set, OrderedDict.get?,
      OrderedDict.push, OrderedDict.empty, OrderedDict.erase, OrderedDict.filter, rangeServer,
      spanOfEntry, List.zipIdx]
  · rintro ⟨info, h, -⟩
    cases h

theorem computeSpans_exact_hole : ∃ first last info,
    Highest ((atBlocks (plainServer .online) [true, false, true]).map
      (filterServers ⟨none, none, []⟩)) .online 1 first last info ∧
    ∀ b : ℕ, 0 ≤ b ∧ (b : ℤ) < 3 → Spanned 0 3 first last info b := by
  refine (computeSpans_exact (atBlocks (plainServer .online) [true, false, true])
    ⟨none, none, []⟩ holedState 0 3 none (fun _ => none) firstCandidate rfl (by decide) (by decide)
    (fun g nodes h => by cases h) ?_).2 _ (.inr route_holedState) _ (List.mem_singleton_self _)
  intro b candidates hne
  rcases candidates with - | ⟨s, candidates⟩
  · exact absurd rfl hne
  · exact List.mem_cons_self

end BloomBee.Routing
