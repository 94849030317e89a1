import Mathlib.Algebra.BigOperators.Ring.List
import Mathlib.Algebra.Order.BigOperators.Group.List
import Mathlib.Algebra.Order.Monoid.Unbundled.WithTop
import Mathlib.Tactic.Linarith
import Mathlib.Tactic.NormNum
import BloomBee.Proofs.ComputeSpans
import BloomBee.Spec.RouteArithmetic

/-! Which values that a server announces make routing fail by more than `MissingBlocksError`: a
rate of zero for a block that is asked for, and nothing else. -/

set_option autoImplicit false

namespace BloomBee.Routing

open Fallible

variable {Peer : Type}

/-- Routing returns a route or raises `MissingBlocksError`. -/
def FailsOnlyByMissing (result : Except RouteFailure (List (RemoteSpanInfo Peer))) : Prop :=
  (∃ route, result = .ok route) ∨ ∃ blocks, result = .error (.routing (.missingBlocks blocks))

/-- No span that takes up one of the blocks announces a rate of zero. -/
def NonzeroRps (spans : List (RemoteSpanInfo Peer)) (startIndex endIndex : ℕ) : Prop :=
  ∀ s ∈ spans, (∃ b, startIndex ≤ b ∧ b < endIndex ∧ s.Contains b) →
    s.serverInfo.inferenceRps ≠ some 0

theorem inferenceDelay_cases (info : ServerInfo Peer) :
    info.inferenceRps ≠ some 0 ∧ inferenceDelay info = .ok (blockDelay info) ∨
      info.inferenceRps = some 0 ∧ inferenceDelay info = .error .zeroDivision := by
  unfold inferenceDelay blockDelay
  rcases info.inferenceRps with - | r
  · left
    refine ⟨by simp, if_neg ?_⟩
    rw [Option.getD_none]
    decide
  · by_cases hr : r = 0
    · right
      simp [hr]
    · left
      simp [hr]

variable {st : RoutingState Peer} {numBlocks : ℕ} {spans : List (RemoteSpanInfo Peer)}
  {startIndex endIndex : ℕ} {cacheTokensNeeded : Option ℕ}

/-- The edges through the blocks can be built just where no rate is zero. -/
theorem KnownSpans.computeEdges_cases (h : KnownSpans st numBlocks spans)
    (startIndex endIndex : ℕ) :
    NonzeroRps spans startIndex endIndex ∧
        (∃ edges, computeEdges st startIndex endIndex = .ok edges) ∨
      ¬ NonzeroRps spans startIndex endIndex ∧
        computeEdges st startIndex endIndex = .error .zeroDivision := by
  rw [computeEdges_eq_mapM]
  by_cases hrps : NonzeroRps spans startIndex endIndex
  · left
    refine ⟨hrps, _, mapM_eq_ok (g := blockEdge) ?_⟩
    rintro ⟨s, b⟩ hsb
    obtain ⟨hs, hstart, hlt, hc⟩ := (h.mem_graphBlocks s b).mp hsb
    rcases inferenceDelay_cases s.serverInfo with ⟨-, hdelay⟩ | ⟨hzero, -⟩
    · rw [hdelay]
      rfl
    · exact absurd hzero (hrps s hs ⟨b, hstart, hlt, hc⟩)
  · right
    refine ⟨hrps, mapM_eq_error ?_ ?_⟩
    · rintro ⟨s, b⟩ -
      rcases inferenceDelay_cases s.serverInfo with ⟨-, hdelay⟩ | ⟨-, hdelay⟩
      · rw [hdelay]
        exact .inl ⟨_, rfl⟩
      · rw [hdelay]
        exact .inr rfl
    · unfold NonzeroRps at hrps
      push Not at hrps
      obtain ⟨s, hs, ⟨b, hstart, hlt, hc⟩, hzero⟩ := hrps
      refine ⟨(s, b), (h.mem_graphBlocks s b).mpr ⟨hs, hstart, hlt, hc⟩, ?_⟩
      rcases inferenceDelay_cases s.serverInfo with ⟨hne, -⟩ | ⟨-, hdelay⟩
      · exact absurd hzero hne
      · rw [hdelay]
        rfl

/-! ### The costs -/

theorem rttToDelay_nonneg {rtt : Option (WithTop ℚ)}
    (h : ∀ r ∈ rtt, ((0 : ℚ) : WithTop ℚ) ≤ r) : 0 ≤ rttToDelay rtt := by
  rcases rtt with - | - | r
  · unfold rttToDelay
    norm_num
  · unfold rttToDelay
    norm_num
  · have hr : (0 : ℚ) ≤ r := WithTop.coe_le_coe.mp (h _ rfl)
    unfold rttToDelay
    exact le_min (by linarith) (by norm_num)

theorem entryDelay_pos {rtt : Option (WithTop ℚ)} (h : ∀ r ∈ rtt, ((0 : ℚ) : WithTop ℚ) ≤ r)
    (span : RemoteSpanInfo Peer) (cacheTokensNeeded : Option ℕ) :
    0 < entryDelay rtt span cacheTokensNeeded := by
  have hdelay := rttToDelay_nonneg h
  unfold entryDelay overheadDelay allocDelay
  split_ifs
  · linarith
  · linarith

theorem blockDelay_nonneg {info : ServerInfo Peer} (h : info.Admitted) : 0 ≤ blockDelay info := by
  unfold blockDelay
  rcases hr : info.inferenceRps with - | r
  · rw [Option.getD_none]
    norm_num
  · rw [Option.getD_some]
    exact div_nonneg zero_le_one (h.inferenceRps r hr)

section Modes

variable [DecidableEq Peer]

/-- No edge costs less than nothing, and to get in costs something. -/
def Graph.Costed (g : Graph Peer) : Prop :=
  ∀ e ∈ g.entries, 0 ≤ e.2 ∧ (e.1.1 = .start → 0 < e.2)

theorem ping_nonneg {pings : OrderedDict Peer (WithTop ℚ)}
    (h : ∀ e ∈ pings.entries, ((0 : ℚ) : WithTop ℚ) ≤ e.2) (peer : Peer) :
    ∀ r ∈ pings.get? peer, ((0 : ℚ) : WithTop ℚ) ≤ r :=
  fun r hr => h (peer, r) (OrderedDict.get?_eq_some_iff.mp hr)

theorem KnownSpans.costed (h : KnownSpans st numBlocks spans)
    (hinfos : ∀ s ∈ spans, s.serverInfo.Admitted)
    (hrtts : ∀ e ∈ st.rtts.entries, ((0 : ℚ) : WithTop ℚ) ≤ e.2) (hlt : startIndex < endIndex)
    (hend : endIndex ≤ numBlocks) {g : Graph Peer}
    (hg : buildInferenceGraph st startIndex endIndex cacheTokensNeeded = .ok g) : g.Costed := by
  have hknown {b : ℕ} (hb : b < endIndex) {s : RemoteSpanInfo Peer}
      (hs : s ∈ st.info.containing b) : s ∈ spans :=
    ((h.mem_containing (Nat.lt_of_lt_of_le hb hend) s).mp hs).1
  unfold buildInferenceGraph at hg
  dsimp only at hg
  split_ifs at hg
  obtain ⟨compute, hcompute, hg⟩ := bind_eq_ok hg
  obtain rfl := Except.ok.inj hg
  intro e he
  rcases OrderedDict.mem_foldl_set he with he | ⟨e', he', rfl⟩
  · exact absurd he List.not_mem_nil
  rcases List.mem_append.mp he' with he' | hcomputed
  · rcases List.mem_append.mp he' with he' | hswitch
    · rcases List.mem_append.mp he' with henter | hleave
      · obtain ⟨s, -, rfl⟩ := List.mem_map.mp henter
        have hpos := entryDelay_pos (ping_nonneg hrtts s.peerId) s cacheTokensNeeded
        exact ⟨le_of_lt hpos, fun _ => hpos⟩
      · obtain ⟨s, -, rfl⟩ := List.mem_map.mp hleave
        exact ⟨rttToDelay_nonneg (ping_nonneg hrtts s.peerId), fun hstart => by cases hstart⟩
    · obtain ⟨b, hb, hswitch⟩ := List.mem_flatMap.mp hswitch
      obtain ⟨current, hcurrent, hswitch⟩ := List.mem_flatMap.mp hswitch
      have hb := List.mem_range'_1.mp hb
      split_ifs at hswitch with hstop
      · exact absurd hswitch List.not_mem_nil
      · obtain ⟨next, -, rfl⟩ := List.mem_map.mp hswitch
        have hadmitted := hinfos current (hknown (by omega) hcurrent)
        refine ⟨le_of_lt (entryDelay_pos ?_ next cacheTokensNeeded), fun hstart => by cases hstart⟩
        intro r hr
        obtain ⟨pings, hpings, hr⟩ := Option.mem_bind_iff.mp hr
        exact ping_nonneg (hadmitted.nextPings pings hpings) next.peerId r hr
  · rw [computeEdges_eq_map hcompute] at hcomputed
    obtain ⟨⟨s, b⟩, hsb, rfl⟩ := List.mem_map.mp hcomputed
    have hs := ((h.mem_graphBlocks s b).mp hsb).1
    exact ⟨blockDelay_nonneg (hinfos s hs), fun hstart => by cases hstart⟩

theorem Graph.totalCost_cons_cons (g : Graph Peer) (u v : Node Peer) (nodes : List (Node Peer)) :
    g.totalCost (u :: v :: nodes) = (g.get? (u, v)).getD 0 + g.totalCost (v :: nodes) := rfl

theorem Graph.Costed.totalCost_nonneg {g : Graph Peer} (hg : g.Costed) (nodes : List (Node Peer)) :
    0 ≤ g.totalCost nodes := by
  refine List.sum_nonneg ?_
  intro cost hcost
  obtain ⟨e, -, rfl⟩ := List.mem_map.mp hcost
  rcases he : g.get? e with - | cost
  · exact le_refl 0
  · exact (hg _ (OrderedDict.get?_eq_some_iff.mp he)).1

theorem Graph.Costed.totalCost_pos {g : Graph Peer} (hg : g.Costed) {nodes : List (Node Peer)}
    (h : g.IsPath nodes) : 0 < g.totalCost nodes := by
  obtain ⟨hhead, hlast, hedges⟩ := h
  rcases nodes with - | ⟨u, - | ⟨v, nodes⟩⟩
  · cases hhead
  · obtain rfl := Option.some.inj hhead
    cases hlast
  · obtain rfl := Option.some.inj hhead
    obtain ⟨cost, hedge⟩ := (List.isChain_cons_cons.mp hedges).1
    rw [g.totalCost_cons_cons, OrderedDict.get?_eq_some_iff.mpr hedge, Option.getD_some]
    have hcost := (hg _ hedge).2 rfl
    have hrest := hg.totalCost_nonneg (v :: nodes)
    linarith

/-! ### The latency mode -/

/-- Wherever the search returns a path of the graph, the speed that is logged divides nothing by
zero. -/
theorem logged_eq (h : KnownSpans st st.info.blockInfos.length spans)
    (hinfos : ∀ s ∈ spans, s.serverInfo.Admitted)
    (hrtts : ∀ e ∈ st.rtts.entries, ((0 : ℚ) : WithTop ℚ) ≤ e.2) (hlt : startIndex < endIndex)
    (hend : endIndex ≤ st.info.blockInfos.length)
    {findPath : Graph Peer → Option (List (Node Peer))}
    (hpath : ∀ g, buildInferenceGraph st startIndex endIndex cacheTokensNeeded = .ok g →
      ∀ nodes, findPath g = some nodes → g.IsPath nodes) :
    makeSequenceWithMinLatencyLogged st startIndex endIndex cacheTokensNeeded findPath =
      (makeSequenceWithMinLatency st startIndex endIndex cacheTokensNeeded findPath).mapError
        .routing := by
  unfold makeSequenceWithMinLatencyLogged makeSequenceWithMinLatency
  rw [if_neg (Nat.ne_of_lt hlt), if_neg (Nat.ne_of_lt hlt)]
  dsimp only
  by_cases hmissing : missingBlocks st startIndex endIndex = []
  swap
  · rw [if_pos hmissing, if_pos hmissing]
    rfl
  rw [if_neg (not_not.mpr hmissing), if_neg (not_not.mpr hmissing)]
  rcases hg : buildInferenceGraph st startIndex endIndex cacheTokensNeeded with error | g
  · rfl
  have hgraph : (Except.ok g : Except RoutingError (Graph Peer)).mapError RouteFailure.routing =
      .ok g := rfl
  rw [hgraph, Fallible.ok_bind, Fallible.ok_bind]
  rcases hfound : findPath g with - | nodes
  · rfl
  · have hcost := (h.costed hinfos hrtts hlt hend hg).totalCost_pos (hpath g hg nodes hfound)
    have hspeed : expectedSpeed g nodes = .ok (1 / g.totalCost nodes) := if_neg (ne_of_gt hcost)
    dsimp only
    rw [hspeed]
    split_ifs
    · rfl
    · rfl

/-- Where the blocks are covered, a rate of zero for one of them is divided by. -/
theorem KnownSpans.minLatency_zeroDivision (h : KnownSpans st numBlocks spans)
    (hlt : startIndex < endIndex) (hend : endIndex ≤ numBlocks)
    (hcov : Covered spans startIndex endIndex) (hrps : ¬ NonzeroRps spans startIndex endIndex)
    (findPath : Graph Peer → Option (List (Node Peer))) :
    makeSequenceWithMinLatencyLogged st startIndex endIndex cacheTokensNeeded findPath =
      .error (.routing .zeroDivision) := by
  have hmissing := (h.missingBlocks_eq_nil_iff hend).mpr hcov
  have herror : computeEdges st startIndex endIndex = .error .zeroDivision := by
    rcases h.computeEdges_cases startIndex endIndex with ⟨hrps', -⟩ | ⟨-, herror⟩
    · exact absurd hrps' hrps
    · exact herror
  have hg : buildInferenceGraph st startIndex endIndex cacheTokensNeeded =
      .error .zeroDivision := by
    rw [buildInferenceGraph, hmissing, if_neg (not_not.mpr rfl), herror]
    rfl
  unfold makeSequenceWithMinLatencyLogged
  rw [if_neg (Nat.ne_of_lt hlt)]
  dsimp only
  rw [if_neg (not_not.mpr hmissing), hg]
  rfl

/-- With a search that finds a path wherever there is one, the latency mode fails otherwise than
by missing blocks just where the blocks are covered and a rate is zero. -/
theorem minLatency_failsOnlyByMissing_iff (h : KnownSpans st st.info.blockInfos.length spans)
    (hinfos : ∀ s ∈ spans, s.serverInfo.Admitted)
    (hrtts : ∀ e ∈ st.rtts.entries, ((0 : ℚ) : WithTop ℚ) ≤ e.2) (hlt : startIndex < endIndex)
    (hend : endIndex ≤ st.info.blockInfos.length)
    {findPath : Graph Peer → Option (List (Node Peer))}
    (hpath : ∀ g, buildInferenceGraph st startIndex endIndex cacheTokensNeeded = .ok g →
      ∀ nodes, findPath g = some nodes → g.IsPath nodes)
    (hfind : ∀ g, buildInferenceGraph st startIndex endIndex cacheTokensNeeded = .ok g →
      FindsPath findPath g) :
    FailsOnlyByMissing
        (makeSequenceWithMinLatencyLogged st startIndex endIndex cacheTokensNeeded findPath) ↔
      (Covered spans startIndex endIndex → NonzeroRps spans startIndex endIndex) := by
  rw [logged_eq h hinfos hrtts hlt hend hpath]
  by_cases hcov : Covered spans startIndex endIndex
  swap
  · have hmissing : missingBlocks st startIndex endIndex ≠ [] :=
      fun hnil => hcov ((h.missingBlocks_eq_nil_iff hend).mp hnil)
    unfold makeSequenceWithMinLatency
    rw [if_neg (Nat.ne_of_lt hlt)]
    dsimp only
    rw [if_pos hmissing]
    exact iff_of_true (.inr ⟨_, rfl⟩) fun hc => absurd hc hcov
  have hmissing := (h.missingBlocks_eq_nil_iff hend).mpr hcov
  rcases h.computeEdges_cases startIndex endIndex with ⟨hrps, edges, hedges⟩ | ⟨hrps, -⟩
  · obtain ⟨g, hg⟩ : ∃ g, buildInferenceGraph st startIndex endIndex cacheTokensNeeded = .ok g := by
      rw [buildInferenceGraph, hmissing, if_neg (not_not.mpr rfl), hedges]
      exact ⟨_, rfl⟩
    have hedge := (h.buildInferenceGraph_spec hlt hend hcov).2 g hg
    obtain ⟨nodes, hfound, hnodes⟩ := hfind g hg (hcov.exists_isPath hlt hedge)
    obtain ⟨route, hroute, -⟩ := spanSequence_routes h hlt hend hedge hnodes
    rw [makeSequenceWithMinLatency_eq (Nat.ne_of_lt hlt) hmissing hg, hfound, Option.elim_some,
      hroute]
    exact iff_of_true (.inl ⟨route, rfl⟩) fun _ => hrps
  · rw [← logged_eq h hinfos hrtts hlt hend hpath,
      h.minLatency_zeroDivision hlt hend hcov hrps findPath]
    refine iff_of_false ?_ fun hall => hrps (hall hcov)
    rintro (⟨route, hroute⟩ | ⟨blocks, hblocks⟩)
    · cases hroute
    · cases hblocks

/-! ### The throughput mode -/

omit [DecidableEq Peer] in
theorem normalized_sum {weights : List ℚ} (h : ∀ w ∈ weights, 0 < w) (hne : weights ≠ []) :
    (normalized weights).sum = 1 := by
  have hsum : 0 < weights.sum := List.sum_pos weights h hne
  have hdiv : (normalized weights).sum = weights.sum / weights.sum := by
    unfold normalized
    simp only [div_eq_mul_inv]
    rw [List.sum_map_mul_right, List.map_id']
  rw [hdiv, div_self (ne_of_gt hsum)]

omit [DecidableEq Peer] in
theorem normalized_pos {weights : List ℚ} (h : ∀ w ∈ weights, 0 < w) :
    ∀ q ∈ normalized weights, 0 < q := by
  intro q hq
  obtain ⟨w, hw, rfl⟩ := List.mem_map.mp hq
  exact div_pos (h w hw) (List.sum_pos weights h (List.ne_nil_of_mem hw))

/-- A span that takes up a block has a positive weight, whatever the ping to its peer is. -/
theorem spanWeights_pos {b : ℕ} {candidates : List (RemoteSpanInfo Peer)}
    (h : ∀ s ∈ candidates, s.Contains b) : ∀ w ∈ spanWeights st candidates, 0 < w := by
  intro w hw
  obtain ⟨s, hs, rfl⟩ := List.mem_map.mp hw
  obtain ⟨hstart, hstop⟩ := h s hs
  split_ifs
  · norm_num
  · have hlen : 0 < s.length := by
      unfold RemoteSpanInfo.length
      omega
    exact_mod_cast hlen

def Draws (draw : ℕ → List (RemoteSpanInfo Peer × ℚ) → RemoteSpanInfo Peer) : Prop :=
  ∀ b weighted, (∃ e ∈ weighted, 0 < e.2) → ∃ e ∈ weighted, 0 < e.2 ∧ draw b weighted = e.1

/-- The choice among the candidates for a block is never refused. -/
theorem randomChoice_eq {b : ℕ} {candidates : List (RemoteSpanInfo Peer)}
    (hne : candidates ≠ []) (h : ∀ s ∈ candidates, s.Contains b)
    (draw : List (RemoteSpanInfo Peer × ℚ) → RemoteSpanInfo Peer) :
    randomChoice draw candidates (normalized (spanWeights st candidates)) =
      .ok (draw (candidates.zip (normalized (spanWeights st candidates)))) := by
  have hpos := @spanWeights_pos _ st _ _ _ h
  have hweights : spanWeights st candidates ≠ [] := by
    unfold spanWeights
    simpa using hne
  refine if_pos ⟨hne, ?_, fun q hq => le_of_lt (normalized_pos hpos q hq),
    normalized_sum hpos hweights⟩
  simp [normalized, spanWeights]

theorem draw_mem {draw : ℕ → List (RemoteSpanInfo Peer × ℚ) → RemoteSpanInfo Peer}
    (hdraw : Draws draw) {b : ℕ} {candidates : List (RemoteSpanInfo Peer)}
    (hne : candidates ≠ []) (h : ∀ s ∈ candidates, s.Contains b) :
    draw b (candidates.zip (normalized (spanWeights st candidates))) ∈ candidates := by
  have hlen : candidates.length = (normalized (spanWeights st candidates)).length := by
    simp [normalized, spanWeights]
  obtain ⟨s, rest, rfl⟩ := List.exists_cons_of_ne_nil hne
  obtain ⟨q, p, hp⟩ := List.exists_cons_of_ne_nil (l := normalized (spanWeights st (s :: rest))) (by
    simp [normalized, spanWeights])
  have hq : 0 < q := normalized_pos (spanWeights_pos h) q (hp ▸ List.mem_cons_self)
  rw [hp]
  obtain ⟨e, he, -, heq⟩ := hdraw b ((s :: rest).zip (q :: p)) ⟨(s, q), List.mem_cons_self, hq⟩
  rw [heq]
  exact (List.of_mem_zip he).1

/-- The throughput mode raises nothing but `MissingBlocksError`: by induction on the blocks that
are left. -/
theorem sampled_failsOnlyByMissing (h : KnownSpans st numBlocks spans) (hend : endIndex ≤ numBlocks)
    {draw : ℕ → List (RemoteSpanInfo Peer × ℚ) → RemoteSpanInfo Peer} (hdraw : Draws draw) :
    ∀ (n currentIndex : ℕ), endIndex - currentIndex ≤ n →
      FailsOnlyByMissing (makeSequenceWithMaxThroughputSampled st draw currentIndex endIndex) := by
  have hdone {currentIndex : ℕ} (hlt : ¬ currentIndex < endIndex) :
      FailsOnlyByMissing (makeSequenceWithMaxThroughputSampled st draw currentIndex endIndex) := by
    rw [makeSequenceWithMaxThroughputSampled, if_neg hlt]
    exact .inl ⟨[], rfl⟩
  intro n
  induction n with
  | zero => exact fun currentIndex hn => hdone (by omega)
  | succ n ih =>
    intro currentIndex hn
    by_cases hlt : currentIndex < endIndex
    swap
    · exact hdone hlt
    have hcontains : ∀ s ∈ st.info.containing currentIndex, s.Contains currentIndex :=
      fun s hs => ((h.mem_containing (Nat.lt_of_lt_of_le hlt hend) s).mp hs).2
    rw [makeSequenceWithMaxThroughputSampled, if_pos hlt]
    dsimp only
    by_cases hne : st.info.containing currentIndex = []
    · rw [if_pos hne]
      exact .inr ⟨_, rfl⟩
    have hchosen := hcontains _ (@draw_mem _ st _ _ hdraw _ _ hne hcontains)
    have hassert := hchosen
    unfold RemoteSpanInfo.Contains at hassert
    rw [if_neg hne, randomChoice_eq hne hcontains]
    dsimp only
    rw [if_pos hassert]
    rcases ih (draw currentIndex ((st.info.containing currentIndex).zip (normalized (spanWeights st
      (st.info.containing currentIndex))))).stop.toNat (by omega) with ⟨rest, hrest⟩ | ⟨blocks, hrest⟩
    · rw [hrest]
      exact .inl ⟨_, rfl⟩
    · rw [hrest]
      exact .inr ⟨blocks, rfl⟩

end Modes

/-! ### From what the servers announce -/

section Announced

variable [LinearOrder Peer]

omit [LinearOrder Peer] in
theorem serverInfo_extended {blockOffset numBlocks first last : ℕ} {peer : Peer}
    {info : ServerInfo Peer} :
    (extended first last (spanOfEntry blockOffset numBlocks first peer info)).serverInfo = info := by
  unfold extended spanOfEntry
  split_ifs <;> split <;> rfl

/-- A span carries one of the infos that its peer announces. -/
theorem admitted_computeSpans {blockInfos : List (RemoteModuleInfo Peer)} {minState : ServerState}
    (h : ∀ m ∈ blockInfos, ∀ e ∈ m.servers.entries, e.2.Admitted) :
    ∀ s ∈ (computeSpans blockInfos minState).entries.map Prod.snd, s.serverInfo.Admitted := by
  intro s hs
  obtain ⟨⟨peer, span⟩, hentry, rfl⟩ := List.mem_map.mp hs
  have hspan := spanOf_computeSpans blockInfos minState peer
  rw [OrderedDict.get?_eq_some_iff.mpr hentry] at hspan
  obtain ⟨first, last, info, hhigh, hspan⟩ := hspan
  obtain ⟨m, hm, hinfo⟩ := Option.bind_eq_some_iff.mp hhigh.entry
  rw [hspan, serverInfo_extended]
  exact h m (List.mem_of_getElem? hm) _ (OrderedDict.get?_eq_some_iff.mp hinfo)

theorem admitted_filterServers {lists : PeerLists Peer} {blockInfos : List (RemoteModuleInfo Peer)}
    (h : ∀ m ∈ blockInfos, ∀ e ∈ m.servers.entries, e.2.Admitted) :
    ∀ m ∈ blockInfos.map (filterServers lists), ∀ e ∈ m.servers.entries, e.2.Admitted := by
  intro m' hm' e he
  obtain ⟨m, hm, rfl⟩ := List.mem_map.mp hm'
  refine h m hm e ?_
  unfold filterServers at he
  dsimp only at he
  split_ifs at he
  · exact (List.mem_filter.mp (List.mem_filter.mp he).1).1
  · exact (List.mem_filter.mp he).1

/-- Routing over infos that validation admits. Either mode returns a route or raises
`MissingBlocksError`, just where a block is missing or none of the spans that are asked for
announces an `inference_rps` of zero. -/
theorem routing_failsOnlyByMissing_iff (lists : PeerLists Peer)
    (blockInfos : List (RemoteModuleInfo Peer)) (rtts : OrderedDict Peer (WithTop ℚ))
    (startIndex endIndex : ℕ) (cacheTokensNeeded : Option ℕ)
    (findPath : Graph Peer → Option (List (Node Peer)))
    (draw : ℕ → List (RemoteSpanInfo Peer × ℚ) → RemoteSpanInfo Peer)
    (hinfos : ∀ m ∈ blockInfos, ∀ e ∈ m.servers.entries, e.2.Admitted)
    (hrtts : ∀ e ∈ rtts.entries, ((0 : ℚ) : WithTop ℚ) ≤ e.2) (hlt : startIndex < endIndex)
    (hend : endIndex ≤ blockInfos.length)
    (hpath : ∀ g, buildInferenceGraph ⟨.update lists blockInfos, rtts⟩ startIndex endIndex
      cacheTokensNeeded = .ok g → ∀ nodes, findPath g = some nodes → g.IsPath nodes)
    (hfind : ∀ g, buildInferenceGraph ⟨.update lists blockInfos, rtts⟩ startIndex endIndex
      cacheTokensNeeded = .ok g → FindsPath findPath g)
    (hdraw : Draws draw) :
    let st : RoutingState Peer := ⟨.update lists blockInfos, rtts⟩
    (FailsOnlyByMissing
          (makeSequenceWithMinLatencyLogged st startIndex endIndex cacheTokensNeeded findPath) ∧
        FailsOnlyByMissing (makeSequenceWithMaxThroughputSampled st draw startIndex endIndex)) ↔
      (¬ Covered st.info.spansByPriority startIndex endIndex ∨
        NonzeroRps st.info.spansByPriority startIndex endIndex) := by
  intro st
  have hlen : st.info.blockInfos.length = blockInfos.length := List.length_map _
  have hknown := @knownSpans_ofBlockInfos _ _ st _ rfl
  have hspans := @admitted_computeSpans _ _ _ .online (@admitted_filterServers _ _ lists _ hinfos)
  set spans := (computeSpans (blockInfos.map (filterServers lists)) .online).entries.map Prod.snd
  rw [List.length_map, ← hlen] at hknown
  rw [← hlen] at hend
  have hthroughput := sampled_failsOnlyByMissing hknown hend hdraw _ startIndex (Nat.le_refl _)
  have hcovered : Covered st.info.spansByPriority startIndex endIndex ↔
      Covered spans startIndex endIndex := by
    simp only [Covered, hknown.mem_byPriority]
  have hrps : NonzeroRps st.info.spansByPriority startIndex endIndex ↔
      NonzeroRps spans startIndex endIndex := by
    simp only [NonzeroRps, hknown.mem_byPriority]
  rw [minLatency_failsOnlyByMissing_iff hknown hspans hrtts hlt hend hpath hfind, hcovered, hrps,
    and_iff_left hthroughput, imp_iff_not_or]

end Announced

def blockWithRates (rate₁ rate₂ : Option ℚ) : RemoteModuleInfo ℕ :=
  ⟨0, (OrderedDict.empty.set 1 ⟨.online, none, none, rate₁, none, none⟩).set 2
    ⟨.online, none, none, rate₂, none, none⟩⟩

def stateWithRates (rate₁ rate₂ : Option ℚ) (rtts : OrderedDict ℕ (WithTop ℚ)) : RoutingState ℕ :=
  ⟨.update ⟨none, none, []⟩ [blockWithRates rate₁ rate₂], rtts⟩

def drawFirst (_ : ℕ) (weighted : List (RemoteSpanInfo ℕ × ℚ)) : RemoteSpanInfo ℕ :=
  (weighted.find? fun e => 0 < e.2).elim ⟨0, 0, 0, plainServer .offline⟩ Prod.fst

theorem draws_drawFirst : Draws drawFirst := by
  rintro b weighted ⟨e, he, hpos⟩
  rcases hfind : weighted.find? fun e => 0 < e.2 with - | e'
  · exact absurd (decide_eq_true hpos) (List.find?_eq_none.mp hfind e he)
  · refine ⟨e', List.mem_of_find?_eq_some hfind, ?_, ?_⟩
    · exact of_decide_eq_true (List.find?_some (p := fun e : RemoteSpanInfo ℕ × ℚ => decide (0 < e.2))
        hfind)
    · rw [drawFirst, hfind]
      rfl

section Rates

variable {rate₁ rate₂ : Option ℚ} {rtts : OrderedDict ℕ (WithTop ℚ)}

theorem admitted_blockWithRates (h₁ : ∀ r ∈ rate₁, 0 ≤ r) (h₂ : ∀ r ∈ rate₂, 0 ≤ r) :
    ∀ m ∈ [blockWithRates rate₁ rate₂], ∀ e ∈ m.servers.entries, e.2.Admitted := by
  intro m hm e he
  obtain rfl := List.mem_singleton.mp hm
  rcases OrderedDict.mem_set.mp he with ⟨he, -⟩ | rfl
  · rcases OrderedDict.mem_set.mp he with ⟨he, -⟩ | rfl
    · exact absurd he List.not_mem_nil
    · exact ⟨h₁, fun pings hpings => by cases hpings⟩
  · exact ⟨h₂, fun pings hpings => by cases hpings⟩

/-- Each of the two has a span, which is the block. -/
theorem known_stateWithRates : KnownSpans (stateWithRates rate₁ rate₂ rtts) 1
    [⟨1, 0, 1, ⟨.online, none, none, rate₁, none, none⟩⟩,
      ⟨2, 0, 1, ⟨.online, none, none, rate₂, none, none⟩⟩] := by
  have hspans : (computeSpans ([blockWithRates rate₁ rate₂].map
      (filterServers ⟨none, none, []⟩)) .online).entries.map Prod.snd =
        [⟨1, 0, 1, ⟨.online, none, none, rate₁, none, none⟩⟩,
          ⟨2, 0, 1, ⟨.online, none, none, rate₂, none, none⟩⟩] := by
    simp [blockWithRates, filterServers, computeSpans, sortedServers, visitEntry, spanOfEntry,
      OrderedDict.set, OrderedDict.get?, OrderedDict.push, OrderedDict.empty, OrderedDict.erase,
      OrderedDict.filter, List.mergeSort, List.MergeSort.Internal.splitInTwo]
  have hknown := @knownSpans_ofBlockInfos _ _ (stateWithRates rate₁ rate₂ rtts) _ rfl
  rw [hspans] at hknown
  exact hknown

theorem covered_stateWithRates :
    Covered [⟨1, 0, 1, ⟨.online, none, none, rate₁, none, none⟩⟩,
      (⟨2, 0, 1, ⟨.online, none, none, rate₂, none, none⟩⟩ : RemoteSpanInfo ℕ)] 0 1 := by
  intro b _ hb
  exact ⟨_, List.mem_cons_self, Nat.zero_le b, Int.ofNat_lt.mpr hb⟩

end Rates

/-- A rate that is not zero, of a server that no ping reaches. -/
theorem routing_failsOnlyByMissing_iff_rates :
    FailsOnlyByMissing (makeSequenceWithMinLatencyLogged
        (stateWithRates (some 2) none (OrderedDict.empty.set 1 ⊤)) 0 1 none
        (fun _ => some [.start, .server 1 0, .server 1 1, .stop])) ∧
      FailsOnlyByMissing (makeSequenceWithMaxThroughputSampled
        (stateWithRates (some 2) none (OrderedDict.empty.set 1 ⊤)) drawFirst 0 1) := by
  have hknown := @known_stateWithRates (some 2) none (OrderedDict.empty.set 1 ⊤)
  have hpath : ∀ g, buildInferenceGraph (stateWithRates (some 2) none
      (OrderedDict.empty.set 1 ⊤)) 0 1 none = .ok g →
        g.IsPath [.start, .server 1 0, .server 1 1, .stop] := by
    intro g hg
    have hedge := (hknown.buildInferenceGraph_spec (by decide) (by decide)
      covered_stateWithRates).2 g hg
    refine ⟨rfl, rfl, List.IsChain.imp (fun u v => (hedge u v).mpr) ?_⟩
    refine .cons_cons (.enter List.mem_cons_self ?_) (.cons_cons (.compute List.mem_cons_self
      ?_ ?_ ?_) (.cons_cons (.leave List.mem_cons_self ?_) (.singleton _)))
    all_goals decide
  refine (routing_failsOnlyByMissing_iff ⟨none, none, []⟩ [blockWithRates (some 2) none]
    (OrderedDict.empty.set 1 ⊤) 0 1 none _ drawFirst
    (admitted_blockWithRates (by simp) (by simp)) ?_ (by decide) (by decide) ?_ ?_
    draws_drawFirst).mpr (.inr ?_)
  · intro e he
    rcases OrderedDict.mem_set.mp he with ⟨he, -⟩ | rfl
    · exact absurd he List.not_mem_nil
    · exact le_top
  · intro g hg nodes hnodes
    obtain rfl := Option.some.inj hnodes
    exact hpath g hg
  · exact fun g hg _ => ⟨_, rfl, hpath g hg⟩
  · intro s hs _
    rcases List.mem_cons.mp ((hknown.mem_byPriority s).mp hs) with rfl | hs
    · simp
    · obtain rfl := List.mem_singleton.mp hs
      simp

/-- A server announces the rate zero, which validation admits: every route of the latency mode
fails, although another server holds the block. -/
theorem zero_rate_breaks_routing :
    (∀ m ∈ [blockWithRates none (some 0)], ∀ e ∈ m.servers.entries, e.2.Admitted) ∧
      ∀ findPath, makeSequenceWithMinLatencyLogged (stateWithRates none (some 0) .empty) 0 1 none
          findPath = .error (.routing .zeroDivision) ∧
        ¬ FailsOnlyByMissing (makeSequenceWithMinLatencyLogged
          (stateWithRates none (some 0) .empty) 0 1 none findPath) := by
  refine ⟨admitted_blockWithRates (by simp) (by simp), fun findPath => ?_⟩
  have hrps : ¬ NonzeroRps [⟨1, 0, 1, ⟨.online, none, none, none, none, none⟩⟩,
      (⟨2, 0, 1, ⟨.online, none, none, some 0, none, none⟩⟩ : RemoteSpanInfo ℕ)] 0 1 := by
    intro h
    exact h _ (List.mem_cons_of_mem _ List.mem_cons_self) ⟨0, by decide⟩ rfl
  have herror : makeSequenceWithMinLatencyLogged (stateWithRates none (some 0) .empty) 0 1 none
      findPath = .error (.routing .zeroDivision) :=
    (@known_stateWithRates none (some 0) .empty).minLatency_zeroDivision (by decide) (by decide)
      covered_stateWithRates hrps findPath
  refine ⟨herror, ?_⟩
  rw [herror]
  rintro (⟨route, hroute⟩ | ⟨blocks, hblocks⟩)
  · cases hroute
  · cases hblocks

end BloomBee.Routing
