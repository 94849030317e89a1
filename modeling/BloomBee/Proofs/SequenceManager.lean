import BloomBee.Sanity.ComputeSpans
import BloomBee.Sanity.InferencePath
import BloomBee.Proofs.SequentialAutograd

/-! Routes: the latency mode finds one wherever the blocks are covered, and what either mode
returns are spans inside those the servers are known for. These in turn take up what a server
announces, declared block by block or not. -/

set_option autoImplicit false

namespace BloomBee.Routing

open InferenceSession (Span Covers clampLast)

variable {Peer : Type}

/-! ### The throughput mode -/

/-- A route that may go on past the end with its last span. -/
theorem covers_clampLast {b e : ℕ} {s : Span} {spans : List Span} (hs : s.start = b)
    (hlt : s.start < s.stop) (hb : b < e) (hrest : s.stop < e → Covers s.stop e (clampLast e spans))
    (hend : ¬ s.stop < e → spans = []) : Covers b e (clampLast e (s :: spans)) := by
  by_cases hstop : s.stop < e
  · have hcov := hrest hstop
    rcases spans with - | ⟨t, spans⟩
    · exact absurd hcov (Nat.ne_of_lt hstop)
    · exact ⟨hs, hlt, hcov⟩
  · rw [hend hstop]
    refine ⟨hs, ?_, ?_⟩
    · show s.start < min s.stop e
      omega
    · show min s.stop e = e
      omega

/-- Wherever the blocks are covered, whatever is chosen among the candidates: consecutive spans
from the block asked for, only the last of which may go on past the end. -/
theorem maxThroughput_routes {st : RoutingState Peer} {numBlocks : ℕ}
    {spans : List (RemoteSpanInfo Peer)} (h : KnownSpans st numBlocks spans)
    {choose : ℕ → List (RemoteSpanInfo Peer) → RemoteSpanInfo Peer}
    (hchoose : ∀ b candidates, candidates ≠ [] → choose b candidates ∈ candidates) {endIndex : ℕ}
    (hend : endIndex ≤ numBlocks) : ∀ (n currentIndex : ℕ), endIndex - currentIndex ≤ n →
      currentIndex < endIndex → Covered spans currentIndex endIndex →
      ∃ route, makeSequenceWithMaxThroughput st choose currentIndex endIndex = .ok route ∧
        Covers currentIndex endIndex (clampLast endIndex (route.map fun s => s.toSpan)) := by
  intro n
  induction n with
  | zero =>
    intro currentIndex hn hlt
    omega
  | succ n ih =>
    intro currentIndex hn hlt hcov
    have hmem := h.mem_containing (Nat.lt_of_lt_of_le hlt hend)
    obtain ⟨s, hs, hc⟩ := hcov currentIndex (Nat.le_refl _) hlt
    have hne : st.info.containing currentIndex ≠ [] :=
      List.ne_nil_of_mem ((hmem s).mpr ⟨hs, hc⟩)
    obtain ⟨hchosen, hcontains⟩ := (hmem _).mp (hchoose currentIndex _ hne)
    set chosen := choose currentIndex (st.info.containing currentIndex) with hdef
    have hstop := hcontains.2
    have hnext : ∃ route, makeSequenceWithMaxThroughput st choose chosen.stop.toNat endIndex =
        .ok route ∧
        (chosen.stop.toNat < endIndex → Covers chosen.stop.toNat endIndex
          (clampLast endIndex (route.map fun s => s.toSpan))) ∧
        (¬ chosen.stop.toNat < endIndex → route = []) := by
      by_cases hmore : chosen.stop.toNat < endIndex
      · obtain ⟨route, hroute, htiles⟩ := ih chosen.stop.toNat (by omega) hmore
          fun b hb hb' => hcov b (by omega) hb'
        exact ⟨route, hroute, fun _ => htiles, fun h => absurd hmore h⟩
      · refine ⟨[], ?_, fun h => absurd h hmore, fun _ => rfl⟩
        rw [makeSequenceWithMaxThroughput, if_neg hmore]
    obtain ⟨route, hroute, htiles, hlast⟩ := hnext
    refine ⟨{ chosen with start := currentIndex } :: route, ?_, ?_⟩
    · have hassert : chosen.start ≤ currentIndex ∧ (currentIndex : ℤ) < chosen.stop := hcontains
      rw [makeSequenceWithMaxThroughput, if_pos hlt]
      dsimp only
      rw [if_neg hne, ← hdef, if_pos hassert, hroute]
      rfl
    · rw [List.map_cons]
      refine covers_clampLast rfl ?_ hlt htiles fun h => ?_
      · show currentIndex < chosen.stop.toNat
        omega
      · rw [hlast h]
        rfl

theorem maxThroughput_inside {st : RoutingState Peer} {numBlocks : ℕ}
    {spans : List (RemoteSpanInfo Peer)} (h : KnownSpans st numBlocks spans)
    {choose : ℕ → List (RemoteSpanInfo Peer) → RemoteSpanInfo Peer}
    (hchoose : ∀ b candidates, candidates ≠ [] → choose b candidates ∈ candidates) {endIndex : ℕ}
    (hend : endIndex ≤ numBlocks) : ∀ (n currentIndex : ℕ), endIndex - currentIndex ≤ n →
      ∀ route, makeSequenceWithMaxThroughput st choose currentIndex endIndex = .ok route →
        ∀ s ∈ route, ∃ known ∈ spans, known.peerId = s.peerId ∧ known.start ≤ s.start ∧
          s.stop ≤ known.stop := by
  have hdone {currentIndex : ℕ} (hlt : ¬ currentIndex < endIndex)
      {route : List (RemoteSpanInfo Peer)}
      (hroute : makeSequenceWithMaxThroughput st choose currentIndex endIndex = .ok route) :
      ∀ s ∈ route, ∃ known ∈ spans, known.peerId = s.peerId ∧ known.start ≤ s.start ∧
        s.stop ≤ known.stop := by
    rw [makeSequenceWithMaxThroughput, if_neg hlt] at hroute
    obtain rfl := Except.ok.inj hroute
    exact fun s hs => absurd hs List.not_mem_nil
  intro n
  induction n with
  | zero => exact fun currentIndex hn route hroute => hdone (by omega) hroute
  | succ n ih =>
    intro currentIndex hn route hroute
    by_cases hlt : currentIndex < endIndex
    swap
    · exact hdone hlt hroute
    rw [makeSequenceWithMaxThroughput, if_pos hlt] at hroute
    dsimp only at hroute
    split_ifs at hroute with hne hcontains
    set chosen := choose currentIndex (st.info.containing currentIndex) with hdef
    have hchosen := ((h.mem_containing (Nat.lt_of_lt_of_le hlt hend) chosen).mp
      (hchoose currentIndex _ hne)).1
    rcases hrest : makeSequenceWithMaxThroughput st choose chosen.stop.toNat endIndex
      with error | rest
    · rw [hrest] at hroute
      cases hroute
    · rw [hrest] at hroute
      obtain rfl := Except.ok.inj hroute
      exact List.forall_mem_cons.mpr ⟨⟨chosen, hchosen, rfl, hcontains.1, Int.le_refl _⟩,
        ih chosen.stop.toNat (by omega) rest hrest⟩

/-- So the routes of this mode are those that autograd asks for. -/
theorem maxThroughput_routed {st : RoutingState Peer} {spans : List (RemoteSpanInfo Peer)}
    {cfg : SequentialAutograd.Config} (h : KnownSpans st cfg.numBlocks spans)
    {choose : ℕ → List (RemoteSpanInfo Peer) → RemoteSpanInfo Peer}
    (hchoose : ∀ b candidates, candidates ≠ [] → choose b candidates ∈ candidates)
    (hcov : Covered spans 0 cfg.numBlocks) (fate : SequentialAutograd.Fate) :
    SequentialAutograd.Attempt.Routed cfg ⟨fate, fun b e =>
      match makeSequenceWithMaxThroughput st choose b e with
      | .ok route => route.map fun s => s.toSpan
      | .error _ => []⟩ := by
  intro b e hlt hle
  obtain ⟨route, hroute, htiles⟩ := maxThroughput_routes h hchoose hle _ b (Nat.le_refl _) hlt
    fun c _ hc => hcov c (Nat.zero_le c) (Nat.lt_of_lt_of_le hc hle)
  dsimp only
  rw [hroute]
  exact htiles

/-! ### The latency mode -/

/-- `find_path` returns a path of the graph if it has one. -/
def FindsPath (findPath : Graph Peer → Option (List (Node Peer))) (g : Graph Peer) : Prop :=
  (∃ nodes, g.IsPath nodes) → ∃ nodes, findPath g = some nodes ∧ g.IsPath nodes

variable [DecidableEq Peer]

/-- Routing by latency is complete and sound. Where every block is in some span the graph has a
path, every path of it folds back to non-empty spans that tile the blocks, each inside the span
its peer is known for, and such a route is returned. Where a block is in no span,
`MissingBlocksError` is raised with the blocks that are not. -/
theorem minLatency_complete_sound (st : RoutingState Peer) (numBlocks : ℕ)
    (spans : List (RemoteSpanInfo Peer)) (startIndex endIndex : ℕ) (cacheTokensNeeded : Option ℕ)
    (findPath : Graph Peer → Option (List (Node Peer))) (h : KnownSpans st numBlocks spans)
    (hrps : PositiveRps spans) (hlt : startIndex < endIndex) (hend : endIndex ≤ numBlocks)
    (hfind : ∀ g, buildInferenceGraph st startIndex endIndex cacheTokensNeeded = .ok g →
      FindsPath findPath g) :
    (Covered spans startIndex endIndex →
      ∃ g, buildInferenceGraph st startIndex endIndex cacheTokensNeeded = .ok g ∧
        (∃ nodes, g.IsPath nodes) ∧
        (∀ nodes, g.IsPath nodes → ∃ route, spanSequence st startIndex endIndex nodes = .ok route ∧
          Routes spans startIndex endIndex route) ∧
        ∃ route, makeSequenceWithMinLatency st startIndex endIndex cacheTokensNeeded findPath =
          .ok route ∧ Routes spans startIndex endIndex route) ∧
      (¬ Covered spans startIndex endIndex →
        ∃ blocks, makeSequenceWithMinLatency st startIndex endIndex cacheTokensNeeded findPath =
          .error (.missingBlocks blocks) ∧ blocks ≠ [] ∧
          ∀ b, b ∈ blocks ↔ startIndex ≤ b ∧ b < endIndex ∧ ∀ s ∈ spans, ¬ s.Contains b) := by
  constructor
  · intro hcov
    obtain ⟨hbuild, hedges⟩ := h.buildInferenceGraph_spec hlt hend hcov
    obtain ⟨g, hg⟩ := hbuild hrps
    have hedge := hedges g hg
    have hpaths := hcov.exists_isPath hlt hedge
    have hroutes : ∀ nodes, g.IsPath nodes → ∃ route,
        spanSequence st startIndex endIndex nodes = .ok route ∧
          Routes spans startIndex endIndex route :=
      fun nodes hnodes => spanSequence_routes h hlt hend hedge hnodes
    refine ⟨g, hg, hpaths, hroutes, ?_⟩
    obtain ⟨nodes, hfound, hnodes⟩ := hfind g hg hpaths
    obtain ⟨route, hroute, htiles⟩ := hroutes nodes hnodes
    refine ⟨route, ?_, htiles⟩
    rw [makeSequenceWithMinLatency_eq (Nat.ne_of_lt hlt)
      ((h.missingBlocks_eq_nil_iff hend).mpr hcov) hg, hfound]
    exact hroute
  · intro hcov
    have hne : missingBlocks st startIndex endIndex ≠ [] :=
      fun hnil => hcov ((h.missingBlocks_eq_nil_iff hend).mp hnil)
    unfold makeSequenceWithMinLatency
    rw [if_neg (Nat.ne_of_lt hlt)]
    dsimp only
    rw [if_pos hne]
    exact ⟨_, rfl, hne, h.mem_missingBlocks hend⟩

def plainServer (state : ServerState) : ServerInfo ℕ := ⟨state, none, none, none, none, none⟩

def stateOfSpans (numBlocks : ℕ) (spans : List (RemoteSpanInfo ℕ)) : RoutingState ℕ :=
  ⟨⟨[], (sortSpans numBlocks spans).1, (sortSpans numBlocks spans).2⟩, .empty⟩

/-- Two servers that overlap at block 2. The first is left at its end only. -/
theorem minLatency_complete_sound_overlap :
    let spans : List (RemoteSpanInfo ℕ) :=
      [⟨1, 0, 3, plainServer .online⟩, ⟨2, 2, 5, plainServer .online⟩]
    let path : List (Node ℕ) := [.start, .server 1 0, .server 1 1, .server 1 2, .server 1 3,
      .server 2 3, .server 2 4, .server 2 5, .stop]
    (∃ route, makeSequenceWithMinLatency (stateOfSpans 5 spans) 0 5 none (fun _ => some path) =
      .ok route ∧ Routes spans 0 5 route) ∧
    ∃ blocks, makeSequenceWithMinLatency (stateOfSpans 6 spans) 0 6 none (fun _ => none) =
      .error (.missingBlocks blocks) ∧ blocks ≠ [] ∧
        ∀ b, b ∈ blocks ↔ 0 ≤ b ∧ b < 6 ∧ ∀ s ∈ spans, ¬ s.Contains b := by
  intro spans path
  have hknown (n : ℕ) : KnownSpans (stateOfSpans n spans) n spans := ⟨rfl, by decide⟩
  have hrps : PositiveRps spans := by
    intro s hs r hr
    simp only [spans, List.mem_cons, List.not_mem_nil, or_false] at hs
    rcases hs with rfl | rfl
    · cases hr
    · cases hr
  have hcov : Covered spans 0 5 := by
    intro b _ hb
    rcases Nat.lt_or_ge b 3 with h | h
    · exact ⟨_, List.mem_cons_self, Nat.zero_le b, Int.ofNat_lt.mpr h⟩
    · exact ⟨_, List.mem_cons_of_mem _ List.mem_cons_self, Nat.le_of_succ_le h, Int.ofNat_lt.mpr hb⟩
  have hcov' : ¬ Covered spans 0 6 := by
    intro h
    obtain ⟨s, hs, hc⟩ := h 5 (by decide) (by decide)
    simp only [spans, List.mem_cons, List.not_mem_nil, or_false] at hs
    rcases hs with rfl | rfl
    · exact absurd hc (by decide)
    · exact absurd hc (by decide)
  constructor
  · have hfind : ∀ g, buildInferenceGraph (stateOfSpans 5 spans) 0 5 none = .ok g →
        FindsPath (fun _ => some path) g := by
      intro g hg _
      have hedge := ((hknown 5).buildInferenceGraph_spec (by decide) (by decide) hcov).2 g hg
      refine ⟨path, rfl, rfl, rfl, List.IsChain.imp (fun u v => (hedge u v).mpr) ?_⟩
      have h₁ : (⟨1, 0, 3, plainServer .online⟩ : RemoteSpanInfo ℕ) ∈ spans := List.mem_cons_self
      have h₂ : (⟨2, 2, 5, plainServer .online⟩ : RemoteSpanInfo ℕ) ∈ spans :=
        List.mem_cons_of_mem _ List.mem_cons_self
      refine .cons_cons (.enter h₁ (by decide)) (.cons_cons (.compute h₁ ?_ ?_ ?_)
        (.cons_cons (.compute h₁ ?_ ?_ ?_) (.cons_cons (.compute h₁ ?_ ?_ ?_)
        (.cons_cons (.switch h₁ h₂ ?_ ?_ ?_ rfl ?_) (.cons_cons (.compute h₂ ?_ ?_ ?_)
        (.cons_cons (.compute h₂ ?_ ?_ ?_) (.cons_cons (.leave h₂ ?_) (.singleton _))))))))
      all_goals decide
    obtain ⟨-, -, -, -, hroute⟩ := (minLatency_complete_sound _ 5 spans 0 5 none
      (fun _ => some path) (hknown 5) hrps (by decide) (by decide) hfind).1 hcov
    exact hroute
  · refine (minLatency_complete_sound _ 6 spans 0 6 none (fun _ => none) (hknown 6) hrps
      (by decide) (by decide) ?_).2 hcov'
    intro g hg
    rw [buildInferenceGraph, if_pos fun hnil => hcov'
      (((hknown 6).missingBlocks_eq_nil_iff (by decide)).mp hnil)] at hg
    cases hg

end BloomBee.Routing
