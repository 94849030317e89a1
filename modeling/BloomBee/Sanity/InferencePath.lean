import Mathlib.Data.List.Chain
import BloomBee.Lib.Fallible
import BloomBee.Spec.SequenceManager
import BloomBee.Sanity.SessionRetry

/-! The graph of the latency mode: its edges, that it has a path wherever the blocks are covered,
and that each path folds back to spans that tile them. -/

set_option autoImplicit false

namespace BloomBee.Routing

open Fallible
open InferenceSession (Span Covers covers_append)

variable {Peer : Type}

/-- The spans a manager knows, one per peer; `_sort_spans` fills its lists. -/
structure KnownSpans (st : RoutingState Peer) (numBlocks : ℕ) (spans : List (RemoteSpanInfo Peer)) :
    Prop where
  sorted : (st.info.spansByPriority, st.info.spansContainingBlock) = sortSpans numBlocks spans
  peers : (spans.map fun s => s.peerId).Nodup

/-- No server announces a rate of zero, which nothing can be divided by. -/
def PositiveRps (spans : List (RemoteSpanInfo Peer)) : Prop :=
  ∀ s ∈ spans, ∀ r ∈ s.serverInfo.inferenceRps, 0 < r

/-- The edges, as a relation: in at the first block, out after the last, through the blocks of a
server, and from one that ends to any that goes on. -/
inductive Edge (spans : List (RemoteSpanInfo Peer)) (startIndex endIndex : ℕ) :
    Node Peer → Node Peer → Prop where
  | enter {s : RemoteSpanInfo Peer} (hs : s ∈ spans) (h : s.Contains startIndex) :
      Edge spans startIndex endIndex .start (.server s.peerId startIndex)
  | leave {s : RemoteSpanInfo Peer} (hs : s ∈ spans) (h : s.Contains (endIndex - 1)) :
      Edge spans startIndex endIndex (.server s.peerId endIndex) .stop
  | switch {s t : RemoteSpanInfo Peer} {b : ℕ} (hs : s ∈ spans) (ht : t ∈ spans)
      (hstart : startIndex < b) (hend : b < endIndex) (h : s.Contains (b - 1))
      (hstop : s.stop = (b : ℤ)) (h' : t.Contains b) :
      Edge spans startIndex endIndex (.server s.peerId b) (.server t.peerId b)
  | compute {s : RemoteSpanInfo Peer} {b : ℕ} (hs : s ∈ spans) (hstart : startIndex ≤ b)
      (hend : b < endIndex) (h : s.Contains b) :
      Edge spans startIndex endIndex (.server s.peerId b) (.server s.peerId (b + 1))

def Graph.HasEdge (g : Graph Peer) (u v : Node Peer) : Prop := ∃ cost, ((u, v), cost) ∈ g.entries

structure Graph.IsPath (g : Graph Peer) (nodes : List (Node Peer)) : Prop where
  head : nodes.head? = some .start
  last : nodes.getLast? = some .stop
  edges : nodes.IsChain g.HasEdge

def Covered (spans : List (RemoteSpanInfo Peer)) (startIndex endIndex : ℕ) : Prop :=
  ∀ b, startIndex ≤ b → b < endIndex → ∃ s ∈ spans, s.Contains b

def RemoteSpanInfo.toSpan (s : RemoteSpanInfo Peer) : Span := ⟨s.start, s.stop.toNat⟩

/-- A route: non-empty spans that tile the blocks, each inside the known span of its peer. -/
structure Routes (spans : List (RemoteSpanInfo Peer)) (startIndex endIndex : ℕ)
    (route : List (RemoteSpanInfo Peer)) : Prop where
  tiles : Covers startIndex endIndex (route.map fun s => s.toSpan)
  inside : ∀ s ∈ route, ∃ known ∈ spans, known.peerId = s.peerId ∧ known.start ≤ s.start ∧
    s.stop ≤ known.stop ∧ s.serverInfo = known.serverInfo

variable {st : RoutingState Peer} {numBlocks : ℕ} {spans : List (RemoteSpanInfo Peer)}
  {startIndex endIndex : ℕ} {cacheTokensNeeded : Option ℕ}

theorem covers_lt {b e : ℕ} {route : List Span} (h : Covers b e route) :
    ∀ s ∈ route, s.start < s.stop := by
  induction route generalizing b with
  | nil => exact fun s hs => absurd hs List.not_mem_nil
  | cons s route ih =>
    obtain ⟨-, hlt, h⟩ := h
    exact List.forall_mem_cons.mpr ⟨hlt, ih h⟩

/-! ### The lists of the manager -/

theorem KnownSpans.mem_byPriority (h : KnownSpans st numBlocks spans) (s : RemoteSpanInfo Peer) :
    s ∈ st.info.spansByPriority ↔ s ∈ spans := by
  rw [(Prod.mk.inj h.sorted).1]
  exact (List.mergeSort_perm _ _).mem_iff

theorem KnownSpans.mem_containing (h : KnownSpans st numBlocks spans) {b : ℕ} (hb : b < numBlocks)
    (s : RemoteSpanInfo Peer) : s ∈ st.info.containing b ↔ s ∈ spans ∧ s.Contains b := by
  have hcontaining : st.info.containing b =
      st.info.spansByPriority.filter fun s => s.Contains b := by
    rw [RemoteSequenceInfo.containing, (Prod.mk.inj h.sorted).2, (Prod.mk.inj h.sorted).1,
      List.getD_eq_getElem?_getD, List.getElem?_map, List.getElem?_range hb]
    rfl
  rw [hcontaining, List.mem_filter, h.mem_byPriority, decide_eq_true_iff]

theorem KnownSpans.eq_of_peer (h : KnownSpans st numBlocks spans) {s t : RemoteSpanInfo Peer}
    (hs : s ∈ spans) (ht : t ∈ spans) (hst : s.peerId = t.peerId) : s = t :=
  List.inj_on_of_nodup_map h.peers hs ht hst

theorem KnownSpans.mem_missingBlocks (h : KnownSpans st numBlocks spans)
    (hend : endIndex ≤ numBlocks) (b : ℕ) : b ∈ missingBlocks st startIndex endIndex ↔
      startIndex ≤ b ∧ b < endIndex ∧ ∀ s ∈ spans, ¬ s.Contains b := by
  rw [missingBlocks, List.mem_filter, List.mem_range'_1, List.isEmpty_iff]
  constructor
  · rintro ⟨⟨hle, hlt⟩, hnil⟩
    have hlt' : b < endIndex := by omega
    refine ⟨hle, hlt', fun s hs hc => ?_⟩
    have := (h.mem_containing (Nat.lt_of_lt_of_le hlt' hend) s).mpr ⟨hs, hc⟩
    rw [hnil] at this
    exact List.not_mem_nil this
  · rintro ⟨hle, hlt, hnone⟩
    refine ⟨⟨hle, by omega⟩, List.eq_nil_iff_forall_not_mem.mpr fun s hs => ?_⟩
    obtain ⟨hs, hc⟩ := (h.mem_containing (Nat.lt_of_lt_of_le hlt hend) s).mp hs
    exact hnone s hs hc

theorem KnownSpans.missingBlocks_eq_nil_iff (h : KnownSpans st numBlocks spans)
    (hend : endIndex ≤ numBlocks) :
    missingBlocks st startIndex endIndex = [] ↔ Covered spans startIndex endIndex := by
  rw [List.eq_nil_iff_forall_not_mem]
  constructor
  · intro hnone b hle hlt
    by_contra hc
    exact hnone b ((h.mem_missingBlocks hend b).mpr
      ⟨hle, hlt, fun s hs hs' => hc ⟨s, hs, hs'⟩⟩)
  · intro hcov b hb
    obtain ⟨hle, hlt, hnone⟩ := (h.mem_missingBlocks hend b).mp hb
    obtain ⟨s, hs, hc⟩ := hcov b hle hlt
    exact hnone s hs hc

/-! ### The edges -/

def blockDelay (info : ServerInfo Peer) : ℚ := 1 / info.inferenceRps.getD 300

theorem inferenceDelay_eq {info : ServerInfo Peer} {delay : ℚ}
    (h : inferenceDelay info = .ok delay) : delay = blockDelay info := by
  unfold inferenceDelay at h
  dsimp only at h
  split_ifs at h
  exact (Except.ok.inj h).symm

theorem inferenceDelay_ok {info : ServerInfo Peer} (h : ∀ r ∈ info.inferenceRps, 0 < r) :
    inferenceDelay info = .ok (blockDelay info) := by
  rw [inferenceDelay, if_neg]
  · rfl
  rcases hr : info.inferenceRps with - | r
  · rw [Option.getD_none]
    decide
  · exact ne_of_gt (h r hr)

def graphBlocks (st : RoutingState Peer) (startIndex endIndex : ℕ) :
    List (RemoteSpanInfo Peer × ℕ) :=
  st.info.spansByPriority.flatMap fun span =>
    (List.range' (max span.start startIndex) ((min span.stop (endIndex : ℤ)).toNat -
      max span.start startIndex)).map fun b => (span, b)

theorem KnownSpans.mem_graphBlocks (h : KnownSpans st numBlocks spans) (s : RemoteSpanInfo Peer)
    (b : ℕ) : (s, b) ∈ graphBlocks st startIndex endIndex ↔
      s ∈ spans ∧ startIndex ≤ b ∧ b < endIndex ∧ s.Contains b := by
  have hrange : b ∈ List.range' (max s.start startIndex)
      ((min s.stop (endIndex : ℤ)).toNat - max s.start startIndex) ↔
        startIndex ≤ b ∧ b < endIndex ∧ s.Contains b := by
    rw [List.mem_range'_1]
    unfold RemoteSpanInfo.Contains
    omega
  unfold graphBlocks
  rw [List.mem_flatMap]
  constructor
  · rintro ⟨s', hs', hb⟩
    obtain ⟨b', hb', heq⟩ := List.mem_map.mp hb
    obtain ⟨rfl, rfl⟩ := Prod.mk.inj heq
    exact ⟨(h.mem_byPriority s').mp hs', hrange.mp hb'⟩
  · rintro ⟨hs, hb⟩
    exact ⟨s, (h.mem_byPriority s).mpr hs, List.mem_map.mpr ⟨b, hrange.mpr hb, rfl⟩⟩

def blockEdge (e : RemoteSpanInfo Peer × ℕ) : (Node Peer × Node Peer) × ℚ :=
  ((.server e.1.peerId e.2, .server e.1.peerId (e.2 + 1)), blockDelay e.1.serverInfo)

theorem computeEdges_eq_mapM (st : RoutingState Peer) (startIndex endIndex : ℕ) :
    computeEdges st startIndex endIndex = (graphBlocks st startIndex endIndex).mapM fun e => do
      let delay ← inferenceDelay e.1.serverInfo
      return ((.server e.1.peerId e.2, .server e.1.peerId (e.2 + 1)), delay) := rfl

theorem computeEdges_eq_map {edges : List ((Node Peer × Node Peer) × ℚ)}
    (h : computeEdges st startIndex endIndex = .ok edges) :
    edges = (graphBlocks st startIndex endIndex).map blockEdge := by
  rw [computeEdges_eq_mapM] at h
  refine eq_map_of_mapM (fun e f hf => ?_) h
  rcases hd : inferenceDelay e.1.serverInfo with error | delay
  · rw [hd] at hf
    cases hf
  · rw [hd] at hf
    rw [← Except.ok.inj hf, inferenceDelay_eq hd]
    rfl

/-- The edges through the blocks. They cannot be built where a rate is zero. -/
theorem KnownSpans.computeEdges_spec (h : KnownSpans st numBlocks spans) (startIndex endIndex : ℕ) :
    (PositiveRps spans → ∃ edges, computeEdges st startIndex endIndex = .ok edges) ∧
      ∀ edges, computeEdges st startIndex endIndex = .ok edges →
        ∀ u v, (∃ e ∈ edges, e.1 = (u, v)) ↔ ∃ s ∈ spans, ∃ b, startIndex ≤ b ∧ b < endIndex ∧
          s.Contains b ∧ u = .server s.peerId b ∧ v = .server s.peerId (b + 1) := by
  constructor
  · rw [computeEdges_eq_mapM]
    refine fun hrps => ⟨_, mapM_eq_ok (g := blockEdge) ?_⟩
    rintro ⟨s, b⟩ hsb
    rw [inferenceDelay_ok (hrps s ((h.mem_graphBlocks s b).mp hsb).1)]
    rfl
  · intro edges hedges u v
    obtain rfl := computeEdges_eq_map hedges
    constructor
    · rintro ⟨e, he, heq⟩
      obtain ⟨⟨s, b⟩, hsb, rfl⟩ := List.mem_map.mp he
      obtain ⟨hs, hstart, hlt, hc⟩ := (h.mem_graphBlocks s b).mp hsb
      obtain ⟨hu, hv⟩ := Prod.mk.inj heq
      exact ⟨s, hs, b, hstart, hlt, hc, hu.symm, hv.symm⟩
    · rintro ⟨s, hs, b, hstart, hlt, hc, rfl, rfl⟩
      exact ⟨blockEdge (s, b),
        List.mem_map_of_mem ((h.mem_graphBlocks s b).mpr ⟨hs, hstart, hlt, hc⟩), rfl⟩

variable [DecidableEq Peer]

theorem KnownSpans.mem_startEdges (h : KnownSpans st numBlocks spans)
    (hstart : startIndex < numBlocks) (u v : Node Peer) :
    (∃ e ∈ startEdges st startIndex cacheTokensNeeded, e.1 = (u, v)) ↔
      ∃ s ∈ spans, s.Contains startIndex ∧ u = .start ∧ v = .server s.peerId startIndex := by
  unfold startEdges
  constructor
  · rintro ⟨e, he, heq⟩
    obtain ⟨s, hs, rfl⟩ := List.mem_map.mp he
    obtain ⟨hs, hc⟩ := (h.mem_containing hstart s).mp hs
    obtain ⟨hu, hv⟩ := Prod.mk.inj heq
    exact ⟨s, hs, hc, hu.symm, hv.symm⟩
  · rintro ⟨s, hs, hc, rfl, rfl⟩
    exact ⟨_, List.mem_map_of_mem ((h.mem_containing hstart s).mpr ⟨hs, hc⟩), rfl⟩

theorem KnownSpans.mem_endEdges (h : KnownSpans st numBlocks spans) (h0 : 0 < endIndex)
    (hend : endIndex ≤ numBlocks) (u v : Node Peer) :
    (∃ e ∈ endEdges st endIndex, e.1 = (u, v)) ↔
      ∃ s ∈ spans, s.Contains (endIndex - 1) ∧ u = .server s.peerId endIndex ∧ v = .stop := by
  have hlt : endIndex - 1 < numBlocks := by omega
  unfold endEdges
  constructor
  · rintro ⟨e, he, heq⟩
    obtain ⟨s, hs, rfl⟩ := List.mem_map.mp he
    obtain ⟨hs, hc⟩ := (h.mem_containing hlt s).mp hs
    obtain ⟨hu, hv⟩ := Prod.mk.inj heq
    exact ⟨s, hs, hc, hu.symm, hv.symm⟩
  · rintro ⟨s, hs, hc, rfl, rfl⟩
    exact ⟨_, List.mem_map_of_mem ((h.mem_containing hlt s).mpr ⟨hs, hc⟩), rfl⟩

theorem KnownSpans.mem_switchEdges (h : KnownSpans st numBlocks spans)
    (hend : endIndex ≤ numBlocks) (u v : Node Peer) :
    (∃ e ∈ switchEdges st startIndex endIndex cacheTokensNeeded, e.1 = (u, v)) ↔
      ∃ s ∈ spans, ∃ t ∈ spans, ∃ b, startIndex < b ∧ b < endIndex ∧ s.Contains (b - 1) ∧
        s.stop = (b : ℤ) ∧ t.Contains b ∧ u = .server s.peerId b ∧ v = .server t.peerId b := by
  unfold switchEdges
  constructor
  · rintro ⟨e, he, heq⟩
    obtain ⟨b, hb, he⟩ := List.mem_flatMap.mp he
    obtain ⟨s, hs, he⟩ := List.mem_flatMap.mp he
    rw [List.mem_range'_1] at hb
    have hlt : b < endIndex := by omega
    obtain ⟨hs, hsb⟩ := (h.mem_containing (by omega) s).mp hs
    split_ifs at he with hstop
    · exact absurd he List.not_mem_nil
    · obtain ⟨t, ht, rfl⟩ := List.mem_map.mp he
      obtain ⟨ht, htb⟩ := (h.mem_containing (by omega) t).mp ht
      obtain ⟨hu, hv⟩ := Prod.mk.inj heq
      exact ⟨s, hs, t, ht, b, by omega, hlt, hsb, not_not.mp hstop, htb, hu.symm, hv.symm⟩
  · rintro ⟨s, hs, t, ht, b, hstart, hlt, hsb, hstop, htb, rfl, rfl⟩
    refine ⟨((.server s.peerId b, .server t.peerId b), entryDelay
      (s.serverInfo.nextPings.bind fun pings => pings.get? t.peerId) t cacheTokensNeeded),
      List.mem_flatMap.mpr ⟨b, List.mem_range'_1.mpr ⟨by omega, by omega⟩, List.mem_flatMap.mpr
        ⟨s, (h.mem_containing (by omega) s).mpr ⟨hs, hsb⟩, ?_⟩⟩, rfl⟩
    rw [if_neg (not_not.mpr hstop)]
    exact List.mem_map.mpr ⟨t, (h.mem_containing (by omega) t).mpr ⟨ht, htb⟩, rfl⟩

/-- The graph can be built where the blocks are covered, and its edges are those. -/
theorem KnownSpans.buildInferenceGraph_spec (h : KnownSpans st numBlocks spans)
    (hlt : startIndex < endIndex) (hend : endIndex ≤ numBlocks)
    (hcov : Covered spans startIndex endIndex) :
    (PositiveRps spans →
      ∃ g, buildInferenceGraph st startIndex endIndex cacheTokensNeeded = .ok g) ∧
      ∀ g, buildInferenceGraph st startIndex endIndex cacheTokensNeeded = .ok g →
        ∀ u v, g.HasEdge u v ↔ Edge spans startIndex endIndex u v := by
  obtain ⟨hok, hedges⟩ := h.computeEdges_spec startIndex endIndex
  have hmissing := (h.missingBlocks_eq_nil_iff hend).mpr hcov
  rw [buildInferenceGraph, hmissing, if_neg (not_not.mpr rfl)]
  constructor
  · intro hrps
    obtain ⟨edges, hcompute⟩ := hok hrps
    rw [hcompute]
    exact ⟨_, rfl⟩
  intro g hg u v
  rcases hcompute : computeEdges st startIndex endIndex with error | edges
  · rw [hcompute] at hg
    cases hg
  rw [hcompute] at hg
  obtain rfl := Except.ok.inj hg
  unfold Graph.HasEdge Graph.addEdge
  refine (OrderedDict.exists_mem_foldl_set (fun e : (Node Peer × Node Peer) × ℚ => e.1)
    (fun e => e.2) _ _ (u, v)).trans ?_
  simp only [List.mem_append, or_and_right, exists_or]
  rw [h.mem_startEdges (Nat.lt_of_lt_of_le hlt hend), h.mem_endEdges (by omega) hend,
    h.mem_switchEdges hend, hedges edges hcompute]
  constructor
  · rintro (⟨c, hc⟩ | ((⟨s, hs, hc, rfl, rfl⟩ | ⟨s, hs, hc, rfl, rfl⟩) |
      ⟨s, hs, t, ht, b, h₁, h₂, h₃, h₄, h₅, rfl, rfl⟩) | ⟨s, hs, b, h₁, h₂, h₃, rfl, rfl⟩)
    · exact absurd hc List.not_mem_nil
    · exact .enter hs hc
    · exact .leave hs hc
    · exact .switch hs ht h₁ h₂ h₃ h₄ h₅
    · exact .compute hs h₁ h₂ h₃
  · intro hedge
    right
    cases hedge with
    | enter hs hc => exact .inl (.inl (.inl ⟨_, hs, hc, rfl, rfl⟩))
    | leave hs hc => exact .inl (.inl (.inr ⟨_, hs, hc, rfl, rfl⟩))
    | switch hs ht h₁ h₂ h₃ h₄ h₅ => exact .inl (.inr ⟨_, hs, _, ht, _, h₁, h₂, h₃, h₄, h₅, rfl, rfl⟩)
    | compute hs h₁ h₂ h₃ => exact .inr ⟨_, hs, _, h₁, h₂, h₃, rfl, rfl⟩

end BloomBee.Routing

/-! ### Paths -/

namespace BloomBee.Routing

open InferenceSession (Span Covers covers_append)
open Relation (ReflTransGen)

variable {Peer : Type} {st : RoutingState Peer} {numBlocks : ℕ}
  {spans : List (RemoteSpanInfo Peer)} {startIndex endIndex : ℕ}

/-! ### A path wherever the blocks are covered -/

/-- Through a server, as far as its span and the range go. -/
theorem through_server {s : RemoteSpanInfo Peer} (hs : s ∈ spans) {b m : ℕ} (hb : startIndex ≤ b)
    (hsb : s.Contains b) (hbm : b ≤ m) (hm : (m : ℤ) ≤ s.stop) (hme : m ≤ endIndex) :
    ReflTransGen (Edge spans startIndex endIndex) (.server s.peerId b) (.server s.peerId m) := by
  induction m, hbm using Nat.le_induction with
  | base => exact .refl
  | succ m hbm ih =>
    refine (ih (by omega) (by omega)).tail ?_
    refine .compute hs (Nat.le_trans hb hbm) hme ⟨Nat.le_trans hsb.1 hbm, ?_⟩
    push_cast at hm
    omega

/-- By induction on the blocks that are left: a server is followed to its end, where another
one goes on. -/
theorem Covered.reaches_stop (h : Covered spans startIndex endIndex) :
    ∀ (n b : ℕ) (s : RemoteSpanInfo Peer), endIndex - b ≤ n → startIndex ≤ b → b < endIndex →
      s ∈ spans → s.Contains b →
      ReflTransGen (Edge spans startIndex endIndex) (.server s.peerId b) .stop := by
  intro n
  induction n with
  | zero =>
    intro b s hn _ hlt
    omega
  | succ n ih =>
    intro b s hn hb hlt hs hsb
    have hstart := hsb.1
    have hstop := hsb.2
    by_cases hend : (endIndex : ℤ) ≤ s.stop
    · have hlast : s.Contains (endIndex - 1) := ⟨by omega, by omega⟩
      exact (through_server hs hb hsb (Nat.le_of_lt hlt) hend (Nat.le_refl _)).tail (.leave hs hlast)
    · obtain ⟨m, hm⟩ := Int.eq_ofNat_of_zero_le (a := s.stop) (by omega)
      have hbm : b < m := by omega
      have hme : m < endIndex := by omega
      obtain ⟨t, ht, htm⟩ := h m (by omega) hme
      have hthrough : ReflTransGen (Edge spans startIndex endIndex) (.server s.peerId b)
          (.server s.peerId m) :=
        through_server hs hb hsb (Nat.le_of_lt hbm) (by omega) (Nat.le_of_lt hme)
      have hswitch : Edge spans startIndex endIndex (.server s.peerId m) (.server t.peerId m) :=
        .switch hs ht (by omega) hme ⟨by omega, by omega⟩ hm htm
      exact (hthrough.tail hswitch).trans (ih m t (by omega) (by omega) hme ht htm)

theorem Covered.exists_isPath (h : Covered spans startIndex endIndex) (hlt : startIndex < endIndex)
    {g : Graph Peer} (hg : ∀ u v, g.HasEdge u v ↔ Edge spans startIndex endIndex u v) :
    ∃ nodes, g.IsPath nodes := by
  obtain ⟨s, hs, hsb⟩ := h startIndex (Nat.le_refl _) hlt
  have hreach : ReflTransGen (Edge spans startIndex endIndex) .start .stop :=
    .head (.enter hs hsb) (h.reaches_stop _ _ s (Nat.le_refl _) (Nat.le_refl _) hlt hs hsb)
  obtain ⟨nodes, hchain, hlast⟩ := List.exists_isChain_cons_of_relationReflTransGen hreach
  refine ⟨.start :: nodes, rfl, ?_, hchain.imp fun u v huv => (hg u v).mpr huv⟩
  rw [List.getLast?_eq_getLast_of_ne_nil (List.cons_ne_nil _ _), hlast]

/-! ### What a path folds back to -/

/-- The spans so far: all but the last are done, the last one is at the node `(peer, b)`. A
server just taken over has the block. -/
structure Folding (spans : List (RemoteSpanInfo Peer)) (startIndex endIndex : ℕ)
    (known : RemoteSpanInfo Peer) (b : ℕ) (acc : List (RemoteSpanInfo Peer)) : Prop where
  mem : known ∈ spans
  split : ∃ done first, acc = done ++ [⟨known.peerId, first, b, known.serverInfo⟩] ∧
    Routes spans startIndex first done ∧ first ≤ b ∧ known.start ≤ first ∧ (b : ℤ) ≤ known.stop ∧
    (first = b → (b : ℤ) < known.stop ∧ b < endIndex) ∧
    ∃ c, startIndex ≤ c ∧ c < endIndex ∧ known.Contains c

theorem Routes.concat {first b : ℕ} {done : List (RemoteSpanInfo Peer)} {known : RemoteSpanInfo Peer}
    (h : Routes spans startIndex first done) (hknown : known ∈ spans) (hlt : first < b)
    (hstart : known.start ≤ first) (hstop : (b : ℤ) ≤ known.stop) :
    Routes spans startIndex b (done ++ [⟨known.peerId, first, b, known.serverInfo⟩]) := by
  refine ⟨?_, List.forall_mem_append.mpr ⟨h.inside, List.forall_mem_singleton.mpr
    ⟨known, hknown, rfl, hstart, hstop, rfl⟩⟩⟩
  rw [List.map_append]
  exact covers_append.mpr ⟨first, h.tiles, rfl, hlt, rfl⟩

/-- Only a server whose span ends with the range is left for the client. -/
theorem Folding.leave {known : RemoteSpanInfo Peer} {acc : List (RemoteSpanInfo Peer)}
    (hf : Folding spans startIndex endIndex known endIndex acc) :
    Routes spans startIndex endIndex acc := by
  obtain ⟨hknown, done, first, rfl, hroutes, hle, hfirst, hb, hfresh, -⟩ := hf
  rcases Nat.lt_or_eq_of_le hle with hlt | heq
  · exact hroutes.concat hknown hlt hfirst hb
  · exact absurd (hfresh heq).2 (Nat.lt_irrefl _)

variable [DecidableEq Peer]

theorem get?_serverInfos (h : KnownSpans st numBlocks spans) (hend : endIndex ≤ numBlocks)
    {s : RemoteSpanInfo Peer} (hs : s ∈ spans) {c : ℕ} (hstart : startIndex ≤ c)
    (hlt : c < endIndex) (hc : s.Contains c) :
    (serverInfos st startIndex endIndex).get? s.peerId = some s.serverInfo := by
  refine OrderedDict.get?_foldl_set (fun t ht hpeer => ?_) (.inr ⟨s, ?_, rfl⟩)
  · obtain ⟨b, hb, ht⟩ := List.mem_flatMap.mp ht
    rw [List.mem_range'_1] at hb
    rw [h.eq_of_peer ((h.mem_containing (by omega) t).mp ht).1 hs hpeer]
  · exact List.mem_flatMap.mpr ⟨c, List.mem_range'_1.mpr ⟨hstart, by omega⟩,
      (h.mem_containing (by omega) s).mpr ⟨hs, hc⟩⟩

theorem Folding.compute {known : RemoteSpanInfo Peer} {b : ℕ} {acc : List (RemoteSpanInfo Peer)}
    (h : Folding spans startIndex endIndex known b acc) (hc : known.Contains b)
    (infos : OrderedDict Peer (ServerInfo Peer)) :
    ∃ acc', appendNode infos acc (.server known.peerId (b + 1)) = .ok acc' ∧
      Folding spans startIndex endIndex known (b + 1) acc' := by
  obtain ⟨hknown, done, first, rfl, hroutes, hle, hstart, -, -, hsome⟩ := h
  refine ⟨done ++ [⟨known.peerId, first, (b + 1 : ℕ), known.serverInfo⟩], ?_, hknown, done, first,
    rfl, hroutes, Nat.le_succ_of_le hle, hstart, ?_, fun h => absurd h (by omega), hsome⟩
  · rw [appendNode, List.getLast?_concat]
    dsimp only
    rw [if_pos rfl, List.dropLast_concat]
  · have := hc.2
    push_cast
    omega

/-- The server is left at its end for one that goes on, which is another peer. -/
theorem Folding.switch (h : KnownSpans st numBlocks spans) (hend : endIndex ≤ numBlocks)
    {known next : RemoteSpanInfo Peer} {b : ℕ} {acc : List (RemoteSpanInfo Peer)}
    (hf : Folding spans startIndex endIndex known b acc) (hnext : next ∈ spans)
    (hstop : known.stop = (b : ℤ)) (hstart : startIndex < b) (hlt : b < endIndex)
    (hc : next.Contains b) :
    ∃ acc', appendNode (serverInfos st startIndex endIndex) acc (.server next.peerId b) = .ok acc' ∧
      Folding spans startIndex endIndex next b acc' := by
  obtain ⟨hknown, done, first, rfl, hroutes, hle, hfirst, hb, hfresh, -⟩ := hf
  have hne : ¬ known.peerId = next.peerId := by
    intro hpeer
    rw [← h.eq_of_peer hknown hnext hpeer] at hc
    have := hc.2
    omega
  have hfb : first < b := by
    rcases Nat.lt_or_eq_of_le hle with hlt | heq
    · exact hlt
    · have := (hfresh heq).1
      omega
  refine ⟨_, ?_, hnext, _, b, rfl, hroutes.concat hknown hfb hfirst hb, Nat.le_refl _, hc.1,
    Int.le_of_lt hc.2, fun _ => ⟨hc.2, hlt⟩, b, Nat.le_of_lt hstart, hlt, hc⟩
  rw [appendNode, List.getLast?_concat]
  dsimp only
  rw [if_neg hne, get?_serverInfos h hend hnext (Nat.le_of_lt hstart) hlt hc]

theorem Folding.path (h : KnownSpans st numBlocks spans) (hend : endIndex ≤ numBlocks)
    (nodes : List (Node Peer)) :
    ∀ (known : RemoteSpanInfo Peer) (b : ℕ) (acc : List (RemoteSpanInfo Peer)),
      Folding spans startIndex endIndex known b acc →
      (Node.server known.peerId b :: nodes).IsChain (Edge spans startIndex endIndex) →
      (Node.server known.peerId b :: nodes).getLast? = some .stop →
      ∃ route, nodes.dropLast.foldlM (appendNode (serverInfos st startIndex endIndex)) acc =
        .ok route ∧ Routes spans startIndex endIndex route := by
  induction nodes with
  | nil =>
    intro known b acc _ _ hlast
    cases hlast
  | cons v nodes ih =>
    intro known b acc hf hchain hlast
    obtain ⟨hedge, hchain⟩ := List.isChain_cons_cons.mp hchain
    rw [List.getLast?_cons_cons] at hlast
    have hgoes {known' : RemoteSpanInfo Peer} {b' : ℕ} {acc' : List (RemoteSpanInfo Peer)}
        (hv : v = .server known'.peerId b')
        (happend : appendNode (serverInfos st startIndex endIndex) acc v = .ok acc')
        (hf' : Folding spans startIndex endIndex known' b' acc') :
        ∃ route, (v :: nodes).dropLast.foldlM (appendNode (serverInfos st startIndex endIndex)) acc =
          .ok route ∧ Routes spans startIndex endIndex route := by
      rcases nodes with - | ⟨w, nodes⟩
      · rw [hv] at hlast
        cases hlast
      rw [hv] at hchain hlast
      obtain ⟨route, hroute, hroutes⟩ := ih known' b' acc' hf' hchain hlast
      refine ⟨route, ?_, hroutes⟩
      rw [List.dropLast_cons_cons, List.foldlM_cons, happend]
      exact hroute
    generalize hu : Node.server known.peerId b = u at hedge
    cases hedge with
    | enter hs hc => cases hu
    | @leave s hs hc =>
      obtain ⟨hpeer, rfl⟩ := Node.server.inj hu
      rcases nodes with - | ⟨w, nodes⟩
      · exact ⟨acc, rfl, hf.leave⟩
      · have hstuck := (List.isChain_cons_cons.mp hchain).1
        cases hstuck
    | @switch s t b' hs ht hstart hlt hc hstop hc' =>
      obtain ⟨hpeer, rfl⟩ := Node.server.inj hu
      obtain rfl := h.eq_of_peer hf.mem hs hpeer
      obtain ⟨acc', happend, hf'⟩ := hf.switch h hend ht hstop hstart hlt hc'
      exact hgoes rfl happend hf'
    | @compute s b' hs hstart hlt hc =>
      obtain ⟨hpeer, rfl⟩ := Node.server.inj hu
      obtain rfl := h.eq_of_peer hf.mem hs hpeer
      obtain ⟨acc', happend, hf'⟩ := hf.compute hc (serverInfos st startIndex endIndex)
      exact hgoes rfl happend hf'

/-- Every path folds back to a route, and none of its spans is empty before the filter. -/
theorem spanSequence_routes (h : KnownSpans st numBlocks spans) (hlt : startIndex < endIndex)
    (hend : endIndex ≤ numBlocks) {g : Graph Peer}
    (hg : ∀ u v, g.HasEdge u v ↔ Edge spans startIndex endIndex u v) {nodes : List (Node Peer)}
    (hpath : g.IsPath nodes) : ∃ route, spanSequence st startIndex endIndex nodes = .ok route ∧
      Routes spans startIndex endIndex route := by
  obtain ⟨hhead, hlast, hedges⟩ := hpath
  have hchain : nodes.IsChain (Edge spans startIndex endIndex) :=
    hedges.imp fun u v huv => (hg u v).mp huv
  rcases nodes with - | ⟨u, nodes⟩
  · cases hhead
  obtain rfl := Option.some.inj hhead
  rcases nodes with - | ⟨v, nodes⟩
  · cases hlast
  obtain ⟨hedge, hchain⟩ := List.isChain_cons_cons.mp hchain
  rw [List.getLast?_cons_cons] at hlast
  cases hedge with
  | @enter s hs hc =>
    have hinfo := get?_serverInfos h hend hs (Nat.le_refl _) hlt hc
    have hf : Folding spans startIndex endIndex s startIndex
        [⟨s.peerId, startIndex, startIndex, s.serverInfo⟩] :=
      ⟨hs, [], startIndex, rfl, ⟨rfl, fun t ht => absurd ht List.not_mem_nil⟩, Nat.le_refl _, hc.1,
        Int.le_of_lt hc.2, fun _ => ⟨hc.2, hlt⟩, startIndex, Nat.le_refl _, hlt, hc⟩
    obtain ⟨route, hroute, hroutes⟩ := hf.path h hend nodes s startIndex _ hchain hlast
    have hnonempty : route.filter (fun s => 0 < s.length) = route := by
      refine List.filter_eq_self.mpr fun t ht => decide_eq_true ?_
      have hmem : t.toSpan ∈ route.map fun s => s.toSpan := List.mem_map_of_mem ht
      have := covers_lt hroutes.tiles t.toSpan hmem
      unfold RemoteSpanInfo.toSpan at this
      unfold RemoteSpanInfo.length
      dsimp only at this
      omega
    refine ⟨route, ?_, hroutes⟩
    rcases nodes with - | ⟨w, nodes⟩
    · cases hlast
    have hfold : (Node.server s.peerId startIndex :: w :: nodes).dropLast.foldlM
        (appendNode (serverInfos st startIndex endIndex)) [] = .ok route := by
      rw [List.dropLast_cons_cons, List.foldlM_cons, appendNode, List.getLast?_nil, hinfo]
      exact hroute
    rw [spanSequence, List.tail_cons, hfold]
    exact congrArg Except.ok hnonempty

theorem makeSequenceWithMinLatency_eq {startIndex endIndex : ℕ} {cacheTokensNeeded : Option ℕ}
    {findPath : Graph Peer → Option (List (Node Peer))} {g : Graph Peer}
    (hne : startIndex ≠ endIndex) (hmissing : missingBlocks st startIndex endIndex = [])
    (hg : buildInferenceGraph st startIndex endIndex cacheTokensNeeded = .ok g) :
    makeSequenceWithMinLatency st startIndex endIndex cacheTokensNeeded findPath =
      (findPath g).elim (.error .noPath) (spanSequence st startIndex endIndex) := by
  unfold makeSequenceWithMinLatency
  rw [if_neg hne]
  dsimp only
  rw [if_neg (not_not.mpr hmissing), hg, Fallible.ok_bind]
  rcases findPath g with - | nodes
  · rfl
  · rfl

end BloomBee.Routing
