import Mathlib.Data.List.Induction
import BloomBee.Spec.RemoteSequenceInfo

/-! The span that `compute_spans` gives a peer: its first entry of the highest state decides,
and further entries of this state only move the end. -/

set_option autoImplicit false

namespace BloomBee.Routing

variable {Peer : Type}

def entryAt [DecidableEq Peer] (infos : List (RemoteModuleInfo Peer)) (peer : Peer) (b : ℕ) :
    Option (ServerInfo Peer) := infos[b]?.bind fun m => m.servers.get? peer

/-- The peer is present at the block with the state that is asked for. -/
def Declared [DecidableEq Peer] (infos : List (RemoteModuleInfo Peer)) (minState : ServerState)
    (peer : Peer) (b : ℕ) : Prop :=
  ∃ info, entryAt infos peer b = some info ∧ minState.value ≤ info.state.value

/-- The first and the last block of the highest state that a peer is declared with. -/
structure Highest [DecidableEq Peer] (infos : List (RemoteModuleInfo Peer))
    (minState : ServerState) (peer : Peer) (first last : ℕ) (info : ServerInfo Peer) : Prop where
  entry : entryAt infos peer first = some info
  minState : minState.value ≤ info.state.value
  le : first ≤ last
  lastEntry : ∃ info', entryAt infos peer last = some info' ∧ info'.state = info.state
  highest : ∀ b info', entryAt infos peer b = some info' →
    info'.state.value ≤ info.state.value ∧
      (info'.state = info.state → first ≤ b ∧ b ≤ last)

/-- The bounds of an entry, relative to the first module and clipped to the modules, where it
announces both. -/
def announced (blockOffset numBlocks : ℕ) (info : ServerInfo Peer) : Option (ℕ × ℤ) :=
  match info.startBlock, info.endBlock with
  | some startBlock, some endBlock =>
    some (startBlock - blockOffset, min ((endBlock : ℤ) - blockOffset) numBlocks)
  | _, _ => none

def Spanned (blockOffset numBlocks first last : ℕ) (info : ServerInfo Peer) (b : ℕ) : Prop :=
  match announced blockOffset numBlocks info with
  | some (start, stop) => start ≤ b ∧ ((b : ℤ) < stop ∨ first < last ∧ b ≤ last)
  | none => first ≤ b ∧ b ≤ last

variable {blockOffset numBlocks blockIdx : ℕ} {minState : ServerState} {peer : Peer}

theorem ServerState.value_inj {s t : ServerState} (h : s.value = t.value) : s = t := by
  cases s <;> cases t <;> first | rfl | cases h

def visitInfo (blockOffset numBlocks : ℕ) (minState : ServerState) (blockIdx : ℕ) (peer : Peer)
    (span : Option (RemoteSpanInfo Peer)) (info : ServerInfo Peer) :
    Option (RemoteSpanInfo Peer) :=
  if info.state.value < minState.value then span
  else match span with
    | none => some (spanOfEntry blockOffset numBlocks blockIdx peer info)
    | some span =>
      if span.state.value < info.state.value then
        some (spanOfEntry blockOffset numBlocks blockIdx peer info)
      else if span.state = info.state then some { span with stop := max span.stop (blockIdx + 1) }
      else some span

variable {first last : ℕ} {info : ServerInfo Peer}

/-- The end of a span, moved by the entries after the first one. -/
def extended (first last : ℕ) (s : RemoteSpanInfo Peer) : RemoteSpanInfo Peer :=
  if first < last then { s with stop := max s.stop (last + 1) } else s

theorem state_spanOfEntry (block : ℕ) (peer : Peer) (info : ServerInfo Peer) :
    (spanOfEntry blockOffset numBlocks block peer info).state = info.state := by
  unfold spanOfEntry
  split <;> rfl

theorem state_extended (s : RemoteSpanInfo Peer) : (extended first last s).state = s.state := by
  unfold extended
  split_ifs <;> rfl

theorem peerId_extended :
    (extended first last (spanOfEntry blockOffset numBlocks first peer info)).peerId = peer := by
  unfold extended spanOfEntry
  split_ifs <;> split <;> rfl

/-- The blocks inside a span of `compute_spans`. -/
theorem contains_iff_spanned (hle : first ≤ last) {span : RemoteSpanInfo Peer}
    (hspan : span = extended first last (spanOfEntry blockOffset numBlocks first peer info))
    (b : ℕ) : span.Contains b ↔ Spanned blockOffset numBlocks first last info b := by
  subst hspan
  unfold RemoteSpanInfo.Contains Spanned announced extended spanOfEntry
  rcases info.startBlock with - | start
  · split_ifs
    · dsimp only
      omega
    · dsimp only
      omega
  rcases info.endBlock with - | stop
  · split_ifs
    · dsimp only
      omega
    · dsimp only
      omega
  · split_ifs with h
    · dsimp only
      omega
    · dsimp only
      omega

variable [LinearOrder Peer]

theorem get?_visitEntry (spans : OrderedDict Peer (RemoteSpanInfo Peer))
    (entry : Peer × ServerInfo Peer) (peer : Peer) :
    (visitEntry blockOffset numBlocks minState blockIdx spans entry).get? peer =
      if peer = entry.1 then
        visitInfo blockOffset numBlocks minState blockIdx peer (spans.get? peer) entry.2
      else spans.get? peer := by
  obtain ⟨p, info⟩ := entry
  unfold visitEntry visitInfo
  dsimp only
  by_cases hp : peer = p
  · subst hp
    rw [if_pos rfl]
    by_cases hmin : info.state.value < minState.value
    · rw [if_pos hmin, if_pos hmin]
    rw [if_neg hmin, if_neg hmin]
    rcases h : spans.get? peer with - | span
    · rw [OrderedDict.get?_set, if_pos rfl]
    · dsimp only
      split_ifs
      · rw [OrderedDict.get?_set, if_pos rfl]
      · rw [OrderedDict.get?_set, if_pos rfl]
      · exact h
  · rw [if_neg hp]
    by_cases hmin : info.state.value < minState.value
    · rw [if_pos hmin]
    rw [if_neg hmin]
    rcases h : spans.get? p with - | span
    · rw [OrderedDict.get?_set, if_neg hp]
    · dsimp only
      split_ifs
      · rw [OrderedDict.get?_set, if_neg hp]
      · rw [OrderedDict.get?_set, if_neg hp]
      · rfl

/-- The entries of one block: a peer has one at most. -/
theorem get?_foldl_visitEntry (peer : Peer) :
    ∀ (entries : List (Peer × ServerInfo Peer)) (spans : OrderedDict Peer (RemoteSpanInfo Peer)),
      (entries.map Prod.fst).Nodup →
      (∀ info, (peer, info) ∈ entries →
        (entries.foldl (visitEntry blockOffset numBlocks minState blockIdx) spans).get? peer =
          visitInfo blockOffset numBlocks minState blockIdx peer (spans.get? peer) info) ∧
      ((∀ info, (peer, info) ∉ entries) →
        (entries.foldl (visitEntry blockOffset numBlocks minState blockIdx) spans).get? peer =
          spans.get? peer) := by
  intro entries
  induction entries with
  | nil => exact fun spans _ => ⟨fun info h => absurd h List.not_mem_nil, fun _ => rfl⟩
  | cons e entries ih =>
    intro spans hnodup
    rw [List.map_cons, List.nodup_cons] at hnodup
    obtain ⟨hin, hout⟩ :=
      ih (visitEntry blockOffset numBlocks minState blockIdx spans e) hnodup.2
    rw [List.foldl_cons]
    constructor
    · intro info hinfo
      rcases List.mem_cons.mp hinfo with rfl | hmem
      · rw [hout fun info' h' => hnodup.1 (List.mem_map.mpr ⟨(peer, info'), h', rfl⟩), get?_visitEntry, if_pos rfl]
      · rw [hin info hmem, get?_visitEntry, if_neg]
        rintro rfl
        exact hnodup.1 (List.mem_map.mpr ⟨(e.1, info), hmem, rfl⟩)
    · intro hnone
      rw [hout fun info h => hnone info (List.mem_cons_of_mem e h), get?_visitEntry, if_neg]
      rintro rfl
      exact hnone e.2 List.mem_cons_self

theorem get?_sortedServers (m : RemoteModuleInfo Peer)
    (spans : OrderedDict Peer (RemoteSpanInfo Peer)) (peer : Peer) :
    ((sortedServers m).foldl (visitEntry blockOffset numBlocks minState blockIdx) spans).get? peer =
      ((m.servers.get? peer).map
        (visitInfo blockOffset numBlocks minState blockIdx peer (spans.get? peer))).getD
        (spans.get? peer) := by
  have hperm : (sortedServers m).Perm m.servers.entries := List.mergeSort_perm _ _
  have hnodup : ((sortedServers m).map Prod.fst).Nodup :=
    (hperm.map Prod.fst).nodup_iff.mpr m.servers.nodup
  rcases h : m.servers.get? peer with - | info
  · exact (get?_foldl_visitEntry peer (sortedServers m) spans hnodup).2 fun info hmem =>
      OrderedDict.get?_eq_none_iff.mp h info (hperm.mem_iff.mp hmem)
  · exact (get?_foldl_visitEntry peer (sortedServers m) spans hnodup).1 info
      (hperm.mem_iff.mpr (OrderedDict.get?_eq_some_iff.mp h))

def spansOf (blockOffset numBlocks : ℕ) (minState : ServerState)
    (infos : List (RemoteModuleInfo Peer)) : OrderedDict Peer (RemoteSpanInfo Peer) :=
  infos.zipIdx.foldl
    (fun spans m =>
      (sortedServers m.1).foldl (visitEntry blockOffset numBlocks minState m.2) spans) .empty

theorem get?_spansOf_concat (infos : List (RemoteModuleInfo Peer)) (m : RemoteModuleInfo Peer)
    (peer : Peer) :
    (spansOf blockOffset numBlocks minState (infos ++ [m])).get? peer =
      ((m.servers.get? peer).map (visitInfo blockOffset numBlocks minState infos.length peer
        ((spansOf blockOffset numBlocks minState infos).get? peer))).getD
        ((spansOf blockOffset numBlocks minState infos).get? peer) := by
  rw [spansOf, List.zipIdx_append, List.foldl_append]
  simp only [List.zipIdx_singleton, List.foldl_cons, List.foldl_nil, Nat.zero_add]
  exact get?_sortedServers m _ peer

/-! ### Entries of a longer list -/

variable {infos : List (RemoteModuleInfo Peer)} {m : RemoteModuleInfo Peer} {b : ℕ}

theorem entryAt_lt (h : entryAt infos peer b = some info) : b < infos.length := by
  rw [entryAt, Option.bind_eq_some_iff] at h
  obtain ⟨m, hm, -⟩ := h
  exact (List.getElem?_eq_some_iff.mp hm).1

theorem entryAt_concat : entryAt (infos ++ [m]) peer b =
    if b = infos.length then m.servers.get? peer else entryAt infos peer b := by
  unfold entryAt
  rw [List.getElem?_append]
  split_ifs with hlt heq heq
  · omega
  · rfl
  · rw [heq, Nat.sub_self]
    rfl
  · rw [List.getElem?_eq_none (by simp; omega), List.getElem?_eq_none (by omega)]

theorem declared_concat : Declared (infos ++ [m]) minState peer b ↔
    Declared infos minState peer b ∨
      b = infos.length ∧ ∃ info, m.servers.get? peer = some info ∧
        minState.value ≤ info.state.value := by
  unfold Declared
  rw [entryAt_concat]
  split_ifs with hb
  · have hnone : entryAt infos peer b = none := by
      rw [entryAt, List.getElem?_eq_none (by omega)]
      rfl
    rw [hnone]
    simp [hb]
  · simp [hb]

def SpanOf (blockOffset numBlocks : ℕ) (infos : List (RemoteModuleInfo Peer))
    (minState : ServerState) (peer : Peer) : Option (RemoteSpanInfo Peer) → Prop
  | none => ∀ b, ¬ Declared infos minState peer b
  | some span => ∃ first last info, Highest infos minState peer first last info ∧
      span = extended first last (spanOfEntry blockOffset numBlocks first peer info)

/-- Where the new block has no entry that counts, nothing changes. -/
theorem Highest.concat (h : Highest infos minState peer first last info)
    (hlow : ∀ info', m.servers.get? peer = some info' → info'.state.value < info.state.value) :
    Highest (infos ++ [m]) minState peer first last info := by
  obtain ⟨hentry, hmin, hle, ⟨info', hlast, hstate⟩, hhighest⟩ := h
  have hold {b : ℕ} {info' : ServerInfo Peer} (h : entryAt infos peer b = some info') :
      entryAt (infos ++ [m]) peer b = some info' := by
    rw [entryAt_concat, if_neg (Nat.ne_of_lt (entryAt_lt h)), h]
  refine ⟨hold hentry, hmin, hle, ⟨info', hold hlast, hstate⟩, fun b info'' h => ?_⟩
  rw [entryAt_concat] at h
  split_ifs at h with hb
  · have := hlow info'' h
    refine ⟨Nat.le_of_lt this, fun hs => ?_⟩
    rw [hs] at this
    exact absurd this (Nat.lt_irrefl _)
  · exact hhighest b info'' h

/-- An entry above all before it is the first and the last of its state. -/
theorem highest_begins {info : ServerInfo Peer} (hm : m.servers.get? peer = some info)
    (hmin : minState.value ≤ info.state.value)
    (hbelow : ∀ b info', entryAt infos peer b = some info' →
      info'.state.value < info.state.value) :
    Highest (infos ++ [m]) minState peer infos.length infos.length info := by
  have hnew : entryAt (infos ++ [m]) peer infos.length = some info := by
    rw [entryAt_concat, if_pos rfl, hm]
  refine ⟨hnew, hmin, Nat.le_refl _, ⟨info, hnew, rfl⟩, fun b info' h => ?_⟩
  rw [entryAt_concat] at h
  split_ifs at h with hb
  · rw [hm] at h
    obtain rfl := Option.some.inj h
    exact ⟨Nat.le_refl _, fun _ => by omega⟩
  · have hlt := hbelow b info' h
    refine ⟨Nat.le_of_lt hlt, fun hs => ?_⟩
    rw [hs] at hlt
    exact absurd hlt (Nat.lt_irrefl _)

/-- Another entry of the highest state is the last one now. -/
theorem Highest.extends {top : ServerInfo Peer} (h : Highest infos minState peer first last top)
    (hm : m.servers.get? peer = some info) (hsame : info.state = top.state) :
    Highest (infos ++ [m]) minState peer first infos.length top := by
  have hlt := entryAt_lt h.entry
  have hnew : entryAt (infos ++ [m]) peer infos.length = some info := by
    rw [entryAt_concat, if_pos rfl, hm]
  refine ⟨?_, h.minState, Nat.le_of_lt hlt, ⟨info, hnew, hsame⟩, fun b info' hb => ?_⟩
  · rw [entryAt_concat, if_neg (Nat.ne_of_lt hlt), h.entry]
  · rw [entryAt_concat] at hb
    split_ifs at hb with heq
    · rw [hm] at hb
      obtain rfl := Option.some.inj hb
      exact ⟨Nat.le_of_eq (congrArg ServerState.value hsame), fun _ => by omega⟩
    · have hold := h.highest b info' hb
      have hblt := entryAt_lt hb
      exact ⟨hold.1, fun hs => ⟨(hold.2 hs).1, Nat.le_of_lt hblt⟩⟩

theorem spanOf_begins {info : ServerInfo Peer} (hm : m.servers.get? peer = some info)
    (hmin : minState.value ≤ info.state.value)
    (hbelow : ∀ b info', entryAt infos peer b = some info' →
      info'.state.value < info.state.value) :
    SpanOf blockOffset numBlocks (infos ++ [m]) minState peer
      (some (spanOfEntry blockOffset numBlocks infos.length peer info)) :=
  ⟨_, _, info, highest_begins hm hmin hbelow, by rw [extended, if_neg (Nat.lt_irrefl _)]⟩

/-- A block that does not present the peer as asked leaves its span. -/
theorem SpanOf.keep {span : Option (RemoteSpanInfo Peer)}
    (h : SpanOf blockOffset numBlocks infos minState peer span)
    (hlow : ∀ info, m.servers.get? peer = some info → info.state.value < minState.value) :
    SpanOf blockOffset numBlocks (infos ++ [m]) minState peer span := by
  rcases span with - | span
  · intro b hb
    rcases declared_concat.mp hb with hb | ⟨-, info, hinfo, hmin⟩
    · exact h b hb
    · exact absurd hmin (Nat.not_le_of_lt (hlow info hinfo))
  · obtain ⟨first, last, info, hhigh, hspan⟩ := h
    exact ⟨first, last, info,
      hhigh.concat fun info' h' => Nat.lt_of_lt_of_le (hlow info' h') hhigh.minState, hspan⟩

/-- One more block: by cases on what it announces for the peer. -/
theorem SpanOf.concat {span : Option (RemoteSpanInfo Peer)}
    (h : SpanOf blockOffset numBlocks infos minState peer span) :
    SpanOf blockOffset numBlocks (infos ++ [m]) minState peer
      (((m.servers.get? peer).map
        (visitInfo blockOffset numBlocks minState infos.length peer span)).getD span) := by
  rcases hm : m.servers.get? peer with - | info
  · rw [Option.map_none, Option.getD_none]
    exact h.keep fun info' h' => (by rw [hm] at h'; cases h')
  have hinfo : ∀ info', m.servers.get? peer = some info' → info' = info :=
    fun info' h' => Option.some.inj (h'.symm.trans hm)
  rw [Option.map_some, Option.getD_some]
  unfold visitInfo
  by_cases hmin : info.state.value < minState.value
  · rw [if_pos hmin]
    exact h.keep fun info' h' => hinfo info' h' ▸ hmin
  rw [if_neg hmin]
  have hmin' := Nat.le_of_not_lt hmin
  rcases span with - | span
  · refine spanOf_begins hm hmin' fun b info' hb => ?_
    by_contra hlt
    exact h b ⟨info', hb, Nat.le_trans hmin' (Nat.le_of_not_lt hlt)⟩
  obtain ⟨first, last, top, hhigh, hspan⟩ := h
  have hstate : span.state = top.state := by
    rw [hspan, state_extended, state_spanOfEntry]
  dsimp only
  rw [hstate]
  by_cases hup : top.state.value < info.state.value
  · rw [if_pos hup]
    exact spanOf_begins hm hmin' fun b info' hb =>
      Nat.lt_of_le_of_lt (hhigh.highest b info' hb).1 hup
  rw [if_neg hup]
  by_cases hsame : top.state = info.state
  · rw [if_pos hsame]
    refine ⟨first, infos.length, top, hhigh.extends hm hsame.symm, ?_⟩
    have hfirst := entryAt_lt hhigh.entry
    have hlast : last < infos.length := by
      obtain ⟨info', hlast, -⟩ := hhigh.lastEntry
      exact entryAt_lt hlast
    rw [hspan]
    unfold extended
    rw [if_pos hfirst]
    split_ifs with hfl
    · simp only [RemoteSpanInfo.mk.injEq, true_and, and_true]
      omega
    · rfl
  · rw [if_neg hsame]
    refine ⟨first, last, top, hhigh.concat fun info' h' => ?_, hspan⟩
    rw [hinfo info' h']
    exact Nat.lt_of_le_of_ne (Nat.le_of_not_lt hup) fun h => hsame (ServerState.value_inj h.symm)

theorem spanOf_spansOf (blockOffset numBlocks : ℕ) (minState : ServerState) (peer : Peer)
    (infos : List (RemoteModuleInfo Peer)) :
    SpanOf blockOffset numBlocks infos minState peer
      ((spansOf blockOffset numBlocks minState infos).get? peer) := by
  induction infos using List.reverseRecOn with
  | nil =>
    rintro b ⟨info, h, -⟩
    exact absurd (entryAt_lt h) (Nat.not_lt_zero b)
  | append_singleton infos m ih =>
    rw [get?_spansOf_concat]
    exact ih.concat

end BloomBee.Routing
