import BloomBee.Lib.Tiling
import BloomBee.Sanity.SessionRetry
import BloomBee.Spec.SessionChain

/-! The chain of server sessions over any run of `InferenceSession.step`: whatever servers
fail and however their spans are replaced, the spans tile the blocks and every session is
linked to the one that follows it. -/

set_option autoImplicit false

namespace BloomBee.InferenceSession

def Span.range (s : Span) : ℕ × ℕ := (s.start, s.stop)

def Chain.ranges (sessions : List ChainSession) : List (ℕ × ℕ) :=
  sessions.map fun s => s.span.range

@[simp] theorem ranges_append (xs ys : List ChainSession) :
    Chain.ranges (xs ++ ys) = Chain.ranges xs ++ Chain.ranges ys := List.map_append

/-- The spans tile the blocks from `b` to `e`, the last of them possibly past `e`. -/
def TilesPast (b e : ℕ) (spans : List Span) : Prop :=
  ∃ init last, spans = init ++ [last] ∧ Tiles b last.start (init.map Span.range) ∧
    last.start ≤ e ∧ e ≤ last.stop

/-- Where `make_sequence` returns, its spans tile what was asked for. -/
def Try.Routed (t : Try) : Prop :=
  ∀ b e, b ≤ e → t.makeSequence b e ≠ [] → TilesPast b e (t.makeSequence b e)

def ChainEvent.Routed : ChainEvent → Prop
  | .step => True
  | .attempt t => t.Routed

/-- Each `next_session` is the session that follows in the list. -/
def Linked (sessions : List ChainSession) : Prop :=
  ∀ i s, sessions[i]? = some s → s.nextSession = sessions[i + 1]?.map fun t => t.id

structure Chain.Sound (numBlocks : ℕ) (c : Chain) : Prop where
  tiles : c.serverSessions = [] ∧ c.created = 0 ∨
    Tiles 0 numBlocks (Chain.ranges c.serverSessions)
  linked : Linked c.serverSessions
  /-- The ids do tell the sessions apart. -/
  nodup : (c.serverSessions.map fun s => s.id).Nodup
  old : ∀ s ∈ c.serverSessions, s.id < c.created

/-- The sessions before `server_idx` cover the blocks before `block_idx`. -/
structure Cursor.Sound (numBlocks : ℕ) (c : Chain) (k : Cursor) : Prop where
  lt : k.blockIdx < numBlocks
  tiles : Tiles 0 k.blockIdx (Chain.ranges (c.serverSessions.take k.serverIdx))
  le : k.serverIdx ≤ c.serverSessions.length

structure ChainState.Sound (numBlocks : ℕ) (s : ChainState) : Prop where
  chain : s.chain.Sound numBlocks
  cursor : ∀ k ∈ s.cursor, k.Sound numBlocks s.chain

variable {numBlocks : ℕ}

/-! ### The links -/

theorem getElem?_link (sessions : List ChainSession) (i j : ℕ) :
    (link sessions i)[j]? = sessions[j]?.map fun s =>
      if i = j then { s with nextSession := sessions[i + 1]?.map fun t => t.id } else s := by
  rw [link, List.getElem?_modify]
  split_ifs <;> simp

theorem ids_link (sessions : List ChainSession) (i : ℕ) :
    ((link sessions i).map fun s => s.id) = sessions.map fun s => s.id := by
  refine List.ext_getElem? fun j => ?_
  rw [List.getElem?_map, List.getElem?_map, getElem?_link, Option.map_map]
  congr 1
  funext s
  simp only [Function.comp_apply]
  split_ifs <;> rfl

theorem ranges_link (sessions : List ChainSession) (i : ℕ) :
    Chain.ranges (link sessions i) = Chain.ranges sessions := by
  refine List.ext_getElem? fun j => ?_
  rw [Chain.ranges, Chain.ranges, List.getElem?_map, List.getElem?_map, getElem?_link,
    Option.map_map]
  congr 1
  funext s
  simp only [Function.comp_apply]
  split_ifs <;> rfl

theorem id_link (sessions : List ChainSession) (i j : ℕ) :
    ((link sessions i)[j]?.map fun t => t.id) = sessions[j]?.map fun t => t.id := by
  rw [← List.getElem?_map, ids_link, List.getElem?_map]

/-- The loop over the links: it sets those in its window, to what the list holds there. -/
theorem getElem?_links (n : ℕ) : ∀ (sessions : List ChainSession) (first j : ℕ),
    ((List.range' first n).foldl link sessions)[j]? = sessions[j]?.map fun s =>
      if first ≤ j ∧ j < first + n then
        { s with nextSession := sessions[j + 1]?.map fun t => t.id } else s := by
  induction n with
  | zero =>
    intro sessions first j
    have hout : ¬ (first ≤ j ∧ j < first + 0) := by omega
    simp only [List.range'_zero, List.foldl_nil, if_neg hout, Option.map_id']
  | succ n ih =>
    intro sessions first j
    rw [List.range'_succ, List.foldl_cons, ih, id_link, getElem?_link, Option.map_map]
    congr 1
    funext s
    simp only [Function.comp_apply]
    by_cases hj : first = j
    · subst hj
      have hout : ¬ (first + 1 ≤ first ∧ first < first + 1 + n) := by omega
      rw [if_neg hout, if_pos rfl, if_pos (by omega)]
    · rw [if_neg hj]
      congr 1
      exact propext ⟨fun h => by omega, fun h => by omega⟩

theorem ids_links (is : List ℕ) (sessions : List ChainSession) :
    ((is.foldl link sessions).map fun s => s.id) = sessions.map fun s => s.id := by
  induction is generalizing sessions with
  | nil => rfl
  | cons i is ih => rw [List.foldl_cons, ih, ids_link]

theorem id_links (is : List ℕ) (sessions : List ChainSession) (j : ℕ) :
    ((is.foldl link sessions)[j]?.map fun t => t.id) = sessions[j]?.map fun t => t.id := by
  rw [← List.getElem?_map, ids_links, List.getElem?_map]

theorem ranges_links (is : List ℕ) (sessions : List ChainSession) :
    Chain.ranges (is.foldl link sessions) = Chain.ranges sessions := by
  induction is generalizing sessions with
  | nil => rfl
  | cons i is ih => rw [List.foldl_cons, ih, ranges_link]

/-! ### `_update_sequence` -/

@[simp] theorem length_enterServerSessions (created : ℕ) (spans : List Span) :
    (enterServerSessions created spans).length = spans.length := by
  induction spans generalizing created with
  | nil => rfl
  | cons span spans ih => simp [enterServerSessions, ih]

theorem ranges_enterServerSessions (created : ℕ) (spans : List Span) :
    Chain.ranges (enterServerSessions created spans) = spans.map Span.range := by
  induction spans generalizing created with
  | nil => rfl
  | cons span spans ih =>
    simp only [enterServerSessions, Chain.ranges, List.map_cons] at ih ⊢
    rw [ih]

theorem ids_enterServerSessions (created : ℕ) (spans : List Span) :
    ((enterServerSessions created spans).map fun s => s.id) = List.range' created spans.length := by
  induction spans generalizing created with
  | nil => rfl
  | cons span spans ih => simp [enterServerSessions, ih, List.range'_succ]

theorem nextSession_enterServerSessions {created : ℕ} {spans : List Span} {s : ChainSession}
    (h : s ∈ enterServerSessions created spans) : s.nextSession = none := by
  induction spans generalizing created with
  | nil => cases h
  | cons span spans ih =>
    rcases List.mem_cons.mp h with rfl | h
    · rfl
    · exact ih h

/-- Cutting the last span at the end of what was asked for leaves a tiling of it. -/
theorem TilesPast.clampLast {b e : ℕ} {spans : List Span} (h : TilesPast b e spans) :
    Tiles b e ((clampLast e spans).map Span.range) := by
  obtain ⟨init, last, rfl, ht, hle, hpast⟩ := h
  induction init generalizing b with
  | nil =>
    cases ht
    simp only [List.nil_append, InferenceSession.clampLast, List.map_cons, List.map_nil, Span.range,
      Nat.min_eq_right hpast]
    exact .singleton hle
  | cons s init ih =>
    obtain ⟨t, ts, hts⟩ : ∃ t ts, init ++ [last] = t :: ts :=
      List.exists_cons_of_ne_nil (by simp)
    rw [List.map_cons] at ht
    cases ht with
    | cons h ht =>
      have htail := ih ht
      rw [hts] at htail
      simp only [List.cons_append, hts, InferenceSession.clampLast, List.map_cons] at htail ⊢
      exact .cons h htail

/-- What the list is made of once a failed session, or the end of the list, was replaced. -/
theorem linked_splice {old updated : List ChainSession} {k : ℕ} (hk : k ≤ old.length)
    (hold : Linked old) (hnew : ∀ s ∈ updated, s.nextSession = none) (hne : updated ≠ []) :
    Linked ((List.range' (k - 1) (min (k + updated.length)
        ((old.take k ++ updated ++ old.drop (k + 1)).length - 1) - (k - 1))).foldl link
      (old.take k ++ updated ++ old.drop (k + 1))) := by
  have hpos := List.length_pos_of_ne_nil hne
  set sessions := old.take k ++ updated ++ old.drop (k + 1) with hs
  have hlen : sessions.length = k + updated.length + (old.length - (k + 1)) := by
    simp [hs, Nat.min_eq_left hk, Nat.add_assoc]
  -- the sessions before, among and after the new ones
  have hbefore : ∀ j < k, sessions[j]? = old[j]? := by
    intro j hj
    rw [hs, List.append_assoc, List.getElem?_append_left (by simp; omega),
      List.getElem?_take_of_lt hj]
  have hamong : ∀ j, k ≤ j → j < k + updated.length → sessions[j]? = updated[j - k]? := by
    intro j hj hj'
    rw [hs, List.append_assoc, List.getElem?_append_right (by simp; omega),
      List.getElem?_append_left (by simp; omega)]
    simp [Nat.min_eq_left hk]
  have hafter : ∀ j, k + updated.length ≤ j →
      sessions[j]? = old[j - updated.length + 1]? := by
    intro j hj
    rw [hs, List.getElem?_append_right (by simp; omega), List.getElem?_drop]
    congr 1
    simp [Nat.min_eq_left hk]
    omega
  intro j s hj
  rw [getElem?_links] at hj
  obtain ⟨t, ht, rfl⟩ := Option.map_eq_some_iff.mp hj
  rw [id_links]
  have hjlt : j < sessions.length := (List.getElem?_eq_some_iff.mp ht).1
  by_cases hin : k - 1 ≤ j ∧ j < k - 1 + (min (k + updated.length) (sessions.length - 1) - (k - 1))
  · rw [if_pos hin]
  rw [if_neg hin]
  by_cases hjk : j < k
  · -- before the window: both the session and the next one are old
    rw [hbefore j hjk] at ht
    rw [hold j t ht, hbefore (j + 1) (by omega)]
  by_cases hnewj : j < k + updated.length
  · -- the last session of the list is a new one
    rw [hamong j (by omega) hnewj] at ht
    rw [hnew t (List.mem_of_getElem? ht), List.getElem?_eq_none (by omega)]
    rfl
  · rw [hafter j (by omega)] at ht
    rw [hold _ t ht, hafter (j + 1) (by omega)]
    congr 2
    omega

theorem nodup_splice {old updated : List ChainSession} {k created : ℕ}
    (hnodup : (old.map fun s => s.id).Nodup) (hold : ∀ s ∈ old, s.id < created)
    (hids : ∃ n, (updated.map fun s => s.id) = List.range' created n) :
    ((old.take k ++ updated ++ old.drop (k + 1)).map fun s => s.id).Nodup := by
  obtain ⟨n, hids⟩ := hids
  have hperm : (old.take k ++ updated ++ old.drop (k + 1)).Perm
      (updated ++ (old.take k ++ old.drop (k + 1))) := by
    rw [← List.append_assoc]
    exact List.perm_append_comm.append_right _
  have hsub : (old.take k ++ old.drop (k + 1)).Sublist old := by
    conv_rhs => rw [← List.take_append_drop k old]
    refine (List.Sublist.refl _).append ?_
    rw [← List.drop_drop]
    exact List.drop_sublist 1 _
  rw [(hperm.map _).nodup_iff, List.map_append, hids, List.nodup_append]
  refine ⟨List.nodup_range', hnodup.sublist (hsub.map _), ?_⟩
  intro i hi j hj
  obtain ⟨s, hs, rfl⟩ := List.mem_map.mp hj
  have hlt := hold s (hsub.subset hs)
  have hge := (List.mem_range'_1.mp hi).1
  omega

/-- The session that is up next begins where the loop stands. -/
theorem Cursor.Sound.current {c : Chain} {k : Cursor} (hk : k.Sound numBlocks c)
    (ht : Tiles 0 numBlocks (Chain.ranges c.serverSessions)) :
    ∃ s, c.serverSessions[k.serverIdx]? = some s ∧ s.span.start = k.blockIdx ∧
      k.blockIdx ≤ s.span.stop ∧
      Tiles s.span.stop numBlocks (Chain.ranges (c.serverSessions.drop (k.serverIdx + 1))) := by
  rw [← List.take_append_drop k.serverIdx c.serverSessions, ranges_append] at ht
  obtain ⟨b, hdone, htodo⟩ := Tiles.append_iff.mp ht
  obtain rfl := hk.tiles.stop_unique hdone
  rcases hdrop : c.serverSessions.drop k.serverIdx with - | ⟨s, rest⟩
  · rw [hdrop] at htodo
    cases htodo
    exact absurd hk.lt (Nat.lt_irrefl _)
  · rw [hdrop] at htodo
    have hget : c.serverSessions[k.serverIdx]? = some s := by
      rw [← Nat.add_zero k.serverIdx, ← List.getElem?_drop, hdrop]
      rfl
    have hrest : c.serverSessions.drop (k.serverIdx + 1) = rest := by
      rw [← List.drop_drop, hdrop]
      rfl
    refine ⟨s, hget, ?_⟩
    rw [hrest]
    generalize k.blockIdx = b at htodo
    simp only [Chain.ranges, List.map_cons] at htodo ⊢
    generalize hr : s.span.range = r at htodo
    cases htodo with
    | cons h t =>
      simp only [Span.range, Prod.mk.injEq] at hr
      obtain ⟨rfl, rfl⟩ := hr
      exact ⟨rfl, h, t⟩

/-- `_update_sequence` keeps the invariant, and leaves a session for the loop to go on with. -/
theorem Chain.Sound.updateSequence {c c' : Chain} {k : Cursor} {t : Try}
    (hc : c.Sound numBlocks) (hk : k.Sound numBlocks c) (hroute : t.Routed)
    (h : c.updateSequence numBlocks k.serverIdx k.blockIdx t = some c') :
    c'.Sound numBlocks ∧ k.Sound numBlocks c' ∧ c'.serverSessions ≠ [] := by
  obtain ⟨e, rest, hend, hble, hrest, hdrop⟩ : ∃ e rest,
      ((c.serverSessions[k.serverIdx]?.map fun s => s.span.stop).getD numBlocks) = e ∧
      k.blockIdx ≤ e ∧ Tiles e numBlocks (Chain.ranges rest) ∧
      c.serverSessions.drop (k.serverIdx + 1) = rest := by
    rcases hc.tiles with ⟨hnil, -⟩ | ht
    · rw [hnil]
      exact ⟨numBlocks, [], by simp, Nat.le_of_lt hk.lt, .nil _, by simp⟩
    · obtain ⟨s, hs, -, hle, hrest⟩ := hk.current ht
      exact ⟨s.span.stop, _, by simp [hs], hle, hrest, rfl⟩
  simp only [Chain.updateSequence, hend] at h
  split_ifs at h with hraises
  obtain rfl := Option.some.inj h
  obtain ⟨hne, -⟩ := not_or.mp hraises
  set spans := clampLast e (t.makeSequence k.blockIdx e) with hspans
  have hmake : t.makeSequence k.blockIdx e ≠ [] := by
    intro hnil
    rw [hspans, hnil] at hne
    exact hne rfl
  have htiles := (hroute k.blockIdx e hble hmake).clampLast
  rw [← hspans] at htiles
  set updated := enterServerSessions c.created spans with hupdated
  have hlen : updated.length = spans.length := length_enterServerSessions _ _
  have hne' : updated ≠ [] := by
    intro hnil
    rw [hnil] at hlen
    exact hne (List.eq_nil_of_length_eq_zero hlen.symm)
  have hle := hk.le
  refine ⟨⟨.inr ?_, ?_, ?_, ?_⟩, ⟨hk.lt, ?_, ?_⟩, ?_⟩
  · simp only [ranges_links, ranges_append, hupdated, ranges_enterServerSessions, hdrop]
    exact Tiles.append_iff.mpr ⟨e, Tiles.append_iff.mpr ⟨_, hk.tiles, htiles⟩, hrest⟩
  · rw [← hlen]
    exact linked_splice hle hc.linked (fun s hs => nextSession_enterServerSessions hs) hne'
  · simp only [ids_links]
    exact nodup_splice hc.nodup hc.old ⟨_, ids_enterServerSessions _ _⟩
  · intro s hs
    have hmem : s.id ∈ (c.serverSessions.take k.serverIdx ++ updated ++
        c.serverSessions.drop (k.serverIdx + 1)).map fun s => s.id := by
      rw [← ids_links]
      exact List.mem_map_of_mem hs
    obtain ⟨s', hs', hid⟩ := List.mem_map.mp hmem
    rw [← hid]
    simp only [List.mem_append] at hs'
    rcases hs' with (hs' | hs') | hs'
    · exact Nat.lt_add_right _ (hc.old s' (List.mem_of_mem_take hs'))
    · have := List.mem_map_of_mem (f := fun s => s.id) hs'
      rw [hupdated, ids_enterServerSessions, List.mem_range'_1] at this
      exact this.2
    · exact Nat.lt_add_right _ (hc.old s' (List.mem_of_mem_drop hs'))
  · rw [Chain.ranges, List.map_take, ← Chain.ranges, ranges_links, ranges_append, ranges_append,
      List.append_assoc, List.take_append_of_le_length (by simp [Chain.ranges]; omega),
      List.take_of_length_le (by
        rw [Chain.ranges, List.length_map]
        exact List.length_take_le _ _)]
    exact hk.tiles
  · rw [← List.length_map (f := fun s => s.id), ids_links, List.length_map]
    simp
    omega
  · intro hnil
    have := congrArg (fun l => l.map fun s => s.id) hnil
    simp only [ids_links] at this
    simp [hne'] at this

/-! ### Runs -/

theorem Cursor.Sound.retry {c : Chain} {k : Cursor} (hk : k.Sound numBlocks c)
    (maxRetries : Option ℕ) : ∀ k' ∈ k.retry maxRetries, k'.Sound numBlocks c := by
  intro k' hk'
  unfold Cursor.retry at hk'
  split_ifs at hk'
  · cases hk'
  · obtain rfl := Option.some.inj hk'
    exact ⟨hk.lt, hk.tiles, hk.le⟩

theorem loopAt_sound {c : Chain} {serverIdx blockIdx : ℕ}
    (ht : Tiles 0 blockIdx (Chain.ranges (c.serverSessions.take serverIdx)))
    (hle : serverIdx ≤ c.serverSessions.length) :
    ∀ k ∈ loopAt numBlocks serverIdx blockIdx, k.Sound numBlocks c := by
  intro k hk
  unfold loopAt at hk
  split_ifs at hk with hlt
  · obtain rfl := Option.some.inj hk
    exact ⟨hlt, ht, hle⟩
  · cases hk

/-- An answer moves the loop to the end of the session's span. -/
theorem Cursor.Sound.answered {c : Chain} {k : Cursor} {s : ChainSession}
    (hk : k.Sound numBlocks c) (hc : c.Sound numBlocks)
    (hs : c.serverSessions[k.serverIdx]? = some s) :
    ∀ k' ∈ loopAt numBlocks (k.serverIdx + 1) s.span.stop, k'.Sound numBlocks c := by
  have hlt := (List.getElem?_eq_some_iff.mp hs).1
  rcases hc.tiles with ⟨hnil, -⟩ | ht
  · rw [hnil] at hs
    cases hs
  obtain ⟨s', hs', hstart, hle, -⟩ := hk.current ht
  obtain rfl : s = s' := Option.some.inj (hs.symm.trans hs')
  refine loopAt_sound ?_ hlt
  rw [List.take_add_one, hs, ranges_append]
  refine Tiles.append_iff.mpr ⟨_, hk.tiles, ?_⟩
  simp only [Option.toList_some, Chain.ranges, List.map_cons, List.map_nil, Span.range, hstart]
  exact .singleton hle

theorem ChainState.Sound.act {s : ChainState} (h : s.Sound numBlocks) (maxRetries : Option ℕ)
    {event : ChainEvent} (hroute : event.Routed) :
    (s.act numBlocks maxRetries event).Sound numBlocks := by
  cases event with
  | step =>
    exact ⟨h.chain, loopAt_sound (by simpa [Chain.ranges] using Tiles.nil 0) (Nat.zero_le _)⟩
  | attempt t =>
    simp only [ChainState.act]
    rcases hcur : s.cursor with - | k
    · exact h
    have hk := h.cursor k hcur
    dsimp only
    rcases hopen : s.chain.routed numBlocks k t with - | chain
    · exact ⟨h.chain, hk.retry maxRetries⟩
    have hchain : chain.Sound numBlocks ∧ k.Sound numBlocks chain := by
      unfold Chain.routed at hopen
      split_ifs at hopen
      · obtain ⟨hc, hk', -⟩ := h.chain.updateSequence hk hroute hopen
        exact ⟨hc, hk'⟩
      · obtain rfl := Option.some.inj hopen
        exact ⟨h.chain, hk⟩
    dsimp only
    split
    · rename_i session hs
      exact ⟨hchain.1, hchain.2.answered hchain.1 hs⟩
    · exact ⟨hchain.1, hchain.2.retry maxRetries⟩

theorem chainState_sound_init (numBlocks : ℕ) : ChainState.init.Sound numBlocks where
  chain := ⟨.inl ⟨rfl, rfl⟩, by simp [Linked, ChainState.init, Chain.init], List.nodup_nil,
    by simp [ChainState.init, Chain.init]⟩
  cursor := by simp [ChainState.init]

theorem ChainState.Sound.run {s : ChainState} (h : s.Sound numBlocks) (maxRetries : Option ℕ)
    {events : List ChainEvent} (hroute : ∀ event ∈ events, event.Routed) :
    (s.run numBlocks maxRetries events).Sound numBlocks := by
  induction events generalizing s with
  | nil => exact h
  | cons event events ih =>
    obtain ⟨he, hroute⟩ := List.forall_mem_cons.mp hroute
    exact ih (h.act maxRetries he) hroute

/-- After any run of `step` calls, in the middle of a step as well as between two steps: once
the first `_update_sequence` went through, the spans of the server sessions tile the blocks in
the order of the list, and every session's `next_session` is the session that follows it. -/
theorem chain_tiled_and_linked (numBlocks : ℕ) (maxRetries : Option ℕ) (events : List ChainEvent)
    (hroute : ∀ event ∈ events, event.Routed) :
    let c := (ChainState.init.run numBlocks maxRetries events).chain
    (c.serverSessions = [] ∧ c.created = 0 ∨
        Tiles 0 numBlocks (Chain.ranges c.serverSessions)) ∧
      Linked c.serverSessions ∧ (c.serverSessions.map fun s => s.id).Nodup := by
  have h := ((chainState_sound_init numBlocks).run maxRetries hroute).chain
  exact ⟨h.tiles, h.linked, h.nodup⟩

/-- A server for the first block of a range and one for the rest of it and two blocks more. -/
def routeApart (b e : ℕ) : List Span :=
  if b + 1 < e then [⟨b, b + 1⟩, ⟨b + 1, e + 2⟩] else [⟨b, e + 2⟩]

theorem routed_routeApart (opened answered : Bool) : (Try.mk routeApart opened answered).Routed := by
  intro b e hle _
  by_cases h : b + 1 < e
  · refine ⟨[⟨b, b + 1⟩], ⟨b + 1, e + 2⟩, ?_, .singleton (Nat.le_succ b), ?_, ?_⟩
    · simp [routeApart, h]
    · exact Nat.le_of_lt h
    · exact Nat.le_add_right e 2
  · refine ⟨[], ⟨b, e + 2⟩, ?_, .nil b, hle, Nat.le_add_right e 2⟩
    simp [routeApart, h]

/-- Three blocks on two servers, the second of which fails in the next step and is replaced by
two. -/
theorem chain_tiled_and_linked_replaced :
    let events : List ChainEvent := [.step, .attempt ⟨routeApart, true, true⟩,
      .attempt ⟨routeApart, true, true⟩, .step, .attempt ⟨routeApart, true, true⟩,
      .attempt ⟨routeApart, true, false⟩, .attempt ⟨routeApart, true, true⟩]
    let c := (ChainState.init.run 3 (some 3) events).chain
    c.serverSessions = [⟨0, ⟨0, 1⟩, some 2⟩, ⟨2, ⟨1, 2⟩, some 3⟩, ⟨3, ⟨2, 3⟩, none⟩] ∧
      (c.serverSessions = [] ∧ c.created = 0 ∨ Tiles 0 3 (Chain.ranges c.serverSessions)) ∧
        Linked c.serverSessions ∧ (c.serverSessions.map fun s => s.id).Nodup := by
  intro events c
  have hroute : ∀ event ∈ events, event.Routed := by
    simp [events, ChainEvent.Routed, routed_routeApart]
  exact ⟨by decide, chain_tiled_and_linked 3 (some 3) events hroute⟩

/-! ### The chain of a session -/

def Chain.spans (c : Chain) : List Span := c.serverSessions.map fun s => s.span

variable {τ : Type}

def spansOf (sessions : List (ServerSession τ)) : List Span := sessions.map fun s => s.span

@[simp] theorem spansOf_append (xs ys : List (ServerSession τ)) :
    spansOf (xs ++ ys) = spansOf xs ++ spansOf ys := List.map_append

theorem spans_links (is : List ℕ) (sessions : List ChainSession) :
    ((is.foldl link sessions).map fun s => s.span) = sessions.map fun s => s.span := by
  have h (i : ℕ) (sessions : List ChainSession) :
      ((link sessions i).map fun s => s.span) = sessions.map fun s => s.span := by
    refine List.ext_getElem? fun j => ?_
    rw [List.getElem?_map, List.getElem?_map, getElem?_link, Option.map_map]
    congr 1
    funext s
    simp only [Function.comp_apply]
    split_ifs <;> rfl
  induction is generalizing sessions with
  | nil => rfl
  | cons i is ih => rw [List.foldl_cons, ih, h]

theorem spans_enterServerSessions (created : ℕ) (spans : List Span) :
    ((enterServerSessions created spans).map fun s => s.span) = spans := by
  induction spans generalizing created with
  | nil => rfl
  | cons span spans ih => simp [enterServerSessions, ih]

theorem spansOf_create (spans : List Span) :
    spansOf (spans.map (ServerSession.create (τ := τ))) = spans := by
  simp [spansOf, Function.comp_def, ServerSession.create]

theorem spansOf_modifyHead (f : ServerSession τ → ServerSession τ) (hf : ∀ s, (f s).span = s.span)
    (todo : List (ServerSession τ)) : spansOf (todo.modifyHead f) = spansOf todo := by
  cases todo <;> simp [spansOf, hf]

theorem spansOf_pushOutputs (cfg : Config) (push : Option (ℕ × List τ))
    (rest : List (ServerSession τ)) : spansOf (pushOutputs cfg push rest) = spansOf rest := by
  rcases push with - | copy
  · rfl
  · refine spansOf_modifyHead _ (fun s => ?_) rest
    unfold ServerSession.receivePush
    split_ifs <;> rfl

def Attempt.tried (a : Attempt) (answered : Bool) : Try :=
  ⟨a.makeSequence, decide (a.fate ≠ .unreachable), answered⟩

@[simp] theorem Attempt.tried_answered (a : Attempt) (answered : Bool) :
    (a.tried answered).answered = answered := rfl

def cursorAfter (cfg : Config) (k : Cursor) :
    List (ServerSession τ) × Option (List τ) → Option Cursor
  | (s :: _, some _) => loopAt cfg.numBlocks (k.serverIdx + 1) s.span.stop
  | _ => k.retry cfg.maxRetries

variable {cfg : Config} {blocks : ℕ → Causal τ τ} {c : Chain} {done todo : List (ServerSession τ)}

theorem getElem?_of_spans (h : c.spans = spansOf (done ++ todo)) :
    (c.serverSessions[done.length]?.map fun s => s.span) = (spansOf todo).head? := by
  rw [← List.getElem?_map, ← Chain.spans, h, spansOf_append,
    List.getElem?_append_right (by simp [spansOf]), List.head?_eq_getElem?]
  simp [spansOf]

/-- `_update_sequence` on the chain and on the sessions from `server_idx` on. -/
theorem updateSequence_spans (h : c.spans = spansOf (done ++ todo)) (a : Attempt)
    (answered : Bool) (blockIdx : ℕ) :
    spansOf (done ++ (updateSequence cfg a blockIdx todo).1) =
        ((c.updateSequence cfg.numBlocks done.length blockIdx (a.tried answered)).getD c).spans ∧
      (updateSequence cfg a blockIdx todo).2 =
        (c.updateSequence cfg.numBlocks done.length blockIdx (a.tried answered)).isSome := by
  have hend : ((c.serverSessions[done.length]?.map fun s => s.span.stop).getD cfg.numBlocks) =
      (todo.head?.map fun s => s.span.stop).getD cfg.numBlocks := by
    have hget := congrArg (Option.map Span.stop) (getElem?_of_spans h)
    simp only [Option.map_map, Function.comp_def, spansOf, List.head?_map] at hget
    rw [hget]
  have hclosed : spansOf (todo.modifyHead fun s => { s with closed := true }) = spansOf todo :=
    spansOf_modifyHead _ (by intro s; rfl) todo
  simp only [updateSequence, Chain.updateSequence, hend, Attempt.tried, decide_eq_false_iff_not,
    not_not, Or.comm (a := a.fate = .unreachable)]
  split_ifs with hraises
  · refine ⟨?_, rfl⟩
    rw [Option.getD_none, h, spansOf_append, hclosed, spansOf_append]
  · rw [Option.getD_some, Option.isSome_some, Chain.spans]
    simp only [spans_links, List.map_append, spans_enterServerSessions, List.map_take,
      List.map_drop]
    have htake : (c.serverSessions.map fun s => s.span).take done.length = spansOf done := by
      rw [← Chain.spans, h, spansOf_append, List.take_left' (by simp [spansOf])]
    have hdrop : (c.serverSessions.map fun s => s.span).drop (done.length + 1) =
        (spansOf todo).drop 1 := by
      rw [← Chain.spans, h, spansOf_append, ← List.drop_drop, List.drop_left' (by simp [spansOf])]
    rw [htake, hdrop]
    rcases todo with - | ⟨s, rest⟩
    · refine ⟨?_, rfl⟩
      simp only [List.modifyHead]
      rw [spansOf_append, spansOf_create]
      simp [spansOf]
    · refine ⟨?_, rfl⟩
      simp only [List.modifyHead_cons]
      rw [spansOf_append, spansOf_append, spansOf_modifyHead _ (by intro s; rfl), spansOf_create]
      simp [spansOf]

/-- The sessions an attempt goes on with, on the chain and in the retry loop. -/
theorem routed_spans (h : c.spans = spansOf (done ++ todo)) (a : Attempt) (answered : Bool)
    (blockIdx attemptNo : ℕ) :
    let update := (done ++ todo).isEmpty || decide (1 ≤ attemptNo)
    let r := if update then updateSequence cfg a blockIdx todo else (todo, true)
    let routed := c.routed cfg.numBlocks ⟨done.length, blockIdx, attemptNo⟩ (a.tried answered)
    spansOf (done ++ r.1) = (routed.getD c).spans ∧ r.2 = routed.isSome := by
  have hempty : (done ++ todo).isEmpty = c.serverSessions.isEmpty := by
    rw [← List.isEmpty_map (f := fun s => s.span), ← spansOf, ← h, Chain.spans, List.isEmpty_map]
  simp only [Chain.routed, hempty]
  split_ifs
  · exact updateSequence_spans h a answered blockIdx
  · exact ⟨by simpa using h.symm, rfl⟩

theorem act_spans (h : c.spans = spansOf (done ++ todo)) {a : Attempt} {n blockIdx attemptNo : ℕ}
    {inputs : List τ} {r : List (ServerSession τ) × Option (List τ)}
    (hr : attempt cfg blocks a n ((done ++ todo).isEmpty || decide (1 ≤ attemptNo)) blockIdx
      todo inputs = r) :
    let s := ChainState.act cfg.numBlocks cfg.maxRetries
      ⟨c, some ⟨done.length, blockIdx, attemptNo⟩⟩ (.attempt (a.tried r.2.isSome))
    s.chain.spans = spansOf (done ++ r.1) ∧
      s.cursor = cursorAfter cfg ⟨done.length, blockIdx, attemptNo⟩ r := by
  intro s
  obtain ⟨hspans, hopen⟩ := routed_spans h a r.2.isSome blockIdx attemptNo
  rcases hseq : (if (done ++ todo).isEmpty || decide (1 ≤ attemptNo) then
    updateSequence cfg a blockIdx todo else (todo, true)) with ⟨todo', opened⟩
  rw [hseq] at hspans hopen
  rcases hc : c.routed cfg.numBlocks ⟨done.length, blockIdx, attemptNo⟩ (a.tried r.2.isSome)
    with - | c'
  · rw [hc] at hspans hopen
    rw [attempt_of_raised hseq (.inl hopen)] at hr
    subst hr
    simp only [s, ChainState.act, hc]
    exact ⟨hspans.symm, by cases todo' <;> rfl⟩
  rw [hc] at hspans hopen
  have hget := getElem?_of_spans hspans.symm
  rcases todo' with - | ⟨t, rest⟩
  · rw [attempt_of_raised hseq (.inr rfl)] at hr
    subst hr
    have hnone : c'.serverSessions[done.length]? = none := by simpa [spansOf] using hget
    simp only [s, ChainState.act, hc, hnone]
    exact ⟨hspans.symm, rfl⟩
  · obtain rfl : opened = true := hopen
    rw [attempt_of_opened hseq] at hr
    obtain ⟨session, hsession, hspan⟩ : ∃ session,
        c'.serverSessions[done.length]? = some session ∧ session.span = t.span := by
      simpa [spansOf] using hget
    have hlist : c'.spans = spansOf (done ++ r.1) := by
      rw [← Option.getD_some (a := c') (b := c), ← hspans, ← hr, spansOf_append, spansOf_append]
      congr 1
      exact congrArg₂ List.cons (ServerSession.step_span cfg blocks a t _).symm
        (spansOf_pushOutputs cfg _ rest).symm
    rcases r with ⟨todo', answer⟩
    obtain ⟨rfl, hanswer⟩ := Prod.mk.inj hr
    rcases answer with - | outputs
    · simp only [s, ChainState.act, hc, hsession]
      exact ⟨hlist, rfl⟩
    · simp only [s, ChainState.act, hc, hsession]
      refine ⟨hlist, ?_⟩
      rw [cursorAfter, ServerSession.step_span, ← hspan]
      rfl

def From (attempts : List Attempt) (events : List ChainEvent) : Prop :=
  ∀ event ∈ events, event = .step ∨ ∃ a ∈ attempts, ∃ answered, event = .attempt (a.tried answered)

theorem From.mono {attempts attempts' : List Attempt} {events : List ChainEvent}
    (h : From attempts events) (hsub : attempts ⊆ attempts') : From attempts' events := by
  intro event he
  refine (h event he).imp_right ?_
  rintro ⟨a, ha, answered, rfl⟩
  exact ⟨a, hsub ha, answered, rfl⟩

/-- The loops of `step` from some point on are a run of the chain. -/
theorem stepLoop_spans (n : ℕ) (attempts : List Attempt) :
    ∀ (c : Chain) (done todo : List (ServerSession τ)) (blockIdx attemptNo : ℕ) (inputs : List τ),
      c.spans = spansOf (done ++ todo) → ∃ events, From attempts events ∧
        (ChainState.run cfg.numBlocks cfg.maxRetries ⟨c, if blockIdx < cfg.numBlocks then
            some ⟨done.length, blockIdx, attemptNo⟩ else none⟩ events).chain.spans =
          spansOf (stepLoop cfg blocks n attempts done todo blockIdx attemptNo inputs).1 := by
  induction attempts with
  | nil =>
    intro c done todo blockIdx attemptNo inputs h
    refine ⟨[], fun event he => absurd he List.not_mem_nil, ?_⟩
    rw [stepLoop]
    split_ifs <;> exact h
  | cons a attempts ih =>
    intro c done todo blockIdx attemptNo inputs h
    by_cases hb : cfg.numBlocks ≤ blockIdx
    · refine ⟨[], fun event he => absurd he List.not_mem_nil, ?_⟩
      rw [stepLoop, if_pos hb]
      exact h
    rw [if_pos (Nat.lt_of_not_le hb), stepLoop, if_neg hb]
    rcases hr : attempt cfg blocks a n ((done ++ todo).isEmpty || decide (1 ≤ attemptNo)) blockIdx
      todo inputs with ⟨todo', answer⟩
    obtain ⟨hspans, hcursor⟩ := act_spans h hr
    set s := ChainState.act cfg.numBlocks cfg.maxRetries
      ⟨c, some ⟨done.length, blockIdx, attemptNo⟩⟩ (.attempt (a.tried answer.isSome)) with hs
    have hfirst : From (a :: attempts) [.attempt (a.tried answer.isSome)] := by
      intro event he
      obtain rfl := List.mem_singleton.mp he
      exact .inr ⟨a, List.mem_cons_self, _, rfl⟩
    -- an attempt that fails, whatever sessions it leaves
    have hfails (hretry : s.cursor = Cursor.retry cfg.maxRetries ⟨done.length, blockIdx, attemptNo⟩) :
        ∃ events, From (a :: attempts) events ∧
          (ChainState.run cfg.numBlocks cfg.maxRetries
            ⟨c, some ⟨done.length, blockIdx, attemptNo⟩⟩ events).chain.spans =
          spansOf (if cfg.maxRetries = some (attemptNo + 1) then
              (done ++ todo', .error .retriesExhausted)
            else stepLoop cfg blocks n attempts done todo' blockIdx (attemptNo + 1) inputs).1 := by
      by_cases hmax : cfg.maxRetries = some (attemptNo + 1)
      · refine ⟨_, hfirst, ?_⟩
        rw [if_pos hmax]
        exact hspans
      · obtain ⟨events, hfrom, hrun⟩ := ih s.chain done todo' blockIdx (attemptNo + 1) inputs hspans
        refine ⟨.attempt (a.tried answer.isSome) :: events,
          List.forall_mem_cons.mpr ⟨hfirst _ List.mem_cons_self,
            hfrom.mono (List.subset_cons_self a attempts)⟩, ?_⟩
        rw [if_neg hmax, ← hrun, if_pos (Nat.lt_of_not_le hb)]
        rw [Cursor.retry, if_neg hmax] at hretry
        rw [← hretry]
        rfl
    rcases todo' with - | ⟨t, rest⟩
    · simp only [hr]
      exact hfails (by rw [hcursor]; rfl)
    rcases answer with - | outputs
    · simp only [hr]
      exact hfails hcursor
    · simp only [hr]
      rw [show done ++ t :: rest = done ++ [t] ++ rest by simp] at hspans
      obtain ⟨events, hfrom, hrun⟩ := ih s.chain (done ++ [t]) rest t.span.stop 0 outputs hspans
      refine ⟨.attempt (a.tried true) :: events, List.forall_mem_cons.mpr
        ⟨hfirst _ List.mem_cons_self, hfrom.mono (List.subset_cons_self a attempts)⟩, ?_⟩
      rw [← hrun]
      rw [cursorAfter, loopAt] at hcursor
      rw [List.length_append, List.length_singleton, ← hcursor]
      rfl

/-- Whatever calls are made, the spans of the sessions are those of a run of the chain whose
attempts meet with the same routes. -/
theorem run_spans (calls : List (Call τ)) : ∀ (s : Session τ) (c : ChainState),
    c.chain.spans = spansOf s.sessions → ∃ events,
      From (calls.flatMap fun call => call.attempts) events ∧
      (c.run cfg.numBlocks cfg.maxRetries events).chain.spans =
        spansOf (s.run cfg blocks calls).1.sessions := by
  induction calls with
  | nil => exact fun s c h => ⟨[], fun event he => absurd he List.not_mem_nil, h⟩
  | cons call calls ih =>
    intro s c h
    obtain ⟨first, hfirst, hstep⟩ : ∃ events, From call.attempts events ∧
        (c.run cfg.numBlocks cfg.maxRetries events).chain.spans =
          spansOf (s.step cfg blocks call.attempts call.inputs).1.sessions := by
      by_cases hmax : cfg.maxLength < s.position + call.inputs.length
      · refine ⟨[], fun event he => absurd he List.not_mem_nil, ?_⟩
        rw [Session.step, if_pos hmax]
        exact h
      have h' : c.chain.spans = spansOf ([] ++ s.sessions.map fun t => { t with pushed := [] }) := by
        rw [h]
        simp [spansOf]
      obtain ⟨events, hfrom, hrun⟩ := stepLoop_spans
        call.inputs.length call.attempts c.chain [] _ 0 0 call.inputs h'
      refine ⟨.step :: events, List.forall_mem_cons.mpr ⟨.inl rfl, hfrom⟩, ?_⟩
      rw [step_sessions hmax]
      exact hrun
    obtain ⟨events, hfrom, hrun⟩ := ih (s.step cfg blocks call.attempts call.inputs).1
      (c.run cfg.numBlocks cfg.maxRetries first) hstep
    refine ⟨first ++ events, ?_, ?_⟩
    · rw [List.flatMap_cons]
      exact List.forall_mem_append.mpr ⟨hfirst.mono (List.subset_append_left _ _),
        hfrom.mono (List.subset_append_right _ _)⟩
    · rw [ChainState.run, List.foldl_append]
      exact hrun

theorem sessions_tile (calls : List (Call τ))
    (hroute : ∀ call ∈ calls, ∀ a ∈ call.attempts, ∀ b e, b ≤ e → a.makeSequence b e ≠ [] →
      TilesPast b e (a.makeSequence b e)) :
    (Session.init.run cfg blocks calls).1.sessions = [] ∨
      Tiles 0 cfg.numBlocks
        ((spansOf (Session.init.run cfg blocks calls).1.sessions).map Span.range) := by
  obtain ⟨events, hfrom, hrun⟩ := run_spans calls (.init : Session τ) .init rfl
  have hrouted : ∀ event ∈ events, event.Routed := by
    intro event he
    rcases hfrom event he with rfl | ⟨a, ha, answered, rfl⟩
    · trivial
    · obtain ⟨call, hcall, ha⟩ := List.mem_flatMap.mp ha
      exact hroute call hcall a ha
  have hsound := ((chainState_sound_init cfg.numBlocks).run cfg.maxRetries hrouted).chain
  rw [← hrun]
  rcases hsound.tiles with ⟨hnil, -⟩ | htiles
  · left
    rw [Chain.spans, hnil] at hrun
    exact List.map_eq_nil_iff.mp hrun.symm
  · right
    rw [Chain.spans, List.map_map]
    exact htiles

end BloomBee.InferenceSession
