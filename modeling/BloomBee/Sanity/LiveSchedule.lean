import BloomBee.Lib.RoundRobin
import BloomBee.Sanity.LiveDecodeLoop

/-! The schedule of a tick for any step function: whatever tokens it returns, the batch is the head
of the queue, and who has a position left rejoins behind it. -/

set_option autoImplicit false

namespace BloomBee.LiveDecodeLoop

open Fallible
open RoundRobin (Round)

def goesOn (state : OrderedDict String RequestState) (requestId : String) : Bool :=
  (state.get? requestId).any fun requestState =>
    decide (requestState.position + 1 < requestState.request.targetTokenIds.length)

def placed (state : OrderedDict String RequestState) (requestId : String) :
    Option (LiveDecodeRequest × ℕ) :=
  (state.get? requestId).map fun requestState => (requestState.request, requestState.position)

theorem goesOn_eq (state : OrderedDict String RequestState) (requestId : String) :
    goesOn state requestId =
      (placed state requestId).any fun e => decide (e.2 + 1 < e.1.targetTokenIds.length) := by
  unfold goesOn placed
  cases state.get? requestId <;> rfl

theorem makeRow_ok {s : State} {requestId : String} {row : LiveDecodeRow}
    (h : makeRow s requestId = .ok row) : row.requestId = requestId ∧
      ∃ requestState, s.state.get? requestId = some requestState ∧
        row.position = requestState.position := by
  unfold makeRow at h
  rcases hget : s.state.get? requestId with - | requestState
  · rw [hget] at h
    cases h
  · rw [hget] at h
    dsimp only at h
    split_ifs at h with hzero
    · obtain rfl := Except.ok.inj h
      exact ⟨rfl, requestState, rfl, hzero.symm⟩
    · rcases hlast : requestState.generated.getLast? with - | token
      · rw [hlast] at h
        cases h
      · rw [hlast] at h
        obtain rfl := Except.ok.inj h
        exact ⟨rfl, requestState, rfl, rfl⟩

theorem mapM_makeRow_ok {s : State} {batchIds : List String} {rows : List LiveDecodeRow}
    (h : batchIds.mapM (makeRow s) = .ok rows) :
    (rows.map fun row => row.requestId) = batchIds ∧
      ∀ row ∈ rows, ∃ requestState, s.state.get? row.requestId = some requestState ∧
        row.position = requestState.position := by
  induction batchIds generalizing rows with
  | nil =>
    obtain rfl := Except.ok.inj h
    exact ⟨rfl, fun row hrow => absurd hrow List.not_mem_nil⟩
  | cons requestId batchIds ih =>
    rw [List.mapM_cons] at h
    obtain ⟨row, hrow, h⟩ := bind_eq_ok h
    obtain ⟨rest, hrest, h⟩ := bind_eq_ok h
    obtain rfl := Except.ok.inj h
    obtain ⟨hid, requestState, hget, hpos⟩ := makeRow_ok hrow
    obtain ⟨hids, hrows⟩ := ih hrest
    refine ⟨by rw [List.map_cons, hid, hids], List.forall_mem_cons.mpr ⟨?_, hrows⟩⟩
    exact ⟨requestState, hid ▸ hget, hpos⟩

/-- One row: its request moves on by one position and is finished or requeued. -/
theorem collectRow_ok {outputs : OrderedDict String ℤ} {c c' : Collected} {row : LiveDecodeRow}
    {requestState : RequestState} (hget : c.state.get? row.requestId = some requestState)
    (hpos : row.position = requestState.position) (h : collectRow outputs c row = .ok c') :
    (∃ token, c'.state = c.state.set row.requestId
      ⟨requestState.request, row.position + 1, requestState.generated ++ [token]⟩) ∧
    c'.requeue = c.requeue ++ [row.requestId].filter (goesOn c.state) ∧
    c'.finished = c.finished ++ [row.requestId].filter (fun id => !goesOn c.state id) ∧
    c'.completed = c.completed ++ [row.requestId].filter (fun id => !goesOn c.state id) := by
  have hgoesOn : goesOn c.state row.requestId =
      decide (row.position + 1 < requestState.request.targetTokenIds.length) := by
    rw [goesOn, hget, hpos]
    rfl
  unfold collectRow at h
  rw [hget] at h
  rcases hout : outputs.get? row.requestId with - | token
  · rw [hout] at h
    cases h
  rw [hout] at h
  dsimp only at h
  split_ifs at h with hfin
  · obtain rfl := Except.ok.inj h
    refine ⟨⟨token, rfl⟩, ?_, ?_, ?_⟩
    · simp [hgoesOn, hfin]
    · simp [hgoesOn, hfin]
    · simp [hgoesOn, hfin]
  · obtain rfl := Except.ok.inj h
    have hlt := Nat.lt_of_not_le hfin
    refine ⟨⟨token, rfl⟩, ?_, ?_, ?_⟩
    · simp [hgoesOn, hlt]
    · simp [hgoesOn, hlt]
    · simp [hgoesOn, hlt]

theorem placed_set (state : OrderedDict String RequestState) (requestId : String)
    (requestState : RequestState) (id : String) : placed (state.set requestId requestState) id =
      if id = requestId then some (requestState.request, requestState.position)
      else placed state id := by
  unfold placed
  rw [OrderedDict.get?_set]
  split_ifs <;> rfl

theorem collectRows_ok {outputs : OrderedDict String ℤ} {rows : List LiveDecodeRow}
    {c c' : Collected} (hids : (rows.map fun row => row.requestId).Nodup)
    (hrows : ∀ row ∈ rows, ∃ requestState, c.state.get? row.requestId = some requestState ∧
      row.position = requestState.position)
    (h : rows.foldlM (collectRow outputs) c = .ok c') :
    (∀ id, placed c'.state id =
      if id ∈ rows.map (fun row => row.requestId) then
        (placed c.state id).map fun e => (e.1, e.2 + 1)
      else placed c.state id) ∧
    c'.requeue = c.requeue ++ (rows.map fun row => row.requestId).filter (goesOn c.state) ∧
    c'.finished = c.finished ++
      (rows.map fun row => row.requestId).filter (fun id => !goesOn c.state id) ∧
    c'.completed = c.completed ++
      (rows.map fun row => row.requestId).filter (fun id => !goesOn c.state id) := by
  induction rows generalizing c with
  | nil =>
    obtain rfl := Except.ok.inj h
    simp
  | cons row rows ih =>
    rw [List.foldlM_cons] at h
    obtain ⟨c₁, hrow, h⟩ := bind_eq_ok h
    obtain ⟨⟨requestState, hget, hpos⟩, hrest⟩ := List.forall_mem_cons.mp hrows
    obtain ⟨hid, hids⟩ := List.nodup_cons.mp hids
    obtain ⟨⟨token, hstate⟩, hrequeue, hfinished, hcompleted⟩ := collectRow_ok hget hpos hrow
    have hother : ∀ id ∈ rows.map (fun row => row.requestId), c₁.state.get? id = c.state.get? id := by
      intro id hmem
      rw [hstate, OrderedDict.get?_set, if_neg]
      rintro rfl
      exact hid hmem
    have hgoesOn : ∀ id ∈ rows.map (fun row => row.requestId),
        goesOn c₁.state id = goesOn c.state id := by
      intro id hmem
      rw [goesOn, goesOn, hother id hmem]
    have hrest' : ∀ row' ∈ rows, ∃ requestState,
        c₁.state.get? row'.requestId = some requestState ∧
          row'.position = requestState.position := by
      intro row' hrow'
      rw [hother _ (List.mem_map_of_mem hrow')]
      exact hrest row' hrow'
    obtain ⟨hplaced, hrequeue', hfinished', hcompleted'⟩ := ih hids hrest' h
    have hnot : ∀ id ∈ rows.map (fun row => row.requestId),
        (!goesOn c₁.state id) = !goesOn c.state id := fun id hmem => by rw [hgoesOn id hmem]
    refine ⟨fun id => ?_, ?_, ?_, ?_⟩
    · rw [hplaced id, hstate, placed_set, List.map_cons]
      by_cases hrow : id = row.requestId
      · subst hrow
        rw [if_neg hid, if_pos rfl, if_pos List.mem_cons_self, placed, hget, hpos]
        rfl
      · rw [if_neg hrow]
        simp [hrow]
    · rw [hrequeue', hrequeue, List.filter_congr hgoesOn, List.append_assoc, ← List.filter_append]
      rfl
    · rw [hfinished', hfinished, List.filter_congr hnot, List.append_assoc, ← List.filter_append]
      rfl
    · rw [hcompleted', hcompleted, List.filter_congr hnot, List.append_assoc, ← List.filter_append]
      rfl

def tickRound (s : State) : Round String := ⟨s.tick, s.active, goesOn s.state⟩

structure Ticked (n : ℕ) (s s' : State) : Prop where
  pending : s'.pending = s.pending
  active : s'.active = (tickRound s).rest n
  activeSet : s'.activeSet = s'.active.toFinset
  completed : s'.completed =
    s.completed ++ ((tickRound s).batch n).filter fun id => !goesOn s.state id
  timeline : ∃ e, s'.timeline = s.timeline ++ [e] ∧ e.tick = s.tick ∧
    e.requestIds = (tickRound s).batch n
  tick : s'.tick = s.tick + 1
  placed : ∀ id, placed s'.state id =
    if id ∈ (tickRound s).batch n then (placed s.state id).map fun e => (e.1, e.2 + 1)
    else placed s.state id

theorem stepTick_ok {loop : LiveContinuousDecodeLoop} {stepBatch : StepBatch} {s s' : State}
    (hnodup : s.active.Nodup) (hset : s.activeSet = s.active.toFinset)
    (h : stepTick loop stepBatch s = .ok s') : Ticked loop.maxBatchSize s s' := by
  unfold stepTick at h
  rw [takeBatch_eq _ s hnodup hset, ok_bind] at h
  dsimp only at h
  obtain ⟨rows, hrows, h⟩ := bind_eq_ok h
  obtain ⟨outputs, -, h⟩ := bind_eq_ok h
  obtain ⟨c, hc, h⟩ := bind_eq_ok h
  obtain ⟨hids, hstates⟩ := mapM_makeRow_ok hrows
  have htake : (rows.map fun row => row.requestId).Nodup := by
    rw [hids]
    exact hnodup.sublist (List.take_sublist _ _)
  obtain ⟨hplaced, hrequeue, -, hcompleted⟩ := collectRows_ok htake hstates hc
  rw [hids] at hplaced hrequeue hcompleted
  have hback : c.requeue.Nodup := by
    rw [hrequeue, List.nil_append]
    exact (hnodup.sublist (List.take_sublist _ _)).filter _
  have hdisjoint : ∀ id ∈ c.requeue, id ∉ s.active.drop loop.maxBatchSize := by
    intro id hid hdrop
    rw [hrequeue, List.nil_append] at hid
    exact List.disjoint_take_drop hnodup le_rfl (List.mem_filter.mp hid).1 hdrop
  rw [foldl_requeueId hback hdisjoint rfl] at h
  obtain rfl := Except.ok.inj h
  exact
    { pending := rfl
      active := by
        rw [hrequeue]
        rfl
      activeSet := rfl
      completed := hcompleted
      timeline := ⟨_, rfl, rfl, hids⟩
      tick := rfl
      placed := hplaced }

end BloomBee.LiveDecodeLoop
