import BloomBee.Proofs.LiveDecodeLoop
import BloomBee.Spec.ContinuousBatching

/-! The simulator and the live loop make the same schedule (`simulate_agrees`). The two states
stay equal field by field as the loops take their turns together; that the live one is in the
invariant of the loop says which tokens its step function is asked for. -/

set_option autoImplicit false

namespace BloomBee.ContinuousBatching

open Loop Fallible
open LiveDecodeLoop (LiveDecodeRequest LiveDecodeRow LiveContinuousDecodeLoop StepBatch Outputs
  alone entry nextRow nextToken nextInput idsOf finishes ownRows history Serves Answers)

def DecodeRequest.toLive (r : DecodeRequest) : LiveDecodeRequest :=
  ⟨r.requestId, r.promptTokenIds, r.targetTokenIds, r.arrivalTick, r.promptTokenIds_ne_nil⟩

def requestOf (requests : List DecodeRequest) (requestId : String) : Option DecodeRequest :=
  requests.find? fun r => decide (r.requestId = requestId)

def targetToken (requests : List DecodeRequest) (row : LiveDecodeRow) : Option ℤ :=
  (requestOf requests row.requestId).bind fun r => r.targetTokenIds[row.position]?

/-- The step function returns each request's next target token, for every row whose request has
one. -/
def NextTarget (requests : List DecodeRequest) (stepBatch : StepBatch) : Prop :=
  ∀ (calls : List (List LiveDecodeRow)) (rows : List LiveDecodeRow),
    (rows.map fun row => row.requestId).Nodup → (∀ row ∈ rows, targetToken requests row ≠ none) →
    match stepBatch calls rows with
    | .mapping outputs => ∀ row ∈ rows, outputs.get? row.requestId = targetToken requests row
    | .sequence outputs => outputs.map some = rows.map (targetToken requests)

def token (requests : List DecodeRequest) (requestId : String) (rows : List (ℕ × ℤ)) : ℤ :=
  ((requestOf requests requestId).bind fun r => r.targetTokenIds[rows.length - 1]?).getD 0

variable {requests : List DecodeRequest} {stepBatch : StepBatch}

theorem idsOf_toLive (requests : List DecodeRequest) :
    idsOf (requests.map DecodeRequest.toLive) = requests.map fun r => r.requestId := List.map_map

theorem requestOf_eq (hids : (requests.map fun r => r.requestId).Nodup) {r : DecodeRequest}
    (hr : r ∈ requests) : requestOf requests r.requestId = some r := by
  unfold requestOf
  obtain ⟨r', hfind⟩ : ∃ r',
      (requests.find? fun r' => decide (r'.requestId = r.requestId)) = some r' := by
    rw [← Option.isSome_iff_exists, List.find?_isSome]
    exact ⟨r, hr, decide_eq_true rfl⟩
  have heq : r'.requestId = r.requestId := by simpa using List.find?_some hfind
  rw [hfind, List.inj_on_of_nodup_map hids (List.mem_of_find?_eq_some hfind) hr heq]

section

variable (hids : (requests.map fun r => r.requestId).Nodup)

include hids

theorem targetToken_nextRow {r : LiveDecodeRequest}
    (hr : r ∈ requests.map DecodeRequest.toLive) (tick n : ℕ) :
    targetToken requests (nextRow (token requests) tick r n) = r.targetTokenIds[n]? := by
  obtain ⟨q, hq, rfl⟩ := List.mem_map.mp hr
  have hof : requestOf requests q.toLive.requestId = some q := requestOf_eq hids hq
  simp only [targetToken, nextRow, hof, Option.bind_some]
  rfl

theorem nextToken_eq {r : LiveDecodeRequest} (hr : r ∈ requests.map DecodeRequest.toLive) {n : ℕ}
    (hn : n < r.targetTokenIds.length) :
    r.targetTokenIds[n]? = some (nextToken (token requests) r n) := by
  obtain ⟨q, hq, rfl⟩ := List.mem_map.mp hr
  have hof : requestOf requests q.toLive.requestId = some q := requestOf_eq hids hq
  have hlen := (LiveDecodeLoop.alone_length (token requests) q.toLive (n + 1)).2
  have hlt : n < q.targetTokenIds.length := hn
  have hget : q.targetTokenIds[n]? = some q.targetTokenIds[n] := List.getElem?_eq_getElem hlt
  simp only [nextToken, token, hlen, hof, Option.bind_some, Nat.add_sub_cancel, hget,
    Option.getD_some]
  exact hget

/-- A step function that returns the next target tokens answers every batch of the loop. -/
theorem NextTarget.serves (h : NextTarget requests stepBatch) :
    Serves (token requests) (requests.map DecodeRequest.toLive) stepBatch := by
  intro calls tick pos served hnodup hserved
  set rows := served.map fun r => nextRow (token requests) tick r (pos r.requestId) with hrows
  have htarget : ∀ row ∈ rows,
      targetToken requests row = some (token requests row.requestId (history calls row)) := by
    intro row hrow
    obtain ⟨r, hr, rfl⟩ := List.mem_map.mp hrow
    obtain ⟨hmem, hlt, hown⟩ := hserved r hr
    rw [targetToken_nextRow hids hmem, nextToken_eq hids hmem hlt,
      LiveDecodeLoop.history_nextRow hown]
    rfl
  have hrowIds : (rows.map fun row => row.requestId) = idsOf served := List.map_map
  have ha := h calls rows (hrowIds ▸ hnodup) fun row hrow => by simp [htarget row hrow]
  unfold Answers
  split
  · rename_i outputs heq
    rw [heq] at ha
    exact fun row hrow => (ha row hrow).trans (htarget row hrow)
  · rename_i outputs heq
    rw [heq] at ha
    have hsome : outputs.map some =
        (rows.map fun row => token requests row.requestId (history calls row)).map some := by
      rw [List.map_map]
      exact ha.trans (List.map_congr_left htarget)
    exact List.map_injective_iff.mpr (Option.some_injective ℤ) hsome

end

/-! ### The states -/

def RequestState.toLive (s : RequestState) : LiveDecodeLoop.RequestState :=
  ⟨s.request.toLive, s.position, s.generated⟩

structure Agrees (t : State) (s : LiveDecodeLoop.State) : Prop where
  pending : s.pending = t.pending.map DecodeRequest.toLive
  state : ∀ id, s.state.get? id = (t.state.get? id).map RequestState.toLive
  active : s.active = t.active
  activeSet : s.activeSet = t.activeSet
  completed : s.completed = t.completed
  timeline : s.timeline = t.timeline
  tick : s.tick = t.tick

variable {t : State} {s : LiveDecodeLoop.State}

theorem validateRequests_agrees (seen : List String) (requests : List DecodeRequest) :
    (validateRequests seen requests = .ok () ∧
        LiveDecodeLoop.validateRequests seen (requests.map DecodeRequest.toLive) = .ok ()) ∨
      ∃ id, validateRequests seen requests = .error (.duplicateRequestId id) ∧
        LiveDecodeLoop.validateRequests seen (requests.map DecodeRequest.toLive) =
          .error (.duplicateRequestId id) := by
  induction requests generalizing seen with
  | nil => exact .inl ⟨rfl, rfl⟩
  | cons r requests ih =>
    by_cases hseen : r.requestId ∈ seen
    · refine .inr ⟨r.requestId, if_pos hseen, if_pos hseen⟩
    · have hlive : r.toLive.requestId ∉ seen := hseen
      rw [validateRequests, if_neg hseen, List.map_cons, LiveDecodeLoop.validateRequests,
        if_neg hlive]
      exact ih _

theorem nodup_of_validateRequests (h : validateRequests [] requests = .ok ()) :
    LiveDecodeLoop.validateRequests [] (requests.map DecodeRequest.toLive) = .ok () ∧
      (requests.map fun r => r.requestId).Nodup := by
  rcases validateRequests_agrees [] requests with ⟨-, hlive⟩ | ⟨id, herror, -⟩
  · exact ⟨hlive, idsOf_toLive requests ▸ (LiveDecodeLoop.validateRequests_ok hlive).1⟩
  · cases h.symm.trans herror

theorem initState_agrees (requests : List DecodeRequest) :
    Agrees (initState requests)
      (LiveDecodeLoop.initState (requests.map DecodeRequest.toLive)) := by
  have hsort : (requests.map DecodeRequest.toLive).mergeSort
        (fun r s => decide (r.arrivalTick ≤ s.arrivalTick)) =
      (requests.mergeSort fun r s => decide (r.arrivalTick ≤ s.arrivalTick)).map
        DecodeRequest.toLive :=
    (List.map_mergeSort (f := DecodeRequest.toLive) fun _ _ _ _ => rfl).symm
  have hstate : ∀ (rs : List DecodeRequest) (d : OrderedDict String RequestState)
      (d' : OrderedDict String LiveDecodeLoop.RequestState),
      (∀ id, d'.get? id = (d.get? id).map RequestState.toLive) →
      ∀ id, ((rs.map DecodeRequest.toLive).foldl (fun d r => d.set r.requestId ⟨r, 0, []⟩)
          d').get? id =
        ((rs.foldl (fun d r => d.set r.requestId ⟨r, 0, []⟩) d).get? id).map
          RequestState.toLive := by
    intro rs
    induction rs with
    | nil => exact fun d d' h => h
    | cons r rs ih =>
      intro d d' h
      refine ih _ _ fun id => ?_
      rw [OrderedDict.get?_set, OrderedDict.get?_set]
      by_cases hid : id = r.requestId
      · have hlive : id = r.toLive.requestId := hid
        rw [if_pos hid, if_pos hlive]
        rfl
      · have hlive : id ≠ r.toLive.requestId := hid
        rw [if_neg hid, if_neg hlive, h]
  exact
    { pending := hsort
      state := hstate requests _ _ fun _ => rfl
      active := rfl
      activeSet := rfl
      completed := rfl
      timeline := rfl
      tick := by
        simp only [LiveDecodeLoop.initState, initState, hsort, List.head?_map, Option.map_map]
        rfl }

/-! ### One turn -/

theorem Agrees.admitLoop (h : Agrees t s) (pending : List DecodeRequest) :
    Agrees (admitLoop pending t)
      (LiveDecodeLoop.admitLoop (pending.map DecodeRequest.toLive) s) := by
  induction pending generalizing t s with
  | nil => exact { h with pending := rfl }
  | cons r pending ih =>
    rw [List.map_cons, ContinuousBatching.admitLoop, LiveDecodeLoop.admitLoop]
    by_cases harr : r.arrivalTick ≤ t.tick
    · have hlive : r.toLive.arrivalTick ≤ s.tick := h.tick ▸ harr
      rw [if_pos harr, if_pos hlive]
      by_cases htgt : r.targetTokenIds = []
      · have hlive : r.toLive.targetTokenIds = [] := htgt
        rw [if_pos (by rw [htgt]; rfl), if_pos hlive]
        exact ih { h with completed := by rw [h.completed]; rfl }
      · have hlive : r.toLive.targetTokenIds ≠ [] := htgt
        rw [if_neg (fun h0 => htgt (List.length_eq_zero_iff.mp h0)), if_neg hlive]
        exact ih { h with
          active := by rw [h.active]; rfl
          activeSet := by rw [h.activeSet]; rfl }
    · have hlive : ¬r.toLive.arrivalTick ≤ s.tick := h.tick ▸ harr
      rw [if_neg harr, if_neg hlive]
      exact { h with pending := rfl }

theorem Agrees.takeBatch (h : Agrees t s) {n : ℕ} {ids : List String}
    {s' : LiveDecodeLoop.State} (hs : LiveDecodeLoop.takeBatch n s = .ok (ids, s')) :
    ∃ t', ContinuousBatching.takeBatch n t = .ok (ids, t') ∧ Agrees t' s' := by
  induction n generalizing t s ids s' with
  | zero =>
    obtain ⟨rfl, rfl⟩ := Prod.mk.inj (Except.ok.inj hs)
    exact ⟨t, rfl, h⟩
  | succ n ih =>
    unfold LiveDecodeLoop.takeBatch at hs
    unfold ContinuousBatching.takeBatch
    rw [h.active] at hs
    cases hact : t.active with
    | nil =>
      rw [hact] at hs
      obtain ⟨rfl, rfl⟩ := Prod.mk.inj (Except.ok.inj hs)
      exact ⟨t, rfl, h⟩
    | cons id active =>
      simp only [hact, h.activeSet] at hs ⊢
      split_ifs at hs ⊢ with hmem
      obtain ⟨⟨ids', s''⟩, hrec, hret⟩ := bind_eq_ok hs
      obtain ⟨rfl, rfl⟩ := Prod.mk.inj (Except.ok.inj hret)
      have hrest : Agrees { t with active, activeSet := t.activeSet.erase id }
          { s with active, activeSet := t.activeSet.erase id } :=
        { h with active := rfl, activeSet := rfl }
      obtain ⟨t', ht', hag⟩ := ih hrest hrec
      exact ⟨t', by rw [ht', ok_bind]; rfl, hag⟩

theorem Agrees.requeue (h : Agrees t s) (ids : List String) :
    Agrees (ids.foldl requeueId t) (ids.foldl LiveDecodeLoop.requeueId s) := by
  induction ids generalizing t s with
  | nil => exact h
  | cons id ids ih =>
    refine ih ?_
    unfold requeueId LiveDecodeLoop.requeueId
    rw [h.activeSet]
    split_ifs with hmem
    · exact h
    · exact { h with active := by rw [h.active], activeSet := rfl }

theorem DecodeRequest.toLive_injective : Function.Injective DecodeRequest.toLive := by
  rintro ⟨_, _, _, _, _⟩ ⟨_, _, _, _, _⟩ h
  simp only [DecodeRequest.toLive, LiveDecodeRequest.mk.injEq] at h
  obtain ⟨rfl, rfl, rfl, rfl⟩ := h
  rfl

/-- The simulator takes the input of a step from where the live loop takes it. -/
theorem inputTokenId_eq {requestState : RequestState} {r : DecodeRequest} {n : ℕ}
    (h : requestState.toLive = entry (token requests) r.toLive n) :
    requestState.inputTokenId = some (nextInput r.toLive (alone (token requests) r.toLive n).1) := by
  obtain ⟨request, position, generated⟩ := requestState
  simp only [RequestState.toLive, entry, LiveDecodeLoop.RequestState.mk.injEq] at h
  obtain ⟨hrequest, rfl, rfl⟩ := h
  obtain rfl := DecodeRequest.toLive_injective hrequest
  cases position with
  | zero => rfl
  | succ n =>
    simp [RequestState.inputTokenId, nextInput, LiveDecodeLoop.alone_generated_succ]

def Served.after (requests : List DecodeRequest) (pos : String → ℕ)
    (served : List LiveDecodeRequest) (state : OrderedDict String RequestState) (b : Served) :
    Served where
  state := state
  completed := b.completed ++ idsOf (served.filter (finishes pos))
  positions := b.positions ++ served.map fun r => pos r.requestId
  inputTokenIds := b.inputTokenIds ++ served.map fun r =>
    nextInput r (alone (token requests) r (pos r.requestId)).1
  outputTokenIds := b.outputTokenIds ++ served.map fun r =>
    nextToken (token requests) r (pos r.requestId)
  finishedRequestIds := b.finishedRequestIds ++ idsOf (served.filter (finishes pos))
  requeue := b.requeue ++ idsOf (served.filter fun r => !finishes pos r)

section

variable {pos : String → ℕ} {b : Served} {d : OrderedDict String LiveDecodeLoop.RequestState}

/-- A request that stands where `pos` says and has a target left. -/
theorem serveRequest_eq (hids : (requests.map fun r => r.requestId).Nodup) {r : LiveDecodeRequest}
    (hr : r ∈ requests.map DecodeRequest.toLive)
    (hlt : pos r.requestId < r.targetTokenIds.length)
    (hd : ∀ id, d.get? id = (b.state.get? id).map RequestState.toLive)
    (hstate : d.get? r.requestId = some (entry (token requests) r (pos r.requestId))) :
    ∃ state, serveRequest b r.requestId = .ok (b.after requests pos [r] state) ∧
      ∀ id, (d.set r.requestId (entry (token requests) r (pos r.requestId + 1))).get? id =
        (state.get? id).map RequestState.toLive := by
  have hnext := nextToken_eq hids hr hlt
  obtain ⟨q, hq, rfl⟩ := List.mem_map.mp hr
  obtain ⟨requestState, hget, hlive⟩ := Option.map_eq_some_iff.mp ((hd _).symm.trans hstate)
  have hinput := inputTokenId_eq hlive
  obtain ⟨request, position, generated⟩ := requestState
  simp only [RequestState.toLive, entry, LiveDecodeLoop.RequestState.mk.injEq] at hlive
  obtain ⟨hrequest, rfl, rfl⟩ := hlive
  obtain rfl := DecodeRequest.toLive_injective hrequest
  refine ⟨b.state.set request.toLive.requestId ⟨request, pos request.toLive.requestId + 1,
    (alone (token requests) request.toLive (pos request.toLive.requestId)).1 ++
      [nextToken (token requests) request.toLive (pos request.toLive.requestId)]⟩, ?_, ?_⟩
  · have htargets : request.targetTokenIds[pos request.toLive.requestId]? =
        some (nextToken (token requests) request.toLive (pos request.toLive.requestId)) := hnext
    unfold serveRequest
    simp only [hget, hinput, htargets]
    by_cases hfin : request.targetTokenIds.length ≤ pos request.toLive.requestId + 1
    · have hlast : finishes pos request.toLive = true := decide_eq_true hfin
      rw [if_pos hfin]
      simp [Served.after, hlast]
    · have hlast : finishes pos request.toLive = false := decide_eq_false hfin
      rw [if_neg hfin]
      simp [Served.after, hlast]
  · intro id
    rw [OrderedDict.get?_set, OrderedDict.get?_set]
    split_ifs with hid
    · simp only [Option.map_some, RequestState.toLive, entry, LiveDecodeLoop.alone_generated_succ]
      rfl
    · exact hd id

theorem serveRequests_eq (hids : (requests.map fun r => r.requestId).Nodup)
    {served : List LiveDecodeRequest} (hserved : (idsOf served).Nodup)
    (hopen : ∀ r ∈ served, r ∈ requests.map DecodeRequest.toLive ∧
      pos r.requestId < r.targetTokenIds.length)
    (hd : ∀ id, d.get? id = (b.state.get? id).map RequestState.toLive)
    (hstate : ∀ r ∈ served,
      d.get? r.requestId = some (entry (token requests) r (pos r.requestId))) :
    ∃ state, (idsOf served).foldlM serveRequest b = .ok (b.after requests pos served state) ∧
      ∀ id, (served.foldl
        (fun d r => d.set r.requestId (entry (token requests) r (pos r.requestId + 1))) d).get? id =
          (state.get? id).map RequestState.toLive := by
  induction served generalizing b d with
  | nil => exact ⟨b.state, by simp [Served.after, pure, Except.pure], hd⟩
  | cons r served ih =>
    obtain ⟨hr, hserved⟩ := List.nodup_cons.mp hserved
    obtain ⟨hopenr, hopen⟩ := List.forall_mem_cons.mp hopen
    obtain ⟨hstater, hstate⟩ := List.forall_mem_cons.mp hstate
    obtain ⟨first, hstep, hfirst⟩ := serveRequest_eq hids hopenr.1 hopenr.2 hd hstater
    have hkept : ∀ r' ∈ served,
        (d.set r.requestId (entry (token requests) r (pos r.requestId + 1))).get? r'.requestId =
          some (entry (token requests) r' (pos r'.requestId)) := by
      intro r' hr'
      have hne : r'.requestId ≠ r.requestId := fun heq => hr (List.mem_map.mpr ⟨r', hr', heq⟩)
      rw [OrderedDict.get?_set, if_neg hne]
      exact hstate r' hr'
    obtain ⟨state, hloop, hagree⟩ := ih (b := b.after requests pos [r] first) hserved hopen hfirst
      hkept
    refine ⟨state, ?_, hagree⟩
    rw [LiveDecodeLoop.idsOf_cons, List.foldlM_cons, hstep, ok_bind, hloop]
    by_cases hfin : finishes pos r = true
    · simp [Served.after, hfin]
    · simp [Served.after, hfin]

end

variable {loop : LiveContinuousDecodeLoop} {n : ℕ}

/-- A tick of the simulator, next to the tick of the live loop that serves the same requests. -/
theorem Agrees.stepTick (h : Agrees t s) (hids : (requests.map fun r => r.requestId).Nodup)
    {pos : String → ℕ} {served : List LiveDecodeRequest} (hnodup : s.active.Nodup)
    (hset : s.activeSet = s.active.toFinset) (hserved : idsOf served = s.active.take n)
    (hopen : ∀ r ∈ served, r ∈ requests.map DecodeRequest.toLive ∧
      pos r.requestId < r.targetTokenIds.length)
    (hstate : ∀ r ∈ served,
      s.state.get? r.requestId = some (entry (token requests) r (pos r.requestId))) :
    ∃ t', ContinuousBatching.stepTick n t = .ok t' ∧
      Agrees t' (LiveDecodeLoop.afterTick (token requests) pos n served s) := by
  have hsids : (idsOf served).Nodup := hserved ▸ hnodup.sublist (List.take_sublist _ _)
  obtain ⟨t₁, htake, h₁⟩ := h.takeBatch (LiveDecodeLoop.takeBatch_eq n s hnodup hset)
  obtain ⟨state, hserve, hagree⟩ :=
    serveRequests_eq (b := ⟨t₁.state, t₁.completed, [], [], [], [], []⟩) hids hsids hopen h₁.state
      hstate
  have hback := h₁.requeue (idsOf (served.filter fun r => !finishes pos r))
  have hqueue := LiveDecodeLoop.foldl_requeueId
    (s := { s with active := s.active.drop n, activeSet := (s.active.drop n).toFinset })
    (hsids.sublist ((List.filter_sublist).map _))
    (LiveDecodeLoop.not_mem_drop_of_served pos hnodup hserved) rfl
  rw [idsOf, hqueue] at hback
  refine ⟨_, by
    unfold ContinuousBatching.stepTick
    rw [htake, ok_bind, ← hserved]
    simp only [hserve, ok_bind]
    rfl, ?_⟩
  exact
    { pending := hback.pending
      state := hagree
      active := hback.active
      activeSet := hback.activeSet
      completed := by
        simp only [LiveDecodeLoop.afterTick, Served.after, ← h₁.completed]
      timeline := by
        have htimeline := hback.timeline
        have htick := hback.tick
        simp only at htimeline htick
        simp only [LiveDecodeLoop.afterTick, Served.after, htimeline, htick, List.map_map,
          List.nil_append]
        rfl
      tick := by
        have htick := hback.tick
        simp only at htick
        simp only [LiveDecodeLoop.afterTick, htick]
        rfl }

theorem turn_agrees (hserves : Serves (token requests) (requests.map DecodeRequest.toLive) stepBatch)
    (hids : (requests.map fun r => r.requestId).Nodup) (h : Agrees t s)
    (hi : LiveDecodeLoop.Inv (token requests) (requests.map DecodeRequest.toLive)
      loop.maxBatchSize s) :
    (∃ t' s', turn loop.maxBatchSize t = .next t' ∧
        LiveDecodeLoop.turn loop stepBatch s = .next s' ∧ Agrees t' s') ∨
      ∃ t' s', turn loop.maxBatchSize t = .stop t' ∧
        LiveDecodeLoop.turn loop stepBatch s = .stop s' ∧ Agrees t' s' := by
  have hlive : (idsOf (requests.map DecodeRequest.toLive)).Nodup := idsOf_toLive requests ▸ hids
  have hnil : s.pending = [] ↔ t.pending = [] := by rw [h.pending, List.map_eq_nil_iff]
  unfold turn LiveDecodeLoop.turn
  have hboth : (s.pending = [] ∧ s.active = []) ↔ t.pending = [] ∧ t.active = [] := by
    rw [hnil, h.active]
  by_cases hstop : t.pending = [] ∧ t.active = []
  · rw [if_pos hstop, if_pos (hboth.mpr hstop)]
    exact .inr ⟨t, s, rfl, rfl, h⟩
  simp only [if_neg hstop, if_neg (mt hboth.mp hstop)]
  have harrived : Agrees (admitLoop t.pending t) (LiveDecodeLoop.admitArrived s) := by
    unfold LiveDecodeLoop.admitArrived
    rw [h.pending]
    exact h.admitLoop t.pending
  have ha := LiveDecodeLoop.inv_admitArrived hlive hi
  by_cases hactive : (LiveDecodeLoop.admitArrived s).active = []
  · have hactive' : (admitLoop t.pending t).active = [] := harrived.active ▸ hactive
    simp only [if_pos hactive, if_pos hactive']
    rcases hcase : (admitLoop t.pending t).pending with - | ⟨r, rest⟩
    · simp only [harrived.pending, hcase, List.map_nil]
      exact .inr ⟨_, _, rfl, rfl, harrived⟩
    · simp only [harrived.pending, hcase, List.map_cons]
      refine .inl ⟨_, _, rfl, rfl, { harrived with pending := rfl, tick := ?_ }⟩
      rw [harrived.tick]
      rfl
  · have hactive' : (admitLoop t.pending t).active ≠ [] := harrived.active ▸ hactive
    simp only [if_neg hactive, if_neg hactive']
    obtain ⟨served, hserved, hsub⟩ := ha.exists_served
    have hopen : ∀ r ∈ served, r ∈ requests.map DecodeRequest.toLive ∧
        LiveDecodeLoop.position (LiveDecodeLoop.admitArrived s).state r.requestId <
          r.targetTokenIds.length := fun r hr => ⟨hsub r hr,
      ((ha.progress r (hsub r hr)).active (LiveDecodeLoop.active_of_served hserved hr)).2⟩
    have hstate := fun r hr => (ha.progress r (hsub r hr)).state
    obtain ⟨t', hstep, hag⟩ := harrived.stepTick hids (ha.active_nodup hlive) ha.activeSet hserved
      hopen hstate
    have hlivestep := LiveDecodeLoop.stepTick_eq hserves loop (ha.active_nodup hlive) ha.activeSet
      hserved hopen hstate fun r hr => (ha.progress r (hsub r hr)).rows
    rw [hstep, hlivestep]
    exact .inl ⟨_, _, rfl, rfl, hag⟩

def Together (requests : List DecodeRequest) (n : ℕ) (t : State) (s : LiveDecodeLoop.State) :
    Prop :=
  Agrees t s ∧
    LiveDecodeLoop.Inv (token requests) (requests.map DecodeRequest.toLive) n s

theorem turn_together
    (hserves : Serves (token requests) (requests.map DecodeRequest.toLive) stepBatch)
    (hids : (requests.map fun r => r.requestId).Nodup) (h : Together requests loop.maxBatchSize t s) :
    (∃ t' s', turn loop.maxBatchSize t = .next t' ∧
        LiveDecodeLoop.turn loop stepBatch s = .next s' ∧
        Together requests loop.maxBatchSize t' s') ∨
      ∃ t' s', turn loop.maxBatchSize t = .stop t' ∧
        LiveDecodeLoop.turn loop stepBatch s = .stop s' ∧
        Together requests loop.maxBatchSize t' s' := by
  have hlive : (idsOf (requests.map DecodeRequest.toLive)).Nodup := idsOf_toLive requests ▸ hids
  have hinv := LiveDecodeLoop.turn_spec hserves hlive s h.2
  rcases turn_agrees hserves hids h.1 h.2 with ⟨t', s', ht, hs, hag⟩ | ⟨t', s', ht, hs, hag⟩
  · obtain ⟨s'', hs'', hi, -⟩ | ⟨s'', hs'', -⟩ := hinv
    · obtain rfl := Turn.next.inj (hs.symm.trans hs'')
      exact .inl ⟨t', s', ht, hs, hag, hi⟩
    · cases hs.symm.trans hs''
  · obtain ⟨s'', hs'', -⟩ | ⟨s'', hs'', hf⟩ := hinv
    · cases hs.symm.trans hs''
    · obtain rfl := Turn.stop.inj (hs.symm.trans hs'')
      exact .inr ⟨t', s', ht, hs, hag, hf.toInv⟩

theorem run_together (loop : LiveContinuousDecodeLoop)
    (hserves : Serves (token requests) (requests.map DecodeRequest.toLive) stepBatch)
    (hids : (requests.map fun r => r.requestId).Nodup) :
    ∃ t s bound, Agrees t s ∧ ∀ fuel > bound,
      Loop.run (turn loop.maxBatchSize) fuel (initState requests) = some (.ok t) ∧
      Loop.run (LiveDecodeLoop.turn loop stepBatch) fuel
        (LiveDecodeLoop.initState (requests.map DecodeRequest.toLive)) = some (.ok s) := by
  have hlive : (idsOf (requests.map DecodeRequest.toLive)).Nodup := idsOf_toLive requests ▸ hids
  have hstart : Together requests loop.maxBatchSize (initState requests)
      (LiveDecodeLoop.initState (requests.map DecodeRequest.toLive)) :=
    ⟨initState_agrees requests, LiveDecodeLoop.inv_init hlive⟩
  set bound := LiveDecodeLoop.variant (requests.map DecodeRequest.toLive)
    (LiveDecodeLoop.initState (requests.map DecodeRequest.toLive))
  obtain ⟨s, -, hrun⟩ := run_total _ (LiveDecodeLoop.turn_spec hserves hlive) bound _ hstart.2
    le_rfl
  have hlock := run_lockstep (fun _ _ h => turn_together hserves hids h) (bound + 1) hstart
  rcases hlock with ⟨-, hnone⟩ | ⟨t, s', ht, hs, hag⟩
  · rw [hrun _ (Nat.lt_succ_self _)] at hnone
    cases hnone
  · obtain rfl := Except.ok.inj (Option.some.inj ((hrun _ (Nat.lt_succ_self _)).symm.trans hs))
    exact ⟨t, s, bound, hag.1, fun fuel hf => ⟨run_mono ht hf, hrun fuel hf⟩⟩

theorem Agrees.report (h : Agrees t s) :
    (LiveDecodeLoop.makeReport loop (requests.map DecodeRequest.toLive) s).outputsByRequest =
      (makeReport n requests t).outputsByRequest := by
  have hgenerated : ∀ r : DecodeRequest,
      (s.state.get? r.toLive.requestId).elim [] (fun requestState => requestState.generated) =
        (t.state.get? r.requestId).elim [] fun requestState => requestState.generated := by
    intro r
    have hstate : s.state.get? r.toLive.requestId =
        (t.state.get? r.requestId).map RequestState.toLive := h.state r.requestId
    rw [hstate]
    cases t.state.get? r.requestId <;> rfl
  simp only [LiveDecodeLoop.makeReport, makeReport, List.foldl_map, hgenerated]
  rfl

/-- The simulator and the live loop, for a step function that returns each request's next target
token: the same batch size is refused by both, the same duplicate id is found by both, and
otherwise both return, with the same timeline, the same outputs and the same order of
completion. -/
theorem simulate_agrees (requests : List DecodeRequest) (maxBatchSize : ℤ)
    (h : NextTarget requests stepBatch) :
    (maxBatchSize < 1 →
      LiveContinuousDecodeLoop.init maxBatchSize = .error .maxBatchSize ∧
      ∀ fuel, simulateContinuousDecode requests maxBatchSize fuel = some (.error .maxBatchSize)) ∧
    (1 ≤ maxBatchSize → ∃ loop, LiveContinuousDecodeLoop.init maxBatchSize = .ok loop ∧
      (¬(requests.map fun r => r.requestId).Nodup ∧
          (∃ id, ∀ fuel,
            simulateContinuousDecode requests maxBatchSize fuel =
              some (.error (.duplicateRequestId id)) ∧
            LiveDecodeLoop.run loop stepBatch (requests.map DecodeRequest.toLive) fuel =
              some (.error (.duplicateRequestId id))) ∨
        (requests.map fun r => r.requestId).Nodup ∧
          ∃ simulated report bound, ∀ fuel > bound,
            simulateContinuousDecode requests maxBatchSize fuel = some (.ok simulated) ∧
            LiveDecodeLoop.run loop stepBatch (requests.map DecodeRequest.toLive) fuel =
              some (.ok report) ∧
            report.timeline = simulated.timeline ∧
            report.outputsByRequest = simulated.outputsByRequest ∧
            report.completedRequestIds = simulated.completedRequestIds)) := by
  constructor
  · intro hlt
    refine ⟨?_, fun fuel => ?_⟩
    · unfold LiveContinuousDecodeLoop.init
      rw [dif_pos hlt]
    · unfold simulateContinuousDecode
      rw [if_pos hlt]
  intro hle
  have hnot : ¬maxBatchSize < 1 := not_lt.mpr hle
  refine ⟨⟨maxBatchSize.toNat, by omega⟩, dif_neg hnot, ?_⟩
  set loop : LiveContinuousDecodeLoop := ⟨maxBatchSize.toNat, by omega⟩
  rcases validateRequests_agrees [] requests with ⟨hvalid, hlive⟩ | ⟨id, herror, hlive⟩
  · have hids := (nodup_of_validateRequests hvalid).2
    have hserves := h.serves hids
    obtain ⟨t, s, bound, hag, hend⟩ := run_together loop hserves hids
    refine .inr ⟨hids, makeReport loop.maxBatchSize requests t,
      LiveDecodeLoop.makeReport loop (requests.map DecodeRequest.toLive) s, bound, fun fuel hf =>
      ⟨?_, ?_, hag.timeline, hag.report, hag.completed⟩⟩
    · unfold simulateContinuousDecode
      rw [if_neg hnot, hvalid]
      simp only
      rw [(hend fuel hf).1]
      rfl
    · unfold LiveDecodeLoop.run
      rw [hlive]
      simp only [(hend fuel hf).2]
      rfl
  · refine .inl ⟨fun hids => ?_, id, fun fuel => ⟨?_, ?_⟩⟩
    · have hliveids : (idsOf (requests.map DecodeRequest.toLive)).Nodup :=
        idsOf_toLive requests ▸ hids
      rw [LiveDecodeLoop.validateRequests_eq hliveids fun _ _ => List.not_mem_nil] at hlive
      cases hlive
    · unfold simulateContinuousDecode
      rw [if_neg hnot, herror]
    · unfold LiveDecodeLoop.run
      rw [hlive]

def targetStep (requests : List DecodeRequest) : StepBatch := fun _ rows =>
  .sequence (rows.map fun row => (targetToken requests row).getD 0)

theorem targetStep_nextTarget (requests : List DecodeRequest) :
    NextTarget requests (targetStep requests) := by
  intro calls rows _ hsome
  simp only [targetStep, List.map_map]
  refine List.map_congr_left fun row hrow => ?_
  obtain ⟨token, htoken⟩ := Option.ne_none_iff_exists'.mp (hsome row hrow)
  simp [htoken]

/-- The staggered example, with a third request that arrives after a gap. -/
theorem simulate_agrees_staggered :
    let requests : List DecodeRequest :=
      [⟨"req-a", [101], [10, 11, 12], 0, by decide⟩, ⟨"req-b", [201, 202], [20, 21], 1, by decide⟩,
        ⟨"req-c", [301], [30], 7, by decide⟩]
    ∃ simulated report bound, ∀ fuel > bound,
      simulateContinuousDecode requests 2 fuel = some (.ok simulated) ∧
      LiveDecodeLoop.run ⟨2, by decide⟩ (targetStep requests) (requests.map DecodeRequest.toLive)
        fuel = some (.ok report) ∧
      report.timeline = simulated.timeline ∧
      report.completedRequestIds = simulated.completedRequestIds := by
  intro requests
  obtain ⟨-, hrun⟩ := simulate_agrees requests 2 (targetStep_nextTarget requests)
  obtain ⟨loop, hloop, hcase⟩ := hrun (by decide)
  obtain rfl := Except.ok.inj hloop
  rcases hcase with ⟨hdup, -⟩ | ⟨-, simulated, report, bound, hend⟩
  · exact absurd (by decide) hdup
  · refine ⟨simulated, report, bound, fun fuel hf => ?_⟩
    obtain ⟨hsim, hlive, htimeline, -, hcompleted⟩ := hend fuel hf
    exact ⟨hsim, hlive, htimeline, hcompleted⟩

end BloomBee.ContinuousBatching
