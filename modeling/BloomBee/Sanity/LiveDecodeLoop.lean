import Mathlib.Data.Finset.Lattice.Lemmas
import BloomBee.Lib.Fallible
import BloomBee.Spec.LiveDecodeLoop

/-! One lemma for each part of a tick: who is admitted, who is taken, the rows of the batch, what
the step function is asked for them, and where their tokens and ids go. -/

set_option autoImplicit false

namespace BloomBee.LiveDecodeLoop

open Fallible

/-! ### A request on its own -/

def ownRows (calls : List (List LiveDecodeRow)) (requestId : String) : List (ℕ × ℤ) :=
  (calls.flatten.filter fun row => decide (row.requestId = requestId)).map fun row =>
    (row.position, row.inputTokenId)

/-- What the step function sees of a row's request: its rows so far, then this one. -/
def history (calls : List (List LiveDecodeRow)) (row : LiveDecodeRow) : List (ℕ × ℤ) :=
  ownRows calls row.requestId ++ [(row.position, row.inputTokenId)]

/-- The result for a row is a function of its request's own rows. -/
def OwnHistory (stepBatch : StepBatch) (token : String → List (ℕ × ℤ) → ℤ) : Prop :=
  ∀ (calls : List (List LiveDecodeRow)) (rows : List LiveDecodeRow),
    (rows.map fun row => row.requestId).Nodup →
    match stepBatch calls rows with
    | .mapping outputs => ∀ row ∈ rows,
        outputs.get? row.requestId = some (token row.requestId (history calls row))
    | .sequence outputs =>
        outputs = rows.map fun row => token row.requestId (history calls row)

def Answers (token : String → List (ℕ × ℤ) → ℤ) (calls : List (List LiveDecodeRow))
    (rows : List LiveDecodeRow) : Outputs → Prop
  | .mapping outputs => ∀ row ∈ rows,
      outputs.get? row.requestId = some (token row.requestId (history calls row))
  | .sequence outputs => outputs = rows.map fun row => token row.requestId (history calls row)

def nextInput (r : LiveDecodeRequest) (generated : List ℤ) : ℤ :=
  generated.getLast?.getD (r.inputTokenIds.getLast r.inputTokenIds_ne_nil)

def alone (token : String → List (ℕ × ℤ) → ℤ) (r : LiveDecodeRequest) :
    ℕ → List ℤ × List (ℕ × ℤ)
  | 0 => ([], [])
  | n + 1 =>
    let (generated, rows) := alone token r n
    let rows := rows ++ [(n, nextInput r generated)]
    (generated ++ [token r.requestId rows], rows)

section

variable (token : String → List (ℕ × ℤ) → ℤ) (r : LiveDecodeRequest) (n : ℕ)

theorem alone_length : (alone token r n).1.length = n ∧ (alone token r n).2.length = n := by
  induction n with
  | zero => exact ⟨rfl, rfl⟩
  | succ n ih =>
    obtain ⟨h1, h2⟩ := ih
    constructor
    · simp only [alone, List.length_append, List.length_singleton, h1]
    · simp only [alone, List.length_append, List.length_singleton, h2]

theorem alone_rows_succ : (alone token r (n + 1)).2 =
    (alone token r n).2 ++ [(n, nextInput r (alone token r n).1)] := rfl

theorem alone_generated_succ : (alone token r (n + 1)).1 =
    (alone token r n).1 ++ [token r.requestId (alone token r (n + 1)).2] := rfl

end

/-! ### The queues -/

theorem validateRequests_eq {requests : List LiveDecodeRequest} {seen : List String}
    (hids : (requests.map fun r => r.requestId).Nodup)
    (hseen : ∀ r ∈ requests, r.requestId ∉ seen) : validateRequests seen requests = .ok () := by
  induction requests generalizing seen with
  | nil => rfl
  | cons r requests ih =>
    rw [List.map_cons, List.nodup_cons] at hids
    obtain ⟨hr, hrest⟩ := List.forall_mem_cons.mp hseen
    rw [validateRequests, if_neg hr]
    refine ih hids.2 fun r' hr' hmem => ?_
    rcases List.mem_cons.mp hmem with heq | hmem
    · exact hids.1 (heq ▸ List.mem_map_of_mem hr')
    · exact hrest r' hr' hmem

theorem validateRequests_ok {requests : List LiveDecodeRequest} {seen : List String}
    (h : validateRequests seen requests = .ok ()) :
    (requests.map fun r => r.requestId).Nodup ∧ ∀ r ∈ requests, r.requestId ∉ seen := by
  induction requests generalizing seen with
  | nil => exact ⟨List.nodup_nil, fun _ hr => absurd hr List.not_mem_nil⟩
  | cons r requests ih =>
    rw [validateRequests] at h
    split_ifs at h with hseen
    obtain ⟨hnodup, hnew⟩ := ih h
    refine ⟨List.nodup_cons.mpr ⟨fun hmem => ?_, hnodup⟩, List.forall_mem_cons.mpr ⟨hseen, ?_⟩⟩
    · obtain ⟨r', hr', heq⟩ := List.mem_map.mp hmem
      exact hnew r' hr' (heq ▸ List.mem_cons_self)
    · exact fun r' hr' hmem => hnew r' hr' (List.mem_cons_of_mem _ hmem)

def arrived (tick : ℕ) (r : LiveDecodeRequest) : Bool := decide (r.arrivalTick ≤ tick)

def targetless (r : LiveDecodeRequest) : Bool := decide (r.targetTokenIds = [])

def idsOf (requests : List LiveDecodeRequest) : List String := requests.map fun r => r.requestId

@[simp] theorem idsOf_nil : idsOf [] = [] := rfl

@[simp] theorem idsOf_cons (r : LiveDecodeRequest) (requests : List LiveDecodeRequest) :
    idsOf (r :: requests) = r.requestId :: idsOf requests := rfl

theorem idsOf_append (rs rs' : List LiveDecodeRequest) :
    idsOf (rs ++ rs') = idsOf rs ++ idsOf rs' := List.map_append

theorem mem_idsOf {requests : List LiveDecodeRequest} {r : LiveDecodeRequest}
    (hr : r ∈ requests) : r.requestId ∈ idsOf requests := List.mem_map_of_mem hr

theorem toFinset_concat (ids : List String) (id : String) :
    (ids ++ [id]).toFinset = insert id ids.toFinset := by
  ext
  simp

/-- The requests that arrived leave the queue: those without targets for `completed`, the others
for `active`. -/
theorem admitLoop_eq (pending : List LiveDecodeRequest) (s : State)
    (hset : s.activeSet = s.active.toFinset) :
    admitLoop pending s =
      let queued := s.active ++
        idsOf ((pending.takeWhile (arrived s.tick)).filter fun r => !targetless r)
      { s with
        pending := pending.dropWhile (arrived s.tick)
        active := queued
        activeSet := queued.toFinset
        completed := s.completed ++
          idsOf ((pending.takeWhile (arrived s.tick)).filter targetless) } := by
  induction pending generalizing s with
  | nil => simp [admitLoop, ← hset]
  | cons r pending ih =>
    unfold admitLoop
    by_cases harr : r.arrivalTick ≤ s.tick
    · have hmem : arrived s.tick r = true := decide_eq_true harr
      rw [if_pos harr, List.takeWhile_cons_of_pos hmem, List.dropWhile_cons_of_pos hmem]
      by_cases htgt : r.targetTokenIds = []
      · have htl : targetless r = true := decide_eq_true htgt
        rw [if_pos htgt, ih { s with completed := s.completed ++ [r.requestId] } hset]
        simp [htl]
      · have htl : targetless r = false := decide_eq_false htgt
        rw [if_neg htgt, ih _ (by rw [hset, toFinset_concat])]
        simp [htl]
    · have hmem : ¬arrived s.tick r = true := by simpa [arrived] using harr
      rw [if_neg harr, List.takeWhile_cons_of_neg hmem, List.dropWhile_cons_of_neg hmem]
      simp [← hset]

theorem admitArrived_perm {s : State} (hset : s.activeSet = s.active.toFinset) :
    (idsOf (admitArrived s).pending ++ (admitArrived s).active ++ (admitArrived s).completed).Perm
      (idsOf s.pending ++ s.active ++ s.completed) := by
  unfold admitArrived
  rw [admitLoop_eq _ _ hset]
  set moved := s.pending.takeWhile (arrived s.tick)
  have hsplit : s.pending = moved ++ s.pending.dropWhile (arrived s.tick) :=
    (List.takeWhile_append_dropWhile).symm
  refine List.perm_iff_count.mpr fun id => ?_
  have hp := congrArg (fun l => (idsOf l).count id) hsplit
  have hm := ((List.filter_append_perm targetless moved).map fun r => r.requestId).count_eq id
  simp only [idsOf_append, List.count_append, List.map_append] at hp hm ⊢
  simp only [idsOf] at hp hm ⊢
  omega

theorem takeBatch_eq (n : ℕ) (s : State) (hnodup : s.active.Nodup)
    (hset : s.activeSet = s.active.toFinset) :
    takeBatch n s = .ok (s.active.take n,
      { s with active := s.active.drop n, activeSet := (s.active.drop n).toFinset }) := by
  induction n generalizing s with
  | zero =>
    rw [takeBatch, List.take_zero, List.drop_zero, ← hset]
  | succ n ih =>
    unfold takeBatch
    split
    · rename_i hnil
      rw [hnil] at hset
      obtain ⟨pending, state, active, activeSet, completed, timeline, tick, calls⟩ := s
      obtain rfl : active = [] := hnil
      obtain rfl : activeSet = ∅ := hset
      rfl
    · rename_i id active hcons
      rw [hcons] at hset hnodup
      obtain ⟨hid, hnodup⟩ := List.nodup_cons.mp hnodup
      have herase : s.activeSet.erase id = active.toFinset := by
        rw [hset, List.toFinset_cons, Finset.erase_insert (by simpa using hid)]
      rw [if_pos (by simp [hset]), ih _ hnodup herase, hcons]
      rfl

/-- The requests that go back join the end of the queue. -/
theorem foldl_requeueId {ids : List String} {s : State} (hids : ids.Nodup)
    (hdisj : ∀ id ∈ ids, id ∉ s.active) (hset : s.activeSet = s.active.toFinset) :
    ids.foldl requeueId s =
      { s with active := s.active ++ ids, activeSet := (s.active ++ ids).toFinset } := by
  induction ids generalizing s with
  | nil => simp [← hset]
  | cons id ids ih =>
    obtain ⟨hid, hids⟩ := List.nodup_cons.mp hids
    obtain ⟨hhead, hrest⟩ := List.forall_mem_cons.mp hdisj
    have hnew : requeueId s id =
        { s with active := s.active ++ [id], activeSet := insert id s.activeSet } := by
      unfold requeueId
      rw [if_neg (by simpa [hset] using hhead)]
    rw [List.foldl_cons, hnew, ih hids ?_ ?_]
    · simp
    · intro id' hmem
      rw [List.mem_append, List.mem_singleton, not_or]
      exact ⟨hrest id' hmem, fun heq => hid (heq ▸ hmem)⟩
    · rw [hset, toFinset_concat]

/-! ### The rows of a tick -/

section

variable (token : String → List (ℕ × ℤ) → ℤ)

def entry (r : LiveDecodeRequest) (n : ℕ) : RequestState := ⟨r, n, (alone token r n).1⟩

def nextRow (tick : ℕ) (r : LiveDecodeRequest) (n : ℕ) : LiveDecodeRow :=
  ⟨r.requestId, tick, n, nextInput r (alone token r n).1⟩

def nextToken (r : LiveDecodeRequest) (n : ℕ) : ℤ := token r.requestId (alone token r (n + 1)).2

variable {token}

theorem makeRow_eq {s : State} {r : LiveDecodeRequest} {n : ℕ}
    (h : s.state.get? r.requestId = some (entry token r n)) :
    makeRow s r.requestId = .ok (nextRow token s.tick r n) := by
  unfold makeRow
  rw [h]
  cases n with
  | zero => rfl
  | succ n =>
    have hlast : (alone token r (n + 1)).1.getLast? = some (nextToken token r n) := by
      rw [alone_generated_succ, List.getLast?_concat]
      rfl
    simp [entry, nextRow, nextInput, hlast]

/-- Once the rows so far are those of the request alone, the token is its next one. -/
theorem history_nextRow {calls : List (List LiveDecodeRow)} {tick : ℕ} {r : LiveDecodeRequest}
    {n : ℕ} (h : ownRows calls r.requestId = (alone token r n).2) :
    history calls (nextRow token tick r n) = (alone token r (n + 1)).2 := by
  unfold history
  rw [alone_rows_succ, ← h]
  rfl

/-- A step function that answers every batch the loop can make of these requests. -/
def Serves (token : String → List (ℕ × ℤ) → ℤ) (requests : List LiveDecodeRequest)
    (stepBatch : StepBatch) : Prop :=
  ∀ (calls : List (List LiveDecodeRow)) (tick : ℕ) (pos : String → ℕ)
    (served : List LiveDecodeRequest), (idsOf served).Nodup →
    (∀ r ∈ served, r ∈ requests ∧ pos r.requestId < r.targetTokenIds.length ∧
      ownRows calls r.requestId = (alone token r (pos r.requestId)).2) →
    Answers token calls (served.map fun r => nextRow token tick r (pos r.requestId))
      (stepBatch calls (served.map fun r => nextRow token tick r (pos r.requestId)))

theorem OwnHistory.serves {stepBatch : StepBatch} (h : OwnHistory stepBatch token)
    (requests : List LiveDecodeRequest) : Serves token requests stepBatch := by
  intro calls tick pos served hids _
  have hrows : ((served.map fun r => nextRow token tick r (pos r.requestId)).map
      fun row => row.requestId) = idsOf served := List.map_map
  have ha := h calls _ (hrows ▸ hids)
  unfold Answers
  split
  · rename_i outputs heq
    rw [heq] at ha
    exact ha
  · rename_i outputs heq
    rw [heq] at ha
    exact ha

theorem normalizeOutputs_eq {result : Outputs} {calls : List (List LiveDecodeRow)}
    {rows : List LiveDecodeRow} (hids : (rows.map fun row => row.requestId).Nodup)
    (hrows : Answers token calls rows result) :
    ∃ outputs, normalizeOutputs rows result = .ok outputs ∧
      ∀ row ∈ rows,
        outputs.get? row.requestId = some (token row.requestId (history calls row)) := by
  -- the rows that share an id are one row
  have hone : ∀ row ∈ rows, ∀ row' ∈ rows, row'.requestId = row.requestId →
      token row'.requestId (history calls row') = token row.requestId (history calls row) := by
    intro row hrow row' hrow' heq
    rw [List.inj_on_of_nodup_map hids hrow' hrow heq]
  rcases result with m | xs
  · simp only [normalizeOutputs]
    rw [mapM_eq_ok (g := fun row => (row.requestId, token row.requestId (history calls row)))
      (fun row hrow => by rw [hrows row hrow]), ok_bind]
    refine ⟨_, rfl, fun row hrow => ?_⟩
    rw [List.foldl_map]
    exact OrderedDict.get?_foldl_set (hone row hrow) (.inr ⟨row, hrow, rfl⟩)
  · obtain rfl : xs = rows.map fun row => token row.requestId (history calls row) := hrows
    refine ⟨_, by rw [normalizeOutputs, if_neg (by simp)], fun row hrow => ?_⟩
    have hzip : rows.zip (rows.map fun row => token row.requestId (history calls row)) =
        rows.map fun row => (row, token row.requestId (history calls row)) := by
      rw [← List.zip_map', List.map_id']
    rw [hzip, List.foldl_map]
    exact OrderedDict.get?_foldl_set (hone row hrow) (.inr ⟨row, hrow, rfl⟩)

/-! ### The tokens of a tick -/

def finishes (pos : String → ℕ) (r : LiveDecodeRequest) : Bool :=
  decide (r.targetTokenIds.length ≤ pos r.requestId + 1)

variable {tick : ℕ} {pos : String → ℕ} {served : List LiveDecodeRequest}

theorem collectRows_eq {outputs : OrderedDict String ℤ} {c : Collected}
    (hids : (idsOf served).Nodup)
    (hstate : ∀ r ∈ served,
      c.state.get? r.requestId = some (entry token r (pos r.requestId)))
    (hout : ∀ r ∈ served,
      outputs.get? r.requestId = some (nextToken token r (pos r.requestId))) :
    (served.map fun r => nextRow token tick r (pos r.requestId)).foldlM (collectRow outputs) c =
      .ok
        { state := served.foldl
            (fun d r => d.set r.requestId (entry token r (pos r.requestId + 1))) c.state
          completed := c.completed ++ idsOf (served.filter (finishes pos))
          finished := c.finished ++ idsOf (served.filter (finishes pos))
          requeue := c.requeue ++ idsOf (served.filter fun r => !finishes pos r)
          outputTokenIds := c.outputTokenIds ++
            served.map fun r => nextToken token r (pos r.requestId) } := by
  induction served generalizing c with
  | nil => simp [pure, Except.pure]
  | cons r served ih =>
    obtain ⟨hr, hids⟩ := List.nodup_cons.mp hids
    obtain ⟨hstater, hstate⟩ := List.forall_mem_cons.mp hstate
    obtain ⟨houtr, hout⟩ := List.forall_mem_cons.mp hout
    have hkept : ∀ r' ∈ served,
        (c.state.set r.requestId (entry token r (pos r.requestId + 1))).get? r'.requestId =
          some (entry token r' (pos r'.requestId)) := by
      intro r' hr'
      have hne : r'.requestId ≠ r.requestId := fun heq => hr (List.mem_map.mpr ⟨r', hr', heq⟩)
      rw [OrderedDict.get?_set, if_neg hne]
      exact hstate r' hr'
    have hrow : collectRow outputs c (nextRow token tick r (pos r.requestId)) =
        .ok
          { state := c.state.set r.requestId (entry token r (pos r.requestId + 1))
            completed := c.completed ++ idsOf ([r].filter (finishes pos))
            finished := c.finished ++ idsOf ([r].filter (finishes pos))
            requeue := c.requeue ++ idsOf ([r].filter fun r => !finishes pos r)
            outputTokenIds := c.outputTokenIds ++ [nextToken token r (pos r.requestId)] } := by
      unfold collectRow
      simp only [nextRow, hstater, houtr]
      by_cases hfin : r.targetTokenIds.length ≤ pos r.requestId + 1
      · simp [entry, finishes, hfin, alone_generated_succ, nextToken]
      · simp [entry, finishes, hfin, alone_generated_succ, nextToken]
    rw [List.map_cons, List.foldlM_cons, hrow, ok_bind, ih hids hkept hout]
    by_cases hfin : finishes pos r = true
    · simp [hfin]
    · simp [hfin]

def afterTick (token : String → List (ℕ × ℤ) → ℤ) (pos : String → ℕ) (maxBatchSize : ℕ)
    (served : List LiveDecodeRequest) (s : State) : State :=
  let rows := served.map fun r => nextRow token s.tick r (pos r.requestId)
  let active := s.active.drop maxBatchSize ++ idsOf (served.filter fun r => !finishes pos r)
  { s with
    state := served.foldl
      (fun d r => d.set r.requestId (entry token r (pos r.requestId + 1))) s.state
    active := active
    activeSet := active.toFinset
    completed := s.completed ++ idsOf (served.filter (finishes pos))
    timeline := s.timeline ++
      [⟨s.tick, rows.map fun row => row.requestId, rows.map fun row => row.position,
        rows.map fun row => row.inputTokenId,
        served.map fun r => nextToken token r (pos r.requestId),
        idsOf (served.filter (finishes pos))⟩]
    tick := s.tick + 1
    calls := s.calls ++ [rows] }

theorem get?_afterTick {maxBatchSize : ℕ} {s : State} {r : LiveDecodeRequest}
    (hids : (idsOf served).Nodup) (hr : r ∈ served) :
    (afterTick token pos maxBatchSize served s).state.get? r.requestId =
      some (entry token r (pos r.requestId + 1)) := by
  refine OrderedDict.get?_foldl_set (fun r' hr' heq => ?_) (.inr ⟨r, hr, rfl⟩)
  rw [List.inj_on_of_nodup_map hids hr' hr heq]

theorem get?_afterTick_of_not_mem {maxBatchSize : ℕ} {s : State} {requestId : String}
    {requestState : RequestState} (hid : requestId ∉ idsOf served)
    (hget : s.state.get? requestId = some requestState) :
    (afterTick token pos maxBatchSize served s).state.get? requestId = some requestState :=
  OrderedDict.get?_foldl_set
    (fun _ hr heq => absurd (List.mem_map.mpr ⟨_, hr, heq⟩) hid) (.inl hget)

/-- A call adds the one row of a request it serves, and none of another's. -/
theorem ownRows_concat (calls : List (List LiveDecodeRow)) (hids : (idsOf served).Nodup) :
    (∀ r ∈ served,
      ownRows (calls ++ [served.map fun r => nextRow token tick r (pos r.requestId)])
        r.requestId = ownRows calls r.requestId ++
          [(pos r.requestId, nextInput r (alone token r (pos r.requestId)).1)]) ∧
      ∀ requestId ∉ idsOf served,
        ownRows (calls ++ [served.map fun r => nextRow token tick r (pos r.requestId)])
          requestId = ownRows calls requestId := by
  have happend : ∀ requestId,
      ownRows (calls ++ [served.map fun r => nextRow token tick r (pos r.requestId)])
        requestId = ownRows calls requestId ++
          (served.filter fun r => decide (r.requestId = requestId)).map fun r =>
            (pos r.requestId, nextInput r (alone token r (pos r.requestId)).1) := by
    intro requestId
    unfold ownRows
    rw [List.flatten_concat, List.filter_append, List.map_append, List.filter_map, List.map_map]
    rfl
  constructor
  · intro r hr
    have hone : (served.filter fun r' => decide (r'.requestId = r.requestId)) = [r] := by
      have hnodup : served.Nodup := hids.of_map
      refine List.perm_singleton.mp ?_
      rw [List.perm_ext_iff_of_nodup (hnodup.filter _) (List.nodup_singleton r)]
      intro r'
      rw [List.mem_filter, decide_eq_true_iff, List.mem_singleton]
      constructor
      · exact fun ⟨hr', heq⟩ => List.inj_on_of_nodup_map hids hr' hr heq
      · rintro rfl
        exact ⟨hr, rfl⟩
    rw [happend, hone, List.map_singleton]
  · intro requestId hid
    have hnone : (served.filter fun r => decide (r.requestId = requestId)) = [] := by
      rw [List.filter_eq_nil_iff]
      intro r hr heq
      exact hid (List.mem_map.mpr ⟨r, hr, of_decide_eq_true heq⟩)
    rw [happend, hnone, List.map_nil, List.append_nil]

/-- What goes back was taken, so it is not in the queue. -/
theorem not_mem_drop_of_served (pos : String → ℕ) {active : List String} {n : ℕ}
    (hnodup : active.Nodup) (hserved : idsOf served = active.take n) :
    ∀ id ∈ idsOf (served.filter fun r => !finishes pos r), id ∉ active.drop n := by
  intro id hid hdrop
  have htake : id ∈ active.take n :=
    hserved ▸ List.Sublist.subset ((List.filter_sublist).map _) hid
  exact List.disjoint_take_drop hnodup le_rfl htake hdrop

theorem stepTick_eq {stepBatch : StepBatch} {requests : List LiveDecodeRequest}
    (h : Serves token requests stepBatch) (loop : LiveContinuousDecodeLoop) {s : State}
    (hnodup : s.active.Nodup) (hset : s.activeSet = s.active.toFinset)
    (hserved : idsOf served = s.active.take loop.maxBatchSize)
    (hopen : ∀ r ∈ served, r ∈ requests ∧ pos r.requestId < r.targetTokenIds.length)
    (hstate : ∀ r ∈ served, s.state.get? r.requestId = some (entry token r (pos r.requestId)))
    (hrows : ∀ r ∈ served, ownRows s.calls r.requestId = (alone token r (pos r.requestId)).2) :
    stepTick loop stepBatch s = .ok (afterTick token pos loop.maxBatchSize served s) := by
  have hids : (idsOf served).Nodup := hserved ▸ hnodup.sublist (List.take_sublist _ _)
  have hmake : (idsOf served).mapM (makeRow { s with
        active := s.active.drop loop.maxBatchSize
        activeSet := (s.active.drop loop.maxBatchSize).toFinset }) =
      .ok (served.map fun r => nextRow token s.tick r (pos r.requestId)) := by
    rw [idsOf, List.mapM_map]
    exact mapM_eq_ok fun r hr => makeRow_eq (hstate r hr)
  have hrowIds : ((served.map fun r => nextRow token s.tick r (pos r.requestId)).map
      fun row => row.requestId) = idsOf served := List.map_map
  have hanswers := h s.calls s.tick pos served hids fun r hr =>
    ⟨(hopen r hr).1, (hopen r hr).2, hrows r hr⟩
  obtain ⟨outputs, hnorm, hout⟩ := normalizeOutputs_eq (hrowIds ▸ hids) hanswers
  have htokens : ∀ r ∈ served,
      outputs.get? r.requestId = some (nextToken token r (pos r.requestId)) := by
    intro r hr
    have hget := hout _ (List.mem_map_of_mem hr)
    rw [history_nextRow (hrows r hr)] at hget
    exact hget
  have hdisj := not_mem_drop_of_served pos hnodup hserved
  have hrequeue : (idsOf (served.filter fun r => !finishes pos r)).Nodup :=
    hids.sublist ((List.filter_sublist).map _)
  unfold stepTick
  rw [takeBatch_eq _ s hnodup hset, ok_bind]
  simp only [← hserved]
  rw [hmake, ok_bind, hnorm, ok_bind, collectRows_eq hids hstate htokens, ok_bind]
  simp only [List.nil_append]
  rw [foldl_requeueId hrequeue hdisj rfl]
  rfl

end

end BloomBee.LiveDecodeLoop
