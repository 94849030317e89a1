import Mathlib.Algebra.GroupWithZero.Nat
import Mathlib.Algebra.Order.BigOperators.Group.List
import Mathlib.Algebra.Order.Group.Nat
import Mathlib.Data.List.TakeWhile
import BloomBee.Sanity.LiveDecodeLoop

/-! The continuous loop ends, and a request cannot tell that it shares its ticks with others
(`run_transparent`). The invariant says of every request how far it is: its tokens and its rows
so far are those of the same number of steps alone. -/

set_option autoImplicit false

namespace BloomBee.LiveDecodeLoop

open Loop

def position (state : OrderedDict String RequestState) (requestId : String) : ℕ :=
  ((state.get? requestId).map fun requestState => requestState.position).getD 0

structure Progress (token : String → List (ℕ × ℤ) → ℤ) (s : State) (r : LiveDecodeRequest) :
    Prop where
  state : s.state.get? r.requestId = some (entry token r (position s.state r.requestId))
  rows : ownRows s.calls r.requestId = (alone token r (position s.state r.requestId)).2
  pending : r ∈ s.pending → position s.state r.requestId = 0
  active : r.requestId ∈ s.active →
    r.arrivalTick ≤ s.tick ∧ position s.state r.requestId < r.targetTokenIds.length
  completed : r.requestId ∈ s.completed →
    position s.state r.requestId = r.targetTokenIds.length

structure Allowed (requests : List LiveDecodeRequest) (maxBatchSize : ℕ) (e : TimelineEntry) :
    Prop where
  once : e.requestIds.Nodup
  size : e.requestIds.length ≤ maxBatchSize
  finished : ∀ id ∈ e.finishedRequestIds, id ∈ e.requestIds
  arrived : ∀ id ∈ e.requestIds, ∃ r ∈ requests, r.requestId = id ∧ r.arrivalTick ≤ e.tick

structure Logged (requests : List LiveDecodeRequest) (maxBatchSize : ℕ) (s : State) : Prop where
  calls : (s.timeline.flatMap fun e => e.requestIds) =
    s.calls.flatten.map fun row => row.requestId
  before : ∀ e ∈ s.timeline, e.tick < s.tick
  allowed : ∀ e ∈ s.timeline, Allowed requests maxBatchSize e
  order : s.timeline.Pairwise fun e e' =>
    e.tick < e'.tick ∧ ∀ id ∈ e.finishedRequestIds, id ∉ e'.requestIds
  finished : (s.timeline.flatMap fun e => e.finishedRequestIds).Sublist s.completed

structure Inv (token : String → List (ℕ × ℤ) → ℤ) (requests : List LiveDecodeRequest)
    (maxBatchSize : ℕ) (s : State) : Prop where
  ids : (idsOf s.pending ++ s.active ++ s.completed).Perm (idsOf requests)
  pending : ∀ r ∈ s.pending, r ∈ requests
  activeSet : s.activeSet = s.active.toFinset
  progress : ∀ r ∈ requests, Progress token s r
  log : Logged requests maxBatchSize s

section

variable {token : String → List (ℕ × ℤ) → ℤ} {requests : List LiveDecodeRequest}
  {maxBatchSize : ℕ} {s : State}

theorem position_eq {state : OrderedDict String RequestState} {r : LiveDecodeRequest} {n : ℕ}
    (h : state.get? r.requestId = some (entry token r n)) : position state r.requestId = n := by
  unfold position
  rw [h]
  rfl

theorem Inv.nodup (hi : Inv token requests maxBatchSize s) (hids : (idsOf requests).Nodup) :
    (idsOf s.pending ++ s.active ++ s.completed).Nodup := hi.ids.nodup_iff.mpr hids

theorem Inv.active_nodup (hi : Inv token requests maxBatchSize s)
    (hids : (idsOf requests).Nodup) : s.active.Nodup :=
  (List.nodup_append.mp (List.nodup_append.mp (hi.nodup hids)).1).2.1

theorem Inv.not_active_of_pending (hi : Inv token requests maxBatchSize s)
    (hids : (idsOf requests).Nodup) {id : String} (hid : id ∈ idsOf s.pending) :
    id ∉ s.active := by
  intro hact
  have hdisj := (List.nodup_append.mp (List.nodup_append.mp (hi.nodup hids)).1).2.2
  exact hdisj id hid id hact rfl

theorem Inv.not_active_of_completed (hi : Inv token requests maxBatchSize s)
    (hids : (idsOf requests).Nodup) {id : String} (hid : id ∈ s.completed) : id ∉ s.active := by
  intro hact
  have hdisj := (List.nodup_append.mp (hi.nodup hids)).2.2
  exact hdisj id (List.mem_append_right _ hact) id hid rfl

theorem Inv.exists_of_active (hi : Inv token requests maxBatchSize s) {id : String}
    (hid : id ∈ s.active) : ∃ r ∈ requests, r.requestId = id := by
  have hmem : id ∈ idsOf requests :=
    hi.ids.subset (List.mem_append_left _ (List.mem_append_right _ hid))
  exact List.mem_map.mp hmem

/-! ### The first state, admission and idle ticks -/

theorem inv_init (hids : (idsOf requests).Nodup) :
    Inv token requests maxBatchSize (initState requests) := by
  have hperm : (initState requests).pending.Perm requests := List.mergeSort_perm _ _
  have hstate : ∀ r ∈ requests,
      (initState requests).state.get? r.requestId = some (entry token r 0) := by
    intro r hr
    refine OrderedDict.get?_foldl_set (fun r' hr' heq => ?_) (.inr ⟨r, hr, rfl⟩)
    rw [List.inj_on_of_nodup_map hids hr' hr heq]
    rfl
  exact
    { ids := by
        simp only [initState, List.append_nil]
        exact hperm.map _
      pending := fun r hr => hperm.subset hr
      activeSet := rfl
      progress := fun r hr =>
        { state := by rw [position_eq (hstate r hr), hstate r hr]
          rows := by rw [position_eq (hstate r hr)]; rfl
          pending := fun _ => position_eq (hstate r hr)
          active := fun h => absurd h List.not_mem_nil
          completed := fun h => absurd h List.not_mem_nil }
      log :=
        { calls := rfl
          before := fun _ h => absurd h List.not_mem_nil
          allowed := fun _ h => absurd h List.not_mem_nil
          order := List.Pairwise.nil
          finished := List.Sublist.refl [] } }

theorem inv_admitArrived (hids : (idsOf requests).Nodup) (hi : Inv token requests maxBatchSize s) :
    Inv token requests maxBatchSize (admitArrived s) := by
  unfold admitArrived
  rw [admitLoop_eq _ _ hi.activeSet]
  set moved := s.pending.takeWhile (arrived s.tick)
  have hmem : ∀ r ∈ moved, r ∈ s.pending ∧ r.arrivalTick ≤ s.tick := by
    intro r hr
    exact ⟨(List.takeWhile_sublist _).subset hr,
      of_decide_eq_true (p := r.arrivalTick ≤ s.tick)
        (List.mem_takeWhile_imp (p := arrived s.tick) hr)⟩
  -- a request among `requests` with the id of an admitted one is this one
  have hsame : ∀ r ∈ requests, ∀ p, r.requestId ∈ idsOf (moved.filter p) →
      r ∈ moved ∧ p r = true := by
    intro r hr p hid
    obtain ⟨r', hr', heq⟩ := List.mem_map.mp hid
    obtain ⟨hm, hp⟩ := List.mem_filter.mp hr'
    obtain rfl := List.inj_on_of_nodup_map hids (hi.pending r' (hmem r' hm).1) hr heq
    exact ⟨hm, hp⟩
  refine ⟨?_, fun r hr => hi.pending r ((List.dropWhile_sublist _).subset hr), rfl,
    fun r hr => ?_, ?_⟩
  · have hperm := admitArrived_perm hi.activeSet
    unfold admitArrived at hperm
    rw [admitLoop_eq _ _ hi.activeSet] at hperm
    exact hperm.trans hi.ids
  · have h := hi.progress r hr
    refine ⟨h.state, h.rows, fun hp => h.pending ((List.dropWhile_sublist _).subset hp),
      fun hact => ?_, fun hcomp => ?_⟩
    · rcases List.mem_append.mp hact with hact | hnew
      · exact h.active hact
      · obtain ⟨hm, hp⟩ := hsame r hr _ hnew
        obtain ⟨hpend, harr⟩ := hmem r hm
        refine ⟨harr, ?_⟩
        rw [h.pending hpend]
        exact List.length_pos_of_ne_nil (by simpa [targetless] using hp)
    · rcases List.mem_append.mp hcomp with hcomp | hnew
      · exact h.completed hcomp
      · obtain ⟨hm, hp⟩ := hsame r hr _ hnew
        rw [h.pending (hmem r hm).1]
        exact (List.length_eq_zero_iff.mpr (of_decide_eq_true hp)).symm
  · exact ⟨hi.log.calls, hi.log.before, hi.log.allowed, hi.log.order,
      hi.log.finished.trans (List.sublist_append_left _ _)⟩

theorem inv_idle (hi : Inv token requests maxBatchSize s) (hactive : s.active = []) {tick : ℕ}
    (htick : s.tick ≤ tick) : Inv token requests maxBatchSize { s with tick } where
  ids := hi.ids
  pending := hi.pending
  activeSet := hi.activeSet
  progress r hr :=
    { hi.progress r hr with
      active := fun h => absurd (hactive ▸ h) List.not_mem_nil }
  log :=
    { hi.log with
      before := fun e he => (hi.log.before e he).trans_le htick }

/-! ### A tick with active requests -/

/-- The entry of a tick that serves requests that are not complete. -/
theorem Logged.append (hl : Logged requests maxBatchSize s) {s' : State} {e : TimelineEntry}
    {rows : List LiveDecodeRow} (htick : e.tick = s.tick) (he : Allowed requests maxBatchSize e)
    (hrows : e.requestIds = rows.map fun row => row.requestId)
    (hopen : ∀ id ∈ e.requestIds, id ∉ s.completed) (htimeline : s'.timeline = s.timeline ++ [e])
    (hcalls : s'.calls = s.calls ++ [rows])
    (hcompleted : s'.completed = s.completed ++ e.finishedRequestIds)
    (hnext : s'.tick = s.tick + 1) : Logged requests maxBatchSize s' where
  calls := by
    rw [htimeline, hcalls, List.flatMap_append, List.flatMap_singleton, List.flatten_concat,
      List.map_append, hl.calls, hrows]
  before := by
    rw [htimeline, hnext]
    intro a ha
    rcases List.mem_append.mp ha with ha | ha
    · exact (hl.before a ha).trans (Nat.lt_succ_self _)
    · rw [List.mem_singleton.mp ha, htick]
      exact Nat.lt_succ_self _
  allowed := by
    rw [htimeline]
    intro a ha
    rcases List.mem_append.mp ha with ha | ha
    · exact hl.allowed a ha
    · rw [List.mem_singleton.mp ha]
      exact he
  order := by
    rw [htimeline]
    refine List.pairwise_append.mpr ⟨hl.order, List.pairwise_singleton _ _, ?_⟩
    intro a ha b hb
    rw [List.mem_singleton.mp hb, htick]
    refine ⟨hl.before a ha, fun id hid hmem => ?_⟩
    exact hopen id hmem (hl.finished.subset (List.mem_flatMap.mpr ⟨a, ha, hid⟩))
  finished := by
    rw [htimeline, hcompleted, List.flatMap_append, List.flatMap_singleton]
    exact hl.finished.append (List.Sublist.refl _)

theorem Inv.exists_served (hi : Inv token requests maxBatchSize s) :
    ∃ served, idsOf served = s.active.take maxBatchSize ∧ ∀ r ∈ served, r ∈ requests := by
  have hex : ∀ id ∈ s.active.take maxBatchSize, ∃ r ∈ requests, r.requestId = id :=
    fun id hid => hi.exists_of_active ((List.take_subset _ _) hid)
  generalize s.active.take maxBatchSize = ids at hex
  induction ids with
  | nil => exact ⟨[], rfl, fun _ h => absurd h List.not_mem_nil⟩
  | cons id ids ih =>
    obtain ⟨⟨r, hr, rfl⟩, hrest⟩ := List.forall_mem_cons.mp hex
    obtain ⟨served, rfl, hsub⟩ := ih hrest
    exact ⟨r :: served, rfl, List.forall_mem_cons.mpr ⟨hr, hsub⟩⟩

section

variable {served : List LiveDecodeRequest}

theorem mem_of_mem_idsOf (hids : (idsOf requests).Nodup) (hsub : ∀ r ∈ served, r ∈ requests)
    {r : LiveDecodeRequest} (hr : r ∈ requests) {p : LiveDecodeRequest → Bool}
    (hid : r.requestId ∈ idsOf (served.filter p)) : r ∈ served ∧ p r = true := by
  obtain ⟨r', hr', heq⟩ := List.mem_map.mp hid
  obtain ⟨hm, hp⟩ := List.mem_filter.mp hr'
  obtain rfl := List.inj_on_of_nodup_map hids (hsub r' hm) hr heq
  exact ⟨hm, hp⟩

theorem active_of_served (hserved : idsOf served = s.active.take maxBatchSize)
    {r : LiveDecodeRequest} (hr : r ∈ served) : r.requestId ∈ s.active :=
  (List.take_subset _ _) (hserved ▸ mem_idsOf hr)

/-- A request the tick serves is one step further, and it has finished if this was its last. -/
theorem Inv.progress_served (hi : Inv token requests maxBatchSize s)
    (hids : (idsOf requests).Nodup) (hserved : idsOf served = s.active.take maxBatchSize)
    (hsub : ∀ r ∈ served, r ∈ requests) {r : LiveDecodeRequest} (hr : r ∈ served) :
    Progress token (afterTick token (position s.state) maxBatchSize served s) r ∧
      position (afterTick token (position s.state) maxBatchSize served s).state r.requestId =
        position s.state r.requestId + 1 := by
  have hnodup := hi.active_nodup hids
  have hsids : (idsOf served).Nodup := hserved ▸ hnodup.sublist (List.take_sublist _ _)
  have h := hi.progress r (hsub r hr)
  have hact := active_of_served hserved hr
  obtain ⟨harr, hlt⟩ := h.active hact
  have hget : (afterTick token (position s.state) maxBatchSize served s).state.get?
      r.requestId = some (entry token r (position s.state r.requestId + 1)) :=
    get?_afterTick hsids hr
  have hpos := position_eq hget
  refine ⟨⟨by rw [hpos, hget], ?_, fun hp => ?_, fun ha => ?_, fun hc => ?_⟩, hpos⟩
  · rw [hpos, alone_rows_succ, ← h.rows]
    exact (ownRows_concat s.calls hsids).1 r hr
  · exact absurd hact (hi.not_active_of_pending hids (mem_idsOf hp))
  · rw [hpos]
    refine ⟨harr.trans (Nat.le_succ _), ?_⟩
    rcases List.mem_append.mp ha with hdrop | hnew
    · have htake : r.requestId ∈ s.active.take maxBatchSize := hserved ▸ mem_idsOf hr
      exact absurd hdrop (List.disjoint_take_drop hnodup le_rfl htake)
    · have hfin := (mem_of_mem_idsOf hids hsub (hsub r hr) hnew).2
      simpa [finishes] using hfin
  · rw [hpos]
    rcases List.mem_append.mp hc with hcomp | hnew
    · exact absurd hact (hi.not_active_of_completed hids hcomp)
    · have hfin := (mem_of_mem_idsOf hids hsub (hsub r hr) hnew).2
      have hle : r.targetTokenIds.length ≤ position s.state r.requestId + 1 :=
        of_decide_eq_true hfin
      omega

theorem Inv.progress_others (hi : Inv token requests maxBatchSize s)
    (hids : (idsOf requests).Nodup) (hserved : idsOf served = s.active.take maxBatchSize)
    (hsub : ∀ r ∈ served, r ∈ requests) {r : LiveDecodeRequest} (hr : r ∈ requests)
    (hout : r ∉ served) :
    Progress token (afterTick token (position s.state) maxBatchSize served s) r ∧
      position (afterTick token (position s.state) maxBatchSize served s).state r.requestId =
        position s.state r.requestId := by
  have hsids : (idsOf served).Nodup :=
    hserved ▸ (hi.active_nodup hids).sublist (List.take_sublist _ _)
  have h := hi.progress r hr
  have hid : r.requestId ∉ idsOf served := by
    intro hid
    have hall : served.filter (fun _ => true) = served := List.filter_true served
    exact hout (mem_of_mem_idsOf (p := fun _ => true) hids hsub hr (by rwa [hall])).1
  have hget : (afterTick token (position s.state) maxBatchSize served s).state.get?
      r.requestId = some (entry token r (position s.state r.requestId)) :=
    get?_afterTick_of_not_mem hid h.state
  have hpos := position_eq hget
  refine ⟨⟨by rw [hpos, hget], ?_, fun hp => ?_, fun ha => ?_, fun hc => ?_⟩, hpos⟩
  · rw [hpos, ← h.rows]
    exact (ownRows_concat s.calls hsids).2 _ hid
  · rw [hpos]
    exact h.pending hp
  · rw [hpos]
    rcases List.mem_append.mp ha with hdrop | hnew
    · obtain ⟨harr, hlt⟩ := h.active ((List.drop_subset _ _) hdrop)
      exact ⟨harr.trans (Nat.le_succ _), hlt⟩
    · exact absurd (mem_of_mem_idsOf hids hsub hr hnew).1 hout
  · rw [hpos]
    rcases List.mem_append.mp hc with hcomp | hnew
    · exact h.completed hcomp
    · exact absurd (mem_of_mem_idsOf hids hsub hr hnew).1 hout

theorem inv_afterTick (hi : Inv token requests maxBatchSize s) (hids : (idsOf requests).Nodup)
    (hserved : idsOf served = s.active.take maxBatchSize)
    (hsub : ∀ r ∈ served, r ∈ requests) :
    Inv token requests maxBatchSize
      (afterTick token (position s.state) maxBatchSize served s) := by
  have hsids : (idsOf served).Nodup :=
    hserved ▸ (hi.active_nodup hids).sublist (List.take_sublist _ _)
  have hrowIds : ((served.map fun r =>
      nextRow token s.tick r (position s.state r.requestId)).map fun row => row.requestId) =
      idsOf served := List.map_map
  have hactive : ∀ id ∈ idsOf served, id ∈ s.active :=
    fun id hid => (List.take_subset _ _) (hserved ▸ hid)
  refine ⟨?_, hi.pending, rfl, fun r hr => ?_, ?_⟩
  · refine List.Perm.trans (List.perm_iff_count.mpr fun id => ?_) hi.ids
    have htake := congrArg (fun l => l.count id) (List.take_append_drop maxBatchSize s.active)
    have hsplit := ((List.filter_append_perm (finishes (position s.state)) served).map
      fun r => r.requestId).count_eq id
    rw [← hserved] at htake
    simp only [afterTick, idsOf, List.count_append, List.map_append] at htake hsplit ⊢
    omega
  · by_cases hin : r ∈ served
    · exact (hi.progress_served hids hserved hsub hin).1
    · exact (hi.progress_others hids hserved hsub hr hin).1
  · refine hi.log.append rfl ⟨?_, ?_, ?_, fun id hid => ?_⟩ rfl (fun id hid => ?_) rfl rfl rfl rfl
    · rw [hrowIds]
      exact hsids
    · rw [hrowIds, hserved]
      exact List.length_take_le _ _
    · rw [hrowIds]
      exact (List.filter_sublist.map _).subset
    · rw [hrowIds] at hid
      obtain ⟨r, hr, rfl⟩ := List.mem_map.mp hid
      exact ⟨r, hsub r hr, rfl,
        ((hi.progress r (hsub r hr)).active (active_of_served hserved hr)).1⟩
    · rw [hrowIds] at hid
      exact fun hcomp => hi.not_active_of_completed hids hcomp (hactive id hid)

end

/-! ### The loop ends -/

def remaining (requests : List LiveDecodeRequest) (state : OrderedDict String RequestState) : ℕ :=
  (requests.map fun r => r.targetTokenIds.length - position state r.requestId).sum

def waiting (s : State) : ℕ :=
  match s.pending with
  | [] => 0
  | r :: _ => if r.arrivalTick ≤ s.tick then 0 else 1

theorem waiting_le_one (s : State) : waiting s ≤ 1 := by
  unfold waiting
  split
  · omega
  · split_ifs <;> omega

/-- Every turn admits a request, serves one or jumps to an arrival. -/
def variant (requests : List LiveDecodeRequest) (s : State) : ℕ :=
  2 * (s.pending.length + remaining requests s.state) + waiting s

theorem admitArrived_eq (hi : Inv token requests maxBatchSize s) :
    (admitArrived s).pending = s.pending.dropWhile (arrived s.tick) ∧
      (admitArrived s).tick = s.tick ∧ (admitArrived s).state = s.state := by
  unfold admitArrived
  rw [admitLoop_eq _ _ hi.activeSet]
  exact ⟨rfl, rfl, rfl⟩

theorem variant_admitArrived (hi : Inv token requests maxBatchSize s) :
    variant requests (admitArrived s) ≤ variant requests s := by
  obtain ⟨hpending, htick, hstate⟩ := admitArrived_eq hi
  unfold variant
  rw [hstate]
  rcases hcase : s.pending with - | ⟨r, rest⟩
  · have hnil : (admitArrived s).pending = [] := by rw [hpending, hcase]; rfl
    simp [waiting, hnil, hcase]
  · by_cases harr : arrived s.tick r = true
    · have hdrop : (admitArrived s).pending = rest.dropWhile (arrived s.tick) := by
        rw [hpending, hcase, List.dropWhile_cons_of_pos harr]
      have hlen := (List.dropWhile_sublist (arrived s.tick) (l := rest)).length_le
      have hone := waiting_le_one (admitArrived s)
      rw [hdrop, List.length_cons]
      omega
    · have hkeep : (admitArrived s).pending = r :: rest := by
        rw [hpending, hcase, List.dropWhile_cons_of_neg harr]
      have hwait : waiting (admitArrived s) = waiting s := by
        unfold waiting
        rw [hkeep, hcase, htick]
      rw [hwait, hkeep]

theorem remaining_afterTick (hi : Inv token requests maxBatchSize s)
    (hids : (idsOf requests).Nodup) {served : List LiveDecodeRequest}
    (hserved : idsOf served = s.active.take maxBatchSize)
    (hsub : ∀ r ∈ served, r ∈ requests) (hne : served ≠ []) :
    remaining requests (afterTick token (position s.state) maxBatchSize served s).state <
      remaining requests s.state := by
  unfold remaining
  refine List.sum_lt_sum _ _ (fun r hr => ?_) ?_
  · by_cases hin : r ∈ served
    · rw [(hi.progress_served hids hserved hsub hin).2]
      omega
    · rw [(hi.progress_others hids hserved hsub hr hin).2]
  · obtain ⟨r, hr⟩ := List.exists_mem_of_ne_nil served hne
    have hlt := ((hi.progress r (hsub r hr)).active (active_of_served hserved hr)).2
    refine ⟨r, hsub r hr, ?_⟩
    rw [(hi.progress_served hids hserved hsub hr).2]
    omega

structure Final (token : String → List (ℕ × ℤ) → ℤ) (requests : List LiveDecodeRequest)
    (maxBatchSize : ℕ) (s : State) : Prop extends Inv token requests maxBatchSize s where
  no_pending : s.pending = []
  no_active : s.active = []

variable {stepBatch : StepBatch} {loop : LiveContinuousDecodeLoop}

theorem turn_spec (h : Serves token requests stepBatch) (hids : (idsOf requests).Nodup) (s : State)
    (hi : Inv token requests loop.maxBatchSize s) :
    (∃ s', turn loop stepBatch s = .next s' ∧ Inv token requests loop.maxBatchSize s' ∧
      variant requests s' < variant requests s) ∨
      ∃ s', turn loop stepBatch s = .stop s' ∧ Final token requests loop.maxBatchSize s' := by
  unfold turn
  by_cases hstop : s.pending = [] ∧ s.active = []
  · rw [if_pos hstop]
    exact .inr ⟨s, rfl, { hi with no_pending := hstop.1, no_active := hstop.2 }⟩
  rw [if_neg hstop]
  have ha := inv_admitArrived hids hi
  have hvar := variant_admitArrived hi
  obtain ⟨hpending, htick, hstate⟩ := admitArrived_eq hi
  by_cases hactive : (admitArrived s).active = []
  · simp only [if_pos hactive]
    rcases hcase : (admitArrived s).pending with - | ⟨r, rest⟩
    · exact .inr ⟨_, rfl, { ha with no_pending := hcase, no_active := hactive }⟩
    · -- the first request left has not arrived
      have hidle : Inv token requests loop.maxBatchSize
          { admitArrived s with tick := max ((admitArrived s).tick + 1) r.arrivalTick } :=
        inv_idle ha hactive (by omega)
      simp only [hcase] at hidle
      refine .inl ⟨_, rfl, hidle, lt_of_lt_of_le ?_ hvar⟩
      have hnot : ¬arrived s.tick r = true := by
        have hhead := List.head?_dropWhile_not (arrived s.tick) s.pending
        rw [← hpending, hcase] at hhead
        simpa using hhead
      have hlate : ¬r.arrivalTick ≤ (admitArrived s).tick := by
        rw [htick]
        simpa [arrived] using hnot
      simp only [variant, waiting, hcase, if_neg hlate]
      rw [if_pos (le_max_right _ _)]
      omega
  · simp only [if_neg hactive]
    obtain ⟨served, hserved, hsub⟩ := ha.exists_served
    have hstep : stepTick loop stepBatch (admitArrived s) =
        .ok (afterTick token (position (admitArrived s).state) loop.maxBatchSize served
          (admitArrived s)) :=
      stepTick_eq h loop (ha.active_nodup hids) ha.activeSet hserved
        (fun r hr => ⟨hsub r hr,
          ((ha.progress r (hsub r hr)).active (active_of_served hserved hr)).2⟩)
        (fun r hr => (ha.progress r (hsub r hr)).state)
        (fun r hr => (ha.progress r (hsub r hr)).rows)
    rw [hstep]
    have hne : served ≠ [] := by
      rintro rfl
      have htake := congrArg List.length hserved
      have hpos := List.length_pos_of_ne_nil hactive
      have hone := loop.one_le_maxBatchSize
      rw [List.length_take] at htake
      simp only [idsOf_nil, List.length_nil] at htake
      omega
    refine .inl ⟨_, rfl, inv_afterTick ha hids hserved hsub, lt_of_lt_of_le ?_ hvar⟩
    have hrem := remaining_afterTick ha hids hserved hsub hne
    have hone := waiting_le_one
      (afterTick token (position (admitArrived s).state) loop.maxBatchSize served (admitArrived s))
    have hsame : (afterTick token (position (admitArrived s).state) loop.maxBatchSize served
      (admitArrived s)).pending = (admitArrived s).pending := rfl
    unfold variant
    rw [hsame]
    omega

/-- The loop on requests with distinct ids: it returns the report of a final state. -/
theorem run_eq (h : Serves token requests stepBatch) (loop : LiveContinuousDecodeLoop)
    (hids : (idsOf requests).Nodup) :
    ∃ s, Final token requests loop.maxBatchSize s ∧
      ∃ bound, ∀ fuel > bound,
        run loop stepBatch requests fuel = some (.ok (makeReport loop requests s)) := by
  obtain ⟨s, hfinal, hrun⟩ := run_total (variant requests) (turn_spec h hids) _ _
    (inv_init hids) le_rfl
  refine ⟨s, hfinal, variant requests (initState requests), fun fuel hf => ?_⟩
  unfold run
  rw [validateRequests_eq hids (fun _ _ => List.not_mem_nil)]
  simp only [hrun fuel hf]
  rfl

theorem Final.completed_perm (hf : Final token requests maxBatchSize s) :
    s.completed.Perm (idsOf requests) := by
  have hids := hf.ids
  rw [hf.no_pending, hf.no_active] at hids
  exact hids

theorem Final.position (hf : Final token requests maxBatchSize s) {r : LiveDecodeRequest}
    (hr : r ∈ requests) : position s.state r.requestId = r.targetTokenIds.length :=
  (hf.progress r hr).completed (hf.completed_perm.symm.subset (mem_idsOf hr))

theorem Final.outputs (hf : Final token requests maxBatchSize s) (hids : (idsOf requests).Nodup)
    {r : LiveDecodeRequest} (hr : r ∈ requests) :
    (makeReport loop requests s).outputsByRequest.get? r.requestId =
      some (alone token r r.targetTokenIds.length).1 := by
  refine OrderedDict.get?_foldl_set (fun r' hr' heq => ?_) (.inr ⟨r, hr, rfl⟩)
  obtain rfl := List.inj_on_of_nodup_map hids hr' hr heq
  rw [(hf.progress r' hr).state, hf.position hr]
  rfl

theorem Final.count (hf : Final token requests maxBatchSize s) {r : LiveDecodeRequest}
    (hr : r ∈ requests) :
    (s.timeline.flatMap fun e => e.requestIds).count r.requestId = r.targetTokenIds.length := by
  have hlen := congrArg List.length (hf.progress r hr).rows
  rw [(alone_length token r _).2, hf.position hr, ownRows, List.length_map] at hlen
  rw [hf.log.calls, ← hlen, List.count, List.countP_map, List.countP_eq_length_filter]
  congr 1

/-- The loop, for any step function whose result for a row is a function of its request's own
rows: it ends, every request gets the tokens of the loop on it alone, at any batch size, and is
served once for each; no tick serves a request twice, before its arrival, after it has finished
or beyond the batch size, and every request is completed once. -/
theorem run_transparent (h : OwnHistory stepBatch token) (loop : LiveContinuousDecodeLoop)
    (requests : List LiveDecodeRequest) (hids : (requests.map fun r => r.requestId).Nodup) :
    ∃ report,
      (∃ bound, ∀ fuel > bound, run loop stepBatch requests fuel = some (.ok report)) ∧
      (∀ r ∈ requests, ∃ output,
        report.outputsByRequest.get? r.requestId = some output ∧
        output.length = r.targetTokenIds.length ∧
        (report.timeline.flatMap fun e => e.requestIds).count r.requestId = output.length ∧
        ∀ loop' : LiveContinuousDecodeLoop, ∃ single,
          (∃ bound, ∀ fuel > bound, run loop' stepBatch [r] fuel = some (.ok single)) ∧
          single.outputsByRequest.get? r.requestId = some output) ∧
      (∀ e ∈ report.timeline,
        e.requestIds.Nodup ∧ e.requestIds.length ≤ loop.maxBatchSize ∧
        (∀ id ∈ e.finishedRequestIds, id ∈ e.requestIds) ∧
        ∀ id ∈ e.requestIds, ∃ r ∈ requests, r.requestId = id ∧ r.arrivalTick ≤ e.tick) ∧
      (report.timeline.Pairwise fun e e' =>
        e.tick < e'.tick ∧ ∀ id ∈ e.finishedRequestIds, id ∉ e'.requestIds) ∧
      (report.timeline.flatMap fun e => e.finishedRequestIds).Sublist
        report.completedRequestIds ∧
      report.completedRequestIds.Perm (requests.map fun r => r.requestId) := by
  obtain ⟨s, hf, hrun⟩ := run_eq (h.serves requests) loop hids
  refine ⟨makeReport loop requests s, hrun, fun r hr => ?_, fun e he => ?_, hf.log.order,
    hf.log.finished, hf.completed_perm⟩
  · have hlen := (alone_length token r r.targetTokenIds.length).1
    refine ⟨_, hf.outputs hids hr, hlen, (hf.count hr).trans hlen.symm, fun loop' => ?_⟩
    have hone : (idsOf [r]).Nodup := List.nodup_singleton _
    obtain ⟨s', hf', hrun'⟩ := run_eq (h.serves [r]) loop' hone
    exact ⟨_, hrun', hf'.outputs hone (List.mem_singleton_self r)⟩
  · have ha := hf.log.allowed e he
    exact ⟨ha.once, ha.size, ha.finished, ha.arrived⟩

end

/-- The last input plus the number of rows, as a sequence and as a mapping in turn. -/
def countingStep : StepBatch := fun calls rows =>
  let token row := row.inputTokenId + (history calls row).length
  if calls.length % 2 = 0 then .sequence (rows.map token)
  else .mapping (rows.foldl (fun d row => d.set row.requestId (token row)) .empty)

theorem countingStep_ownHistory : OwnHistory countingStep fun _ rows =>
    (rows.getLast?.map Prod.snd).getD 0 + rows.length := by
  intro calls rows hids
  have htoken : ∀ row : LiveDecodeRow, row.inputTokenId + ((history calls row).length : ℤ) =
      (((history calls row).getLast?.map Prod.snd).getD 0) + (history calls row).length := by
    intro row
    rw [history, List.getLast?_concat]
    rfl
  unfold countingStep
  by_cases heven : calls.length % 2 = 0
  · simp only [if_pos heven, htoken]
  · simp only [if_neg heven]
    intro row hrow
    refine OrderedDict.get?_foldl_set (fun row' hrow' heq => ?_) (.inr ⟨row, hrow, rfl⟩)
    rw [List.inj_on_of_nodup_map hids hrow' hrow heq, htoken]

/-- Two requests overlap, one has no targets and one arrives after the others ended. -/
theorem run_transparent_shared :
    ∃ report,
      (∃ bound, ∀ fuel > bound, run ⟨2, by decide⟩ countingStep
        [⟨"a", [1, 2], [0, 0, 0], 1, by decide⟩, ⟨"b", [7], [0, 0], 0, by decide⟩,
          ⟨"c", [4], [], 0, by decide⟩, ⟨"d", [5], [0], 9, by decide⟩] fuel =
        some (.ok report)) ∧
      (∃ output, report.outputsByRequest.get? "a" = some output ∧ output.length = 3) ∧
      (∀ e ∈ report.timeline, e.requestIds.length ≤ 2) ∧
      report.completedRequestIds.Perm ["a", "b", "c", "d"] := by
  obtain ⟨report, hrun, hout, hallowed, -, -, hperm⟩ := run_transparent countingStep_ownHistory
    ⟨2, by decide⟩
    [⟨"a", [1, 2], [0, 0, 0], 1, by decide⟩, ⟨"b", [7], [0, 0], 0, by decide⟩,
      ⟨"c", [4], [], 0, by decide⟩, ⟨"d", [5], [0], 9, by decide⟩] (by decide)
  obtain ⟨output, hget, hlen, -⟩ := hout _ List.mem_cons_self
  exact ⟨report, hrun, ⟨output, hget, hlen⟩, fun e he => (hallowed e he).2.1, hperm⟩

end BloomBee.LiveDecodeLoop
