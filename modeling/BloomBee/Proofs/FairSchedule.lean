import BloomBee.Proofs.ContinuousBatching
import BloomBee.Sanity.LiveSchedule

/-! The continuous loops serve round-robin, whatever the step function returns: no request is
served twice while another one waits, and a new one waits no longer than those before it take
(`serves_in_turn`). The simulator's runs are the live ones on its target tokens. -/

set_option autoImplicit false

namespace BloomBee.LiveDecodeLoop

open Loop
open RoundRobin (Round Rounds Follows services)

def servedIn (n : ℕ) (rounds : List (Round String)) (requestId : String) : ℕ :=
  (rounds.flatMap (Round.batch n)).count requestId

structure Scheduled (requests : List LiveDecodeRequest) (n : ℕ) (rounds : List (Round String))
    (s : State) : Prop where
  ids : (idsOf s.pending ++ s.active ++ s.completed).Perm (idsOf requests)
  pending : ∀ r ∈ s.pending, r ∈ requests ∧ servedIn n rounds r.requestId = 0
  sorted : s.pending.Pairwise fun r r' => r.arrivalTick ≤ r'.arrivalTick
  activeSet : s.activeSet = s.active.toFinset
  placed : ∀ r ∈ requests, placed s.state r.requestId = some (r, servedIn n rounds r.requestId)
  active : ∀ r ∈ requests, r.requestId ∈ s.active →
    servedIn n rounds r.requestId < r.targetTokenIds.length
  completed : ∀ r ∈ requests, r.requestId ∈ s.completed →
    r.targetTokenIds.length ≤ servedIn n rounds r.requestId
  timeline : (s.timeline.map fun e => (e.tick, e.requestIds)) =
    rounds.map fun ρ => (ρ.time, ρ.batch n)
  byTick : s.timeline.Pairwise fun e e' => e.tick < e'.tick
  past : ∀ e ∈ s.timeline, e.tick < s.tick
  order : Rounds n rounds
  last : ∀ ρ ∈ rounds.getLast?, ρ.rest n <+: s.active ∧ (ρ.rest n ≠ [] → s.tick = ρ.time + 1)
  gone : ∀ ρ ∈ rounds, ∀ id ∈ ρ.batch n, ρ.goesOn id = false → id ∈ s.completed
  /-- Who has arrived and is not finished waits in every round, and goes on until its last one. -/
  waits : ∀ before ρ after, rounds = before ++ ρ :: after → ∀ r ∈ requests,
    (r.arrivalTick ≤ ρ.time → servedIn n before r.requestId < r.targetTokenIds.length →
      r.requestId ∈ ρ.queue) ∧
    (servedIn n before r.requestId + 1 < r.targetTokenIds.length → ρ.goesOn r.requestId = true)

variable {requests : List LiveDecodeRequest} {n : ℕ} {rounds : List (Round String)} {s s' : State}

theorem servedIn_concat (rounds : List (Round String)) (ρ : Round String) (requestId : String) :
    servedIn n (rounds ++ [ρ]) requestId =
      servedIn n rounds requestId + (ρ.batch n).count requestId := by
  unfold servedIn
  rw [List.flatMap_append, List.count_append, List.flatMap_singleton]

theorem Scheduled.nodup (h : Scheduled requests n rounds s) (hids : (idsOf requests).Nodup) :
    (idsOf s.pending ++ s.active ++ s.completed).Nodup := h.ids.nodup_iff.mpr hids

theorem Scheduled.active_nodup (h : Scheduled requests n rounds s)
    (hids : (idsOf requests).Nodup) : s.active.Nodup :=
  (List.nodup_append.mp (List.nodup_append.mp (h.nodup hids)).1).2.1

theorem Scheduled.not_active_of_completed (h : Scheduled requests n rounds s)
    (hids : (idsOf requests).Nodup) {id : String} (hid : id ∈ s.completed) : id ∉ s.active :=
  fun hactive => (List.nodup_append.mp (h.nodup hids)).2.2 id (List.mem_append_right _ hactive) id
    hid rfl

/-- A request with tokens left waits, unless it is still pending. -/
theorem Scheduled.mem_active (h : Scheduled requests n rounds s) {r : LiveDecodeRequest}
    (hr : r ∈ requests) (hpending : r.requestId ∉ idsOf s.pending)
    (hlt : servedIn n rounds r.requestId < r.targetTokenIds.length) : r.requestId ∈ s.active := by
  have hmem : r.requestId ∈ idsOf s.pending ++ s.active ++ s.completed :=
    h.ids.symm.subset (mem_idsOf hr)
  rcases List.mem_append.mp hmem with hmem | hcompleted
  · exact (List.mem_append.mp hmem).resolve_left hpending
  · exact absurd (h.completed r hr hcompleted) (Nat.not_le_of_lt hlt)

theorem Scheduled.goesOn_eq (h : Scheduled requests n rounds s) {r : LiveDecodeRequest}
    (hr : r ∈ requests) : goesOn s.state r.requestId =
      decide (servedIn n rounds r.requestId + 1 < r.targetTokenIds.length) := by
  rw [LiveDecodeLoop.goesOn_eq, h.placed r hr]
  rfl

theorem scheduled_init (hids : (idsOf requests).Nodup) :
    Scheduled requests n [] (initState requests) := by
  have hperm : (initState requests).pending.Perm requests := List.mergeSort_perm _ _
  have hsorted : (initState requests).pending.Pairwise fun r r' =>
      r.arrivalTick ≤ r'.arrivalTick := by
    have hsort := @List.pairwise_mergeSort LiveDecodeRequest
      (fun r r' => decide (r.arrivalTick ≤ r'.arrivalTick))
      (fun a b c => by simpa using Nat.le_trans) (fun a b => by simpa using Nat.le_total _ _)
      requests
    exact hsort.imp fun h => of_decide_eq_true h
  have hplaced : ∀ r ∈ requests, placed (initState requests).state r.requestId = some (r, 0) := by
    intro r hr
    have hget : (initState requests).state.get? r.requestId = some ⟨r, 0, []⟩ := by
      refine OrderedDict.get?_foldl_set (fun r' hr' heq => ?_) (.inr ⟨r, hr, rfl⟩)
      rw [List.inj_on_of_nodup_map hids hr' hr heq]
    rw [placed, hget]
    rfl
  exact
    { ids := by
        simp only [initState, List.append_nil]
        exact hperm.map _
      pending := fun r hr => ⟨hperm.subset hr, rfl⟩
      sorted := hsorted
      activeSet := rfl
      placed := hplaced
      active := fun _ _ h => absurd h List.not_mem_nil
      completed := fun _ _ h => absurd h List.not_mem_nil
      timeline := rfl
      byTick := .nil
      past := fun _ h => absurd h List.not_mem_nil
      order := ⟨.nil, fun _ h => absurd h List.not_mem_nil, .nil⟩
      last := fun _ h => by cases h
      gone := fun _ h => absurd h List.not_mem_nil
      waits := fun before ρ after h => absurd h.symm (by simp) }

theorem Scheduled.admission (h : Scheduled requests n rounds s) (hids : (idsOf requests).Nodup) :
    Scheduled requests n rounds (admitArrived s) ∧ (admitArrived s).tick = s.tick ∧
      ∀ r ∈ (admitArrived s).pending, s.tick < r.arrivalTick := by
  unfold admitArrived
  rw [admitLoop_eq _ _ h.activeSet]
  set moved := s.pending.takeWhile (arrived s.tick)
  have hmem : ∀ r ∈ moved, r ∈ s.pending := fun r hr => (List.takeWhile_sublist _).subset hr
  have hleft : ∀ r ∈ s.pending.dropWhile (arrived s.tick), r ∈ s.pending :=
    fun r hr => (List.dropWhile_sublist _).subset hr
  -- a request among `requests` with the id of an admitted one is this one
  have hsame : ∀ r ∈ requests, ∀ p, r.requestId ∈ idsOf (moved.filter p) →
      r ∈ moved ∧ p r = true := by
    intro r hr p hid
    obtain ⟨r', hr', heq⟩ := List.mem_map.mp hid
    obtain ⟨hm, hp⟩ := List.mem_filter.mp hr'
    obtain rfl := List.inj_on_of_nodup_map hids (h.pending r' (hmem r' hm)).1 hr heq
    exact ⟨hm, hp⟩
  refine ⟨?_, rfl, ?_⟩
  · exact
      { h with
        ids := by
          have hperm := admitArrived_perm h.activeSet
          unfold admitArrived at hperm
          rw [admitLoop_eq _ _ h.activeSet] at hperm
          exact hperm.trans h.ids
        pending := fun r hr => h.pending r (hleft r hr)
        sorted := h.sorted.sublist (List.dropWhile_sublist _)
        activeSet := rfl
        active := by
          intro r hr hactive
          rcases List.mem_append.mp hactive with hactive | hnew
          · exact h.active r hr hactive
          · obtain ⟨hm, hp⟩ := hsame r hr _ hnew
            rw [(h.pending r (hmem r hm)).2]
            exact List.length_pos_of_ne_nil (by simpa [targetless] using hp)
        completed := by
          intro r hr hcompleted
          rcases List.mem_append.mp hcompleted with hcompleted | hnew
          · exact h.completed r hr hcompleted
          · obtain ⟨-, hp⟩ := hsame r hr _ hnew
            have hnil : r.targetTokenIds = [] := of_decide_eq_true hp
            rw [hnil]
            exact Nat.zero_le _
        last := fun ρ hρ =>
          ⟨(h.last ρ hρ).1.trans (List.prefix_append _ _), (h.last ρ hρ).2⟩
        gone := fun ρ hρ id hid hoff => List.mem_append_left _ (h.gone ρ hρ id hid hoff) }
  · intro r hr
    have hr : r ∈ s.pending.dropWhile (arrived s.tick) := hr
    obtain ⟨first, rest, hdrop⟩ := List.exists_cons_of_ne_nil (List.ne_nil_of_mem hr)
    have hsorted := h.sorted.sublist (List.dropWhile_sublist (arrived s.tick))
    have hfirst : s.tick < first.arrivalTick := by
      have hhead := List.head?_dropWhile_not (arrived s.tick) s.pending
      rw [hdrop] at hhead
      simpa [arrived] using hhead
    rw [hdrop] at hsorted
    rcases List.mem_cons.mp (hdrop ▸ hr) with rfl | hr
    · exact hfirst
    · exact Nat.lt_of_lt_of_le hfirst ((List.pairwise_cons.mp hsorted).1 r hr)

theorem Scheduled.idle (h : Scheduled requests n rounds s) (hactive : s.active = []) {tick : ℕ}
    (hle : s.tick ≤ tick) : Scheduled requests n rounds { s with tick } where
  ids := h.ids
  pending := h.pending
  sorted := h.sorted
  activeSet := h.activeSet
  placed := h.placed
  active := h.active
  completed := h.completed
  timeline := h.timeline
  byTick := h.byTick
  past := fun e he => (h.past e he).trans_le hle
  order := h.order
  last := by
    intro ρ hρ
    obtain ⟨hrest, -⟩ := h.last ρ hρ
    rw [hactive, List.prefix_nil] at hrest
    rw [hrest]
    exact ⟨List.nil_prefix, fun hne => absurd rfl hne⟩
  gone := h.gone
  waits := h.waits

theorem Scheduled.count_batch (h : Scheduled requests n rounds s) (hids : (idsOf requests).Nodup)
    (id : String) : ((tickRound s).batch n).count id =
      if id ∈ (tickRound s).batch n then 1 else 0 := by
  have hnodup : ((tickRound s).batch n).Nodup :=
    (h.active_nodup hids).sublist (List.take_sublist n _)
  split_ifs with hmem
  · exact List.count_eq_one_of_mem hnodup hmem
  · exact List.count_eq_zero.mpr hmem

theorem Scheduled.order_tick (h : Scheduled requests n rounds s) (hids : (idsOf requests).Nodup) :
    Rounds n (rounds ++ [tickRound s]) where
  chain := by
    refine List.isChain_append.mpr ⟨h.order.chain, .singleton _, ?_⟩
    intro ρ hρ σ hσ
    obtain rfl := Option.some.inj hσ
    exact ⟨(h.last ρ hρ).1, (h.last ρ hρ).2⟩
  nodup := by
    intro ρ hρ
    rcases List.mem_append.mp hρ with hρ | hρ
    · exact h.order.nodup ρ hρ
    · rw [List.mem_singleton.mp hρ]
      exact h.active_nodup hids
  gone := by
    refine List.pairwise_append.mpr ⟨h.order.gone, List.pairwise_singleton _ _, ?_⟩
    intro ρ hρ σ hσ id hid hoff
    rw [List.mem_singleton.mp hσ]
    exact h.not_active_of_completed hids (h.gone ρ hρ id hid hoff)

theorem Scheduled.waits_tick (h : Scheduled requests n rounds s)
    (hlate : ∀ r ∈ s.pending, s.tick < r.arrivalTick) (hids : (idsOf requests).Nodup) :
    ∀ before ρ after, rounds ++ [tickRound s] = before ++ ρ :: after → ∀ r ∈ requests,
      (r.arrivalTick ≤ ρ.time → servedIn n before r.requestId < r.targetTokenIds.length →
        r.requestId ∈ ρ.queue) ∧
      (servedIn n before r.requestId + 1 < r.targetTokenIds.length →
        ρ.goesOn r.requestId = true) := by
  intro before ρ after hsplit r hr
  rcases List.eq_nil_or_concat after with rfl | ⟨after, last, rfl⟩
  · obtain ⟨rfl, hlast⟩ := List.append_inj' hsplit rfl
    obtain rfl := (List.cons.inj hlast).1
    refine ⟨fun harrived hlt => h.mem_active hr ?_ hlt, fun hlt => ?_⟩
    · intro hpending
      obtain ⟨r', hr', heq⟩ := List.mem_map.mp hpending
      obtain rfl := List.inj_on_of_nodup_map hids (h.pending r' hr').1 hr heq
      exact absurd harrived (Nat.not_le_of_lt (hlate r' hr'))
    · exact (h.goesOn_eq hr).trans (decide_eq_true hlt)
  · rw [List.concat_eq_append, ← List.cons_append, ← List.append_assoc] at hsplit
    exact h.waits before ρ after (List.append_inj' hsplit rfl).1 r hr

theorem Scheduled.tick (h : Scheduled requests n rounds s) (hids : (idsOf requests).Nodup)
    (hlate : ∀ r ∈ s.pending, s.tick < r.arrivalTick) (ht : Ticked n s s') :
    Scheduled requests n (rounds ++ [tickRound s]) s' := by
  have hnodup := h.active_nodup hids
  have hbatch : ∀ id ∈ (tickRound s).batch n, id ∈ s.active :=
    fun id hid => List.mem_of_mem_take hid
  have hserved (id : String) : servedIn n (rounds ++ [tickRound s]) id =
      servedIn n rounds id + if id ∈ (tickRound s).batch n then 1 else 0 := by
    rw [servedIn_concat, h.count_batch hids]
  exact
    { ids := by
        refine List.Perm.trans (List.perm_iff_count.mpr fun id => ?_) h.ids
        have htake := congrArg (fun l => l.count id) (List.take_append_drop n s.active)
        have hsplit := (List.filter_append_perm (goesOn s.state) ((tickRound s).batch n)).count_eq
          id
        rw [ht.pending, ht.active, ht.completed]
        simp only [Round.rest, Round.batch, tickRound, List.count_append] at htake hsplit ⊢
        omega
      pending := by
        rw [ht.pending]
        intro r hr
        have hnot : r.requestId ∉ (tickRound s).batch n := fun hid =>
          (List.nodup_append.mp (List.nodup_append.mp (h.nodup hids)).1).2.2 r.requestId
            (mem_idsOf hr) r.requestId (hbatch _ hid) rfl
        rw [hserved, if_neg hnot]
        exact h.pending r hr
      sorted := ht.pending ▸ h.sorted
      activeSet := ht.activeSet
      placed := by
        intro r hr
        rw [ht.placed, hserved, h.placed r hr]
        split_ifs
        · rfl
        · rfl
      active := by
        intro r hr hactive
        rw [ht.active] at hactive
        rw [hserved]
        rcases List.mem_append.mp hactive with hdrop | hkept
        · have hnot : r.requestId ∉ (tickRound s).batch n :=
            fun hid => List.disjoint_take_drop hnodup le_rfl hid hdrop
          rw [if_neg hnot]
          exact h.active r hr (List.mem_of_mem_drop hdrop)
        · obtain ⟨hid, hon⟩ := List.mem_filter.mp hkept
          rw [if_pos hid]
          exact of_decide_eq_true ((h.goesOn_eq hr).symm.trans hon)
      completed := by
        intro r hr hcompleted
        rw [ht.completed] at hcompleted
        rw [hserved]
        rcases List.mem_append.mp hcompleted with hcompleted | hfinished
        · exact (h.completed r hr hcompleted).trans (Nat.le_add_right _ _)
        · obtain ⟨hid, hoff⟩ := List.mem_filter.mp hfinished
          rw [h.goesOn_eq hr] at hoff
          rw [if_pos hid]
          simpa using hoff
      timeline := by
        obtain ⟨e, htimeline, htick, hrequestIds⟩ := ht.timeline
        rw [htimeline, List.map_append, List.map_append, h.timeline]
        simp [htick, hrequestIds, tickRound]
      byTick := by
        obtain ⟨e, htimeline, htick, -⟩ := ht.timeline
        rw [htimeline, List.pairwise_append]
        refine ⟨h.byTick, List.pairwise_singleton _ e, fun e' he' e'' he'' => ?_⟩
        rw [List.mem_singleton.mp he'', htick]
        exact h.past e' he'
      past := by
        obtain ⟨e, htimeline, htick, -⟩ := ht.timeline
        rw [htimeline, ht.tick]
        intro e' he'
        rcases List.mem_append.mp he' with he' | he'
        · exact Nat.lt_succ_of_lt (h.past e' he')
        · rw [List.mem_singleton.mp he', htick]
          exact Nat.lt_succ_self _
      order := h.order_tick hids
      last := by
        intro ρ hρ
        rw [List.getLast?_concat] at hρ
        obtain rfl := Option.some.inj hρ
        rw [ht.active, ht.tick]
        exact ⟨List.prefix_rfl, fun _ => rfl⟩
      gone := by
        intro ρ hρ id hid hoff
        rw [ht.completed]
        rcases List.mem_append.mp hρ with hρ | hρ
        · exact List.mem_append_left _ (h.gone ρ hρ id hid hoff)
        · obtain rfl := List.mem_singleton.mp hρ
          have hoff : goesOn s.state id = false := hoff
          exact List.mem_append_right _ (List.mem_filter.mpr ⟨hid, by rw [hoff]; rfl⟩)
      waits := h.waits_tick hlate hids }

/-! ### Over a run -/

variable {loop : LiveContinuousDecodeLoop} {stepBatch : StepBatch}

/-- A turn adds the round of the admitted state, unless nobody waits there. -/
theorem Scheduled.turn (h : Scheduled requests loop.maxBatchSize rounds s)
    (hids : (idsOf requests).Nodup) (hturn : turn loop stepBatch s = .next s') :
    ((admitArrived s).active ≠ [] → Scheduled requests loop.maxBatchSize
      (rounds ++ [tickRound (admitArrived s)]) s') ∧
    ((admitArrived s).active = [] → Scheduled requests loop.maxBatchSize rounds s') := by
  obtain ⟨hadmitted, htick, hlate⟩ := h.admission hids
  unfold LiveDecodeLoop.turn at hturn
  split_ifs at hturn with hstop
  dsimp only at hturn
  by_cases hactive : (admitArrived s).active = []
  · refine ⟨fun hne => absurd hactive hne, fun _ => ?_⟩
    rw [if_pos hactive] at hturn
    split at hturn
    · obtain rfl := Turn.next.inj hturn
      exact hadmitted.idle hactive ((Nat.le_succ _).trans (Nat.le_max_left _ _))
    · cases hturn
  · refine ⟨fun _ => ?_, fun hnil => absurd hnil hactive⟩
    rw [if_neg hactive] at hturn
    rcases hstep : stepTick loop stepBatch (admitArrived s) with error | t
    · rw [hstep] at hturn
      cases hturn
    · rw [hstep] at hturn
      obtain rfl := Turn.next.inj hturn
      exact hadmitted.tick hids (htick ▸ hlate)
        (stepTick_ok (hadmitted.active_nodup hids) hadmitted.activeSet hstep)

theorem Scheduled.reaches (h : Scheduled requests loop.maxBatchSize rounds s)
    (hids : (idsOf requests).Nodup) (hreach : Reaches (LiveDecodeLoop.turn loop stepBatch) s s') :
    ∃ new, Scheduled requests loop.maxBatchSize (rounds ++ new) s' := by
  induction hreach with
  | refl => exact ⟨[], by rwa [List.append_nil]⟩
  | @tail t t' _ hturn ih =>
    obtain ⟨new, ih⟩ := ih
    obtain ⟨hserves, hidles⟩ := ih.turn hids hturn
    by_cases hactive : (admitArrived t).active = []
    · exact ⟨new, hidles hactive⟩
    · refine ⟨new ++ [tickRound (admitArrived t)], ?_⟩
      rw [← List.append_assoc]
      exact hserves hactive

/-! ### What the schedule is like -/

/-- The services of a timeline, in its order and then by place in the batch. -/
def servicesOf (timeline : List TimelineEntry) : List (ℕ × String) :=
  timeline.flatMap fun e => e.requestIds.map fun id => (e.tick, id)

/-- Between two services of a request in a row every other one is served once at most, and exactly
once if it had arrived by the first of the two and was not finished before it. -/
def ServesInTurn (requests : List LiveDecodeRequest) (timeline : List TimelineEntry) : Prop :=
  ∀ front between back t t' id,
    servicesOf timeline = front ++ (t, id) :: (between ++ (t', id) :: back) →
    (∀ x ∈ between, x.2 ≠ id) → ∀ r ∈ requests, r.requestId ≠ id →
      (between.map Prod.snd).count r.requestId ≤ 1 ∧
      (r.arrivalTick ≤ t → (front.map Prod.snd).count r.requestId < r.targetTokenIds.length →
        (between.map Prod.snd).count r.requestId = 1)

def ServedBy (timeline : List TimelineEntry) (requestId : String) (tick : ℕ) : Prop :=
  ∃ e ∈ timeline, requestId ∈ e.requestIds ∧ e.tick ≤ tick

theorem Scheduled.services (h : Scheduled requests n rounds s) :
    servicesOf s.timeline = services n rounds := by
  have hpairs := congrArg (List.flatMap fun p : ℕ × List String => p.2.map fun id => (p.1, id))
    h.timeline
  rw [List.flatMap_map, List.flatMap_map] at hpairs
  exact hpairs

theorem Scheduled.servesInTurn (h : Scheduled requests n rounds s) :
    ServesInTurn requests s.timeline := by
  intro front between back t t' id hservices hout r hr hne
  rw [h.services] at hservices
  obtain ⟨before, ρ, after, first, hsplit, htime, hfront, hfair⟩ :=
    RoundRobin.fair h.order hservices hout
  obtain ⟨hle, hone⟩ := hfair r.requestId hne
  obtain ⟨hqueue, hgoesOn⟩ := h.waits before ρ after hsplit r hr
  refine ⟨hle, fun harrived hlt => hone (hqueue (htime ▸ harrived) ?_) fun hfirst => hgoesOn ?_⟩
  · rw [hfront, List.count_append] at hlt
    exact Nat.lt_of_le_of_lt (Nat.le_add_right _ _) hlt
  · have hpos := List.count_pos_iff.mpr hfirst
    rw [hfront, List.count_append] at hlt
    unfold servedIn
    omega

theorem Scheduled.servedBy (h : Scheduled requests n rounds s) {ρ : Round String}
    (hρ : ρ ∈ rounds) {id : String} (hid : id ∈ ρ.batch n) {tick : ℕ} (hle : ρ.time ≤ tick) :
    ServedBy s.timeline id tick := by
  have hmem : (ρ.time, ρ.batch n) ∈ s.timeline.map fun e => (e.tick, e.requestIds) := by
    rw [h.timeline]
    exact List.mem_map_of_mem hρ
  obtain ⟨e, he, heq⟩ := List.mem_map.mp hmem
  obtain ⟨htick, hrequestIds⟩ := Prod.mk.inj heq
  exact ⟨e, he, hrequestIds ▸ hid, htick ▸ hle⟩

/-- Who is admitted with `ahead` before it is served after as many ticks as these take, or this
tick has not come yet and it still waits. -/
theorem Scheduled.admitted (h : Scheduled requests loop.maxBatchSize rounds s)
    (hids : (idsOf requests).Nodup) {ahead behind : List String} {id : String}
    (hactive : (admitArrived s).active = ahead ++ id :: behind) {s₁ : State}
    (hturn : LiveDecodeLoop.turn loop stepBatch s = .next s₁)
    (hreach : Reaches (LiveDecodeLoop.turn loop stepBatch) s₁ s') :
    ServedBy s'.timeline id (s.tick + ahead.length / loop.maxBatchSize) ∨
      id ∈ s'.active ∧ s'.tick ≤ s.tick + ahead.length / loop.maxBatchSize := by
  have hne : (admitArrived s).active ≠ [] := by
    rw [hactive]
    simp
  have htick := (h.admission hids).2.1
  obtain ⟨new, hrun⟩ := ((h.turn hids hturn).1 hne).reaches hids hreach
  rw [List.append_assoc, List.singleton_append] at hrun
  have hchain : (tickRound (admitArrived s) :: new).IsChain (Follows loop.maxBatchSize) :=
    hrun.order.chain.suffix (List.suffix_append rounds _)
  have htime : (tickRound (admitArrived s)).time = s.tick := htick
  rcases RoundRobin.served_in_turn loop.one_le_maxBatchSize hchain hactive with
    ⟨σ, hσ, hid, hat⟩ | ⟨σ, hlast, hid, hbefore⟩
  · rw [htime] at hat
    exact .inl (hrun.servedBy (List.mem_append_right rounds hσ) hid hat.le)
  · have hlast' : σ ∈ (rounds ++ tickRound (admitArrived s) :: new).getLast? := by
      rw [List.getLast?_append_of_ne_nil _ (List.cons_ne_nil _ _)]
      exact hlast
    obtain ⟨hkept, hnext⟩ := hrun.last σ hlast'
    refine .inr ⟨hkept.subset hid, ?_⟩
    rw [hnext (List.ne_nil_of_mem hid)]
    rw [htime] at hbefore
    exact hbefore

/-- The ticks go up, the services are in turn, and whoever is admitted behind `k` others is served at
most `k / n` ticks later, or these ticks are not over. -/
structure FairSoFar (requests : List LiveDecodeRequest) (n : ℕ)
    (admits : ℕ → ℕ → String → Prop) (timeline : List TimelineEntry) (now : ℕ) : Prop where
  byTick : timeline.Pairwise fun e e' => e.tick < e'.tick
  inTurn : ServesInTurn requests timeline
  inTime : ∀ tick k requestId, admits tick k requestId →
    ServedBy timeline requestId (tick + k / n) ∨ now ≤ tick + k / n

structure Fair (requests : List LiveDecodeRequest) (n : ℕ) (admits : ℕ → ℕ → String → Prop)
    (timeline : List TimelineEntry) : Prop where
  byTick : timeline.Pairwise fun e e' => e.tick < e'.tick
  inTurn : ServesInTurn requests timeline
  inTime : ∀ tick k requestId, admits tick k requestId →
    ServedBy timeline requestId (tick + k / n)

/-! ### The live loop -/

/-- `run` gets to the state. -/
def InRun (loop : LiveContinuousDecodeLoop) (stepBatch : StepBatch)
    (requests : List LiveDecodeRequest) (s : State) : Prop :=
  validateRequests [] requests = .ok () ∧
    Reaches (LiveDecodeLoop.turn loop stepBatch) (initState requests) s

/-- `run` admits the request at the tick, behind `k` active ones. -/
def Admits (loop : LiveContinuousDecodeLoop) (stepBatch : StepBatch)
    (requests : List LiveDecodeRequest) (tick k : ℕ) (requestId : String) : Prop :=
  ∃ s, InRun loop stepBatch requests s ∧ s.tick = tick ∧ requestId ∈ idsOf s.pending ∧
    ∃ ahead behind, ahead.length = k ∧ (admitArrived s).active = ahead ++ requestId :: behind

theorem InRun.scheduled (h : InRun loop stepBatch requests s) :
    (idsOf requests).Nodup ∧ ∃ rounds, Scheduled requests loop.maxBatchSize rounds s := by
  have hids := (validateRequests_ok h.1).1
  exact ⟨hids, (scheduled_init hids).reaches hids h.2⟩

theorem Scheduled.tick_lt (h : Scheduled requests loop.maxBatchSize rounds s)
    (hids : (idsOf requests).Nodup) (hturn : LiveDecodeLoop.turn loop stepBatch s = .next s') :
    s.tick < s'.tick := by
  obtain ⟨hadmitted, htick, -⟩ := h.admission hids
  unfold LiveDecodeLoop.turn at hturn
  split_ifs at hturn with hstop
  dsimp only at hturn
  rw [← htick]
  split_ifs at hturn with hactive
  · split at hturn
    · obtain rfl := Turn.next.inj hturn
      exact Nat.le_max_left _ _
    · cases hturn
  · rcases hstep : stepTick loop stepBatch (admitArrived s) with error | t
    · rw [hstep] at hturn
      cases hturn
    · rw [hstep] at hturn
      obtain rfl := Turn.next.inj hturn
      rw [(stepTick_ok (hadmitted.active_nodup hids) hadmitted.activeSet hstep).tick]
      exact Nat.lt_succ_self _

theorem InRun.tick_le (h : InRun loop stepBatch requests s)
    (hreach : Reaches (LiveDecodeLoop.turn loop stepBatch) s s') : s.tick ≤ s'.tick := by
  induction hreach with
  | refl => exact le_rfl
  | @tail t t' hreach hturn ih =>
    have ht : InRun loop stepBatch requests t := ⟨h.1, h.2.trans hreach⟩
    obtain ⟨hids, rounds, hs⟩ := ht.scheduled
    exact ih.trans (hs.tick_lt hids hturn).le

theorem Scheduled.stop (h : Scheduled requests loop.maxBatchSize rounds s)
    (hturn : LiveDecodeLoop.turn loop stepBatch s = .stop s') :
    (admitArrived s).active = [] ∧ s.active = [] ∧ s'.timeline = s.timeline := by
  have hqueue : (admitArrived s).active = s.active ++
      idsOf ((s.pending.takeWhile (arrived s.tick)).filter fun r => !targetless r) := by
    rw [admitArrived, admitLoop_eq _ _ h.activeSet]
  unfold LiveDecodeLoop.turn at hturn
  split_ifs at hturn with hstop
  · obtain rfl := Turn.stop.inj hturn
    rw [hqueue, hstop.1, hstop.2]
    exact ⟨rfl, rfl, rfl⟩
  · dsimp only at hturn
    split_ifs at hturn with hactive
    · refine ⟨hactive, (List.append_eq_nil_iff.mp (hqueue.symm.trans hactive)).1, ?_⟩
      split at hturn
      · cases hturn
      · obtain rfl := Turn.stop.inj hturn
        rw [admitArrived, admitLoop_eq _ _ h.activeSet]
    · split at hturn
      · cases hturn
      · cases hturn

section

variable {tick k : ℕ} {requestId : String}

/-- The tick of an admission is still to come, or it has come and the request was served in time or
is still in time. -/
theorem Admits.cases (h : Admits loop stepBatch requests tick k requestId)
    (hs : InRun loop stepBatch requests s) :
    (∃ s', Reaches (LiveDecodeLoop.turn loop stepBatch) s s' ∧ s'.tick = tick ∧
        requestId ∈ (admitArrived s').active) ∨
      ServedBy s.timeline requestId (tick + k / loop.maxBatchSize) ∨
      requestId ∈ s.active ∧ s.tick ≤ tick + k / loop.maxBatchSize := by
  obtain ⟨s', hs', rfl, -, ahead, behind, rfl, hactive⟩ := h
  have hmem : requestId ∈ (admitArrived s').active := by
    rw [hactive]
    exact List.mem_append_right _ List.mem_cons_self
  obtain ⟨hids, rounds, hscheduled⟩ := hs'.scheduled
  rcases hs.2.total hs'.2 with hreach | hreach
  · exact .inl ⟨s', hreach, rfl, hmem⟩
  · rcases hreach.eq_or_head with rfl | ⟨s₁, hturn, hreach⟩
    · exact .inl ⟨s, .refl, rfl, hmem⟩
    · exact .inr (hscheduled.admitted hids hactive hturn hreach)

theorem Admits.served_or (h : Admits loop stepBatch requests tick k requestId)
    (hs : InRun loop stepBatch requests s) :
    ServedBy s.timeline requestId (tick + k / loop.maxBatchSize) ∨
      s.tick ≤ tick + k / loop.maxBatchSize := by
  rcases h.cases hs with ⟨s', hreach, rfl, -⟩ | hserved | ⟨-, hle⟩
  · exact .inr ((hs.tick_le hreach).trans (Nat.le_add_right _ _))
  · exact .inl hserved
  · exact .inr hle

theorem Admits.served (h : Admits loop stepBatch requests tick k requestId)
    (hs : InRun loop stepBatch requests s)
    (hturn : LiveDecodeLoop.turn loop stepBatch s = .stop s') :
    ServedBy s'.timeline requestId (tick + k / loop.maxBatchSize) := by
  obtain ⟨-, rounds, hscheduled⟩ := hs.scheduled
  obtain ⟨hadmitted, hactive, htimeline⟩ := hscheduled.stop hturn
  rw [htimeline]
  rcases h.cases hs with ⟨s', hreach, -, hmem⟩ | hserved | ⟨hmem, -⟩
  · rcases hreach.eq_or_head with rfl | ⟨s₁, hnext, -⟩
    · rw [hadmitted] at hmem
      exact absurd hmem List.not_mem_nil
    · cases hnext.symm.trans hturn
  · exact hserved
  · rw [hactive] at hmem
    exact absurd hmem List.not_mem_nil

end

theorem InRun.fairSoFar (h : InRun loop stepBatch requests s) :
    FairSoFar requests loop.maxBatchSize (Admits loop stepBatch requests) s.timeline s.tick := by
  obtain ⟨-, rounds, hscheduled⟩ := h.scheduled
  exact ⟨hscheduled.byTick, hscheduled.servesInTurn, fun _ _ _ hadmits => hadmits.served_or h⟩

theorem InRun.fair (h : InRun loop stepBatch requests s)
    (hturn : LiveDecodeLoop.turn loop stepBatch s = .stop s') :
    Fair requests loop.maxBatchSize (Admits loop stepBatch requests) s'.timeline := by
  obtain ⟨-, rounds, hscheduled⟩ := h.scheduled
  have htimeline := (hscheduled.stop hturn).2.2
  exact
    { byTick := htimeline ▸ hscheduled.byTick
      inTurn := htimeline ▸ hscheduled.servesInTurn
      inTime := fun _ _ _ hadmits => hadmits.served h hturn }

theorem exists_inRun_of_run {fuel : ℕ} {report : Report}
    (h : run loop stepBatch requests fuel = some (.ok report)) :
    ∃ s s', InRun loop stepBatch requests s ∧ LiveDecodeLoop.turn loop stepBatch s = .stop s' ∧
      report.timeline = s'.timeline := by
  unfold LiveDecodeLoop.run at h
  split at h
  · cases Option.some.inj h
  · rename_i hvalid
    obtain ⟨result, hrun, hreport⟩ := Option.map_eq_some_iff.mp h
    obtain ⟨s', rfl, hok⟩ := Fallible.bind_eq_ok hreport
    obtain rfl := Except.ok.inj hok
    obtain ⟨s, hreach, hstop⟩ := exists_stop hrun
    exact ⟨s, s', ⟨hvalid, hreach⟩, hstop, rfl⟩

end BloomBee.LiveDecodeLoop

namespace BloomBee.ContinuousBatching

open Loop
open LiveDecodeLoop (LiveContinuousDecodeLoop LiveDecodeRequest StepBatch Fair FairSoFar idsOf)

/-! ### The simulator -/

/-- `simulate_continuous_decode` gets to the state. -/
def InRun (requests : List DecodeRequest) (maxBatchSize : ℤ) (t : State) : Prop :=
  1 ≤ maxBatchSize ∧ validateRequests [] requests = .ok () ∧
    Reaches (turn maxBatchSize.toNat) (initState requests) t

/-- `simulate_continuous_decode` admits the request at the tick, behind `k` active ones. -/
def Admits (requests : List DecodeRequest) (maxBatchSize : ℤ) (tick k : ℕ) (requestId : String) :
    Prop :=
  ∃ t, InRun requests maxBatchSize t ∧ t.tick = tick ∧
    requestId ∈ t.pending.map (fun r => r.requestId) ∧
    ∃ ahead behind, ahead.length = k ∧
      (admitLoop t.pending t).active = ahead ++ requestId :: behind

def liveLoop (maxBatchSize : ℤ) (h : 1 ≤ maxBatchSize) : LiveContinuousDecodeLoop :=
  ⟨maxBatchSize.toNat, by omega⟩

variable {requests : List DecodeRequest} {maxBatchSize : ℤ} {t t' : State}

/-- A run of the simulator is one of the live loop on the target tokens. -/
theorem InRun.live (h : InRun requests maxBatchSize t) :
    ∃ s, LiveDecodeLoop.InRun (liveLoop maxBatchSize h.1) (targetStep requests)
        (requests.map DecodeRequest.toLive) s ∧
      Together requests maxBatchSize.toNat t s := by
  obtain ⟨hle, hvalid, hreach⟩ := h
  obtain ⟨hlive, hids⟩ := nodup_of_validateRequests hvalid
  have hserves := (targetStep_nextTarget requests).serves hids
  induction hreach with
  | refl =>
    refine ⟨_, ⟨hlive, .refl⟩, initState_agrees requests, LiveDecodeLoop.inv_init ?_⟩
    rw [idsOf_toLive]
    exact hids
  | @tail t t' _ hturn ih =>
    obtain ⟨s, hs, htogether⟩ := ih
    rcases @turn_together _ _ _ _ (liveLoop maxBatchSize hle) hserves hids htogether with
      ⟨t₁, s₁, ht₁, hs₁, htogether⟩ | ⟨t₁, s₁, ht₁, -, -⟩
    · obtain rfl := Turn.next.inj (hturn.symm.trans ht₁)
      exact ⟨s₁, ⟨hs.1, hs.2.tail hs₁⟩, htogether⟩
    · cases hturn.symm.trans ht₁

theorem Admits.live {tick k : ℕ} {requestId : String} (hle : 1 ≤ maxBatchSize)
    (h : Admits requests maxBatchSize tick k requestId) :
    LiveDecodeLoop.Admits (liveLoop maxBatchSize hle) (targetStep requests)
      (requests.map DecodeRequest.toLive) tick k requestId := by
  obtain ⟨t, ht, rfl, hpending, ahead, behind, hlen, hactive⟩ := h
  obtain ⟨s, hs, hagrees, -⟩ := ht.live
  refine ⟨s, hs, hagrees.tick, ?_, ahead, behind, hlen, ?_⟩
  · rw [hagrees.pending, idsOf_toLive]
    exact hpending
  · rw [LiveDecodeLoop.admitArrived, hagrees.pending, (hagrees.admitLoop t.pending).active]
    exact hactive

theorem InRun.fairSoFar (h : InRun requests maxBatchSize t) :
    FairSoFar (requests.map DecodeRequest.toLive) maxBatchSize.toNat
      (Admits requests maxBatchSize) t.timeline t.tick := by
  obtain ⟨s, hs, hagrees, -⟩ := h.live
  have hfair := hs.fairSoFar
  rw [← hagrees.timeline, ← hagrees.tick]
  exact { hfair with
    inTime := fun tick k id hadmits => hfair.inTime tick k id (hadmits.live h.1) }

theorem InRun.fair (h : InRun requests maxBatchSize t)
    (hturn : turn maxBatchSize.toNat t = .stop t') :
    Fair (requests.map DecodeRequest.toLive) maxBatchSize.toNat (Admits requests maxBatchSize)
      t'.timeline := by
  obtain ⟨s, hs, htogether⟩ := h.live
  have hids := (nodup_of_validateRequests h.2.1).2
  have hserves := (targetStep_nextTarget requests).serves hids
  rcases @turn_together _ _ _ _ (liveLoop maxBatchSize h.1) hserves hids htogether with
    ⟨t₁, s₁, ht₁, -, -⟩ | ⟨t₁, s₁, ht₁, hs₁, hagrees, -⟩
  · cases hturn.symm.trans ht₁
  · obtain rfl := Turn.stop.inj (hturn.symm.trans ht₁)
    have hfair := hs.fair hs₁
    rw [← hagrees.timeline]
    exact { hfair with
      inTime := fun tick k id hadmits => hfair.inTime tick k id (hadmits.live h.1) }

theorem exists_inRun_of_simulate {fuel : ℕ} {report : Report}
    (h : simulateContinuousDecode requests maxBatchSize fuel = some (.ok report)) :
    ∃ t t', InRun requests maxBatchSize t ∧ turn maxBatchSize.toNat t = .stop t' ∧
      report.timeline = t'.timeline := by
  unfold simulateContinuousDecode at h
  split_ifs at h with hlt
  · cases Option.some.inj h
  · split at h
    · cases Option.some.inj h
    · rename_i hvalid
      obtain ⟨result, hrun, hreport⟩ := Option.map_eq_some_iff.mp h
      obtain ⟨t', rfl, hok⟩ := Fallible.bind_eq_ok hreport
      obtain rfl := Except.ok.inj hok
      obtain ⟨t, hreach, hstop⟩ := exists_stop hrun
      exact ⟨t, t', ⟨not_lt.mp hlt, hvalid, hreach⟩, hstop, rfl⟩

/-- Bounded batches cannot be monopolized by one request: of both loops, in every state of a run
and in what it returns. -/
theorem continuous_decode_fair :
    (∀ (loop : LiveContinuousDecodeLoop) (stepBatch : StepBatch)
        (requests : List LiveDecodeRequest),
      (∀ s, LiveDecodeLoop.InRun loop stepBatch requests s →
        FairSoFar requests loop.maxBatchSize (LiveDecodeLoop.Admits loop stepBatch requests)
          s.timeline s.tick) ∧
      ∀ fuel report, LiveDecodeLoop.run loop stepBatch requests fuel = some (.ok report) →
        Fair requests loop.maxBatchSize (LiveDecodeLoop.Admits loop stepBatch requests)
          report.timeline) ∧
    ∀ (requests : List DecodeRequest) (maxBatchSize : ℤ),
      (∀ t, InRun requests maxBatchSize t →
        FairSoFar (requests.map DecodeRequest.toLive) maxBatchSize.toNat
          (Admits requests maxBatchSize) t.timeline t.tick) ∧
      ∀ fuel report, simulateContinuousDecode requests maxBatchSize fuel = some (.ok report) →
        Fair (requests.map DecodeRequest.toLive) maxBatchSize.toNat
          (Admits requests maxBatchSize) report.timeline := by
  refine ⟨fun loop stepBatch requests => ⟨fun s hs => hs.fairSoFar, fun fuel report hrun => ?_⟩,
    fun requests maxBatchSize => ⟨fun t ht => ht.fairSoFar, fun fuel report hrun => ?_⟩⟩
  · obtain ⟨s, s', hs, hstop, htimeline⟩ := LiveDecodeLoop.exists_inRun_of_run hrun
    rw [htimeline]
    exact hs.fair hstop
  · obtain ⟨t, t', ht, hstop, htimeline⟩ := exists_inRun_of_simulate hrun
    rw [htimeline]
    exact ht.fair hstop

/-- Two requests that arrive together, one at a time: the second is served in the second tick. -/
theorem continuous_decode_fair_pair :
    let requests : List DecodeRequest :=
      [⟨"req-a", [101], [10, 11, 12], 0, by decide⟩, ⟨"req-b", [201], [20, 21], 0, by decide⟩]
    ∃ simulated report bound, ∀ fuel > bound,
      simulateContinuousDecode requests 1 fuel = some (.ok simulated) ∧
      LiveDecodeLoop.run ⟨1, by decide⟩ (targetStep requests) (requests.map DecodeRequest.toLive)
        fuel = some (.ok report) ∧
      LiveDecodeLoop.ServedBy simulated.timeline "req-b" 1 ∧
      LiveDecodeLoop.ServesInTurn (requests.map DecodeRequest.toLive) report.timeline := by
  intro requests
  obtain ⟨-, hrun⟩ := simulate_agrees requests 1 (targetStep_nextTarget requests)
  obtain ⟨loop, hloop, hcase⟩ := hrun (by decide)
  obtain rfl := Except.ok.inj hloop
  rcases hcase with ⟨hdup, -⟩ | ⟨-, simulated, report, bound, hend⟩
  · exact absurd (by decide) hdup
  · obtain ⟨hlive, hsimulator⟩ := continuous_decode_fair
    obtain ⟨hsim, hrun, -⟩ := hend (bound + 1) (Nat.lt_succ_self bound)
    have hadmits : Admits requests 1 0 1 "req-b" := by
      refine ⟨initState requests, ⟨le_rfl, rfl, .refl⟩, ?_, ?_, ["req-a"], [], rfl, ?_⟩ <;>
        simp [requests, initState, admitLoop, List.mergeSort, List.MergeSort.Internal.splitInTwo]
    have hserved := ((hsimulator requests 1).2 _ _ hsim).inTime 0 1 "req-b" hadmits
    have hinTurn := ((hlive _ _ _).2 _ _ hrun).inTurn
    exact ⟨simulated, report, bound, fun fuel hf =>
      ⟨(hend fuel hf).1, (hend fuel hf).2.1, hserved, hinTurn⟩⟩

end BloomBee.ContinuousBatching
