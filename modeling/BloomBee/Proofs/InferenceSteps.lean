import BloomBee.Sanity.StepTrace

/-! Every step of a session is computed at most once, over every order of its messages. A
step that begins with a micro-batch is answered when all its micro-batches arrive and its
accumulator is not swept meanwhile, and only then: its full-batch request is skipped. -/

set_option autoImplicit false

namespace BloomBee.InferenceSteps

open RpcInference

variable {σ τ κ : Type}

structure Once (s : Session σ τ κ) : Prop where
  full_nodup : s.fullSteps.Nodup
  microBatch_nodup : s.microBatches.Nodup
  full_mem : ∀ t ∈ s.fullSteps, t ∈ s.routing.processedStepIds
  microBatch_mem : ∀ p ∈ s.microBatches,
    p ∈ s.routing.processedMicrobatchIds ∧ p.1 ∈ s.routing.microbatchStepIds
  disjoint : ∀ t ∈ s.routing.processedStepIds, t ∉ s.routing.microbatchStepIds

theorem once_init (backends : List (Backend τ κ)) :
    Once (Session.init backends : Session σ τ κ) := by
  constructor <;> simp [Session.init, Session.fullSteps, Session.microBatches, Routing.init]

variable [DecidableEq σ]

theorem at_init (backends : List (Backend τ κ)) (expected : ℕ) (stepId : σ) :
    At expected stepId (Session.init backends : Session σ τ κ) .fresh := by
  refine ⟨?_, ?_, ?_, .inl ⟨rfl, rfl⟩, rfl⟩ <;> simp [Session.init, Routing.init]

/-- A message taken by the routing keeps the sets in step with the items. -/
theorem once_route {s s' : Session σ τ κ} (h : Once s) (r : Request σ τ)
    (hr : s'.routing = (route s.routing r).1)
    (hy : s'.yielded = s.yielded ++ (route s.routing r).2.toList) : Once s' := by
  have hskip : route s.routing r = (s.routing, none) → Once s' := by
    intro hn
    rw [hn] at hr hy
    simp only [Option.toList_none, List.append_nil] at hy
    constructor <;>
      simp only [Session.fullSteps, Session.microBatches, hr, hy]
    exacts [h.full_nodup, h.microBatch_nodup, h.full_mem, h.microBatch_mem, h.disjoint]
  cases r with
  | empty => exact hskip rfl
  | full r b =>
    by_cases hsk : b = true ∨ r.stepId ∈ s.routing.microbatchStepIds ∨
        r.stepId ∈ s.routing.processedStepIds
    · refine hskip ?_
      rcases hsk with rfl | hsk | hsk
      · rfl
      · simp [route, hsk]
      · simp [route, hsk]
    · obtain ⟨hb, hm, hp⟩ := not_or.mp hsk |>.imp_right not_or.mp
      simp only [route, hb, hm, hp, Bool.false_eq_true, if_false, Option.toList_some] at hr hy
      have hfull : s'.fullSteps = s.fullSteps ++ [r.stepId] := by
        simp [Session.fullSteps, hy]
      have hmicro : s'.microBatches = s.microBatches := by
        simp [Session.microBatches, hy]
      refine ⟨?_, hmicro ▸ h.microBatch_nodup, ?_, ?_, ?_⟩
      · rw [hfull]
        exact List.nodup_append_comm.mp (List.nodup_cons.mpr
          ⟨fun hin => hp (h.full_mem _ hin), h.full_nodup⟩)
      · intro t ht
        rw [hfull, List.mem_append, List.mem_singleton] at ht
        rw [hr]
        rcases ht with ht | rfl
        · exact Finset.mem_insert_of_mem (h.full_mem t ht)
        · exact Finset.mem_insert_self _ _
      · rw [hmicro, hr]
        exact h.microBatch_mem
      · rw [hr]
        intro t ht
        rcases Finset.mem_insert.mp ht with rfl | ht
        · exact hm
        · exact h.disjoint t ht
  | microBatch m =>
    by_cases hsk : (m.stepId ∈ s.routing.processedStepIds ∧
        m.stepId ∉ s.routing.microbatchStepIds) ∨
        (m.stepId, m.mbIdx) ∈ s.routing.processedMicrobatchIds
    · refine hskip ?_
      simp only [route]
      rcases hsk with hsk | hsk
      · rw [if_pos hsk]
      · rw [if_pos hsk, ite_self]
    · obtain ⟨hp, hm⟩ := not_or.mp hsk
      simp only [route, if_neg hp, if_neg hm, Option.toList_some] at hr hy
      have hfull : s'.fullSteps = s.fullSteps := by simp [Session.fullSteps, hy]
      have hmicro : s'.microBatches = s.microBatches ++ [(m.stepId, m.mbIdx)] := by
        simp [Session.microBatches, hy]
      refine ⟨hfull ▸ h.full_nodup, ?_, ?_, ?_, ?_⟩
      · rw [hmicro]
        exact List.nodup_append_comm.mp (List.nodup_cons.mpr
          ⟨fun hin => hm (h.microBatch_mem _ hin).1, h.microBatch_nodup⟩)
      · rw [hfull, hr]
        exact h.full_mem
      · intro p hin
        rw [hmicro, List.mem_append, List.mem_singleton] at hin
        rw [hr]
        rcases hin with hin | rfl
        · exact ⟨Finset.mem_insert_of_mem (h.microBatch_mem p hin).1,
            Finset.mem_insert_of_mem (h.microBatch_mem p hin).2⟩
        · exact ⟨Finset.mem_insert_self _ _, Finset.mem_insert_self _ _⟩
      · rw [hr]
        intro t ht hin
        rcases Finset.mem_insert.mp hin with rfl | hin
        · exact h.disjoint _ ht (not_not.mp fun hn => hp ⟨ht, hn⟩)
        · exact h.disjoint t ht hin

theorem At.count_le_one {expected : ℕ} {stepId : σ} {s : Session σ τ κ} {p : Progress}
    (h : At expected stepId s p) : s.responded.count stepId ≤ 1 := by
  cases p with
  | collecting seen kept => exact h.2.2.2.2.le.trans (Nat.zero_le 1)
  | full => exact h.2.2.le
  | merged => exact h.2.2.2.le

theorem At.responded_iff {expected : ℕ} {stepId : σ} {s : Session σ τ κ} {p : Progress}
    (h : At expected stepId s p) : stepId ∈ s.responded ↔ p = .full ∨ p = .merged := by
  rw [← List.count_pos_iff]
  cases p with
  | collecting seen kept => simp [h.2.2.2.2]
  | full => simp [h.2.2]
  | merged => simp [h.2.2.2]

variable [Inhabited τ]

theorem once_deliver {cfg : Config} {s : Session σ τ κ} (h : Once s) (e : Event σ τ) :
    Once (deliver cfg s e) := by
  cases e with
  | stop => exact ⟨h.1, h.2, h.3, h.4, h.5⟩
  | expire t => exact ⟨h.1, h.2, h.3, h.4, h.5⟩
  | receive r fails =>
    obtain ⟨hr, hy⟩ := deliver_receive cfg s r fails
    exact once_route h r hr hy

theorem once_run {cfg : Config} {s : Session σ τ κ} (h : Once s) (evs : List (Event σ τ)) :
    Once (run cfg s evs) := by
  induction evs generalizing s with
  | nil => exact h
  | cons e evs ih =>
    rw [run]
    split_ifs
    · exact ih (once_deliver h e)
    · exact h

theorem ok_fresh (expected : ℕ) : Progress.fresh.Ok expected :=
  ⟨Finset.Subset.refl _, Finset.empty_subset _, fun h => absurd rfl h⟩

theorem count_run_le_one {cfg : Config} {expected : ℕ} {stepId : σ} {s : Session σ τ κ}
    {p : Progress} {evs : List (Event σ τ)} (hs : s.running = true)
    (h : At expected stepId s p) (hok : p.Ok expected)
    (hc : ∀ e ∈ evs, Consistent expected stepId e) :
    (run cfg s evs).responded.count stepId ≤ 1 := by
  induction evs generalizing s p with
  | nil => exact h.count_le_one
  | cons e evs ih =>
    rw [run, if_pos hs]
    have he := hc e List.mem_cons_self
    cases hd : (deliver cfg s e).running with
    | false =>
      rw [run_of_not_running hd, Session.responded, deliver_stopped hs hd]
      exact h.count_le_one
    | true =>
      exact ih hd (at_deliver h hok he hd) (ok_track hok he)
        fun e' he' => hc e' (List.mem_cons_of_mem _ he')

/-- Over every order of messages, with any repetitions, a step is yielded as a full batch or
as micro-batches and not both, as a full batch at most once, each of its micro-batches at
most once, and it is answered at most once when its micro-batches agree on their number. -/
theorem step_computed_at_most_once (cfg : Config) (backends : List (Backend τ κ))
    (evs : List (Event σ τ)) (stepId : σ) :
    let s := run cfg (Session.init backends) evs
    (stepId ∈ s.fullSteps → ∀ i, (stepId, i) ∉ s.microBatches) ∧
    s.fullSteps.count stepId ≤ 1 ∧
    (∀ i, s.microBatches.count (stepId, i) ≤ 1) ∧
    ((∃ expected, ∀ e ∈ evs, Consistent expected stepId e) →
      s.responded.count stepId ≤ 1) := by
  intro s
  have honce : Once s := once_run (once_init backends) evs
  refine ⟨fun hf i hi => ?_, ?_, fun i => ?_, ?_⟩
  · exact honce.disjoint _ (honce.full_mem _ hf) (honce.microBatch_mem _ hi).2
  · exact List.nodup_iff_count_le_one.mp honce.full_nodup stepId
  · exact List.nodup_iff_count_le_one.mp honce.microBatch_nodup (stepId, i)
  · rintro ⟨expected, hc⟩
    exact count_run_le_one rfl (at_init backends expected stepId) (ok_fresh expected) hc

/-- A session that is still running has followed the machine of every step. -/
theorem at_run {cfg : Config} {expected : ℕ} {stepId : σ} {s : Session σ τ κ} {p : Progress}
    {evs : List (Event σ τ)} (hs : s.running = true) (h : At expected stepId s p)
    (hok : p.Ok expected) (hc : ∀ e ∈ evs, Consistent expected stepId e)
    (hrun : (run cfg s evs).running = true) :
    At expected stepId (run cfg s evs) (evs.foldl (track expected stepId) p) := by
  induction evs generalizing s p with
  | nil => exact h
  | cons e evs ih =>
    rw [run, if_pos hs] at hrun ⊢
    have he := hc e List.mem_cons_self
    cases hd : (deliver cfg s e).running with
    | false =>
      rw [run_of_not_running hd, hd] at hrun
      cases hrun
    | true =>
      exact ih hd (at_deliver h hok he hd) (ok_track hok he)
        (fun e' he' => hc e' (List.mem_cons_of_mem _ he')) hrun

/-- When the full-batch request of a step has been taken and every message was processed,
the step is answered exactly if the request came before the micro-batches of the step, or
all of these were delivered with no sweep of the accumulator between them. -/
theorem responded_iff_fullFirst_or_allDelivered (cfg : Config) (backends : List (Backend τ κ))
    (evs : List (Event σ τ)) (stepId : σ) (expected : ℕ)
    (hfull : ∃ e ∈ evs, TakesFull stepId e) (hsent : ∀ e ∈ evs, Sent expected stepId e)
    (hrun : (run cfg (Session.init backends) evs).running = true) :
    stepId ∈ (run cfg (Session.init backends) evs).responded ↔
      FullRequestFirst stepId evs ∨ AllDelivered expected stepId evs := by
  have hat := at_run rfl (at_init backends expected stepId) (ok_fresh expected)
    (fun e he => (hsent e he).consistent) hrun
  rw [hat.responded_iff, answered_iff hfull hsent]

section Example

def oneRow (x : ℕ) : Batch ℕ := ⟨1, [[x]], by simp⟩

def oneKeep : Batch ℤ := ⟨1, [[0]], by simp⟩

def oneRowItem (mbIdx expectedNumMb : ℕ) : Event ℕ ℕ :=
  .receive (.microBatch ⟨0, mbIdx, expectedNumMb, mbIdx, none, some (oneRow mbIdx, oneKeep)⟩) false

/-- Two micro-batches of one step that each call themselves the only one. -/
theorem step_answered_twice :
    (run ⟨4, none⟩ (Session.init [echoBackend 4 2])
      [oneRowItem 0 1, oneRowItem 1 1]).responded.count 0 = 2 := by
  decide

def directRequest : Event ℕ ℕ :=
  .receive (.full ⟨0, none, 0, ⟨1, [[0], [1]], by simp⟩, ⟨1, [[0], [0]], by simp⟩⟩ false) false

theorem sent_example {evs : List (Event ℕ ℕ)}
    (h : ∀ e ∈ evs, e = oneRowItem 0 2 ∨ e = oneRowItem 1 2 ∨ e = directRequest) :
    ∀ e ∈ evs, Sent 2 0 e := by
  intro e he m fails hm _
  rcases h e he with rfl | rfl | rfl
  · cases hm
    exact ⟨rfl, by decide, rfl⟩
  · cases hm
    exact ⟨rfl, by decide, rfl⟩
  · cases hm

/-- Both micro-batches arrive, the request after the first of them. -/
theorem responded_iff_bothDelivered :
    (0 : ℕ) ∈ (run ⟨4, none⟩ (Session.init [echoBackend 4 2])
        [oneRowItem 1 2, directRequest, oneRowItem 0 2]).responded ↔
      FullRequestFirst 0 [oneRowItem 1 2, directRequest, oneRowItem 0 2] ∨
        AllDelivered 2 0 [oneRowItem 1 2, directRequest, oneRowItem 0 2] :=
  responded_iff_fullFirst_or_allDelivered ⟨4, none⟩ [echoBackend 4 2] _ 0 2
    ⟨directRequest, by simp, _, _, rfl, rfl⟩ (sent_example (by simp)) (by decide)

/-- The second micro-batch is lost; the request arrives after the first one and is skipped,
the session runs on and step 0 has no answer. -/
theorem step_lost :
    let evs := [oneRowItem 0 2, directRequest]
    let s := run ⟨4, none⟩ (Session.init [echoBackend 4 2]) evs
    (∃ e ∈ evs, TakesFull 0 e) ∧ (∀ e ∈ evs, Sent 2 0 e) ∧ s.running = true ∧
      0 ∉ s.responded :=
  ⟨⟨directRequest, by simp, _, _, rfl, rfl⟩, sent_example (by simp), by decide, by decide⟩

end Example

end BloomBee.InferenceSteps
