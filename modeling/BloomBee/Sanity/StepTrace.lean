import BloomBee.Sanity.StepProgress

/-! The runs of the machine of one step: which events lead to an answer. -/

set_option autoImplicit false

namespace BloomBee.InferenceSteps

open RpcInference

variable {σ τ : Type}

/-- The event is the item `i` of the step. -/
def TakesMicroBatch (stepId : σ) (i : ℕ) (e : Event σ τ) : Prop :=
  ∃ m fails, e = .receive (.microBatch m) fails ∧ m.stepId = stepId ∧ m.mbIdx = i

def TakesFull (stepId : σ) (e : Event σ τ) : Prop :=
  ∃ r fails, e = .receive (.full r false) fails ∧ r.stepId = stepId

/-- The micro-batches of the step are as one sender makes them. -/
def Sent (expected : ℕ) (stepId : σ) (e : Event σ τ) : Prop :=
  ∀ m fails, e = .receive (.microBatch m) fails → m.stepId = stepId →
    m.expectedNumMb = expected ∧ m.mbIdx < expected ∧ m.payload.isSome

/-- A full-batch request of the step is taken before any of its micro-batches. -/
def FullRequestFirst (stepId : σ) (evs : List (Event σ τ)) : Prop :=
  ∃ a e b, evs = a ++ e :: b ∧ TakesFull stepId e ∧ ∀ e' ∈ a, ∀ i, ¬TakesMicroBatch stepId i e'

/-- From the first micro-batch of the step on, all of them are taken before a sweep. -/
def AllDelivered (expected : ℕ) (stepId : σ) (evs : List (Event σ τ)) : Prop :=
  ∃ a b c, evs = a ++ b ++ c ∧ (∀ e ∈ a, ∀ i, ¬TakesMicroBatch stepId i e) ∧
    .expire stepId ∉ b ∧ ∀ i < expected, ∃ e ∈ b, TakesMicroBatch stepId i e

theorem Sent.consistent {expected : ℕ} {stepId : σ} {e : Event σ τ}
    (h : Sent expected stepId e) : Consistent expected stepId e := by
  intro m fails he hm
  obtain ⟨h₁, h₂, -⟩ := h m fails he hm
  exact ⟨h₁, h₂⟩

/-- What the events must have been for the step to be where it is. -/
def Traced (expected : ℕ) (stepId : σ) (evs : List (Event σ τ)) : Progress → Prop
  | .full => FullRequestFirst stepId evs
  | .merged => AllDelivered expected stepId evs
  | .collecting seen kept =>
    (seen = ∅ → ∀ e ∈ evs, ∀ i, ¬TakesMicroBatch stepId i e) ∧
    (kept = seen → ∃ a b, evs = a ++ b ∧ (∀ e ∈ a, ∀ i, ¬TakesMicroBatch stepId i e) ∧
      .expire stepId ∉ b ∧ ∀ i ∈ seen, ∃ e ∈ b, TakesMicroBatch stepId i e)

theorem FullRequestFirst.append {stepId : σ} {evs : List (Event σ τ)}
    (h : FullRequestFirst stepId evs) (e : Event σ τ) : FullRequestFirst stepId (evs ++ [e]) := by
  obtain ⟨a, e', b, rfl, he, ha⟩ := h
  exact ⟨a, e', b ++ [e], by simp, he, ha⟩

theorem AllDelivered.append {expected : ℕ} {stepId : σ} {evs : List (Event σ τ)}
    (h : AllDelivered expected stepId evs) (e : Event σ τ) :
    AllDelivered expected stepId (evs ++ [e]) := by
  obtain ⟨a, b, c, rfl, ha, hb, hall⟩ := h
  exact ⟨a, b, c ++ [e], by simp, ha, hb, hall⟩

/-- An event that changes nothing for the step but may be one of its items again. -/
theorem Traced.append {expected : ℕ} {stepId : σ} {evs : List (Event σ τ)} {p : Progress}
    (h : Traced expected stepId evs p) {e : Event σ τ} (he : e ≠ .expire stepId)
    (hseen : ∀ kept, p = .collecting ∅ kept → ∀ i, ¬TakesMicroBatch stepId i e) :
    Traced expected stepId (evs ++ [e]) p := by
  cases p with
  | full => exact FullRequestFirst.append h e
  | merged => exact AllDelivered.append h e
  | collecting seen kept =>
    obtain ⟨hnone, hkept⟩ := h
    refine ⟨?_, fun hk => ?_⟩
    · rintro rfl e' he' i
      rcases List.mem_append.mp he' with he' | he'
      · exact hnone rfl e' he' i
      · rw [List.mem_singleton.mp he']
        exact hseen kept rfl i
    · obtain ⟨a, b, rfl, ha, hb, hall⟩ := hkept hk
      refine ⟨a, b ++ [e], by simp, ha, ?_, fun i hi => ?_⟩
      · simp only [List.mem_append, List.mem_singleton, not_or]
        exact ⟨hb, he.symm⟩
      · obtain ⟨e', he', ht⟩ := hall i hi
        exact ⟨e', List.mem_append_left _ he', ht⟩

theorem traced_takeMicroBatch {expected : ℕ} {stepId : σ} {evs : List (Event σ τ)}
    {seen kept : Finset ℕ} {m : MicroBatch σ τ} {fails : Bool}
    (h : Traced expected stepId evs (.collecting seen kept))
    (hok : (Progress.collecting seen kept).Ok expected) (hm : m.stepId = stepId)
    (hidx : m.mbIdx < expected) (hseen : m.mbIdx ∉ seen) :
    Traced expected stepId (evs ++ [.receive (.microBatch m) fails])
      (if expected ≤ (insert m.mbIdx kept).card then .merged
        else .collecting (insert m.mbIdx seen) (insert m.mbIdx kept)) := by
  obtain ⟨hks, hsr, -⟩ := hok
  have hitem : TakesMicroBatch stepId m.mbIdx (.receive (.microBatch m) fails : Event σ τ) :=
    ⟨m, fails, rfl, hm, rfl⟩
  -- with all results kept, the events up to this one have delivered every index in `seen`
  have hgo : insert m.mbIdx kept = insert m.mbIdx seen → ∃ a b,
      evs ++ [.receive (.microBatch m) fails] = a ++ b ∧
      (∀ e ∈ a, ∀ i, ¬TakesMicroBatch stepId i e) ∧ .expire stepId ∉ b ∧
      ∀ i ∈ insert m.mbIdx seen, ∃ e ∈ b, TakesMicroBatch stepId i e := by
    intro heq
    have hkept : kept = seen := by
      have herase := congrArg (Finset.erase · m.mbIdx) heq
      simpa [Finset.erase_insert hseen, Finset.erase_insert fun hk => hseen (hks hk)] using herase
    obtain ⟨a, b, rfl, ha, hb, hall⟩ := h.2 hkept
    refine ⟨a, b ++ [.receive (.microBatch m) fails], by simp, ha, by simpa using hb, ?_⟩
    intro i hi
    rcases Finset.mem_insert.mp hi with rfl | hi
    · exact ⟨_, List.mem_append_right _ (List.mem_singleton_self _), hitem⟩
    · obtain ⟨e, he, ht⟩ := hall i hi
      exact ⟨e, List.mem_append_left _ he, ht⟩
  have hsr' : insert m.mbIdx seen ⊆ Finset.range expected :=
    Finset.insert_subset (Finset.mem_range.mpr hidx) hsr
  have hks' : insert m.mbIdx kept ⊆ insert m.mbIdx seen := Finset.insert_subset_insert _ hks
  split_ifs with hc
  · have hrange : insert m.mbIdx kept = Finset.range expected :=
      Finset.eq_of_subset_of_card_le (hks'.trans hsr') (by rwa [Finset.card_range])
    have heq : insert m.mbIdx kept = insert m.mbIdx seen :=
      hks'.antisymm (hrange ▸ hsr')
    obtain ⟨a, b, hab, ha, hb, hall⟩ := hgo heq
    refine ⟨a, b, [], by simpa using hab, ha, hb, fun i hi => hall i ?_⟩
    rw [← heq, hrange]
    exact Finset.mem_range.mpr hi
  · exact ⟨fun he => absurd he (Finset.insert_ne_empty _ _), hgo⟩

variable [DecidableEq σ]

/-- An event is a message of the step, the sweep of its accumulator, or nothing to it. -/
theorem track_cases (expected : ℕ) (stepId : σ) (e : Event σ τ) :
    (∃ m fails, e = .receive (.microBatch m) fails ∧ m.stepId = stepId) ∨
      TakesFull stepId e ∨ e = .expire stepId ∨
      ((∀ p, track expected stepId p e = p) ∧ (∀ i, ¬TakesMicroBatch stepId i e) ∧
        e ≠ .expire stepId) := by
  have hno : ∀ i, TakesMicroBatch stepId i e →
      ∃ m fails, e = .receive (.microBatch m) fails ∧ m.stepId = stepId := by
    rintro i ⟨m, fails, he, hm, -⟩
    exact ⟨m, fails, he, hm⟩
  by_cases h₁ : ∃ m fails, e = .receive (.microBatch m) fails ∧ m.stepId = stepId
  · exact .inl h₁
  by_cases h₂ : TakesFull stepId e
  · exact .inr (.inl h₂)
  by_cases h₃ : e = .expire stepId
  · exact .inr (.inr (.inl h₃))
  refine .inr (.inr (.inr ⟨fun p => ?_, fun i hi => h₁ (hno i hi), h₃⟩))
  cases e with
  | stop => rfl
  | expire t => simp only [track]; rw [if_neg fun ht => h₃ (by rw [ht])]
  | receive r fails =>
    cases r with
    | empty => rfl
    | microBatch m => simp only [track]; rw [if_neg fun hm => h₁ ⟨m, fails, rfl, hm⟩]
    | full r b =>
      cases b with
      | true => rfl
      | false => simp only [track]; rw [if_neg fun hr => h₂ ⟨r, fails, rfl, hr⟩]

theorem track_full (expected : ℕ) (stepId : σ) (evs : List (Event σ τ)) :
    evs.foldl (track expected stepId) .full = .full := by
  induction evs with
  | nil => rfl
  | cons e evs ih =>
    have he : track expected stepId .full e = .full := by
      unfold track
      split <;> simp [Progress.takeMicroBatch, Progress.takeFull, Progress.expire]
    rw [List.foldl_cons, he, ih]

theorem track_merged (expected : ℕ) (stepId : σ) (evs : List (Event σ τ)) :
    evs.foldl (track expected stepId) .merged = .merged := by
  induction evs with
  | nil => rfl
  | cons e evs ih =>
    have he : track expected stepId .merged e = .merged := by
      unfold track
      split <;> simp [Progress.takeMicroBatch, Progress.takeFull, Progress.expire]
    rw [List.foldl_cons, he, ih]

/-- Before its first micro-batch a step is untouched or computed as a full batch. -/
theorem track_of_no_microBatch (expected : ℕ) {stepId : σ} {evs : List (Event σ τ)}
    (h : ∀ e ∈ evs, ∀ i, ¬TakesMicroBatch stepId i e) :
    evs.foldl (track expected stepId) .fresh = .fresh ∨
      evs.foldl (track expected stepId) .fresh = .full := by
  induction evs with
  | nil => exact .inl rfl
  | cons e evs ih =>
    have ih := ih fun e' he' => h e' (List.mem_cons_of_mem _ he')
    rw [List.foldl_cons]
    rcases track_cases expected stepId e with ⟨m, fails, rfl, hm⟩ | ⟨r, fails, rfl, hr⟩ | rfl | hn
    · exact absurd ⟨m, fails, rfl, hm, rfl⟩ (h _ List.mem_cons_self m.mbIdx)
    · right
      simp only [track, hr, if_true, Progress.fresh, Progress.takeFull]
      exact track_full expected stepId evs
    · simpa [track, Progress.fresh, Progress.expire] using ih
    · rw [hn.1]
      exact ih

/-- Without a sweep a step that still collects has kept everything it took. -/
theorem track_of_no_expire {expected : ℕ} {stepId : σ} {evs : List (Event σ τ)}
    (hsent : ∀ e ∈ evs, Sent expected stepId e) (h : .expire stepId ∉ evs) (seen : Finset ℕ) :
    evs.foldl (track expected stepId) (.collecting seen seen) = .full ∨
      evs.foldl (track expected stepId) (.collecting seen seen) = .merged ∨
      ∃ seen', evs.foldl (track expected stepId) (.collecting seen seen) =
          .collecting seen' seen' ∧ seen ⊆ seen' ∧
        ∀ e ∈ evs, ∀ i, TakesMicroBatch stepId i e → i ∈ seen' := by
  induction evs generalizing seen with
  | nil => exact .inr (.inr ⟨seen, rfl, Finset.Subset.refl _, by simp⟩)
  | cons e evs ih =>
    have ih := ih (fun e' he' => hsent e' (List.mem_cons_of_mem _ he'))
      (fun he' => h (List.mem_cons_of_mem _ he'))
    -- the rest of the run from a state that has `seen₁`, which covers the event
    have hrest : ∀ seen₁ : Finset ℕ, seen ⊆ seen₁ →
        (∀ i, TakesMicroBatch stepId i e → i ∈ seen₁) →
        track expected stepId (.collecting seen seen) e = .collecting seen₁ seen₁ →
        (e :: evs).foldl (track expected stepId) (.collecting seen seen) = .full ∨
          (e :: evs).foldl (track expected stepId) (.collecting seen seen) = .merged ∨
          ∃ seen', (e :: evs).foldl (track expected stepId) (.collecting seen seen) =
              .collecting seen' seen' ∧ seen ⊆ seen' ∧
            ∀ e' ∈ e :: evs, ∀ i, TakesMicroBatch stepId i e' → i ∈ seen' := by
      intro seen₁ hsub hin ht
      rw [List.foldl_cons, ht]
      rcases ih seen₁ with hf | hm | ⟨seen', hc, hsub', hin'⟩
      · exact .inl hf
      · exact .inr (.inl hm)
      · refine .inr (.inr ⟨seen', hc, hsub.trans hsub', fun e' he' i hi => ?_⟩)
        rcases List.mem_cons.mp he' with rfl | he'
        · exact hsub' (hin i hi)
        · exact hin' e' he' i hi
    rcases track_cases expected stepId e with ⟨m, fails, rfl, hm⟩ | ⟨r, fails, rfl, hr⟩ | rfl | hn
    · obtain ⟨-, -, hpay⟩ := hsent _ List.mem_cons_self m fails rfl hm
      have htake : ∀ i, TakesMicroBatch stepId i (.receive (.microBatch m) fails : Event σ τ) →
          i = m.mbIdx := by
        rintro i ⟨m', fails', he, -, rfl⟩
        cases he
        rfl
      by_cases hseen : m.mbIdx ∈ seen
      · refine hrest seen (Finset.Subset.refl _) (fun i hi => htake i hi ▸ hseen) ?_
        simp [track, hm, Progress.takeMicroBatch, hseen]
      · by_cases hc : expected ≤ (insert m.mbIdx seen).card
        · right; left
          rw [List.foldl_cons]
          simp only [track, hm, if_true, Progress.takeMicroBatch, hpay, if_neg hseen, if_pos hc]
          exact track_merged expected stepId evs
        · refine hrest (insert m.mbIdx seen) (Finset.subset_insert _ _)
            (fun i hi => htake i hi ▸ Finset.mem_insert_self _ _) ?_
          simp only [track, hm, if_true, Progress.takeMicroBatch, hpay, if_neg hseen, if_neg hc]
    · by_cases hseen : seen = ∅
      · left
        rw [List.foldl_cons]
        simp only [track, hr, if_true, Progress.takeFull, hseen]
        exact track_full expected stepId evs
      · refine hrest seen (Finset.Subset.refl _) ?_ ?_
        · rintro i ⟨m, fails', he, -⟩
          cases he
        · simp [track, hr, Progress.takeFull, hseen]
    · exact absurd List.mem_cons_self h
    · exact hrest seen (Finset.Subset.refl _) (fun i hi => absurd hi (hn.2.1 i)) (hn.1 _)

theorem traced_foldl {expected : ℕ} {stepId : σ} {evs : List (Event σ τ)}
    (hsent : ∀ e ∈ evs, Sent expected stepId e) :
    (evs.foldl (track expected stepId) .fresh).Ok expected ∧
      Traced expected stepId evs (evs.foldl (track expected stepId) .fresh) := by
  induction evs using List.reverseRecOn with
  | nil =>
    exact ⟨⟨Finset.Subset.refl _, Finset.empty_subset _, fun h => absurd rfl h⟩, by simp,
      fun _ => ⟨[], [], by simp⟩⟩
  | append_singleton evs e ih =>
    obtain ⟨hok, htr⟩ := ih fun e' he' => hsent e' (List.mem_append_left _ he')
    have he := hsent e (List.mem_append_right _ (List.mem_singleton_self _))
    rw [List.foldl_append, List.foldl_cons, List.foldl_nil]
    refine ⟨ok_track hok he.consistent, ?_⟩
    generalize evs.foldl (track expected stepId) .fresh = p at hok htr
    rcases track_cases expected stepId e with ⟨m, fails, rfl, hm⟩ | ⟨r, fails, rfl, hr⟩ | rfl | hn
    · obtain ⟨-, hidx, hpay⟩ := he m fails rfl hm
      simp only [track, hm, if_true, hpay]
      cases p with
      | full => exact htr.append (by simp) (by simp)
      | merged => exact htr.append (by simp) (by simp)
      | collecting seen kept =>
        simp only [Progress.takeMicroBatch, if_true]
        by_cases hseen : m.mbIdx ∈ seen
        · rw [if_pos hseen]
          refine htr.append (by simp) ?_
          intro kept' hp
          cases hp
          exact absurd hseen (Finset.notMem_empty _)
        · rw [if_neg hseen]
          exact traced_takeMicroBatch htr hok hm hidx hseen
    · have hno : ∀ i, ¬TakesMicroBatch stepId i (.receive (.full r false) fails : Event σ τ) := by
        rintro i ⟨m, fails', he', -⟩
        cases he'
      simp only [track, hr, if_true]
      cases p with
      | full => exact htr.append (by simp) (by simp)
      | merged => exact htr.append (by simp) (by simp)
      | collecting seen kept =>
        simp only [Progress.takeFull]
        split_ifs with hseen
        · exact ⟨evs, _, [], rfl, ⟨r, fails, rfl, hr⟩, htr.1 hseen⟩
        · exact htr.append (by simp) fun _ _ => hno
    · have hno : ∀ i, ¬TakesMicroBatch stepId i (.expire stepId : Event σ τ) := by
        rintro i ⟨m, fails', he', -⟩
        cases he'
      simp only [track, if_true]
      cases p with
      | full => exact FullRequestFirst.append htr _
      | merged => exact AllDelivered.append htr _
      | collecting seen kept =>
        have hnone : seen = ∅ → ∀ e' ∈ evs ++ [.expire stepId], ∀ i,
            ¬TakesMicroBatch stepId i e' := by
          intro hs e' he' i
          rcases List.mem_append.mp he' with he' | he'
          · exact htr.1 hs e' he' i
          · rw [List.mem_singleton.mp he']
            exact hno i
        refine ⟨hnone, fun hs => ⟨_, [], by simp, hnone hs.symm, by simp, ?_⟩⟩
        rw [← hs]
        simp
    · rw [hn.1]
      exact htr.append hn.2.2 fun _ _ => hn.2.1

/-- A step whose full-batch request is taken is answered in two ways only. -/
theorem answered_iff {expected : ℕ} {stepId : σ} {evs : List (Event σ τ)}
    (hfull : ∃ e ∈ evs, TakesFull stepId e) (hsent : ∀ e ∈ evs, Sent expected stepId e) :
    (evs.foldl (track expected stepId) .fresh = .full ∨
        evs.foldl (track expected stepId) .fresh = .merged) ↔
      FullRequestFirst stepId evs ∨ AllDelivered expected stepId evs := by
  have hfirst : FullRequestFirst stepId evs →
      evs.foldl (track expected stepId) .fresh = .full := by
    rintro ⟨a, e, b, rfl, ⟨r, fails, rfl, hr⟩, ha⟩
    have hstep : track expected stepId (a.foldl (track expected stepId) .fresh)
        (.receive (.full r false) fails) = .full := by
      rcases track_of_no_microBatch expected ha with h | h
      · rw [h]
        simp [track, hr, Progress.fresh, Progress.takeFull]
      · rw [h]
        simp [track, hr, Progress.takeFull]
    rw [List.foldl_append, List.foldl_cons, hstep, track_full]
  constructor
  · have htr := (traced_foldl hsent).2
    rintro (h | h)
    · rw [h] at htr
      exact .inl htr
    · rw [h] at htr
      exact .inr htr
  · rintro (h | ⟨a, b, c, rfl, ha, hb, hall⟩)
    · exact .inl (hfirst h)
    · by_cases hpos : expected = 0
      · -- no micro-batch can be well formed, so nothing precedes the full-batch request
        obtain ⟨e, he, htake⟩ := hfull
        obtain ⟨x, y, hxy⟩ := List.append_of_mem he
        refine .inl (hfirst ⟨x, e, y, hxy, htake, ?_⟩)
        rintro e' he' i ⟨m, fails, rfl, hm, -⟩
        have hidx := (hsent (.receive (.microBatch m) fails) (by rw [hxy]; simp [he']) m fails
          rfl hm).2.1
        omega
      · rw [List.foldl_append, List.foldl_append]
        rcases track_of_no_microBatch expected ha with h | h
        · rw [h, Progress.fresh]
          have hsent' : ∀ e ∈ b, Sent expected stepId e := fun e he =>
            hsent e (List.mem_append_left _ (List.mem_append_right _ he))
          rcases track_of_no_expire hsent' hb ∅ with h' | h' | ⟨seen, h', -, hin⟩
          · rw [h', track_full]
            exact .inl rfl
          · rw [h', track_merged]
            exact .inr rfl
          · -- all indices are in `seen`, which is too many for a step that still collects
            exfalso
            have hok : (Progress.collecting seen seen).Ok expected := by
              rw [← h']
              exact (traced_foldl hsent').1
            have hcard : expected ≤ seen.card := by
              rw [← Finset.card_range expected]
              refine Finset.card_le_card fun i hi => ?_
              obtain ⟨e, he, ht⟩ := hall i (Finset.mem_range.mp hi)
              exact hin e he i ht
            have hne : seen ≠ ∅ := by
              rintro rfl
              exact hpos (Nat.le_zero.mp hcard)
            exact absurd (hok.2.2 hne) (not_lt.mpr hcard)
        · rw [h, track_full, track_full]
          exact .inl rfl

end BloomBee.InferenceSteps
