import BloomBee.Lib.Dict
import BloomBee.Sanity.InferenceSteps

/-! One step of a session on its own. A step either goes through the full-batch path, or it
collects micro-batches: `seen` are the indices whose items were taken, `kept` those whose
results are still in the accumulator. A session whose micro-batches of the step agree on
their number follows this machine, whatever it does for its other steps. -/

set_option autoImplicit false

namespace BloomBee.InferenceSteps

open RpcInference

inductive Progress where
  | collecting (seen kept : Finset ℕ)
  | full
  | merged

def Progress.fresh : Progress := .collecting ∅ ∅

def Progress.takeFull : Progress → Progress
  | .collecting seen kept => if seen = ∅ then .full else .collecting seen kept
  | p => p

def Progress.takeMicroBatch (expected i : ℕ) (hasTensors : Bool) : Progress → Progress
  | .collecting seen kept =>
    if i ∈ seen then .collecting seen kept
    else
      let kept := if hasTensors then insert i kept else kept
      if expected ≤ kept.card then .merged else .collecting (insert i seen) kept
  | p => p

def Progress.expire : Progress → Progress
  | .collecting seen _ => .collecting seen ∅
  | p => p

variable {σ τ κ : Type} [DecidableEq σ]

/-- What an event means for the step `stepId` of `expected` micro-batches. -/
def track (expected : ℕ) (stepId : σ) (p : Progress) : Event σ τ → Progress
  | .receive (.microBatch m) _ =>
    if m.stepId = stepId then p.takeMicroBatch expected m.mbIdx m.payload.isSome else p
  | .receive (.full r false) _ => if r.stepId = stepId then p.takeFull else p
  | .expire t => if t = stepId then p.expire else p
  | _ => p

def Holds (st : State σ τ κ) (stepId : σ) (expected : ℕ) (kept : Finset ℕ) : Prop :=
  (st.accums.lookup stepId = none ∧ kept = ∅) ∨
    ∃ a, st.accums.lookup stepId = some a ∧ a.expected = expected ∧
      a.results.keys.toFinset = kept

/-- The session is at `p` with the step. -/
def At (expected : ℕ) (stepId : σ) (s : Session σ τ κ) : Progress → Prop
  | .collecting seen kept =>
    stepId ∉ s.routing.processedStepIds ∧
    (stepId ∈ s.routing.microbatchStepIds ↔ seen ≠ ∅) ∧
    (∀ i, (stepId, i) ∈ s.routing.processedMicrobatchIds ↔ i ∈ seen) ∧
    Holds s.state stepId expected kept ∧ s.responded.count stepId = 0
  | .full =>
    stepId ∈ s.routing.processedStepIds ∧ stepId ∉ s.routing.microbatchStepIds ∧
    s.responded.count stepId = 1
  | .merged =>
    stepId ∉ s.routing.processedStepIds ∧ stepId ∈ s.routing.microbatchStepIds ∧
    (∀ i < expected, (stepId, i) ∈ s.routing.processedMicrobatchIds) ∧
    s.responded.count stepId = 1

/-- What the machine itself keeps: the results come from taken items, the indices are those
of the step, and a complete set does not wait. -/
def Progress.Ok (expected : ℕ) : Progress → Prop
  | .collecting seen kept =>
    kept ⊆ seen ∧ seen ⊆ Finset.range expected ∧ (seen ≠ ∅ → kept.card < expected)
  | _ => True

/-- The micro-batches of the step agree on their number and lie below it. -/
def Consistent (expected : ℕ) (stepId : σ) (e : Event σ τ) : Prop :=
  ∀ m fails, e = .receive (.microBatch m) fails → m.stepId = stepId →
    m.expectedNumMb = expected ∧ m.mbIdx < expected

theorem Progress.ok_takeMicroBatch {expected i : ℕ} {hasTensors : Bool} {p : Progress}
    (hp : p.Ok expected) (hi : i < expected) :
    (p.takeMicroBatch expected i hasTensors).Ok expected := by
  cases p with
  | full => trivial
  | merged => trivial
  | collecting seen kept =>
    obtain ⟨hks, hsr, hc⟩ := hp
    simp only [Progress.takeMicroBatch]
    split_ifs with h₁ h₂ h₃ h₃
    · exact ⟨hks, hsr, hc⟩
    · trivial
    · refine ⟨Finset.insert_subset_insert i hks, ?_, fun _ => not_le.mp h₃⟩
      exact Finset.insert_subset (Finset.mem_range.mpr hi) hsr
    · trivial
    · refine ⟨hks.trans (Finset.subset_insert i seen), ?_, fun _ => not_le.mp h₃⟩
      exact Finset.insert_subset (Finset.mem_range.mpr hi) hsr

theorem ok_track {expected : ℕ} {stepId : σ} {p : Progress} {e : Event σ τ}
    (hp : p.Ok expected) (he : Consistent expected stepId e) :
    (track expected stepId p e).Ok expected := by
  cases e with
  | stop => exact hp
  | expire t =>
    simp only [track]
    split_ifs
    · cases p with
      | collecting seen kept =>
        obtain ⟨-, hsr, hc⟩ := hp
        refine ⟨Finset.empty_subset seen, hsr, fun hne => ?_⟩
        exact lt_of_le_of_lt (by simp) (hc hne)
      | full => trivial
      | merged => trivial
    · exact hp
  | receive r fails =>
    cases r with
    | empty => exact hp
    | microBatch m =>
      simp only [track]
      split_ifs with hm
      · exact Progress.ok_takeMicroBatch hp (he m fails rfl hm).2
      · exact hp
    | full r b =>
      cases b with
      | true => exact hp
      | false =>
        simp only [track]
        split_ifs
        · cases p with
          | collecting seen kept =>
            simp only [Progress.takeFull]
            split_ifs
            · trivial
            · exact hp
          | full => trivial
          | merged => trivial
        · exact hp

def SameRouting (stepId : σ) (rt rt' : Routing σ) : Prop :=
  (stepId ∈ rt'.processedStepIds ↔ stepId ∈ rt.processedStepIds) ∧
  (stepId ∈ rt'.microbatchStepIds ↔ stepId ∈ rt.microbatchStepIds) ∧
  ∀ i, (stepId, i) ∈ rt'.processedMicrobatchIds ↔ (stepId, i) ∈ rt.processedMicrobatchIds

/-- A session that does not touch the step stays where it is with it. -/
theorem At.congr {expected : ℕ} {stepId : σ} {s s' : Session σ τ κ} {p : Progress}
    (h : At expected stepId s p) (hr : SameRouting stepId s.routing s'.routing)
    (ha : s'.state.accums.lookup stepId = s.state.accums.lookup stepId)
    (hc : s'.responded.count stepId = s.responded.count stepId) : At expected stepId s' p := by
  obtain ⟨h₁, h₂, h₃⟩ := hr
  cases p with
  | collecting seen kept =>
    simp only [At, Holds, h₁, h₂, h₃, ha, hc] at h ⊢
    exact h
  | full =>
    simp only [At, h₁, h₂, hc] at h ⊢
    exact h
  | merged =>
    simp only [At, h₁, h₂, h₃, hc] at h ⊢
    exact h

theorem route_microBatch_ne {rt : Routing σ} {m : MicroBatch σ τ} {stepId : σ}
    (h : m.stepId ≠ stepId) : SameRouting stepId rt (route rt (.microBatch m)).1 := by
  simp only [route]
  split_ifs
  · exact ⟨.rfl, .rfl, fun _ => .rfl⟩
  · exact ⟨.rfl, .rfl, fun _ => .rfl⟩
  · simp [SameRouting, Ne.symm h]

theorem route_full_ne {rt : Routing σ} {r : FullRequest σ τ} {b : Bool} {stepId : σ}
    (h : r.stepId ≠ stepId) : SameRouting stepId rt (route rt (.full r b)).1 := by
  simp only [route]
  split_ifs
  · exact ⟨.rfl, .rfl, fun _ => .rfl⟩
  · exact ⟨.rfl, .rfl, fun _ => .rfl⟩
  · exact ⟨.rfl, .rfl, fun _ => .rfl⟩
  · simp [SameRouting, Ne.symm h]

theorem route_stepId {rt : Routing σ} {r : Request σ τ} {item : Item σ τ}
    (h : (route rt r).2 = some item) :
    (∃ m, r = .microBatch m ∧ item = .microBatch m) ∨ ∃ x b, r = .full x b ∧ item = .full x := by
  cases r with
  | empty => cases h
  | microBatch m =>
    simp only [route] at h
    split_ifs at h
    exact .inl ⟨m, rfl, (Option.some.inj h).symm⟩
  | full x b =>
    simp only [route] at h
    split_ifs at h
    exact .inr ⟨x, b, rfl, (Option.some.inj h).symm⟩

theorem at_expire {expected : ℕ} {stepId : σ} {s : Session σ τ κ} {p : Progress} (t : σ)
    (h : At expected stepId s p) :
    At expected stepId { s with state := expire s.state t }
      (if t = stepId then p.expire else p) := by
  split_ifs with ht
  · subst ht
    cases p with
    | full => exact h
    | merged => exact h
    | collecting seen kept =>
      obtain ⟨h₁, h₂, h₃, -, h₅⟩ := h
      exact ⟨h₁, h₂, h₃, .inl ⟨AList.lookup_erase _ _, rfl⟩, h₅⟩
  · exact h.congr ⟨.rfl, .rfl, fun _ => .rfl⟩ (AList.lookup_erase_ne (Ne.symm ht)) rfl

variable [Inhabited τ]

theorem at_receive_ne {cfg : Config} {expected : ℕ} {stepId : σ} {s : Session σ τ κ}
    {p : Progress} {r : Request σ τ} {fails : Bool} (h : At expected stepId s p)
    (hrun : (deliver cfg s (.receive r fails)).running = true)
    (hrt : SameRouting stepId s.routing (route s.routing r).1)
    (hne : ∀ item, (route s.routing r).2 = some item → stepIdOf item ≠ stepId) :
    At expected stepId (deliver cfg s (.receive r fails)) p := by
  rcases deliver_receive_running hrun with ⟨-, hst, hresp⟩ | ⟨item, st', resp, hi, hp, hst, hresp⟩
  · refine h.congr ?_ (by rw [hst]) (by rw [Session.responded, hresp, Session.responded])
    rwa [(deliver_receive cfg s r fails).1]
  · obtain ⟨hacc, hid⟩ := process_frame hp
    refine h.congr ?_ (by rw [hst]; exact hacc stepId (Ne.symm (hne item hi))) ?_
    · rwa [(deliver_receive cfg s r fails).1]
    · rw [Session.responded, hresp, List.map_append, List.count_append, Session.responded]
      cases resp with
      | none => simp
      | some x => simp [hid x rfl, hne item hi]

theorem at_skipped {cfg : Config} {expected : ℕ} {stepId : σ} {s : Session σ τ κ}
    {p : Progress} {r : Request σ τ} {fails : Bool} (h : At expected stepId s p)
    (hrun : (deliver cfg s (.receive r fails)).running = true)
    (hr : route s.routing r = (s.routing, none)) :
    At expected stepId (deliver cfg s (.receive r fails)) p := by
  refine at_receive_ne h hrun ?_ ?_
  · rw [hr]
    exact ⟨.rfl, .rfl, fun _ => .rfl⟩
  · intro item hi
    rw [hr] at hi
    cases hi

theorem at_takeFull {cfg : Config} {expected : ℕ} {s : Session σ τ κ} {p : Progress}
    {r : FullRequest σ τ} {fails : Bool} (h : At expected r.stepId s p)
    (hrun : (deliver cfg s (.receive (.full r false) fails)).running = true) :
    At expected r.stepId (deliver cfg s (.receive (.full r false) fails)) p.takeFull := by
  cases p with
  | full => exact at_skipped h hrun (by simp [route, h.1, h.2.1])
  | merged => exact at_skipped h hrun (by simp [route, h.2.1])
  | collecting seen kept =>
    obtain ⟨hproc, hmb, hids, hacc, hcount⟩ := h
    simp only [Progress.takeFull]
    split_ifs with hseen
    · have hmb' : r.stepId ∉ s.routing.microbatchStepIds := fun hm => hmb.mp hm hseen
      have hroute : route s.routing (.full r false) =
          ({ s.routing with processedStepIds := insert r.stepId s.routing.processedStepIds },
            some (.full r)) := by simp [route, hmb', hproc]
      rcases deliver_receive_running hrun with ⟨hn, -⟩ | ⟨item, st', resp, hi, hp, -, hresp⟩
      · rw [hroute] at hn
        cases hn
      · rw [hroute] at hi
        obtain rfl := Option.some.inj hi
        obtain ⟨-, x, rfl, hx⟩ := processFull_ok hp
        have hrt := (deliver_receive cfg s (.full r false) fails).1
        rw [hroute] at hrt
        refine ⟨by simp [hrt], by simpa [hrt] using hmb', ?_⟩
        rw [Session.responded] at hcount
        simp [Session.responded, hresp, hx, hcount]
    · exact at_skipped ⟨hproc, hmb, hids, hacc, hcount⟩ hrun (by simp [route, hmb.mpr hseen])

theorem accumulate_holds {st : State σ τ κ} {m : MicroBatch σ τ} {kept : Finset ℕ} (n : ℕ)
    (r : Batch τ × Batch ℤ) (h : Holds st m.stepId m.expectedNumMb kept) :
    if m.expectedNumMb ≤ (insert m.mbIdx kept).card then
      ∃ x, (accumulate st m n r).2 = some x ∧ x.stepId = m.stepId
    else (accumulate st m n r).2 = none ∧
      Holds (accumulate st m n r).1 m.stepId m.expectedNumMb (insert m.mbIdx kept) := by
  set a := ((st.accums.lookup m.stepId).getD ⟨m.expectedNumMb, ∅, n⟩).add m.mbIdx n r with ha
  have hexp : a.expected = m.expectedNumMb := by
    rcases h with ⟨hn, -⟩ | ⟨a₀, hs, he, -⟩
    · rw [ha, hn]; rfl
    · rw [ha, hs]; exact he
  have hkeys : a.results.keys.toFinset = insert m.mbIdx kept := by
    rcases h with ⟨hn, rfl⟩ | ⟨a₀, hs, -, rfl⟩
    · rw [ha, hn]; exact Dict.keys_insert_toFinset _ _ _
    · rw [ha, hs]; exact Dict.keys_insert_toFinset _ _ _
  have hlen : a.results.keys.length = (insert m.mbIdx kept).card := by
    rw [← hkeys, List.toFinset_card_of_nodup a.results.keys_nodup]
  split_ifs with hc
  · refine ⟨a.merge m.stepId, ?_, rfl⟩
    simp only [accumulate, ← ha, hexp, hlen, if_pos hc]
  · simp only [accumulate, ← ha, hexp, hlen, if_neg hc, true_and]
    exact .inr ⟨a, AList.lookup_insert _, hexp, hkeys⟩

theorem at_takeMicroBatch {cfg : Config} {s : Session σ τ κ} {p : Progress}
    {m : MicroBatch σ τ} {fails : Bool} (h : At m.expectedNumMb m.stepId s p)
    (hok : p.Ok m.expectedNumMb) (hidx : m.mbIdx < m.expectedNumMb)
    (hrun : (deliver cfg s (.receive (.microBatch m) fails)).running = true) :
    At m.expectedNumMb m.stepId (deliver cfg s (.receive (.microBatch m) fails))
      (p.takeMicroBatch m.expectedNumMb m.mbIdx m.payload.isSome) := by
  cases p with
  | full => exact at_skipped h hrun (by simp [route, h.1, h.2.1])
  | merged => exact at_skipped h hrun (by simp [route, h.1, h.2.2.1 _ hidx])
  | collecting seen kept =>
    obtain ⟨hproc, hmb, hids, hacc, hcount⟩ := h
    obtain ⟨hks, hsr, hcard⟩ := hok
    simp only [Progress.takeMicroBatch]
    by_cases hseen : m.mbIdx ∈ seen
    · rw [if_pos hseen]
      exact at_skipped ⟨hproc, hmb, hids, hacc, hcount⟩ hrun
        (by simp [route, hproc, (hids _).mpr hseen])
    rw [if_neg hseen]
    have hroute : route s.routing (.microBatch m) =
        ({ s.routing with
            microbatchStepIds := insert m.stepId s.routing.microbatchStepIds
            processedMicrobatchIds :=
              insert (m.stepId, m.mbIdx) s.routing.processedMicrobatchIds },
          some (.microBatch m)) := by simp [route, hproc, mt (hids _).mp hseen]
    rcases deliver_receive_running hrun with ⟨hn, -⟩ | ⟨item, st', resp, hi, hp, hst, hresp⟩
    · rw [hroute] at hn
      cases hn
    rw [hroute] at hi
    obtain rfl := Option.some.inj hi
    have hrt := (deliver_receive cfg s (.microBatch m) fails).1
    rw [hroute] at hrt
    -- the routing half of both outcomes
    have hids' : ∀ i, (m.stepId, i) ∈
        (deliver cfg s (.receive (.microBatch m) fails)).routing.processedMicrobatchIds ↔
        i ∈ insert m.mbIdx seen := by
      intro i
      simp [hrt, hids i]
    have hlt : kept.card < m.expectedNumMb := by
      by_cases he : seen = ∅
      · obtain rfl := Finset.subset_empty.mp (he ▸ hks)
        simp only [Finset.card_empty]
        omega
      · exact hcard he
    rcases processMicroBatch_ok hp with ⟨hpay, hst', rfl⟩ | ⟨hpay, st₁, n, r, hst₁, hacc'⟩
    · simp only [hpay, Option.isSome_none, Bool.false_eq_true, if_false, if_neg (not_le.mpr hlt)]
      refine ⟨by simpa [hrt] using hproc, by simp [hrt], hids', ?_, ?_⟩
      · simpa only [Holds, hst, hst'] using hacc
      · simpa [Session.responded, hresp] using hcount
    · rw [if_pos hpay]
      have hh₁ : Holds st₁ m.stepId m.expectedNumMb kept := by simpa only [Holds, hst₁] using hacc
      have hh := accumulate_holds n r hh₁
      rw [hacc'] at hh
      split_ifs at hh ⊢ with hc
      · obtain ⟨x, hx, hxs⟩ := hh
        refine ⟨by simpa [hrt] using hproc, by simp [hrt], ?_, ?_⟩
        · -- a complete set of results has all indices
          have hall : insert m.mbIdx seen = Finset.range m.expectedNumMb := by
            refine Finset.eq_of_subset_of_card_le
              (Finset.insert_subset (Finset.mem_range.mpr hidx) hsr) ?_
            rw [Finset.card_range]
            exact hc.trans (Finset.card_le_card (Finset.insert_subset_insert _ hks))
          intro i hi
          rw [hids' i, hall]
          exact Finset.mem_range.mpr hi
        · rw [Session.responded] at hcount
          simp only at hx
          simp [Session.responded, hresp, hx, hxs, hcount]
      · obtain ⟨hx, hh⟩ := hh
        refine ⟨by simpa [hrt] using hproc, by simp [hrt], hids', ?_, ?_⟩
        · rw [hst]
          exact hh
        · simp only at hx
          simpa [Session.responded, hresp, hx] using hcount

theorem at_deliver {cfg : Config} {expected : ℕ} {stepId : σ} {s : Session σ τ κ}
    {p : Progress} {e : Event σ τ} (h : At expected stepId s p) (hok : p.Ok expected)
    (he : Consistent expected stepId e) (hrun : (deliver cfg s e).running = true) :
    At expected stepId (deliver cfg s e) (track expected stepId p e) := by
  cases e with
  | stop => cases hrun
  | expire t => exact at_expire t h
  | receive r fails =>
    cases r with
    | empty => cases hrun
    | microBatch m =>
      simp only [track]
      split_ifs with hm
      · obtain ⟨rfl, hidx⟩ := he m fails rfl hm
        subst hm
        exact at_takeMicroBatch h hok hidx hrun
      · refine at_receive_ne h hrun (route_microBatch_ne hm) ?_
        intro item hi
        obtain ⟨m', h₁, rfl⟩ | ⟨x, b, h₁, -⟩ := route_stepId hi
        · cases h₁
          exact hm
        · cases h₁
    | full r b =>
      cases b with
      | true => exact at_skipped h hrun rfl
      | false =>
        simp only [track]
        split_ifs with hr
        · subst hr
          exact at_takeFull h hrun
        · refine at_receive_ne h hrun (route_full_ne hr) ?_
          intro item hi
          obtain ⟨m', h₁, -⟩ | ⟨x, b, h₁, rfl⟩ := route_stepId hi
          · cases h₁
          · cases h₁
            exact hr

end BloomBee.InferenceSteps
