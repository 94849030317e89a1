import BloomBee.Spec.InferenceSteps
import Mathlib.Data.Finset.Card

/-! What one event does to a session. The routing of a message decides what is yielded, and
`process` on a yielded item touches the accumulator of the item's own step only. -/

set_option autoImplicit false

namespace BloomBee.InferenceSteps

open RpcInference

variable {σ τ κ : Type}

def stepIdOf : Item σ τ → σ
  | .full r => r.stepId
  | .microBatch m => m.stepId

def Session.fullSteps (s : Session σ τ κ) : List σ :=
  s.yielded.filterMap fun
    | .full r => some r.stepId
    | .microBatch _ => none

def Session.microBatches (s : Session σ τ κ) : List (σ × ℕ) :=
  s.yielded.filterMap fun
    | .full _ => none
    | .microBatch m => some (m.stepId, m.mbIdx)

def Session.responded (s : Session σ τ κ) : List σ := s.responses.map Response.stepId

variable [Inhabited τ]

theorem processFull_ok {cfg : Config} {st st' : State σ τ κ} {r : FullRequest σ τ}
    {resp : Option (Response σ τ)} (h : processFull cfg st r = .ok (st', resp)) :
    st'.accums = st.accums ∧ ∃ x, resp = some x ∧ x.stepId = r.stepId := by
  simp only [processFull, bind, Except.bind, pure, Except.pure] at h
  split at h
  · cases h
  · split at h
    · cases h
    · obtain ⟨rfl, rfl⟩ := Prod.mk.inj (Except.ok.inj h)
      exact ⟨rfl, _, rfl, rfl⟩

variable [DecidableEq σ]

theorem accumulate_lookup_ne {st : State σ τ κ} {m : MicroBatch σ τ} {n : ℕ}
    {r : Batch τ × Batch ℤ} {t : σ} (ht : t ≠ m.stepId) :
    (accumulate st m n r).1.accums.lookup t = st.accums.lookup t := by
  simp only [accumulate]
  split
  · exact AList.lookup_erase_ne ht
  · exact AList.lookup_insert_ne ht

theorem accumulate_stepId {st : State σ τ κ} {m : MicroBatch σ τ} {n : ℕ}
    {r : Batch τ × Batch ℤ} {resp : Response σ τ} (h : (accumulate st m n r).2 = some resp) :
    resp.stepId = m.stepId := by
  simp only [accumulate] at h
  split at h
  · obtain rfl := Option.some.inj h
    rfl
  · cases h

/-- A micro-batch is either dropped for want of tensors or accumulated. -/
theorem processMicroBatch_ok {st st' : State σ τ κ} {m : MicroBatch σ τ}
    {resp : Option (Response σ τ)} (h : processMicroBatch st m = .ok (st', resp)) :
    (m.payload = none ∧ st'.accums = st.accums ∧ resp = none) ∨
      (m.payload.isSome ∧ ∃ st₁ n r, st₁.accums = st.accums ∧
        accumulate st₁ m n r = (st', resp)) := by
  simp only [processMicroBatch, bind, Except.bind, pure, Except.pure] at h
  split at h
  · rename_i hp
    obtain ⟨rfl, rfl⟩ := Prod.mk.inj (Except.ok.inj h)
    exact .inl ⟨hp, rfl, rfl⟩
  · rename_i hp
    split at h
    · cases h
    · refine .inr ⟨by simp [hp], ?_⟩
      have hacc := Except.ok.inj h
      exact ⟨_, _, _, (by rfl), hacc⟩

/-- Processing an item leaves the accumulators of the other steps alone, and answers only
for its own step. -/
theorem process_frame {cfg : Config} {st st' : State σ τ κ} {item : Item σ τ}
    {resp : Option (Response σ τ)} (h : process cfg st item = .ok (st', resp)) :
    (∀ t, t ≠ stepIdOf item → st'.accums.lookup t = st.accums.lookup t) ∧
      ∀ x, resp = some x → x.stepId = stepIdOf item := by
  cases item with
  | full r =>
    obtain ⟨ha, x, rfl, hx⟩ := processFull_ok h
    refine ⟨fun t _ => by rw [ha], ?_⟩
    intro y hy
    obtain rfl := Option.some.inj hy
    exact hx
  | microBatch m =>
    rcases processMicroBatch_ok h with ⟨-, ha, rfl⟩ | ⟨-, st₁, n, r, ha, hacc⟩
    · exact ⟨fun t _ => by rw [ha], by simp⟩
    · have h₁ : st' = (accumulate st₁ m n r).1 := by rw [hacc]
      have h₂ : resp = (accumulate st₁ m n r).2 := by rw [hacc]
      refine ⟨fun t ht => ?_, fun x hx => ?_⟩
      · rw [h₁, accumulate_lookup_ne ht, ha]
      · exact accumulate_stepId (h₂.symm.trans hx)

/-- The routing decides what is yielded, also when the item then fails. -/
theorem deliver_receive (cfg : Config) (s : Session σ τ κ) (r : Request σ τ) (fails : Bool) :
    (deliver cfg s (.receive r fails)).routing = (route s.routing r).1 ∧
      (deliver cfg s (.receive r fails)).yielded =
        s.yielded ++ (route s.routing r).2.toList := by
  cases r with
  | empty => simp [deliver, route]
  | microBatch m =>
    simp only [deliver]
    cases hi : (route s.routing (.microBatch m)).2 with
    | none => simp
    | some item => simp only [handle]; split <;> simp
  | full r b =>
    simp only [deliver]
    cases hi : (route s.routing (.full r b)).2 with
    | none => simp
    | some item => simp only [handle]; split <;> simp

/-- A message that does not end the session is skipped by the routing or processed. -/
theorem deliver_receive_running {cfg : Config} {s : Session σ τ κ} {r : Request σ τ}
    {fails : Bool} (hs : (deliver cfg s (.receive r fails)).running = true) :
    ((route s.routing r).2 = none ∧ (deliver cfg s (.receive r fails)).state = s.state ∧
        (deliver cfg s (.receive r fails)).responses = s.responses) ∨
      ∃ item st' resp, (route s.routing r).2 = some item ∧
        process cfg s.state item = .ok (st', resp) ∧
        (deliver cfg s (.receive r fails)).state = st' ∧
        (deliver cfg s (.receive r fails)).responses = s.responses ++ resp.toList := by
  have hd : ∀ (rt : Routing σ) (item : Item σ τ),
      (handle cfg { s with routing := rt } item fails).running = true →
      ∃ st' resp, process cfg s.state item = .ok (st', resp) ∧
        (handle cfg { s with routing := rt } item fails).state = st' ∧
        (handle cfg { s with routing := rt } item fails).responses =
          s.responses ++ resp.toList := by
    intro rt item hrun
    simp only [handle] at hrun ⊢
    split at hrun
    · cases hrun
    · rename_i st' resp hp
      split at hp
      · cases hp
      · exact ⟨st', resp, hp, rfl, rfl⟩
  cases r with
  | empty => simp [deliver] at hs
  | microBatch m =>
    simp only [deliver] at hs ⊢
    cases hi : (route s.routing (.microBatch m)).2 with
    | none => exact .inl ⟨rfl, rfl, rfl⟩
    | some item =>
      rw [hi] at hs
      obtain ⟨st', resp, h₁, h₂, h₃⟩ := hd _ item hs
      exact .inr ⟨item, st', resp, rfl, h₁, h₂, h₃⟩
  | full r b =>
    simp only [deliver] at hs ⊢
    cases hi : (route s.routing (.full r b)).2 with
    | none => exact .inl ⟨rfl, rfl, rfl⟩
    | some item =>
      rw [hi] at hs
      obtain ⟨st', resp, h₁, h₂, h₃⟩ := hd _ item hs
      exact .inr ⟨item, st', resp, rfl, h₁, h₂, h₃⟩

theorem deliver_stopped {cfg : Config} {s : Session σ τ κ} {e : Event σ τ}
    (hs : s.running = true) (hd : (deliver cfg s e).running = false) :
    (deliver cfg s e).responses = s.responses := by
  have hh : ∀ (rt : Routing σ) (item : Item σ τ) (fails : Bool),
      (handle cfg { s with routing := rt } item fails).running = false →
      (handle cfg { s with routing := rt } item fails).responses = s.responses := by
    intro rt item fails hrun
    simp only [handle] at hrun ⊢
    split at hrun
    · rfl
    · rw [hs] at hrun
      cases hrun
  cases e with
  | stop => rfl
  | expire t => simp [deliver, hs] at hd
  | receive r fails =>
    cases r with
    | empty => rfl
    | microBatch m =>
      simp only [deliver] at hd ⊢
      split at hd
      · rfl
      · exact hh _ _ _ hd
    | full r b =>
      simp only [deliver] at hd ⊢
      split at hd
      · rfl
      · exact hh _ _ _ hd

theorem run_of_not_running {cfg : Config} {s : Session σ τ κ} (h : s.running = false)
    (evs : List (Event σ τ)) : run cfg s evs = s := by
  cases evs with
  | nil => rfl
  | cons e evs => simp [run, h]

def echoBackend (seqLen batch : ℕ) : Backend ℕ ℕ where
  block := ⟨fun _ xs => (xs, xs), fun _ _ _ xs => some (xs, xs), fun _ _ => rfl, fun _ _ => rfl,
    fun _ _ => rfl⟩
  chunkConfig := ⟨1, 1, 64⟩
  slab := ⟨seqLen, batch, fun _ => List.replicate seqLen 0, by simp⟩

end BloomBee.InferenceSteps
