import BloomBee.Sanity.AsyncOutputBuffer

/-! The output buffer delivers in order and exactly once, as long as the sender is not ended while
a put is under way. `stop` does not see such a put: `join` does not count it, and its item is
stored for nobody. -/

set_option autoImplicit false

namespace BloomBee.AsyncOutputBuffer

variable {α ε : Type} {s s' : State α ε} {e : Event α ε} {events : List (Event α ε)}

/-- The sender leaves its loop, or is cancelled, with nothing left to send and no put under way. -/
def Undisturbed (s : State α ε) : Event α ε → Prop
  | .loop => s.running = false → s.queue = [] → s.waiting = []
  | .stopped _ => s.sender ≠ .ended → s.waiting = [] ∧ s.queue = [] ∧ s.sender.items = []
  | _ => True

structure Intact (s : State α ε) : Prop where
  delivered : Delivered s
  notCancelled : ∀ a ∈ s.attempts, a.2 ≠ .cancelled
  ended : s.sender = .ended → s.running = false ∧ s.waiting = [] ∧ s.queue = []

theorem intact_init (maxPending : ℕ) : Intact (init maxPending : State α ε) where
  delivered := delivered_init maxPending
  notCancelled := fun _ h => absurd h List.not_mem_nil
  ended := fun h => by cases h

theorem Intact.notCancelled_concat (h : Intact s) (item : α) {outcome : Outcome ε}
    (hne : outcome ≠ .cancelled) :
    ∀ a ∈ s.attempts ++ [(item, outcome)], a.2 ≠ .cancelled := by
  intro a ha
  rcases List.mem_append.mp ha with ha | ha
  · exact h.notCancelled a ha
  · obtain rfl := List.mem_singleton.mp ha
    exact hne

theorem attempts_put (s : State α ε) (item : α) : (put s item).attempts = s.attempts := by
  unfold put
  split_ifs <;> rfl

theorem sender_put (s : State α ε) (item : α) : (put s item).sender = s.sender := by
  unfold put
  split_ifs <;> rfl

theorem ne_flush_of_stop {call : Call} {raiseOnError : Bool}
    (hkind : call.kind = .stop raiseOnError) : call.kind ≠ .flush := by
  rw [hkind]
  exact fun h => by cases h

theorem Intact.of_same (h : Intact s) (hdelivered : Delivered s')
    (hattempts : s'.attempts = s.attempts)
    (hended : s'.sender = .ended → s'.running = false ∧ s'.waiting = [] ∧ s'.queue = []) :
    Intact s' :=
  ⟨hdelivered, hattempts ▸ h.notCancelled, hended⟩

theorem Intact.step (h : Intact s) (hundisturbed : Undisturbed s e)
    (hs : AsyncOutputBuffer.step s e = some s') : Intact s' := by
  have hdelivered := h.delivered.step hs
  cases step_cases hs with
  | put item =>
    by_cases hrunning : s.running = false
    · rw [put, if_pos hrunning]
      exact h
    · refine h.of_same hdelivered (attempts_put s item) fun hended => ?_
      rw [sender_put] at hended
      exact absurd (h.ended hended).1 hrunning
  | resume hitem =>
    refine h.of_same hdelivered rfl fun hended => ?_
    rw [(h.ended hended).2.1] at hitem
    cases hitem
  | loop hsender =>
    refine h.of_same hdelivered rfl fun hended => ?_
    dsimp only at hended
    split_ifs at hended with hmore
    rw [not_or, not_not, Bool.not_eq_true] at hmore
    exact ⟨hmore.1, hundisturbed hmore.1 hmore.2, hmore.2⟩
  | timeout hsender => exact h.of_same hdelivered rfl fun hended => by cases hended
  | get hsender hqueue => exact h.of_same hdelivered rfl fun hended => by cases hended
  | sent hsender =>
    refine ⟨hdelivered, h.notCancelled_concat _ ?_, fun hended => by cases hended⟩
    exact fun h => by cases h
  | failed hsender =>
    refine ⟨hdelivered, h.notCancelled_concat _ ?_, fun hended => by cases hended⟩
    exact fun h => by cases h
  | flush => exact h.of_same hdelivered rfl h.ended
  | stop raiseOnError => exact h.of_same hdelivered rfl fun hended => ⟨rfl, (h.ended hended).2⟩
  | flushed hcall hphase hkind => exact h.of_same hdelivered rfl h.ended
  | cancel hcall hphase hkind => exact h.of_same hdelivered rfl h.ended
  | stopped hcall hphase hkind hitems =>
    have hstopped := h.delivered.stopped _ (List.mem_of_getElem? hcall) (ne_flush_of_stop hkind)
    refine h.of_same hdelivered rfl fun _ => ⟨hstopped, ?_⟩
    by_cases hended : s.sender = .ended
    · exact (h.ended hended).2
    · exact ⟨(hundisturbed hended).1, (hundisturbed hended).2.1⟩
  | broken hcall hphase hkind hsender =>
    -- the send that is broken off is what the condition excludes
    have hitems := (hundisturbed (by rw [hsender]; exact fun h => by cases h)).2.2
    rw [hsender] at hitems
    cases hitems

/-- An item that was put and will not be sent, or a send that was broken off. -/
def Lost (s : State α ε) : Prop :=
  s.sender = .ended ∧ (s.queue ≠ [] ∨ ∃ a ∈ s.attempts, a.2 = .cancelled)

theorem step_ended (hended : s.sender = .ended) (hs : step s e = some s') :
    s'.sender = .ended ∧ s'.attempts = s.attempts := by
  cases step_cases hs with
  | put item => exact ⟨(sender_put s item).trans hended, attempts_put s item⟩
  | resume hitem => exact ⟨hended, rfl⟩
  | flush => exact ⟨hended, rfl⟩
  | stop raiseOnError => exact ⟨hended, rfl⟩
  | flushed hcall hphase hkind => exact ⟨hended, rfl⟩
  | cancel hcall hphase hkind => exact ⟨hended, rfl⟩
  | stopped hcall hphase hkind hitems => exact ⟨rfl, rfl⟩
  | loop hsender | timeout hsender | get hsender | sent hsender | failed hsender
  | broken hcall hphase hkind hsender =>
    rw [hended] at hsender
    cases hsender

theorem run_ended (hended : s.sender = .ended) (hrun : Runs.run step s events = some s') :
    s'.attempts = s.attempts := by
  have h : s'.sender = .ended ∧ s'.attempts = s.attempts := by
    refine Runs.run_invariant (fun _ t => t.sender = .ended ∧ t.attempts = s.attempts)
      ⟨hended, rfl⟩ (fun events t e t' ht hs => ?_) hrun
    obtain ⟨hended', hattempts⟩ := step_ended ht.1 hs
    exact ⟨hended', hattempts.trans ht.2⟩
  exact h.2

/-- A put that waits goes through at a sender that has ended: its item is lost. -/
theorem exists_lost (hended : s.sender = .ended) (h : s.waiting ≠ [] ∨ s.queue ≠ []) :
    ∃ events s', Runs.run step s events = some s' ∧ Lost s' := by
  by_cases hqueue : s.queue = []
  · obtain ⟨item, waiting, hwaiting⟩ :=
      List.exists_cons_of_ne_nil (h.resolve_right (not_not.mpr hqueue))
    have hfull : s.full = false := by
      unfold State.full
      rw [hqueue]
      cases s.maxPending <;> rfl
    refine ⟨[.resume 0], { s with waiting := s.waiting.eraseIdx 0 }.store item, ?_, hended, .inl ?_⟩
    · show (step s (.resume 0)).bind some = _
      have hget : s.waiting[0]? = some item := by rw [hwaiting]; rfl
      simp [step, hget, hfull]
    · exact List.append_ne_nil_of_right_ne_nil _ (List.cons_ne_nil _ _)
  · exact ⟨[], s, rfl, hended, .inl hqueue⟩

theorem exists_lost_of_disturbed (hs : step s e = some s') (hdisturbed : ¬ Undisturbed s e) :
    ∃ events s'', Runs.run step s' events = some s'' ∧ Lost s'' := by
  cases step_cases hs with
  | loop hsender =>
    unfold Undisturbed at hdisturbed
    simp only [Classical.not_imp] at hdisturbed
    obtain ⟨hrunning, hqueue, hwaiting⟩ := hdisturbed
    refine exists_lost ?_ (.inl hwaiting)
    show (if s.running ∨ s.queue ≠ [] then Sender.getting else Sender.ended) = .ended
    rw [if_neg (by simp [hrunning, hqueue])]
  | stopped hcall hphase hkind hitems =>
    unfold Undisturbed at hdisturbed
    rw [Classical.not_imp] at hdisturbed
    have hleft : s.waiting ≠ [] ∨ s.queue ≠ [] := by
      by_contra h
      rw [not_or, not_not, not_not] at h
      exact hdisturbed.2 ⟨h.1, h.2, hitems⟩
    exact exists_lost rfl hleft
  | @broken i call raiseOnError item hcall hphase hkind hsender =>
    refine ⟨[], _, rfl, rfl, .inr ⟨(item, .cancelled), ?_, rfl⟩⟩
    exact List.mem_append_right _ (List.mem_singleton_self _)
  | put | resume | timeout | get | sent | failed | flush | stop | flushed | cancel =>
    exact absurd trivial hdisturbed

/-! ### Stopping with no put under way -/

/-- `stop` is only called while no put waits. -/
def StopsIdle (s : State α ε) : Event α ε → Prop
  | .stop _ => s.waiting = []
  | _ => True

instance [DecidableEq α] : ∀ (s : State α ε) (e : Event α ε), Decidable (StopsIdle s e)
  | s, .stop _ => inferInstanceAs (Decidable (s.waiting = []))
  | _, .put _ | _, .resume _ | _, .loop | _, .timeout | _, .get | _, .sent | _, .failed _
  | _, .flush | _, .joined _ | _, .stopped _ => .isTrue trivial

structure Idle (s : State α ε) : Prop where
  delivered : Delivered s
  waiting : s.running = false → s.waiting = []
  settled : ∀ call ∈ s.calls, call.kind ≠ .flush →
    call.phase = .joined ∨ call.phase = .cancelling → s.unfinished = 0

theorem idle_init (maxPending : ℕ) : Idle (init maxPending : State α ε) where
  delivered := delivered_init maxPending
  waiting := fun _ => rfl
  settled := fun _ h => absurd h List.not_mem_nil

/-- Nothing is stored after `stop` is called. -/
theorem Idle.of_running (h : Idle s) (hrunning : s.running ≠ false) (hdelivered : Delivered s')
    (hrunning' : s'.running = s.running) (hcalls : s'.calls = s.calls) : Idle s' := by
  refine ⟨hdelivered, fun hstop => ?_, fun call hcall hkind _ => ?_⟩
  · exact absurd (hrunning'.symm.trans hstop) hrunning
  · exact absurd (h.delivered.stopped call (hcalls ▸ hcall) hkind) hrunning

/-- A step that leaves `stop`, what waits and what is unfinished alone. -/
theorem Idle.of_same (h : Idle s) (hdelivered : Delivered s') (hrunning : s'.running = s.running)
    (hwaiting : s'.waiting = s.waiting) (hunfinished : s'.unfinished = s.unfinished)
    (hcalls : s'.calls = s.calls) : Idle s' := by
  refine ⟨hdelivered, fun hstop => ?_, fun call hcall hkind hphase => ?_⟩
  · rw [hwaiting]
    exact h.waiting (hrunning ▸ hstop)
  · rw [hunfinished]
    exact h.settled call (hcalls ▸ hcall) hkind hphase

theorem Idle.taskDone (h : Idle s) (hdelivered : Delivered s')
    (hrunning : s'.running = s.running) (hwaiting : s'.waiting = s.waiting)
    (hunfinished : s'.unfinished = s.unfinished - 1)
    (hcalls : s'.calls = if s.unfinished - 1 = 0 then s.calls.map Call.wake else s.calls) :
    Idle s' := by
  refine ⟨hdelivered, fun hstop => ?_, fun call hcall hkind hphase => ?_⟩
  · rw [hwaiting]
    exact h.waiting (hrunning ▸ hstop)
  · rw [hcalls] at hcall
    rw [hunfinished]
    by_cases hzero : s.unfinished - 1 = 0
    · exact hzero
    · rw [if_neg hzero] at hcall
      rw [h.settled call hcall hkind hphase]

/-- With nothing unfinished, the sender has nothing in hand and nothing to fetch. -/
theorem Delivered.idle (h : Delivered s) (hzero : s.unfinished = 0) :
    s.queue = [] ∧ s.sender.items = [] := by
  have hlength := h.unfinished
  rw [hzero] at hlength
  exact ⟨List.length_eq_zero_iff.mp (by omega), List.length_eq_zero_iff.mp (by omega)⟩

/-- A call that came out of `join` moves on. -/
theorem Idle.setPhase (h : Idle s) {i : ℕ} {call : Call} {phase : Phase}
    (hcall : s.calls[i]? = some call) (hdelivered : Delivered (s.setPhase i call phase))
    (hphase : call.phase = .joined) : Idle (s.setPhase i call phase) := by
  refine ⟨hdelivered, h.waiting, fun other hother hkind hmoved => ?_⟩
  rcases List.mem_or_eq_of_mem_set hother with hother | rfl
  · exact h.settled other hother hkind hmoved
  · exact h.settled call (List.mem_of_getElem? hcall) hkind (.inl hphase)

/-- A new call, that of `stop` with no put waiting. -/
theorem Idle.beginCall (h : Idle s) {kind : Kind} {running : Bool}
    (hdelivered : Delivered ({ s with running }.beginCall kind))
    (hwaiting : running = false → s.waiting = []) :
    Idle ({ s with running }.beginCall kind) := by
  refine ⟨hdelivered, hwaiting, fun call hcall hkind hphase => ?_⟩
  rcases List.mem_append.mp hcall with hcall | hcall
  · exact h.settled call hcall hkind hphase
  · obtain rfl := List.mem_singleton.mp hcall
    dsimp only at hphase
    show s.unfinished = 0
    by_contra hunfinished
    rw [if_neg hunfinished] at hphase
    rcases hphase with hphase | hphase
    · cases hphase
    · cases hphase

theorem Idle.step (h : Idle s) (hstop : StopsIdle s e)
    (hs : AsyncOutputBuffer.step s e = some s') : Idle s' ∧ Undisturbed s e := by
  have hdelivered := h.delivered.step hs
  cases step_cases hs with
  | put item =>
    refine ⟨?_, trivial⟩
    by_cases hrunning : s.running = false
    · rw [put, if_pos hrunning]
      exact h
    · refine h.of_running hrunning hdelivered ?_ ?_
      · unfold put
        split_ifs <;> rfl
      · unfold put
        split_ifs <;> rfl
  | resume hitem =>
    refine ⟨h.of_running (fun hrunning => ?_) hdelivered rfl rfl, trivial⟩
    rw [h.waiting hrunning] at hitem
    cases hitem
  | loop hsender =>
    exact ⟨h.of_same hdelivered rfl rfl rfl rfl, fun hrunning _ => h.waiting hrunning⟩
  | timeout hsender => exact ⟨h.of_same hdelivered rfl rfl rfl rfl, trivial⟩
  | get hsender hqueue => exact ⟨h.of_same hdelivered rfl rfl rfl rfl, trivial⟩
  | sent hsender => exact ⟨h.taskDone hdelivered rfl rfl rfl rfl, trivial⟩
  | failed hsender => exact ⟨h.taskDone hdelivered rfl rfl rfl rfl, trivial⟩
  | flush => exact ⟨h.beginCall hdelivered h.waiting, trivial⟩
  | stop raiseOnError => exact ⟨h.beginCall hdelivered fun _ => hstop, trivial⟩
  | flushed hcall hphase hkind => exact ⟨h.setPhase hcall hdelivered hphase, trivial⟩
  | cancel hcall hphase hkind => exact ⟨h.setPhase hcall hdelivered hphase, trivial⟩
  | stopped hcall hphase hkind hitems =>
    have hmem := List.mem_of_getElem? hcall
    have hwaiting := h.waiting (h.delivered.stopped _ hmem (ne_flush_of_stop hkind))
    have hzero := h.settled _ hmem (ne_flush_of_stop hkind) (.inr hphase)
    exact ⟨⟨hdelivered, h.waiting, fun _ _ _ _ => hzero⟩,
      fun _ => ⟨hwaiting, h.delivered.idle hzero⟩⟩
  | broken hcall hphase hkind hsender =>
    -- `stop` came out of `join`, so there is no send to break off
    have hzero := h.settled _ (List.mem_of_getElem? hcall) (ne_flush_of_stop hkind) (.inr hphase)
    have hitems := (h.delivered.idle hzero).2
    rw [hsender] at hitems
    cases hitems

/-- Whoever stops the buffer after its puts have returned has nothing to fear. -/
theorem undisturbed_of_stopsIdle {maxPending : ℕ}
    (h : Runs.Along step StopsIdle (init maxPending : State α ε) events) :
    Runs.Along step Undisturbed (init maxPending : State α ε) events :=
  h.imp (idle_init maxPending) fun _ _ _ hidle hstop hs => hidle.step hstop hs

/-! ### Delivery -/

/-- In order and exactly once. In every run in which the sender is only ended when nothing is
left to send and no put is under way, the items of completed puts are, in their order, those that
`push_fn` was called with and those that it will be called with. `flush` and `stop` return after
the attempts at all items put before them, and raise exactly when one of the attempts so far has
failed; after `stop`, every item was attempted. At any other step an item can get lost. -/
theorem delivered_exactly_once (maxPending : ℕ) (events : List (Event α ε)) (s : State α ε)
    (hrun : Runs.run step (init maxPending) events = some s) :
    (Runs.Along step Undisturbed (init maxPending) events →
      s.completed = s.attempts.map Prod.fst ++ s.sender.items ++ s.queue ∧
      (∀ a ∈ s.attempts, a.2 ≠ .cancelled) ∧
      (s.sender = .ended → s.waiting = [] ∧ s.completed = s.attempts.map Prod.fst) ∧
      ∀ call ∈ s.calls, ∀ raised attempted, call.phase = .returned raised attempted →
        s.completed.take call.completedBefore <+: (s.attempts.take attempted).map Prod.fst ∧
        (raised = true ↔ call.kind.raises = true ∧
          ∃ a ∈ s.attempts.take attempted, ∃ error, a.2 = .failed error) ∧
        (call.kind ≠ .flush → s.sender = .ended)) ∧
      ∀ e s', step s e = some s' → ¬ Undisturbed s e →
        ∃ events' s'', Runs.run step s' events' = some s'' ∧ Lost s'' := by
  have hdelivered : Delivered s :=
    Runs.run_invariant (fun _ => Delivered) (delivered_init maxPending)
      (fun _ _ _ _ h hs => h.step hs) hrun
  refine ⟨fun halong => ?_, fun e s' hs hdisturbed => exists_lost_of_disturbed hs hdisturbed⟩
  have hintact : Intact s := Runs.run_invariant_along (intact_init maxPending)
    (fun _ _ _ h hundisturbed hs => h.step hundisturbed hs) halong hrun
  refine ⟨hdelivered.completed, hintact.notCancelled, fun hended => ?_, ?_⟩
  · obtain ⟨-, hwaiting, hqueue⟩ := hintact.ended hended
    have hcompleted := hdelivered.completed
    rw [hended, hqueue, List.append_nil] at hcompleted
    exact ⟨hwaiting, hcompleted.trans (List.append_nil _)⟩
  · intro call hcall raised attempted hphase
    obtain ⟨hbefore, hsound⟩ := hdelivered.sound call hcall
    rw [hphase] at hsound
    obtain ⟨hle, hattempted, hraised, hended⟩ := hsound
    refine ⟨?_, ?_, hended⟩
    · have hlength : attempted ≤ (s.attempts.map Prod.fst).length := by
        rw [List.length_map]
        exact hattempted
      rw [hdelivered.completed, List.append_assoc,
        List.take_append_of_le_length (Nat.le_trans hle hlength), List.map_take]
      exact List.take_prefix_take_left hle
    · rw [hraised, Bool.and_eq_true, someFailed, List.any_eq_true]
      refine and_congr_right fun _ => exists_congr fun a => and_congr_right fun _ => ?_
      rcases a.2 with - | error | -
      · simp [Outcome.isFailed]
      · simp [Outcome.isFailed]
      · simp [Outcome.isFailed]

/-- A failed send, and a stop after all puts have returned. -/
theorem delivered_exactly_once_failed :
    let events : List (Event ℕ Unit) := [.put 1, .put 2, .loop, .get, .resume 0, .failed (), .flush,
      .loop, .get, .sent, .joined 0, .stop true, .joined 1, .stopped 1]
    ∃ s, Runs.run step (init 1) events = some s ∧ s.completed = s.attempts.map Prod.fst ∧
      s.attempts = [(1, .failed ()), (2, .sent)] ∧
      s.calls = [⟨.flush, 2, .returned true 2⟩, ⟨.stop true, 2, .returned true 2⟩] := by
  intro events
  obtain ⟨s, hs⟩ : ∃ s, Runs.run step (init 1 : State ℕ Unit) events = some s := ⟨_, rfl⟩
  have hidle : Runs.Along step StopsIdle (init 1 : State ℕ Unit) events :=
    Runs.along_of_check rfl
  obtain ⟨-, -, hended, -⟩ := (delivered_exactly_once 1 events s hs).1
    (undisturbed_of_stopsIdle hidle)
  have hs' := Option.some.inj hs
  refine ⟨s, hs, (hended ?_).2, ?_, ?_⟩
  · rw [← hs']
  · rw [← hs']
    rfl
  · rw [← hs']
    rfl

/-- The second put waits while `stop` is called. The send of the first item takes no time, so the
sender finds the queue empty and leaves; the put is completed all the same, `stop` returns, and
the second item is never sent. -/
theorem put_lost_at_stop :
    let events : List (Event ℕ Unit) := [.put 1, .put 2, .stop true, .loop, .get, .sent, .loop,
      .resume 0, .joined 0, .stopped 0]
    ∃ s, Runs.run step (init 1) events = some s ∧ s.completed = [1, 2] ∧
      s.calls = [⟨.stop true, 1, .returned false 1⟩] ∧
      ∀ events' s', Runs.run step s events' = some s' → s'.attempts = [(1, .sent)] := by
  intro events
  obtain ⟨s, hs⟩ : ∃ s, Runs.run step (init 1 : State ℕ Unit) events = some s := ⟨_, rfl⟩
  have hs' := Option.some.inj hs
  refine ⟨s, hs, ?_, ?_, fun events' s' hrun => ?_⟩
  · rw [← hs']
    rfl
  · rw [← hs']
    rfl
  · have hended : s.sender = .ended := by
      rw [← hs']
    rw [run_ended hended hrun, ← hs']
    rfl

end BloomBee.AsyncOutputBuffer
