import BloomBee.Spec.AsyncOutputBuffer

/-! What every step of the output buffer keeps, however it is stopped: the items of completed
puts are, in their order, those that `push_fn` was called with, the one it is called with and
those in the queue; and a call that came out of `join` is later than all it waited for. -/

set_option autoImplicit false

namespace BloomBee.AsyncOutputBuffer

variable {α ε : Type}

def Sender.items : Sender α → List α
  | .pushing item => [item]
  | _ => []

def Outcome.isFailed : Outcome ε → Bool
  | .failed _ => true
  | _ => false

def Kind.raises : Kind → Bool
  | .flush => true
  | .stop raiseOnError => raiseOnError

def someFailed (attempts : List (α × Outcome ε)) : Bool := attempts.any fun a => a.2.isFailed

/-- What a call of `flush` or `stop` knows of the attempts so far, and `stop` of the sender. -/
def Call.Sound (call : Call) (completed : List α) (attempts : List (α × Outcome ε))
    (ended : Prop) : Prop :=
  call.completedBefore ≤ completed.length ∧
    match call.phase with
    | .joining => True
    | .joined | .cancelling => call.completedBefore ≤ attempts.length
    | .returned raised attempted => call.completedBefore ≤ attempted ∧
        attempted ≤ attempts.length ∧
        raised = (call.kind.raises && someFailed (attempts.take attempted)) ∧
        (call.kind ≠ .flush → ended)

structure Delivered (s : State α ε) : Prop where
  completed : s.completed = s.attempts.map Prod.fst ++ s.sender.items ++ s.queue
  unfinished : s.unfinished = s.sender.items.length + s.queue.length
  firstError : s.firstError.isSome = someFailed s.attempts
  sound : ∀ call ∈ s.calls, call.Sound s.completed s.attempts (s.sender = .ended)
  stopped : ∀ call ∈ s.calls, call.kind ≠ .flush → s.running = false

variable {s s' : State α ε} {call : Call}

theorem delivered_init (maxPending : ℕ) : Delivered (init maxPending : State α ε) where
  completed := rfl
  unfinished := rfl
  firstError := rfl
  sound := fun _ h => absurd h List.not_mem_nil
  stopped := fun _ h => absurd h List.not_mem_nil

theorem Call.Sound.mono {completed : List α} {attempts : List (α × Outcome ε)}
    {ended ended' : Prop} (h : call.Sound completed attempts ended) (items : List α) (more : List (α × Outcome ε))
    (hended : ended → ended') : call.Sound (completed ++ items) (attempts ++ more) ended' := by
  obtain ⟨hbefore, h⟩ := h
  refine ⟨Nat.le_trans hbefore (by simp), ?_⟩
  rcases hphase : call.phase with - | - | - | ⟨raised, attempted⟩
  · trivial
  · rw [hphase] at h
    exact Nat.le_trans h (by simp)
  · rw [hphase] at h
    exact Nat.le_trans h (by simp)
  · rw [hphase] at h
    obtain ⟨hle, hattempted, hraised, hkind⟩ := h
    refine ⟨hle, Nat.le_trans hattempted (by simp), ?_, fun hne => hended (hkind hne)⟩
    rw [List.take_append_of_le_length hattempted]
    exact hraised

theorem kind_wake (call : Call) : call.wake.kind = call.kind := by
  unfold Call.wake
  split <;> rfl

theorem Call.Sound.wake {completed : List α} {attempts : List (α × Outcome ε)} {ended : Prop}
    (h : call.Sound completed attempts ended) (hall : completed.length ≤ attempts.length) :
    call.wake.Sound completed attempts ended := by
  unfold Call.wake
  rcases hphase : call.phase with - | - | - | ⟨raised, attempted⟩
  · exact ⟨h.1, Nat.le_trans h.1 hall⟩
  · exact h
  · exact h
  · exact h

theorem Delivered.store (h : Delivered s) (item : α) : Delivered (s.store item) where
  completed := by
    show s.completed ++ [item] = _ ++ (s.queue ++ [item])
    rw [h.completed, List.append_assoc]
    rfl
  unfinished := by
    show s.unfinished + 1 = s.sender.items.length + (s.queue ++ [item]).length
    rw [h.unfinished, List.length_append]
    rfl
  firstError := h.firstError
  sound := fun call hcall => by
    have := (h.sound call hcall).mono [item] [] id
    rwa [List.append_nil] at this
  stopped := h.stopped

theorem Delivered.taskDone (h : Delivered s) {item : α} (hsender : s.sender = .pushing item)
    (outcome : Outcome ε) {next : Sender α} (hnext : next.items = []) :
    Delivered { s.taskDone item outcome with
      sender := next
      firstError := match outcome with
        | .failed error => s.firstError.or (some error)
        | _ => s.firstError } := by
  have hitems : s.sender.items = [item] := by rw [hsender]; rfl
  have hcompleted := h.completed
  have hunfinished := h.unfinished
  rw [hitems] at hcompleted hunfinished
  have hsound : ∀ call ∈ s.calls,
      call.Sound s.completed (s.attempts ++ [(item, outcome)]) (next = .ended) := by
    intro call hcall
    have hmono : call.Sound (s.completed ++ []) (s.attempts ++ [(item, outcome)]) (next = .ended) :=
      (h.sound call hcall).mono _ _ fun hended => by
        rw [hsender] at hended
        cases hended
    rwa [List.append_nil] at hmono
  refine ⟨?_, ?_, ?_, ?_, ?_⟩
  · show s.completed = (s.attempts ++ [(item, outcome)]).map Prod.fst ++ next.items ++ s.queue
    rw [hcompleted, hnext, List.map_append, List.append_nil]
    rfl
  · show s.unfinished - 1 = next.items.length + s.queue.length
    rw [hunfinished, hnext, List.length_singleton, List.length_nil]
    omega
  · have hfirst := h.firstError
    unfold someFailed at hfirst ⊢
    show _ = (s.attempts ++ [(item, outcome)]).any fun a => a.2.isFailed
    rw [List.any_append, ← hfirst]
    cases outcome with
    | sent => simp [Outcome.isFailed]
    | failed error => simp [Outcome.isFailed]
    | cancelled => simp [Outcome.isFailed]
  · show ∀ call ∈ if s.unfinished - 1 = 0 then s.calls.map Call.wake else s.calls, _
    intro call hcall
    split_ifs at hcall with hzero
    · obtain ⟨old, hold, rfl⟩ := List.mem_map.mp hcall
      refine (hsound old hold).wake ?_
      have hqueue : s.queue.length = 0 := by
        rw [hunfinished, List.length_singleton] at hzero
        omega
      rw [hcompleted]
      simp [hqueue]
    · exact hsound call hcall
  · show ∀ call ∈ if s.unfinished - 1 = 0 then s.calls.map Call.wake else s.calls, _
    intro call hcall hkind
    split_ifs at hcall with hzero
    · obtain ⟨old, hold, rfl⟩ := List.mem_map.mp hcall
      rw [kind_wake] at hkind
      exact h.stopped old hold hkind
    · exact h.stopped call hcall hkind

theorem Delivered.length_le (h : Delivered s) (hzero : s.unfinished = 0) :
    s.completed.length ≤ s.attempts.length := by
  have hunfinished := h.unfinished
  rw [h.completed]
  simp only [List.length_append, List.length_map]
  omega

theorem Delivered.beginCall (h : Delivered s) {kind : Kind}
    (hkind : kind ≠ .flush → s.running = false) : Delivered (s.beginCall kind) where
  completed := h.completed
  unfinished := h.unfinished
  firstError := h.firstError
  sound := fun call hcall => by
    rcases List.mem_append.mp hcall with hcall | hcall
    · exact h.sound call hcall
    · obtain rfl := List.mem_singleton.mp hcall
      refine ⟨Nat.le_refl _, ?_⟩
      show match (if s.unfinished = 0 then Phase.joined else .joining) with
        | .joining => True
        | .joined | .cancelling => s.completed.length ≤ s.attempts.length
        | .returned raised attempted => _
      split_ifs with hzero
      · exact h.length_le hzero
      · trivial
  stopped := fun call hcall hne => by
    rcases List.mem_append.mp hcall with hcall | hcall
    · exact h.stopped call hcall hne
    · obtain rfl := List.mem_singleton.mp hcall
      exact hkind hne

theorem Delivered.setPhase (h : Delivered s) {i : ℕ} (hcall : s.calls[i]? = some call)
    {phase : Phase}
    (hphase : Call.Sound { call with phase } s.completed s.attempts (s.sender = .ended)) :
    Delivered (s.setPhase i call phase) where
  completed := h.completed
  unfinished := h.unfinished
  firstError := h.firstError
  sound := fun other hother => by
    rcases List.mem_or_eq_of_mem_set hother with hother | rfl
    · exact h.sound other hother
    · exact hphase
  stopped := fun other hother hne => by
    rcases List.mem_or_eq_of_mem_set hother with hother | rfl
    · exact h.stopped other hother hne
    · exact h.stopped call (List.mem_of_getElem? hcall) hne

theorem Delivered.returned (h : Delivered s) {i : ℕ} (hcall : s.calls[i]? = some call)
    (hle : call.completedBefore ≤ s.attempts.length)
    (hended : call.kind ≠ .flush → s.sender = .ended) :
    Delivered (s.setPhase i call
      (.returned (call.kind.raises && s.firstError.isSome) s.attempts.length)) := by
  refine h.setPhase hcall
    ⟨(h.sound call (List.mem_of_getElem? hcall)).1, hle, Nat.le_refl _, ?_, hended⟩
  rw [List.take_length, h.firstError]

theorem Delivered.moveSender (h : Delivered s) {next : Sender α}
    (hnext : next.items = s.sender.items) (hended : s.sender = .ended → next = .ended) :
    Delivered { s with sender := next } := by
  refine ⟨?_, ?_, h.firstError, fun call hcall => ?_, h.stopped⟩
  · show s.completed = s.attempts.map Prod.fst ++ next.items ++ s.queue
    rw [hnext]
    exact h.completed
  · show s.unfinished = next.items.length + s.queue.length
    rw [hnext]
    exact h.unfinished
  · have := (h.sound call hcall).mono [] [] hended
    rwa [List.append_nil, List.append_nil] at this

/-! ### The steps -/

inductive Step (s : State α ε) : Event α ε → State α ε → Prop where
  | put (item : α) : Step s (.put item) (put s item)
  | resume {i : ℕ} {item : α} (hitem : s.waiting[i]? = some item) :
      Step s (.resume i) ({ s with waiting := s.waiting.eraseIdx i }.store item)
  | loop (hsender : s.sender = .looping) :
      Step s .loop { s with sender := if s.running ∨ s.queue ≠ [] then .getting else .ended }
  | timeout (hsender : s.sender = .getting) : Step s .timeout { s with sender := .looping }
  | get {item : α} {queue : List α} (hsender : s.sender = .getting)
      (hqueue : s.queue = item :: queue) :
      Step s .get { s with queue, sender := .pushing item }
  | sent {item : α} (hsender : s.sender = .pushing item) :
      Step s .sent { s.taskDone item .sent with sender := .looping }
  | failed {item : α} {error : ε} (hsender : s.sender = .pushing item) :
      Step s (.failed error)
        { s.taskDone item (.failed error) with
          sender := .looping
          firstError := s.firstError.or (some error) }
  | flush : Step s .flush (s.beginCall .flush)
  | stop (raiseOnError : Bool) :
      Step s (.stop raiseOnError) ({ s with running := false }.beginCall (.stop raiseOnError))
  | flushed {i : ℕ} {call : Call} (hcall : s.calls[i]? = some call)
      (hphase : call.phase = .joined) (hkind : call.kind = .flush) :
      Step s (.joined i) (s.setPhase i call (.returned s.firstError.isSome s.attempts.length))
  | cancel {i : ℕ} {call : Call} {raiseOnError : Bool} (hcall : s.calls[i]? = some call)
      (hphase : call.phase = .joined) (hkind : call.kind = .stop raiseOnError) :
      Step s (.joined i) (s.setPhase i call .cancelling)
  | stopped {i : ℕ} {call : Call} {raiseOnError : Bool} (hcall : s.calls[i]? = some call)
      (hphase : call.phase = .cancelling) (hkind : call.kind = .stop raiseOnError)
      (hitems : s.sender.items = []) :
      Step s (.stopped i)
        { s.setPhase i call (.returned (raiseOnError && s.firstError.isSome) s.attempts.length) with
          sender := .ended }
  | broken {i : ℕ} {call : Call} {raiseOnError : Bool} {item : α}
      (hcall : s.calls[i]? = some call) (hphase : call.phase = .cancelling)
      (hkind : call.kind = .stop raiseOnError) (hsender : s.sender = .pushing item) :
      Step s (.stopped i)
        { (s.taskDone item .cancelled).setPhase i call
            (.returned (raiseOnError && s.firstError.isSome)
              (s.taskDone item .cancelled).attempts.length) with
          sender := .ended }

theorem step_cases {e : Event α ε} (hs : step s e = some s') : Step s e s' := by
  cases e with
  | put item =>
    obtain rfl := Option.some.inj hs
    exact .put item
  | resume i =>
    simp only [step] at hs
    split at hs
    · rename_i item hitem
      split_ifs at hs
      obtain rfl := Option.some.inj hs
      exact .resume hitem
    · cases hs
  | flush =>
    obtain rfl := Option.some.inj hs
    exact .flush
  | stop raiseOnError =>
    simp only [step] at hs
    split_ifs at hs
    obtain rfl := Option.some.inj hs
    exact .stop raiseOnError
  | joined i =>
    simp only [step] at hs
    split at hs
    · rename_i call hcall
      split_ifs at hs with hphase
      split at hs
      · rename_i hkind
        obtain rfl := Option.some.inj hs
        exact .flushed hcall hphase hkind
      · rename_i raiseOnError hkind
        obtain rfl := Option.some.inj hs
        exact .cancel hcall hphase hkind
    · cases hs
  | stopped i =>
    simp only [step] at hs
    split at hs
    · rename_i call hcall
      split at hs
      · rename_i raiseOnError hphase hkind
        obtain rfl := Option.some.inj hs
        rcases hsender : s.sender with - | - | item | -
        · exact .stopped hcall hphase hkind (by rw [hsender]; rfl)
        · exact .stopped hcall hphase hkind (by rw [hsender]; rfl)
        · exact .broken hcall hphase hkind hsender
        · exact .stopped hcall hphase hkind (by rw [hsender]; rfl)
      · cases hs
    · cases hs
  | loop =>
    simp only [step] at hs
    split at hs
    · rename_i hsender
      obtain rfl := Option.some.inj hs
      exact .loop hsender
    · cases hs
  | timeout =>
    simp only [step] at hs
    split at hs
    · rename_i hsender
      obtain rfl := Option.some.inj hs
      exact .timeout hsender
    · cases hs
  | get =>
    simp only [step] at hs
    split at hs
    · rename_i item queue hsender hqueue
      obtain rfl := Option.some.inj hs
      exact .get hsender hqueue
    · cases hs
  | sent =>
    simp only [step] at hs
    split at hs
    · rename_i item hsender
      obtain rfl := Option.some.inj hs
      exact .sent hsender
    · cases hs
  | failed error =>
    simp only [step] at hs
    split at hs
    · rename_i item hsender
      obtain rfl := Option.some.inj hs
      exact .failed hsender
    · cases hs

theorem Delivered.step (h : Delivered s) {e : Event α ε}
    (hs : AsyncOutputBuffer.step s e = some s') : Delivered s' := by
  cases step_cases hs with
  | put item =>
    unfold put
    split_ifs
    · exact h
    · exact h
    · exact ⟨h.completed, h.unfinished, h.firstError, h.sound, h.stopped⟩
    · exact h.store item
  | @resume i item =>
    exact Delivered.store (s := { s with waiting := s.waiting.eraseIdx i })
      ⟨h.completed, h.unfinished, h.firstError, h.sound, h.stopped⟩ item
  | loop hsender =>
    refine h.moveSender ?_ fun hended => ?_
    · rw [hsender]
      split_ifs <;> rfl
    · rw [hsender] at hended
      cases hended
  | timeout hsender =>
    refine h.moveSender (by rw [hsender]; rfl) fun hended => ?_
    rw [hsender] at hended
    cases hended
  | @get item queue hsender hqueue =>
    have hcompleted := h.completed
    have hunfinished := h.unfinished
    rw [hsender, hqueue] at hcompleted hunfinished
    refine ⟨?_, ?_, h.firstError, fun call hcall => ?_, h.stopped⟩
    · show s.completed = s.attempts.map Prod.fst ++ [item] ++ queue
      rw [hcompleted, List.append_assoc, List.append_assoc]
      rfl
    · show s.unfinished = 1 + queue.length
      rw [hunfinished, List.length_cons]
      show 0 + (queue.length + 1) = _
      omega
    · have hmono : call.Sound (s.completed ++ []) (s.attempts ++ [])
          (Sender.pushing item = .ended) := (h.sound call hcall).mono _ _ fun hended => by
        rw [hsender] at hended
        cases hended
      rwa [List.append_nil, List.append_nil] at hmono
  | sent hsender => exact h.taskDone hsender .sent rfl
  | @failed item error hsender => exact h.taskDone hsender (.failed error) rfl
  | flush => exact h.beginCall fun hne => absurd rfl hne
  | stop raiseOnError =>
    exact Delivered.beginCall (s := { s with running := false })
      ⟨h.completed, h.unfinished, h.firstError, h.sound, fun _ _ _ => rfl⟩ fun _ => rfl
  | @flushed i call hcall hphase hkind =>
    have hle := (h.sound call (List.mem_of_getElem? hcall)).2
    rw [hphase] at hle
    have hreturned := h.returned hcall hle fun hne => absurd hkind hne
    have hraises : call.kind.raises = true := by rw [hkind]; rfl
    rw [hraises, Bool.true_and] at hreturned
    exact hreturned
  | @cancel i call raiseOnError hcall hphase hkind =>
    have hsound := h.sound call (List.mem_of_getElem? hcall)
    have hle := hsound.2
    rw [hphase] at hle
    exact h.setPhase hcall ⟨hsound.1, hle⟩
  | @stopped i call raiseOnError hcall hphase hkind hitems =>
    have hle := (h.sound call (List.mem_of_getElem? hcall)).2
    rw [hphase] at hle
    have hraises : raiseOnError = call.kind.raises := by rw [hkind]; rfl
    rw [hraises]
    have hended : (Sender.ended : Sender α).items = s.sender.items := hitems.symm
    exact (h.moveSender hended fun _ => rfl).returned hcall hle fun _ => rfl
  | @broken i call raiseOnError item hcall hphase hkind hsender =>
    have hle := (h.sound call (List.mem_of_getElem? hcall)).2
    rw [hphase] at hle
    have hraises : raiseOnError = call.kind.raises := by rw [hkind]; rfl
    rw [hraises]
    have hwake : call.wake = call := by
      unfold Call.wake
      rw [hphase]
    have hcall' : (s.taskDone item .cancelled).calls[i]? = some call := by
      show (if s.unfinished - 1 = 0 then s.calls.map Call.wake else s.calls)[i]? = some call
      split_ifs
      · rw [List.getElem?_map, hcall, Option.map_some, hwake]
      · exact hcall
    exact (h.taskDone hsender .cancelled (rfl : (Sender.ended : Sender α).items = [])).returned
      hcall' (Nat.le_trans hle (by simp [State.taskDone])) fun _ => rfl

end BloomBee.AsyncOutputBuffer
