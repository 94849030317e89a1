import Mathlib.Data.List.Nodup
import Mathlib.Data.List.Perm.Basic
import Mathlib.Data.List.ReduceOption
import BloomBee.Spec.TaskPoolCalls

/-! Where a task is on its way through the pool, and that every step of a call keeps account of
it. -/

set_option autoImplicit false

namespace BloomBee.TaskPoolCalls

variable {V ε : Type} {config : Config} {w w' : World V ε} {s s' : State V ε} {c c' : Call V ε}
  {before after : List (Call V ε)}

def fits (config : Config) (task : Task V) : Bool :=
  (getTaskSize task.args).all fun size => decide ((size : ℤ) ≤ config.maxBatchSize)

def Call.rejected : Call V ε → List (Task V)
  | .rejecting task => [task]
  | _ => []

def Call.undispatched : Call V ε → List (Task V)
  | .putting task => [task]
  | .timing load => [load.task]
  | .dispatching load => [load.task]
  | _ => []

def Call.delivered : Call V ε → List ℕ
  | .receiving load => [load.task.uid]
  | .returning load => [load.task.uid]
  | .answering uid _ => [uid]
  | .popping uid _ => [uid]
  | .resolving task _ => [task.uid]
  | _ => []

def Call.loads : Call V ε → List (Load V)
  | .timing load => [load]
  | .dispatching load => [load]
  | .receiving load => [load]
  | .returning load => [load]
  | _ => []

def Call.unsent : Call V ε → Bool
  | .putting _ => true
  | .sending _ => true
  | _ => false

def Call.unreceived : Call V ε → Bool
  | .receiving _ => true
  | _ => false

def Thread.held : Thread V → List (Task V)
  | .putting task => [task]
  | _ => []

def Reply.rejects : Reply V ε → Bool
  | .tooLarge _ => true
  | _ => false

def World.queued (w : World V ε) : List (Task V) :=
  w.submittedTasks.reduceOption ++ (w.thread.held ++ w.orderedTasks)

def World.loaded (w : World V ε) : List ℕ :=
  (w.unanswered.map fun load => load.task.uid) ++
    (w.futures.filter fun f => !f.2.rejects).map Prod.fst

def World.refused (w : World V ε) : List ℕ :=
  (w.futures.filter fun f => f.2.rejects).map Prod.fst

structure Placed (config : Config) (s : State V ε) : Prop where
  sized : ∀ task ∈ s.world.submitted, ∃ size, getTaskSize task.args = some size
  accepted : (s.world.submitted.filter (fits config)).Perm
    (s.calls.flatMap Call.undispatched ++ (s.world.queued ++ s.world.dispatched))
  delivered : (s.world.dispatched.map Task.uid).Perm
    (s.calls.flatMap Call.delivered ++ s.world.loaded)
  rejected : ((s.world.submitted.filter fun task => !fits config task).map Task.uid).Perm
    ((s.calls.flatMap Call.rejected).map Task.uid ++ s.world.refused)
  pipe : s.world.pipe + s.world.dispatched.length + s.calls.countP Call.unsent =
    (s.world.submitted.filter (fits config)).length + s.calls.countP Call.unreceived

theorem Answer.rejects_reply (trackTransferTiming : Bool) (timing : Option RuntimeTiming)
    (answer : Answer V ε) : (answer.reply trackTransferTiming timing).rejects = false := by
  cases answer <;> rfl

theorem exists_split_of_getElem? {α : Type*} {l : List α} {i : ℕ} {a : α} (h : l[i]? = some a) :
    ∃ before after, l = before ++ a :: after ∧ l.eraseIdx i = before ++ after ∧
      ∀ b, l.set i b = before ++ b :: after := by
  obtain ⟨hlt, rfl⟩ := List.getElem?_eq_some_iff.mp h
  refine ⟨l.take i, l.drop (i + 1), ?_, List.eraseIdx_eq_take_drop_succ l i, fun b => ?_⟩
  · rw [← List.drop_eq_getElem_cons hlt, List.take_append_drop]
  · rw [List.set_eq_take_append_cons_drop, if_pos hlt]

/-! ### What a call knows -/

structure Stored (config : Config) (w : World V ε) (load : Load V) : Prop where
  task : w.dispatchedTasks.get? load.task.uid = some load.task
  timing : config.trackTransferTiming = true →
    w.runtimeTransferTimings.get? load.task.uid = some load.timing

structure Answered (config : Config) (w : World V ε) (uid : ℕ) (reply : Reply V ε) (load : Load V)
    (answer : Answer V ε) : Prop where
  mem : (load, answer) ∈ w.answers
  uid : load.task.uid = uid
  reply : reply = answer.reply config.trackTransferTiming (some load.timing)

def Call.Fine (config : Config) (w : World V ε) : Call V ε → Prop
  | .rejecting task => task ∈ w.submitted ∧ fits config task = false
  | .dispatching load => config.trackTransferTiming = true →
      w.runtimeTransferTimings.get? load.task.uid = some load.timing
  | .receiving load => Stored config w load ∧ load.task ∈ w.dispatched
  | .returning load => Stored config w load ∧ load.task ∈ w.dispatched
  | .answering uid answer => ∃ load, (load, answer) ∈ w.answers ∧ load.task.uid = uid ∧
      Stored config w load
  | .popping uid reply => ∃ load answer, Answered config w uid reply load answer ∧
      w.dispatchedTasks.get? uid = some load.task
  | .resolving task reply => ∃ load answer, Answered config w task.uid reply load answer
  | _ => True

/-- The future was resolved with a rejection of its own task or an answer to its own load. -/
def Own (config : Config) (w : World V ε) (f : ℕ × Reply V ε) : Prop :=
  (∃ task ∈ w.submitted, task.uid = f.1 ∧ fits config task = false ∧
    f.2 = .tooLarge config.maxBatchSize) ∨
  ∃ load answer, Answered config w f.1 f.2 load answer

structure Known (config : Config) (s : State V ε) : Prop where
  calls : ∀ c ∈ s.calls, c.Fine config s.world
  unanswered : ∀ load ∈ s.world.unanswered, Stored config s.world load ∧ load ∈ s.world.loads
  loads : ∀ load ∈ s.world.loads, load.task ∈ s.world.dispatched
  answers : ∀ a ∈ s.world.answers, a.1 ∈ s.world.loads
  futures : ∀ f ∈ s.world.futures, Own config s.world f
  errors : s.world.errors = []

def Call.uses (c : Call V ε) : List ℕ := c.undispatched.map Task.uid ++ c.delivered

structure Grows (w w' : World V ε) : Prop where
  submitted : w.submitted ⊆ w'.submitted
  dispatched : w.dispatched ⊆ w'.dispatched
  loads : w.loads ⊆ w'.loads
  answers : w.answers ⊆ w'.answers

structure Same (w w' : World V ε) (uid : ℕ) : Prop where
  task : w'.dispatchedTasks.get? uid = w.dispatchedTasks.get? uid
  timing : w'.runtimeTransferTimings.get? uid = w.runtimeTransferTimings.get? uid

theorem Stored.same {load : Load V} (h : Stored config w load) (hsame : Same w w' load.task.uid) :
    Stored config w' load :=
  ⟨hsame.task.trans h.task, fun htrack => hsame.timing.trans (h.timing htrack)⟩

theorem Answered.grows {uid : ℕ} {reply : Reply V ε} {load : Load V} {answer : Answer V ε}
    (h : Answered config w uid reply load answer) (hgrows : Grows w w') :
    Answered config w' uid reply load answer := ⟨hgrows.answers h.mem, h.uid, h.reply⟩

theorem Own.grows {f : ℕ × Reply V ε} (h : Own config w f) (hgrows : Grows w w') :
    Own config w' f := by
  rcases h with ⟨task, hmem, h⟩ | ⟨load, answer, h⟩
  · exact .inl ⟨task, hgrows.submitted hmem, h⟩
  · exact .inr ⟨load, answer, h.grows hgrows⟩

/-- A call is not affected by steps that have to do with other uids. -/
theorem Call.Fine.frame (h : c.Fine config w) (hgrows : Grows w w')
    (hsame : ∀ uid ∈ c.uses, Same w w' uid) : c.Fine config w' := by
  cases c with
  | rejecting task => exact ⟨hgrows.submitted h.1, h.2⟩
  | dispatching load =>
    have hload := hsame load.task.uid List.mem_cons_self
    exact fun htrack => hload.timing.trans (h htrack)
  | receiving load =>
    exact ⟨h.1.same (hsame _ List.mem_cons_self), hgrows.dispatched h.2⟩
  | returning load =>
    exact ⟨h.1.same (hsame _ List.mem_cons_self), hgrows.dispatched h.2⟩
  | answering uid answer =>
    obtain ⟨load, hmem, rfl, hstored⟩ := h
    exact ⟨load, hgrows.answers hmem, rfl, hstored.same (hsame _ List.mem_cons_self)⟩
  | popping uid reply =>
    obtain ⟨load, answer, hanswered, hget⟩ := h
    exact ⟨load, answer, hanswered.grows hgrows, (hsame uid List.mem_cons_self).task.trans hget⟩
  | resolving task reply =>
    obtain ⟨load, answer, hanswered⟩ := h
    exact ⟨load, answer, hanswered.grows hgrows⟩
  | putting task => trivial
  | sending task => trivial
  | prioritizing task => trivial
  | timing load => trivial
  | done => trivial

/-! ### What a step of a call does -/

/-- The steps of the calls. The timings and the priority are left open where nothing depends on
them. -/
inductive Goes (config : Config) (w : World V ε) : Call V ε → World V ε → Call V ε → Prop where
  | rejecting (task : Task V) : Goes config w (.rejecting task)
      { w with futures := w.futures ++ [(task.uid, .tooLarge config.maxBatchSize)] } .done
  | putting (task : Task V) : Goes config w (.putting task)
      { w with submittedTasks := w.submittedTasks ++ [some task] } (.sending task)
  | sending (task : Task V) : Goes config w (.sending task)
      { w with pipe := w.pipe + 1 } (.prioritizing task)
  | prioritizing (task : Task V) (priority : WithTop (ℚ ×ₗ ℚ)) :
      Goes config w (.prioritizing task) { w with priority } .done
  | timing (load : Load V) (timings : OrderedDict ℕ RuntimeTiming)
      (hset : config.trackTransferTiming = true →
        timings.get? load.task.uid = some load.timing)
      (hsame : ∀ uid ≠ load.task.uid, timings.get? uid = w.runtimeTransferTimings.get? uid) :
      Goes config w (.timing load) { w with runtimeTransferTimings := timings } (.dispatching load)
  | dispatching (load : Load V) : Goes config w (.dispatching load)
      { w with
        dispatchedTasks := w.dispatchedTasks.set load.task.uid load.task
        dispatched := w.dispatched ++ [load.task] } (.receiving load)
  | receiving (load : Load V) (hpipe : w.pipe ≠ 0) : Goes config w (.receiving load)
      { w with pipe := w.pipe - 1 } (.returning load)
  | returning (load : Load V) (priority : WithTop (ℚ ×ₗ ℚ)) : Goes config w (.returning load)
      { w with priority, unanswered := w.unanswered ++ [load], loads := w.loads ++ [load] } .done
  | answering (uid : ℕ) (answer : Answer V ε) (timings : OrderedDict ℕ RuntimeTiming)
      (hsame : ∀ uid' ≠ uid, timings.get? uid' = w.runtimeTransferTimings.get? uid') :
      Goes config w (.answering uid answer) { w with runtimeTransferTimings := timings }
        (.popping uid
          (answer.reply config.trackTransferTiming (w.runtimeTransferTimings.get? uid)))
  | popping (task : Task V) (reply : Reply V ε)
      (hget : w.dispatchedTasks.get? task.uid = some task) :
      Goes config w (.popping task.uid reply)
        { w with dispatchedTasks := w.dispatchedTasks.erase task.uid } (.resolving task reply)
  | resolving (task : Task V) (reply : Reply V ε) : Goes config w (.resolving task reply)
      { w with futures := w.futures ++ [(task.uid, reply)] } .done

theorem get?_erase_of_ne {ν : Type} {d : OrderedDict ℕ ν} {uid uid' : ℕ} (hne : uid' ≠ uid) :
    (d.erase uid).get? uid' = d.get? uid' := by
  refine Option.ext fun v => ?_
  rw [OrderedDict.get?_eq_some_iff, OrderedDict.get?_eq_some_iff, OrderedDict.mem_erase]
  exact and_iff_left hne

theorem goes_of_advance (hc : c.Fine config w) (h : advance config w c = some (w', c')) :
    Goes config w c w' c' := by
  cases c with
  | timing load =>
    obtain ⟨rfl, rfl⟩ := Prod.mk.inj (Option.some.inj h)
    refine .timing load _ (fun htrack => ?_) fun uid hne => ?_
    · rw [if_pos htrack, OrderedDict.get?_set, if_pos rfl]
    · split_ifs
      · rw [OrderedDict.get?_set, if_neg hne]
      · rfl
  | receiving load =>
    rw [advance] at h
    split_ifs at h with hpipe
    obtain ⟨rfl, rfl⟩ := Prod.mk.inj (Option.some.inj h)
    exact .receiving load hpipe
  | answering uid answer =>
    cases answer with
    | outputs batchOutputs tGpu2cpuMs =>
      obtain ⟨rfl, rfl⟩ := Prod.mk.inj (Option.some.inj h)
      refine .answering uid _ _ fun uid' hne => ?_
      split_ifs
      · exact get?_erase_of_ne hne
      · rfl
    | exception e =>
      obtain ⟨rfl, rfl⟩ := Prod.mk.inj (Option.some.inj h)
      exact .answering uid _ _ fun uid' hne => get?_erase_of_ne hne
  | popping uid reply =>
    obtain ⟨load, answer, hanswered, hget⟩ := hc
    obtain rfl := hanswered.uid
    rw [advance, hget] at h
    obtain ⟨rfl, rfl⟩ := Prod.mk.inj (Option.some.inj h)
    exact .popping load.task reply hget
  | rejecting task =>
    obtain ⟨rfl, rfl⟩ := Prod.mk.inj (Option.some.inj h)
    exact .rejecting task
  | putting task =>
    obtain ⟨rfl, rfl⟩ := Prod.mk.inj (Option.some.inj h)
    exact .putting task
  | sending task =>
    obtain ⟨rfl, rfl⟩ := Prod.mk.inj (Option.some.inj h)
    exact .sending task
  | prioritizing task =>
    obtain ⟨rfl, rfl⟩ := Prod.mk.inj (Option.some.inj h)
    exact .prioritizing task _
  | dispatching load =>
    obtain ⟨rfl, rfl⟩ := Prod.mk.inj (Option.some.inj h)
    exact .dispatching load
  | returning load =>
    obtain ⟨rfl, rfl⟩ := Prod.mk.inj (Option.some.inj h)
    exact .returning load _
  | resolving task reply =>
    obtain ⟨rfl, rfl⟩ := Prod.mk.inj (Option.some.inj h)
    exact .resolving task reply
  | done => cases h

end BloomBee.TaskPoolCalls
