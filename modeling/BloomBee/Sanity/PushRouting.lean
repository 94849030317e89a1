import BloomBee.Spec.PushRouting

/-! What a step of the handlers is to one session, and what a push leaves of the micro-batches that
a handler keeps. -/

set_option autoImplicit false

namespace BloomBee.PushRouting

variable {ι σ ρ : Type} {n : ℕ}

variable [DecidableEq ι]

/-! ### One session of a step -/

namespace World

theorem view_setHandler (w : World n ι σ ρ) (h : Fin n) (x : Handler n ι σ ρ) (s : ι) :
    (w.setHandler h x).view s = { w.view s with
      table := Function.update (w.view s).table h (x.sessionHandlers s)
      queue := Function.update (w.view s).queue h (x.sessionQueues s) } := by
  have htable : ((w.setHandler h x).view s).table =
      Function.update (w.view s).table h (x.sessionHandlers s) := by
    funext h'
    by_cases hh : h' = h
    · subst hh; simp [view, setHandler]
    · simp [view, setHandler, hh]
  have hqueue : ((w.setHandler h x).view s).queue =
      Function.update (w.view s).queue h (x.sessionQueues s) := by
    funext h'
    by_cases hh : h' = h
    · subst hh; simp [view, setHandler]
    · simp [view, setHandler, hh]
  rw [← htable, ← hqueue]
  rfl

theorem view_setHandler_same (w : World n ι σ ρ) {h : Fin n} {x : Handler n ι σ ρ} {s : ι}
    (ht : x.sessionHandlers s = (w.handlers h).sessionHandlers s)
    (hq : x.sessionQueues s = (w.handlers h).sessionQueues s) :
    (w.setHandler h x).view s = w.view s := by
  rw [view_setHandler, ht, hq]
  change { w.view s with
    table := Function.update (w.view s).table h ((w.view s).table h)
    queue := Function.update (w.view s).queue h ((w.view s).queue h) } = _
  rw [Function.update_eq_self, Function.update_eq_self]

theorem view_send (w : World n ι σ ρ) (sender h : Fin n) {e : Event n ι σ ρ} {s : ι}
    (hs : e.sessionId = s) :
    (w.send sender h e).view s = (w.view s).send sender h e.signal := by
  have hlanes : ((w.send sender h e).view s).lanes =
      ((w.view s).send sender h e.signal).lanes := by
    funext h' sender'
    by_cases hl : h' = h ∧ sender' = sender <;>
      simp [view, send, SessionView.send, hs, hl]
  change { (w.view s).send sender h e.signal with
    lanes := ((w.send sender h e).view s).lanes } = _
  rw [hlanes]

theorem view_send_of_ne (w : World n ι σ ρ) (sender h : Fin n) {e : Event n ι σ ρ} {s : ι}
    (hs : e.sessionId ≠ s) : (w.send sender h e).view s = w.view s := by
  have hlanes : ((w.send sender h e).view s).lanes = (w.view s).lanes := by
    funext h' sender'
    by_cases hl : h' = h ∧ sender' = sender <;> simp [view, send, hs, hl]
  change { w.view s with lanes := ((w.send sender h e).view s).lanes } = _
  rw [hlanes]

theorem view_broadcast (w : World n ι σ ρ) (sender : Fin n) {e : Event n ι σ ρ} {s : ι}
    (hs : e.sessionId = s) :
    (w.broadcast sender e).view s = (w.view s).broadcast sender e.signal := by
  have hlanes : ((w.broadcast sender e).view s).lanes =
      ((w.view s).broadcast sender e.signal).lanes := by
    funext h sender'
    by_cases hl : h ≠ sender ∧ sender' = sender <;>
      simp [view, broadcast, SessionView.broadcast, hs, hl]
  change { (w.view s).broadcast sender e.signal with
    lanes := ((w.broadcast sender e).view s).lanes } = _
  rw [hlanes]

theorem view_broadcast_of_ne (w : World n ι σ ρ) (sender : Fin n) {e : Event n ι σ ρ} {s : ι}
    (hs : e.sessionId ≠ s) : (w.broadcast sender e).view s = w.view s := by
  have hlanes : ((w.broadcast sender e).view s).lanes = (w.view s).lanes := by
    funext h sender'
    by_cases hl : h ≠ sender ∧ sender' = sender <;> simp [view, broadcast, hs, hl]
  change { w.view s with lanes := ((w.broadcast sender e).view s).lanes } = _
  rw [hlanes]

theorem filterMap_lanes (w : World n ι σ ρ) (h sender : Fin n) (s : ι) :
    ((w.view s).lanes h sender).filterMap Signal.item? = w.waiting h sender s := by
  simp only [view, waiting]
  induction w.events h sender with
  | nil => rfl
  | cons e es ih =>
    have hhead : ((if e.sessionId = s then some e.signal else none).bind Signal.item?) =
        Event.itemOf s e := by
      cases e with
      | newSession s' o =>
        by_cases hs : s' = s <;>
          simp [Event.sessionId, Event.itemOf, Event.signal, Signal.item?, hs]
      | endSession s' o =>
        by_cases hs : s' = s <;>
          simp [Event.sessionId, Event.itemOf, Event.signal, Signal.item?, hs]
      | push s' item =>
        by_cases hs : s' = s <;>
          simp [Event.sessionId, Event.itemOf, Event.signal, Signal.item?, hs]
    by_cases hs : e.sessionId = s
    · rw [if_pos hs, Option.bind_some] at hhead
      simp [hs, List.filterMap_cons, hhead, ih]
    · rw [if_neg hs, Option.bind_none] at hhead
      simp [hs, ← hhead, ih]

theorem view_enter (w : World n ι σ ρ) (h : Fin n) (s' s : ι) :
    (w.enter h s').view s = if s' = s then (w.view s).step (.enter h) else w.view s := by
  by_cases hs : s' = s
  · subst hs
    rw [if_pos rfl, enter, SessionView.step]
    by_cases hq : (w.handlers h).sessionQueues s' = none
    · rw [if_pos hq, if_pos (show (w.view s').queue h = none from hq),
        view_broadcast _ _ (by rfl), view_setHandler]
      simp only [Function.update_self]
      rfl
    · rw [if_neg hq, if_neg (show ¬(w.view s').queue h = none from hq)]
  · rw [if_neg hs, enter]
    split_ifs with hq
    · rw [view_broadcast_of_ne _ _ (by exact hs)]
      exact view_setHandler_same w (Function.update_of_ne (Ne.symm hs) _ _)
        (Function.update_of_ne (Ne.symm hs) _ _)
    · rfl

theorem view_exit (w : World n ι σ ρ) (h : Fin n) (s' s : ι) :
    (w.exit h s').view s = if s' = s then (w.view s).step (.exit h) else w.view s := by
  by_cases hs : s' = s
  · subst hs
    rw [if_pos rfl, exit, SessionView.step]
    by_cases hq : (w.handlers h).sessionQueues s' = none
    · rw [if_pos hq, if_pos (show (w.view s').queue h = none from hq)]
    · rw [if_neg hq, if_neg (show ¬(w.view s').queue h = none from hq)]
      by_cases ht : (w.handlers h).sessionHandlers s' = none
      · rw [if_pos ht, if_pos (show (w.view s').table h = none from ht), view_setHandler]
        simp only [Function.update_self]
        congr 1
        exact Function.update_eq_self h (w.view s').table
      · rw [if_neg ht, if_neg (show ¬(w.view s').table h = none from ht),
          view_broadcast _ _ (by rfl), view_setHandler]
        simp only [Function.update_self]
        rfl
  · rw [if_neg hs, exit]
    split_ifs with hq ht
    · rfl
    · exact view_setHandler_same w rfl (Function.update_of_ne (Ne.symm hs) _ _)
    · rw [view_broadcast_of_ne _ _ (by exact hs)]
      exact view_setHandler_same w (Function.update_of_ne (Ne.symm hs) _ _)
        (Function.update_of_ne (Ne.symm hs) _ _)

theorem view_enqueue (w : World n ι σ ρ) (h : Fin n) (s : ι) (item : QueueItem ι σ ρ)
    {queue : List (QueueItem ι σ ρ)} (hq : (w.handlers h).sessionQueues s = some queue) :
    (w.setHandler h { w.handlers h with
      sessionQueues := Function.update (w.handlers h).sessionQueues s
        (some (queue ++ [item])) }).view s = (w.view s).enqueue h item := by
  rw [view_setHandler, SessionView.enqueue,
    show (w.view s).queue h = some queue from hq]
  simp only [Function.update_self]
  congr 1
  exact Function.update_eq_self h (w.view s).table

theorem view_putIntoSessionQueue (w : World n ι σ ρ) (h : Fin n) (s' s : ι)
    (item : QueueItem ι σ ρ) :
    ((w.putIntoSessionQueue h s' item).getD w).view s =
      if s' = s then (w.view s).step (.push h item) else w.view s := by
  rw [putIntoSessionQueue]
  by_cases hs : s' = s
  · subst hs
    rw [if_pos rfl, SessionView.step]
    cases ht : (w.handlers h).sessionHandlers s' with
    | none =>
      rw [show (w.view s').table h = none from ht]
      rfl
    | some o =>
      rw [show (w.view s').table h = some o from ht]
      dsimp only
      by_cases ho : o = h
      · rw [if_pos ho, if_pos ho]
        cases hq : (w.handlers h).sessionQueues s' with
        | none =>
          rw [Option.map_none, Option.getD_none, SessionView.enqueue,
            show (w.view s').queue h = none from hq]
        | some queue => exact view_enqueue w h s' item hq
      · rw [if_neg ho, if_neg ho, Option.getD_some, view_send _ _ _ (by rfl)]
        rfl
  · rw [if_neg hs]
    cases ht : (w.handlers h).sessionHandlers s' with
    | none => rfl
    | some o =>
      dsimp only
      by_cases ho : o = h
      · rw [if_pos ho]
        cases hq : (w.handlers h).sessionQueues s' with
        | none => rfl
        | some queue => exact view_setHandler_same w rfl (Function.update_of_ne (Ne.symm hs) _ _)
      · rw [if_neg ho, Option.getD_some, view_send_of_ne _ _ _ (by exact hs)]

theorem view_setEvents (w : World n ι σ ρ) (h sender : Fin n) (es : List (Event n ι σ ρ)) (s : ι) :
    ({ w with events := Function.update w.events h (Function.update (w.events h) sender es) } :
        World n ι σ ρ).view s =
      { w.view s with
        lanes := Function.update (w.view s).lanes h (Function.update ((w.view s).lanes h) sender
          ((es.filter (·.sessionId = s)).map Event.signal)) } := by
  have hlanes : (fun h' sender' => ((Function.update w.events h
      (Function.update (w.events h) sender es) h' sender').filter (·.sessionId = s)).map
        Event.signal) =
      Function.update (w.view s).lanes h (Function.update ((w.view s).lanes h) sender
        ((es.filter (·.sessionId = s)).map Event.signal)) := by
    funext h' sender'
    by_cases hh : h' = h
    · subst hh
      by_cases hr : sender' = sender
      · subst hr; simp
      · simp [view, hr]
    · simp [view, hh]
  rw [← hlanes]
  rfl

theorem view_listen_of_ne (w : World n ι σ ρ) {h sender : Fin n} {e : Event n ι σ ρ}
    {es : List (Event n ι σ ρ)} {s : ι} (hev : w.events h sender = e :: es)
    (hs : e.sessionId ≠ s) : (w.listen h sender).view s = w.view s := by
  rw [listen]
  split_ifs with hl
  · rfl
  rw [hev]
  have hpop : ({ w with
      events := Function.update w.events h (Function.update (w.events h) sender es) } :
        World n ι σ ρ).view s = w.view s := by
    rw [view_setEvents]
    have hlane : (es.filter (·.sessionId = s)).map Event.signal = (w.view s).lanes h sender := by
      simp [view, hev, hs]
    rw [hlane, Function.update_eq_self, Function.update_eq_self]
  cases e with
  | newSession s' o =>
    refine Eq.trans ?_ hpop
    exact view_setHandler_same _ (Function.update_of_ne (Ne.symm hs) _ _) rfl
  | endSession s' o =>
    refine Eq.trans ?_ hpop
    exact view_setHandler_same _ (Function.update_of_ne (Ne.symm hs) _ _) rfl
  | push s' item =>
    refine Eq.trans ?_ hpop
    dsimp only
    cases (w.handlers h).sessionQueues s' with
    | none => rfl
    | some queue =>
      exact view_setHandler_same _ rfl (Function.update_of_ne (Ne.symm hs) _ _)

theorem view_listen_self (w : World n ι σ ρ) {h sender : Fin n} {e : Event n ι σ ρ}
    {es : List (Event n ι σ ρ)} {s : ι} (hl : (w.handlers h).listening = true)
    (hev : w.events h sender = e :: es) (hs : e.sessionId = s) :
    (w.listen h sender).view s = (w.view s).take h sender := by
  have hlane : (w.view s).lanes h sender =
      e.signal :: (es.filter (·.sessionId = s)).map Event.signal := by
    simp [view, hev, hs]
  rw [listen, if_neg (by simp [hl]), hev, SessionView.take, hlane]
  have hpop := view_setEvents w h sender es s
  cases e with
  | newSession s' o =>
    obtain rfl : s' = s := hs
    dsimp only [Event.signal] at hpop ⊢
    rw [view_setHandler, hpop]
    simp only [Function.update_self]
    congr 1
    exact Function.update_eq_self h (w.view s').queue
  | endSession s' o =>
    obtain rfl : s' = s := hs
    dsimp only [Event.signal] at hpop ⊢
    rw [view_setHandler, hpop]
    simp only [Function.update_self]
    congr 1
    exact Function.update_eq_self h (w.view s').queue
  | push s' item =>
    obtain rfl : s' = s := hs
    dsimp only [Event.signal] at hpop ⊢
    rw [← hpop]
    cases hq : (w.handlers h).sessionQueues s' with
    | none =>
      rw [SessionView.enqueue]
      have hq' : (World.view { w with
          events := Function.update w.events h (Function.update (w.events h) sender es) }
            s').queue h = none := hq
      rw [hq']
    | some queue =>
      exact view_enqueue { w with
        events := Function.update w.events h (Function.update (w.events h) sender es) } h s' item hq

theorem view_get (w : World n ι σ ρ) (h : Fin n) (s' s : ι) :
    (w.get h s').view s = if s' = s then (w.view s).step (.get h) else w.view s := by
  by_cases hs : s' = s
  · subst hs
    rw [if_pos rfl, get, SessionView.step]
    by_cases ht : (w.handlers h).sessionHandlers s' = some h
    · rw [if_pos ht, if_pos (show (w.view s').table h = some h from ht),
        show (w.view s').queue h = (w.handlers h).sessionQueues s' from rfl]
      rcases hq : (w.handlers h).sessionQueues s' with - | (- | ⟨item, queue⟩)
      · rfl
      · rfl
      have hview := view_setHandler w h { w.handlers h with
        sessionQueues := Function.update (w.handlers h).sessionQueues s' (some queue) } s'
      have hsame : Function.update (w.view s').table h ((w.handlers h).sessionHandlers s') =
          (w.view s').table := Function.update_eq_self h (w.view s').table
      simp only [Function.update_self, hsame] at hview
      have hreceived := congrArg (fun v => { v with received := w.received s' ++ [item] }) hview
      refine Eq.trans ?_ hreceived
      simp [view, setHandler]
    · rw [if_neg ht, if_neg (show ¬(w.view s').table h = some h from ht)]
  · rw [if_neg hs, get]
    split_ifs with ht
    · rcases hq : (w.handlers h).sessionQueues s' with - | (- | ⟨item, queue⟩)
      · rfl
      · rfl
      have hview := view_setHandler_same w (h := h) (x := { w.handlers h with
        sessionQueues := Function.update (w.handlers h).sessionQueues s' (some queue) }) (s := s)
          rfl (Function.update_of_ne (Ne.symm hs) _ _)
      refine Eq.trans ?_ hview
      simp [view, setHandler, Function.update_of_ne (Ne.symm hs)]
    · rfl

/-- A handler that takes a session for its own has a queue for it. -/
def Owns (w : World n ι σ ρ) : Prop :=
  ∀ h s, (w.handlers h).sessionHandlers s = some h → (w.handlers h).sessionQueues s ≠ none

theorem Owns.put_ne_none {w : World n ι σ ρ} (hw : w.Owns) (h : Fin n) (s : ι)
    (item : QueueItem ι σ ρ) : w.putIntoSessionQueue h s item ≠ none := by
  intro hnone
  rw [putIntoSessionQueue] at hnone
  cases ht : (w.handlers h).sessionHandlers s with
  | none =>
    rw [ht] at hnone
    exact Option.some_ne_none w hnone
  | some o =>
    rw [ht] at hnone
    dsimp only at hnone
    split_ifs at hnone with ho
    exact hw h s (ht.trans (congrArg some ho)) (Option.map_eq_none_iff.mp hnone)

variable [DecidableEq σ]

theorem view_accept (cfg : Config) (w : World n ι σ ρ) (h : Fin n) (now : ℕ) (s' : ι)
    (p : Push σ ρ) (s : ι) : (w.accept cfg h now s' p).1.view s = w.view s := by
  cases p with
  | full request => rfl
  | microBatch p => exact view_setHandler_same w rfl rfl

theorem view_finish (cfg : Config) (w : World n ι σ ρ) (h : Fin n) (s' : ι) (p : Push σ ρ)
    (s : ι) : (w.finish cfg h s' p).view s = w.view s := by
  cases p with
  | full request => rfl
  | microBatch p => exact view_setHandler_same w rfl rfl

theorem view_rpcPush (cfg : Config) (w : World n ι σ ρ) (h : Fin n) (now : ℕ) (s' : ι)
    (p : Push σ ρ) (s : ι) :
    (w.rpcPush cfg h now s' p).view s =
      if s' = s then
        ((w.accept cfg h now s' p).2.map (.push h)).elim (w.view s) (w.view s).step
      else w.view s := by
  rw [rpcPush]
  have haccept := view_accept cfg w h now s' p s
  rcases hp : w.accept cfg h now s' p with ⟨w', - | item⟩
  · rw [hp] at haccept
    simp [haccept]
  · rw [hp] at haccept
    have hput := view_putIntoSessionQueue w' h s' s item
    rw [haccept] at hput
    dsimp only at hput ⊢
    rw [Option.map_some, Option.elim_some, ← hput]
    cases w'.putIntoSessionQueue h s' item with
    | none => rfl
    | some w'' => exact view_finish cfg w'' h s' p s

/-- A step of the handlers is a step of the session's protocol, or none of its steps. -/
theorem view_step (cfg : Config) (w : World n ι σ ρ) (s : ι) (a : Act n ι σ ρ) :
    (w.step cfg a).view s = (w.sessionAct cfg s a).elim (w.view s) (w.view s).step := by
  cases a with
  | enter h s' =>
    rw [step, view_enter, sessionAct]
    split_ifs <;> rfl
  | exit h s' =>
    rw [step, view_exit, sessionAct]
    split_ifs <;> rfl
  | rpcPush h now s' p =>
    rw [step, view_rpcPush, sessionAct]
    split_ifs <;> rfl
  | listen h sender =>
    rw [step, sessionAct]
    cases hl : (w.handlers h).listening with
    | false => rw [listen, if_pos hl]; simp
    | true =>
      cases hev : w.events h sender with
      | nil => rw [listen, if_neg (by simp [hl]), hev]; simp
      | cons e es =>
        by_cases hs : e.sessionId = s
        · rw [view_listen_self w hl hev hs]
          simp [hs, SessionView.step]
        · rw [view_listen_of_ne w hev hs]
          simp [hs]
  | get h s' =>
    rw [step, view_get, sessionAct]
    split_ifs <;> rfl
  | shutdown h => exact view_setHandler_same w rfl rfl

end World

/-! ### Micro-batches of a push -/

variable [DecidableEq σ]

namespace Tracking

/-- What a handler keeps while `round` is what it let through of a step since it last had them
all. -/
structure Pending (t : Tracking ι σ) (key : ι × σ) (round : List ℕ) : Prop where
  processed : (t.mbProcessed key).getD ∅ = round.toFinset
  received : (t.mbReceived key).getD 0 = round.length
  expected : t.mbExpected key = none → round = []

/-- A push of `pushed` at `now` does not find the entry of `key` too old. An old entry goes when a
new one is made. -/
def Lasts (cfg : Config) (t : Tracking ι σ) (now : ℕ) (pushed key : ι × σ) : Prop :=
  t.mbProcessed pushed = none →
    ∀ added, t.mbProcessedTimestamps key = some added → now ≤ added + cfg.mbProcessedTtl

variable {cfg : Config} {t : Tracking ι σ} {now : ℕ}

@[simp] theorem mbReceived_ensureProcessed (pushed : ι × σ) :
    (t.ensureProcessed cfg now pushed).mbReceived = t.mbReceived := by
  rw [ensureProcessed]
  split_ifs <;> rfl

@[simp] theorem mbExpected_ensureProcessed (pushed : ι × σ) :
    (t.ensureProcessed cfg now pushed).mbExpected = t.mbExpected := by
  rw [ensureProcessed]
  split_ifs <;> rfl

/-- The entry of the push itself is as old as the push, if it is new. -/
theorem processed_ensureProcessed {pushed key : ι × σ}
    (hlasts : key ≠ pushed → Lasts cfg t now pushed key) :
    ((t.ensureProcessed cfg now pushed).mbProcessed key).getD ∅ = (t.mbProcessed key).getD ∅ := by
  rw [ensureProcessed]
  split_ifs with hnew
  · have hkept : (Function.update t.mbProcessedTimestamps pushed (some now) key).any
        (fun added => decide (added + cfg.mbProcessedTtl < now)) = false := by
      rw [← Bool.not_eq_true, Option.any_eq_true]
      rintro ⟨added, hadded, hold⟩
      refine absurd (of_decide_eq_true hold) (Nat.not_lt.mpr ?_)
      by_cases hkey : key = pushed
      · rw [hkey, Function.update_self] at hadded
        exact Option.some.inj hadded ▸ Nat.le_add_right _ _
      · rw [Function.update_of_ne hkey] at hadded
        exact hlasts hkey hnew added hadded
    simp only [hkept, Bool.false_eq_true, if_false]
    by_cases hkey : key = pushed
    · rw [hkey, Function.update_self, hnew]
      rfl
    · rw [Function.update_of_ne hkey]
  · rfl

/-- What `_handle_microbatch_push` does up to the queue. -/
theorem accept_eq (s : ι) (p : MicrobatchPush σ ρ) :
    t.accept cfg now s p =
      let processed := (t.mbProcessed (s, p.stepId)).getD ∅
      let t' := t.ensureProcessed cfg now (s, p.stepId)
      if p.microBatchIdx ∈ processed then (t', false)
      else
        ({ t' with
            mbProcessed := Function.update t'.mbProcessed (s, p.stepId)
              (some (insert p.microBatchIdx processed)) }.count (s, p.stepId)
                (cfg.expectedNumMb p), true) := by
  rw [accept]
  simp only [processed_ensureProcessed fun h => absurd rfl h]

theorem count_eq (key : ι × σ) (expectedNumMb : ℤ)
    (h : t.mbExpected key = none → (t.mbReceived key).getD 0 = 0) :
    t.count key expectedNumMb = { t with
      mbExpected := Function.update t.mbExpected key
        (some ((t.mbExpected key).getD expectedNumMb))
      mbReceived := Function.update t.mbReceived key (some ((t.mbReceived key).getD 0 + 1)) } := by
  rw [count]
  cases he : t.mbExpected key with
  | none => simp [h he]
  | some e =>
    rw [if_neg (Option.some_ne_none e), Option.getD_some, ← he, Function.update_eq_self]

namespace Pending

variable {key : ι × σ} {round : List ℕ}

theorem ensureProcessed (hp : t.Pending key round) {pushed : ι × σ}
    (hlasts : key ≠ pushed → Lasts cfg t now pushed key) :
    (t.ensureProcessed cfg now pushed).Pending key round := by
  refine ⟨?_, ?_, ?_⟩
  · rw [processed_ensureProcessed hlasts, hp.processed]
  · rw [mbReceived_ensureProcessed, hp.received]
  · rw [mbExpected_ensureProcessed]
    exact hp.expected

variable (cfg now) in
theorem accept_of_mem {s : ι} {p : MicrobatchPush σ ρ} (hp : t.Pending (s, p.stepId) round)
    (hidx : p.microBatchIdx ∈ round) :
    (t.accept cfg now s p).2 = false ∧ (t.accept cfg now s p).1.Pending (s, p.stepId) round := by
  rw [accept_eq, hp.processed]
  dsimp only
  rw [if_pos (List.mem_toFinset.mpr hidx)]
  exact ⟨rfl, hp.ensureProcessed fun h => absurd rfl h⟩

variable (cfg now) in
theorem accept_of_notMem {s : ι} {p : MicrobatchPush σ ρ} (hp : t.Pending (s, p.stepId) round)
    (hidx : p.microBatchIdx ∉ round) :
    (t.accept cfg now s p).2 = true ∧
      (t.accept cfg now s p).1.Pending (s, p.stepId) (round ++ [p.microBatchIdx]) := by
  rw [accept_eq, hp.processed]
  dsimp only
  rw [if_neg (mt List.mem_toFinset.mp hidx), count_eq]
  · refine ⟨rfl, ?_, ?_, ?_⟩
    · dsimp only
      rw [Function.update_self, Option.getD_some]
      ext i
      rw [Finset.mem_insert, List.mem_toFinset, List.mem_toFinset, List.mem_append,
        List.mem_singleton, Or.comm]
    · simp [hp.received]
    · simp
  · intro he
    rw [mbExpected_ensureProcessed] at he
    rw [mbReceived_ensureProcessed, hp.received, hp.expected he, List.length_nil]

theorem accept_of_ne {s : ι} {p : MicrobatchPush σ ρ} (hp : t.Pending key round)
    (hkey : key ≠ (s, p.stepId)) (hlasts : Lasts cfg t now (s, p.stepId) key) :
    (t.accept cfg now s p).1.Pending key round := by
  have hensure := hp.ensureProcessed fun _ => hlasts
  rw [accept]
  dsimp only
  split_ifs
  · exact hensure
  · rw [count]
    split_ifs
    · exact ⟨by simpa [hkey] using hensure.processed, by simpa [hkey] using hensure.received,
        by simpa [hkey] using hensure.expected⟩
    · exact ⟨by simpa [hkey] using hensure.processed, by simpa [hkey] using hensure.received,
        hensure.expected⟩

theorem finish_self {s : ι} {p : MicrobatchPush σ ρ} {E : ℕ} (hE : cfg.expectedNumMb p = E)
    (hp : t.Pending (s, p.stepId) round) :
    (t.finish cfg s p).Pending (s, p.stepId) (if E ≤ round.length then [] else round) := by
  rw [finish, hp.received, hE]
  by_cases hle : E ≤ round.length
  · rw [if_pos (Int.ofNat_le.mpr hle), if_pos hle]
    exact ⟨by simp, by simp, fun _ => rfl⟩
  · rw [if_neg (mt Int.ofNat_le.mp hle), if_neg hle]
    exact hp

theorem finish_of_ne {s : ι} {p : MicrobatchPush σ ρ} (hp : t.Pending key round)
    (hkey : key ≠ (s, p.stepId)) : (t.finish cfg s p).Pending key round := by
  rw [finish]
  split_ifs
  · exact ⟨by simpa [hkey] using hp.processed, by simpa [hkey] using hp.received,
      by simpa [hkey] using hp.expected⟩
  · exact hp

end Pending

end Tracking

namespace World

omit [DecidableEq ι] [DecidableEq σ] in
theorem tracking_setHandler (w : World n ι σ ρ) {h : Fin n} {x : Handler n ι σ ρ}
    (hx : x.tracking = (w.handlers h).tracking) (h' : Fin n) :
    ((w.setHandler h x).handlers h').tracking = (w.handlers h').tracking := by
  by_cases hh : h' = h
  · subst hh; simp [setHandler, hx]
  · simp [setHandler, hh]

omit [DecidableEq σ] in
theorem tracking_put {w w' : World n ι σ ρ} {h : Fin n} {s : ι} {item : QueueItem ι σ ρ}
    (hput : w.putIntoSessionQueue h s item = some w') (h' : Fin n) :
    (w'.handlers h').tracking = (w.handlers h').tracking := by
  rw [putIntoSessionQueue] at hput
  cases ht : (w.handlers h).sessionHandlers s with
  | none =>
    rw [ht] at hput
    rw [← Option.some.inj hput]
  | some o =>
    rw [ht] at hput
    dsimp only at hput
    split_ifs at hput
    · obtain ⟨queue, -, rfl⟩ := Option.map_eq_some_iff.mp hput
      exact tracking_setHandler w (by rfl) h'
    · rw [← Option.some.inj hput]
      rfl

omit [DecidableEq σ] in
theorem tracking_listen (w : World n ι σ ρ) (h sender h' : Fin n) :
    ((w.listen h sender).handlers h').tracking = (w.handlers h').tracking := by
  rw [listen]
  dsimp only
  split_ifs
  · rfl
  rcases w.events h sender with - | ⟨e, es⟩
  · rfl
  cases e with
  | newSession s' o => exact tracking_setHandler _ (by rfl) h'
  | endSession s' o => exact tracking_setHandler _ (by rfl) h'
  | push s' item =>
    dsimp only
    cases (w.handlers h).sessionQueues s' with
    | none => rfl
    | some queue => exact tracking_setHandler _ (by rfl) h'

theorem owns_accept (cfg : Config) {w : World n ι σ ρ} (hw : w.Owns) (h : Fin n) (now : ℕ) (s : ι)
    (p : Push σ ρ) : (w.accept cfg h now s p).1.Owns := by
  intro h' s'
  have hview := w.view_accept cfg h now s p s'
  have ht := congrArg (fun v => v.table h') hview
  have hq := congrArg (fun v => v.queue h') hview
  change ((w.accept cfg h now s p).1.handlers h').sessionHandlers s' = _ at ht
  change ((w.accept cfg h now s p).1.handlers h').sessionQueues s' = _ at hq
  rw [ht, hq]
  exact hw h' s'

/-- What a handler keeps of the micro-batches after a push. -/
theorem tracking_rpcPush {cfg : Config} {w : World n ι σ ρ} (hw : w.Owns) (h : Fin n) (now : ℕ)
    (s : ι) (p : MicrobatchPush σ ρ) :
    ((w.rpcPush cfg h now s (.microBatch p)).handlers h).tracking =
      let r := (w.handlers h).tracking.accept cfg now s p
      if r.2 then r.1.finish cfg s p else r.1 := by
  have howns := owns_accept cfg hw h now s (.microBatch p)
  have htracking : ((w.accept cfg h now s (.microBatch p)).1.handlers h).tracking =
      ((w.handlers h).tracking.accept cfg now s p).1 := by
    simp [accept, setHandler]
  have hitem : (w.accept cfg h now s (.microBatch p)).2 =
      if ((w.handlers h).tracking.accept cfg now s p).2 then
        some (cfg.createMicrobatchQueueItem s p) else none := rfl
  rw [rpcPush]
  rcases haccept : w.accept cfg h now s (.microBatch p) with ⟨w', item⟩
  rw [haccept] at howns htracking hitem
  dsimp only at howns htracking hitem ⊢
  rw [hitem]
  split_ifs with hadmitted
  · dsimp only
    cases hput : w'.putIntoSessionQueue h s (cfg.createMicrobatchQueueItem s p) with
    | none => exact absurd hput (howns.put_ne_none h s _)
    | some w'' =>
      simp [finish, setHandler, tracking_put hput, htracking]
  · exact htracking

/-- A push to another handler leaves it, and so does one without micro-batches. -/
theorem tracking_rpcPush_other (cfg : Config) (w : World n ι σ ρ) {h h' : Fin n} (now : ℕ) (s : ι)
    {p : Push σ ρ} (hp : ∀ q, p = .microBatch q → h ≠ h') :
    ((w.rpcPush cfg h' now s p).handlers h).tracking = (w.handlers h).tracking := by
  have haccept : ((w.accept cfg h' now s p).1.handlers h).tracking = (w.handlers h).tracking := by
    cases p with
    | full request => rfl
    | microBatch q => simp [accept, setHandler, hp q rfl]
  rw [rpcPush]
  rcases hitem : w.accept cfg h' now s p with ⟨w', - | item⟩
  · rw [hitem] at haccept
    exact haccept
  · rw [hitem] at haccept
    dsimp only at haccept ⊢
    cases hput : w'.putIntoSessionQueue h' s item with
    | none => exact haccept
    | some w'' =>
      have hput' := (tracking_put hput h).trans haccept
      cases p with
      | full request => exact hput'
      | microBatch q => simpa [finish, setHandler, hp q rfl] using hput'

theorem tracking_step (cfg : Config) (w : World n ι σ ρ) {a : Act n ι σ ρ} {h : Fin n}
    (ha : ∀ now s p, a ≠ .rpcPush h now s (.microBatch p)) :
    ((w.step cfg a).handlers h).tracking = (w.handlers h).tracking := by
  cases a with
  | enter h' s =>
    rw [step, enter]
    split_ifs
    · exact tracking_setHandler w (by rfl) h
    · rfl
  | exit h' s =>
    rw [step, exit]
    split_ifs
    · rfl
    · exact tracking_setHandler w (by rfl) h
    · exact tracking_setHandler w (by rfl) h
  | listen h' sender => exact tracking_listen w h' sender h
  | get h' s =>
    rw [step, get]
    split_ifs
    · rcases (w.handlers h').sessionQueues s with - | (- | ⟨item, queue⟩)
      · rfl
      · rfl
      · exact tracking_setHandler w (by rfl) h
    · rfl
  | shutdown h' => exact tracking_setHandler w (by rfl) h
  | rpcPush h' now s p =>
    exact tracking_rpcPush_other cfg w now s fun q hq hh => ha now s q (by rw [hq, hh])

end World

end BloomBee.PushRouting
