import BloomBee.Spec.MicrobatchOps
import Mathlib.Data.Finset.Insert

/-! The connection handlers of one server (`server/handler.py`). Each is a process of its own, and a
push can reach any of them: the one that has the session puts it into the session's queue, the
others send it on over event queues. Between two processes an event queue keeps the order, between
events of different senders it keeps none. A step is what one handler does between two awaits. -/

set_option autoImplicit false

namespace BloomBee.PushRouting

open MicrobatchOps (Environ Given resolveExpectedNumMicrobatches)

variable {ι σ ρ : Type} {n : ℕ}

/-! ### Pushes -/

/-- What `_handle_microbatch_push` reads of a request, `ρ` is the request itself. -/
structure MicrobatchPush (σ ρ : Type) where
  stepId : σ
  microBatchIdx : ℕ
  microBatchOffset : ℕ
  microBatchSize : ℕ
  fullBatchSize : ℕ
  totalMicroBatches : Given
  request : ρ

inductive Push (σ ρ : Type) where
  | full (request : ρ)
  | microBatch (p : MicrobatchPush σ ρ)

/-- What is put into the queue of a session. -/
inductive QueueItem (ι σ ρ : Type) where
  | full (request : ρ)
  | microBatch (requestId : ι) (stepId : σ) (mbIdx : ℕ) (expectedNumMb : ℤ) (payload : ρ)
      (offset size fullBatchSize : ℕ)
deriving DecidableEq, Repr

/-- The environment, and `_MB_PROCESSED_TTL` in ticks of the clock. -/
structure Config where
  env : Environ
  mbProcessedTtl : ℕ

def Config.expectedNumMb (cfg : Config) (p : MicrobatchPush σ ρ) : ℤ :=
  resolveExpectedNumMicrobatches cfg.env p.fullBatchSize p.totalMicroBatches .none

def Config.createMicrobatchQueueItem (cfg : Config) (sessionId : ι) (p : MicrobatchPush σ ρ) :
    QueueItem ι σ ρ :=
  .microBatch sessionId p.stepId p.microBatchIdx (cfg.expectedNumMb p) p.request
    p.microBatchOffset p.microBatchSize p.fullBatchSize

/-- What a handler keeps of the micro-batches it got, by session and step. -/
structure Tracking (ι σ : Type) where
  mbExpected : ι × σ → Option ℤ
  mbReceived : ι × σ → Option ℕ
  mbProcessed : ι × σ → Option (Finset ℕ)
  mbProcessedTimestamps : ι × σ → Option ℕ

def Tracking.init : Tracking ι σ := ⟨fun _ => none, fun _ => none, fun _ => none, fun _ => none⟩

namespace Tracking

variable [DecidableEq ι] [DecidableEq σ]

/-- The entry of a new key; every entry that is too old goes. -/
def ensureProcessed (cfg : Config) (now : ℕ) (t : Tracking ι σ) (key : ι × σ) : Tracking ι σ :=
  if t.mbProcessed key = none then
    let timestamps := Function.update t.mbProcessedTimestamps key (some now)
    let stale := fun k => (timestamps k).any fun added => added + cfg.mbProcessedTtl < now
    { t with
      mbProcessed := fun k => if stale k then none else Function.update t.mbProcessed key (some ∅) k
      mbProcessedTimestamps := fun k => if stale k then none else timestamps k }
  else t

/-- The counters of a key, with one more micro-batch. -/
def count (t : Tracking ι σ) (key : ι × σ) (expectedNumMb : ℤ) : Tracking ι σ :=
  let t :=
    if t.mbExpected key = none then
      { t with
        mbExpected := Function.update t.mbExpected key (some expectedNumMb)
        mbReceived := Function.update t.mbReceived key (some 0) }
    else t
  { t with mbReceived := Function.update t.mbReceived key (some ((t.mbReceived key).getD 0 + 1)) }

/-- `_handle_microbatch_push` up to the queue: whether the micro-batch is to be put into it. -/
def accept (cfg : Config) (now : ℕ) (t : Tracking ι σ) (sessionId : ι) (p : MicrobatchPush σ ρ) :
    Tracking ι σ × Bool :=
  let key := (sessionId, p.stepId)
  let t := t.ensureProcessed cfg now key
  let processed := (t.mbProcessed key).getD ∅
  if p.microBatchIdx ∈ processed then (t, false)
  else
    let t := { t with
      mbProcessed := Function.update t.mbProcessed key (some (insert p.microBatchIdx processed)) }
    (t.count key (cfg.expectedNumMb p), true)

/-- `_handle_microbatch_push` after the queue. -/
def finish (cfg : Config) (t : Tracking ι σ) (sessionId : ι) (p : MicrobatchPush σ ρ) :
    Tracking ι σ :=
  let key := (sessionId, p.stepId)
  if cfg.expectedNumMb p ≤ (t.mbReceived key).getD 0 then
    { mbExpected := Function.update t.mbExpected key none
      mbReceived := Function.update t.mbReceived key none
      mbProcessed := Function.update t.mbProcessed key none
      mbProcessedTimestamps := Function.update t.mbProcessedTimestamps key none }
  else t

end Tracking

/-! ### Handlers -/

/-- `SHUTDOWN` comes from the parent process, on a way of its own (`Act.shutdown`). -/
inductive Event (n : ℕ) (ι σ ρ : Type) where
  | newSession (sessionId : ι) (handlerIndex : Fin n)
  | endSession (sessionId : ι) (handlerIndex : Fin n)
  | push (sessionId : ι) (request : QueueItem ι σ ρ)
deriving DecidableEq, Repr

structure Handler (n : ℕ) (ι σ ρ : Type) where
  sessionQueues : ι → Option (List (QueueItem ι σ ρ))
  sessionHandlers : ι → Option (Fin n)
  tracking : Tracking ι σ
  listening : Bool

/-- The handlers of a server; `events h sender` is what `h` did not take yet of what `sender` put
into the event queue of `h`. The last field is history: what the loop of a session took. -/
structure World (n : ℕ) (ι σ ρ : Type) where
  handlers : Fin n → Handler n ι σ ρ
  events : Fin n → Fin n → List (Event n ι σ ρ)
  received : ι → List (QueueItem ι σ ρ)

def World.init : World n ι σ ρ :=
  ⟨fun _ => ⟨fun _ => none, fun _ => none, .init, true⟩, fun _ _ => [], fun _ => []⟩

inductive Act (n : ℕ) (ι σ ρ : Type) where
  /-- `_managed_session` is entered for a session. -/
  | enter (h : Fin n) (sessionId : ι)
  | exit (h : Fin n) (sessionId : ι)
  | rpcPush (h : Fin n) (now : ℕ) (sessionId : ι) (p : Push σ ρ)
  /-- `_listen_to_event_queue` takes the next event of a sender. -/
  | listen (h sender : Fin n)
  /-- `_get_from_session_queue` -/
  | get (h : Fin n) (sessionId : ι)
  | shutdown (h : Fin n)

namespace World

def setHandler (w : World n ι σ ρ) (h : Fin n) (handler : Handler n ι σ ρ) : World n ι σ ρ :=
  { w with handlers := Function.update w.handlers h handler }

def send (w : World n ι σ ρ) (sender h : Fin n) (e : Event n ι σ ρ) : World n ι σ ρ :=
  { w with
    events := fun h' sender' =>
      if h' = h ∧ sender' = sender then w.events h' sender' ++ [e] else w.events h' sender' }

def broadcast (w : World n ι σ ρ) (sender : Fin n) (e : Event n ι σ ρ) : World n ι σ ρ :=
  { w with
    events := fun h sender' =>
      if h ≠ sender ∧ sender' = sender then w.events h sender' ++ [e] else w.events h sender' }

variable [DecidableEq ι]

/-- Refused when the handler has a session of that name. -/
def enter (w : World n ι σ ρ) (h : Fin n) (sessionId : ι) : World n ι σ ρ :=
  let handler := w.handlers h
  if handler.sessionQueues sessionId = none then
    (w.setHandler h { handler with
      sessionQueues := Function.update handler.sessionQueues sessionId (some [])
      sessionHandlers := Function.update handler.sessionHandlers sessionId (some h) }).broadcast h
        (.newSession sessionId h)
  else w

/-- The `finally` of `_managed_session`, of a session that was entered. Without an entry `del`
raises, and nobody is told. -/
def exit (w : World n ι σ ρ) (h : Fin n) (sessionId : ι) : World n ι σ ρ :=
  let handler := w.handlers h
  if handler.sessionQueues sessionId = none then w
  else
    let queues := Function.update handler.sessionQueues sessionId none
    if handler.sessionHandlers sessionId = none then
      w.setHandler h { handler with sessionQueues := queues }
    else
      (w.setHandler h { handler with
        sessionQueues := queues
        sessionHandlers := Function.update handler.sessionHandlers sessionId none }).broadcast h
          (.endSession sessionId h)

/-- `none` is the `KeyError` of a handler that takes a session for its own and has no queue. -/
def putIntoSessionQueue (w : World n ι σ ρ) (h : Fin n) (sessionId : ι) (item : QueueItem ι σ ρ) :
    Option (World n ι σ ρ) :=
  let handler := w.handlers h
  match handler.sessionHandlers sessionId with
  | none => some w
  | some handlerIndex =>
    if handlerIndex = h then
      (handler.sessionQueues sessionId).map fun queue =>
        w.setHandler h { handler with
          sessionQueues :=
            Function.update handler.sessionQueues sessionId (some (queue ++ [item])) }
    else some (w.send h handlerIndex (.push sessionId item))

def listen (w : World n ι σ ρ) (h sender : Fin n) : World n ι σ ρ :=
  let handler := w.handlers h
  if handler.listening = false then w
  else
    match w.events h sender with
    | [] => w
    | e :: es =>
      let w := { w with
        events := Function.update w.events h (Function.update (w.events h) sender es) }
      match e with
      | .newSession sessionId handlerIndex =>
        w.setHandler h { handler with
          sessionHandlers :=
            Function.update handler.sessionHandlers sessionId (some handlerIndex) }
      | .endSession sessionId _ =>
        w.setHandler h { handler with
          sessionHandlers := Function.update handler.sessionHandlers sessionId none }
      | .push sessionId item =>
        match handler.sessionQueues sessionId with
        | none => w
        | some queue =>
          w.setHandler h { handler with
            sessionQueues :=
              Function.update handler.sessionQueues sessionId (some (queue ++ [item])) }

def get (w : World n ι σ ρ) (h : Fin n) (sessionId : ι) : World n ι σ ρ :=
  let handler := w.handlers h
  if handler.sessionHandlers sessionId = some h then
    match handler.sessionQueues sessionId with
    | some (item :: queue) =>
      let w := w.setHandler h { handler with
        sessionQueues := Function.update handler.sessionQueues sessionId (some queue) }
      { w with received := Function.update w.received sessionId (w.received sessionId ++ [item]) }
    | _ => w
  else w

variable [DecidableEq σ]

/-- What a push puts into the queue of its session, and what the handler then keeps of it. -/
def accept (cfg : Config) (w : World n ι σ ρ) (h : Fin n) (now : ℕ) (sessionId : ι) :
    Push σ ρ → World n ι σ ρ × Option (QueueItem ι σ ρ)
  | .full request => (w, some (.full request))
  | .microBatch p =>
    let handler := w.handlers h
    let (tracking, admitted) := handler.tracking.accept cfg now sessionId p
    (w.setHandler h { handler with tracking },
      if admitted then some (cfg.createMicrobatchQueueItem sessionId p) else none)

def finish (cfg : Config) (w : World n ι σ ρ) (h : Fin n) (sessionId : ι) : Push σ ρ → World n ι σ ρ
  | .full _ => w
  | .microBatch p =>
    let handler := w.handlers h
    w.setHandler h { handler with tracking := handler.tracking.finish cfg sessionId p }

def rpcPush (cfg : Config) (w : World n ι σ ρ) (h : Fin n) (now : ℕ) (sessionId : ι)
    (p : Push σ ρ) : World n ι σ ρ :=
  let (w, item) := w.accept cfg h now sessionId p
  match item with
  | none => w
  | some item =>
    match w.putIntoSessionQueue h sessionId item with
    | none => w
    | some w => w.finish cfg h sessionId p

def step (cfg : Config) (w : World n ι σ ρ) : Act n ι σ ρ → World n ι σ ρ
  | .enter h sessionId => w.enter h sessionId
  | .exit h sessionId => w.exit h sessionId
  | .rpcPush h now sessionId p => w.rpcPush cfg h now sessionId p
  | .listen h sender => w.listen h sender
  | .get h sessionId => w.get h sessionId
  | .shutdown h => w.setHandler h { w.handlers h with listening := false }

def run (cfg : Config) (w : World n ι σ ρ) (acts : List (Act n ι σ ρ)) : World n ι σ ρ :=
  acts.foldl (step cfg) w

end World

/-! ### One session

What the handlers know of one session, and the protocol they follow for it: the specification that
the handlers are compared with. -/

inductive Signal (n : ℕ) (α : Type) where
  | opened (handlerIndex : Fin n)
  | closed
  | push (item : α)

def Signal.item? {α : Type} : Signal n α → Option α
  | .push item => some item
  | _ => none

structure SessionView (n : ℕ) (α : Type) where
  table : Fin n → Option (Fin n)
  queue : Fin n → Option (List α)
  lanes : Fin n → Fin n → List (Signal n α)
  received : List α

inductive SessionAct (n : ℕ) (α : Type) where
  | enter (h : Fin n)
  | exit (h : Fin n)
  | push (h : Fin n) (item : α)
  | take (h sender : Fin n)
  | get (h : Fin n)

namespace SessionView

variable {α : Type}

def init : SessionView n α := ⟨fun _ => none, fun _ => none, fun _ _ => [], []⟩

def send (v : SessionView n α) (sender h : Fin n) (e : Signal n α) : SessionView n α :=
  { v with
    lanes := fun h' sender' =>
      if h' = h ∧ sender' = sender then v.lanes h' sender' ++ [e] else v.lanes h' sender' }

def broadcast (v : SessionView n α) (sender : Fin n) (e : Signal n α) : SessionView n α :=
  { v with
    lanes := fun h sender' =>
      if h ≠ sender ∧ sender' = sender then v.lanes h sender' ++ [e] else v.lanes h sender' }

def enqueue (v : SessionView n α) (h : Fin n) (item : α) : SessionView n α :=
  match v.queue h with
  | none => v
  | some queue => { v with queue := Function.update v.queue h (some (queue ++ [item])) }

def take (v : SessionView n α) (h sender : Fin n) : SessionView n α :=
  match v.lanes h sender with
  | [] => v
  | e :: es =>
    let v := { v with lanes := Function.update v.lanes h (Function.update (v.lanes h) sender es) }
    match e with
    | .opened handlerIndex => { v with table := Function.update v.table h (some handlerIndex) }
    | .closed => { v with table := Function.update v.table h none }
    | .push item => v.enqueue h item

def step (v : SessionView n α) : SessionAct n α → SessionView n α
  | .enter h =>
    if v.queue h = none then
      { v with
        queue := Function.update v.queue h (some [])
        table := Function.update v.table h (some h) }.broadcast h (.opened h)
    else v
  | .exit h =>
    if v.queue h = none then v
    else if v.table h = none then { v with queue := Function.update v.queue h none }
    else
      { v with
        queue := Function.update v.queue h none
        table := Function.update v.table h none }.broadcast h .closed
  | .push h item =>
    match v.table h with
    | none => v
    | some handlerIndex =>
      if handlerIndex = h then v.enqueue h item else v.send h handlerIndex (.push item)
  | .take h sender => v.take h sender
  | .get h =>
    if v.table h = some h then
      match v.queue h with
      | some (item :: queue) =>
        { v with
          queue := Function.update v.queue h (some queue)
          received := v.received ++ [item] }
      | _ => v
    else v

/-- What handler `h` sends on for the session in one act. -/
def routed (v : SessionView n α) (h : Fin n) : SessionAct n α → List α
  | .push h' item => if h' = h ∧ v.table h ≠ none then [item] else []
  | _ => []

end SessionView

def Event.sessionId : Event n ι σ ρ → ι
  | .newSession sessionId _ => sessionId
  | .endSession sessionId _ => sessionId
  | .push sessionId _ => sessionId

def Event.signal : Event n ι σ ρ → Signal n (QueueItem ι σ ρ)
  | .newSession _ handlerIndex => .opened handlerIndex
  | .endSession _ _ => .closed
  | .push _ item => .push item

variable [DecidableEq ι]

def Event.itemOf (s : ι) : Event n ι σ ρ → Option (QueueItem ι σ ρ)
  | .push sessionId item => if sessionId = s then some item else none
  | _ => none

/-- The pushes of session `s` that wait for `h` to take them. -/
def World.waiting (w : World n ι σ ρ) (h sender : Fin n) (s : ι) : List (QueueItem ι σ ρ) :=
  (w.events h sender).filterMap (Event.itemOf s)

def World.view (w : World n ι σ ρ) (s : ι) : SessionView n (QueueItem ι σ ρ) where
  table h := (w.handlers h).sessionHandlers s
  queue h := (w.handlers h).sessionQueues s
  lanes h sender := ((w.events h sender).filter (·.sessionId = s)).map Event.signal
  received := w.received s

variable [DecidableEq σ]

/-- What a step of the handlers is to session `s`. -/
def World.sessionAct (cfg : Config) (w : World n ι σ ρ) (s : ι) :
    Act n ι σ ρ → Option (SessionAct n (QueueItem ι σ ρ))
  | .enter h sessionId => if sessionId = s then some (.enter h) else none
  | .exit h sessionId => if sessionId = s then some (.exit h) else none
  | .rpcPush h now sessionId p =>
    if sessionId = s then (w.accept cfg h now sessionId p).2.map (.push h) else none
  | .listen h sender =>
    if (w.handlers h).listening ∧ (w.events h sender).head?.any (·.sessionId = s) then
      some (.take h sender)
    else none
  | .get h sessionId => if sessionId = s then some (.get h) else none
  | .shutdown _ => none

/-- What handler `h` sends on for session `s` during a run, in order. -/
def World.routed (cfg : Config) (w : World n ι σ ρ) (h : Fin n) (s : ι) :
    List (Act n ι σ ρ) → List (QueueItem ι σ ρ)
  | [] => []
  | a :: acts =>
    ((w.sessionAct cfg s a).elim [] ((w.view s).routed h)) ++ (w.step cfg a).routed cfg h s acts

/-- The micro-batches of a step that handler `h` lets through to `_put_into_session_queue` in one
step, and in a run. -/
def World.admittedBy (cfg : Config) (w : World n ι σ ρ) (h : Fin n) (s : ι) (stepId : σ) :
    Act n ι σ ρ → List ℕ
  | .rpcPush h' now sessionId (.microBatch p) =>
    if h' = h ∧ sessionId = s ∧ p.stepId = stepId ∧
        ((w.handlers h).tracking.accept cfg now s p).2 = true then [p.microBatchIdx]
    else []
  | _ => []

def World.admitted (cfg : Config) (w : World n ι σ ρ) (h : Fin n) (s : ι) (stepId : σ) :
    List (Act n ι σ ρ) → List ℕ
  | [] => []
  | a :: acts => w.admittedBy cfg h s stepId a ++ (w.step cfg a).admitted cfg h s stepId acts

def Act.entered : Act n ι σ ρ → Option ι
  | .enter _ sessionId => some sessionId
  | _ => none

/-- No session name is used twice, as every session of a client draws its own. -/
def Fresh (acts : List (Act n ι σ ρ)) : Prop := (acts.filterMap Act.entered).Nodup

/-- `whole` is put together from `parts`, each of them in its own order. -/
def Interleaves {α : Type} (parts : Fin n → List α) (whole : List α) : Prop :=
  ∃ labelled : List (Fin n × α), labelled.map Prod.snd = whole ∧
    ∀ h, (labelled.filter (·.1 = h)).map Prod.snd = parts h

end BloomBee.PushRouting
