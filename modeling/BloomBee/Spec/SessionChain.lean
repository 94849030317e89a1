import BloomBee.Spec.InferenceSession

/-! The chain of server sessions in `client/inference_session.py`: the list `_server_sessions`
as `_update_sequence` splices it, with the links `next_session` over which the servers push
to each other. Of a step only the retry loop is left. -/

set_option autoImplicit false

namespace BloomBee.InferenceSession

/-- A `_ServerInferenceSession` in the chain. `id` tells the objects apart. -/
structure ChainSession where
  id : ℕ
  span : Span
  nextSession : Option ℕ
  deriving DecidableEq, Repr

/-- `created` counts the sessions opened so far, which are numbered in this order. -/
structure Chain where
  serverSessions : List ChainSession
  created : ℕ
  deriving DecidableEq, Repr

def Chain.init : Chain := ⟨[], 0⟩

/-- What an attempt meets with. `makeSequence` gives no spans where it raises. -/
structure Try where
  makeSequence : ℕ → ℕ → List Span
  /-- `_enter_server_sessions` goes through. -/
  opened : Bool
  /-- The step of the server session returns. -/
  answered : Bool

def enterServerSessions : ℕ → List Span → List ChainSession
  | _, [] => []
  | created, span :: spans => ⟨created, span, none⟩ :: enterServerSessions (created + 1) spans

/-- `self._server_sessions[i].next_session = self._server_sessions[i + 1]` -/
def link (sessions : List ChainSession) (i : ℕ) : List ChainSession :=
  sessions.modify i fun s => { s with nextSession := sessions[i + 1]?.map fun t => t.id }

/-- `_update_sequence`; nothing where it raises, which leaves the list as it was. -/
def Chain.updateSequence (numBlocks : ℕ) (c : Chain) (serverIdx blockIdx : ℕ) (t : Try) :
    Option Chain :=
  let updateEnd := (c.serverSessions[serverIdx]?.map fun s => s.span.stop).getD numBlocks
  let updatedSpans := clampLast updateEnd (t.makeSequence blockIdx updateEnd)
  if updatedSpans = [] ∨ t.opened = false then none
  else
    let updatedSessions := enterServerSessions c.created updatedSpans
    let sessions := c.serverSessions.take serverIdx ++ updatedSessions ++
      c.serverSessions.drop (serverIdx + 1)
    let first := serverIdx - 1
    let stop := min (serverIdx + updatedSpans.length) (sessions.length - 1)
    some ⟨(List.range' first (stop - first)).foldl link sessions, c.created + updatedSpans.length⟩

structure Cursor where
  serverIdx : ℕ
  blockIdx : ℕ
  attemptNo : ℕ
  deriving DecidableEq, Repr

structure ChainState where
  chain : Chain
  cursor : Option Cursor
  deriving DecidableEq, Repr

def ChainState.init : ChainState := ⟨.init, none⟩

inductive ChainEvent where
  /-- `step` is called; the one before it is over, however it ended. -/
  | step
  /-- The next turn of its retry loop. -/
  | attempt (t : Try)

/-- `while block_idx < self.num_blocks` -/
def loopAt (numBlocks serverIdx blockIdx : ℕ) : Option Cursor :=
  if blockIdx < numBlocks then some ⟨serverIdx, blockIdx, 0⟩ else none

/-- The `except` branch: the last attempt raises, which ends the step. -/
def Cursor.retry (maxRetries : Option ℕ) (k : Cursor) : Option Cursor :=
  if maxRetries = some (k.attemptNo + 1) then none else some { k with attemptNo := k.attemptNo + 1 }

/-- The chain once `_update_sequence` went through, where an attempt begins with it. -/
def Chain.routed (numBlocks : ℕ) (c : Chain) (k : Cursor) (t : Try) : Option Chain :=
  if c.serverSessions.isEmpty || decide (1 ≤ k.attemptNo) then
    c.updateSequence numBlocks k.serverIdx k.blockIdx t
  else some c

def ChainState.act (numBlocks : ℕ) (maxRetries : Option ℕ) (s : ChainState) :
    ChainEvent → ChainState
  | .step => { s with cursor := loopAt numBlocks 0 0 }
  | .attempt t =>
    match s.cursor with
    | none => s
    | some k =>
      match s.chain.routed numBlocks k t with
      | none => { s with cursor := k.retry maxRetries }
      | some chain =>
        match t.answered, chain.serverSessions[k.serverIdx]? with
        | true, some session => ⟨chain, loopAt numBlocks (k.serverIdx + 1) session.span.stop⟩
        | _, _ => ⟨chain, k.retry maxRetries⟩

def ChainState.run (numBlocks : ℕ) (maxRetries : Option ℕ) (s : ChainState)
    (events : List ChainEvent) : ChainState :=
  events.foldl (ChainState.act numBlocks maxRetries) s

end BloomBee.InferenceSession
