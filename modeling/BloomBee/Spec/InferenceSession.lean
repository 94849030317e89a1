import BloomBee.Lib.Causal

/-! `InferenceSession` of `client/inference_session.py` in regular decoding: no speculative
decoding, no live batches, no `hypo_ids`, no deep prompts, no push-only decode. A tensor of
hidden states is the list of its token columns, so `torch.cat` along the tokens is append
and `[:, -n:]` keeps the last `n` columns. A server keeps for every block of a session the
inputs its attention cache was computed from. -/

set_option autoImplicit false

namespace BloomBee.InferenceSession

variable {τ : Type}

/-- `RemoteSpanInfo` without the peer. -/
structure Span where
  start : ℕ
  stop : ℕ
  deriving DecidableEq, Repr

inductive Fate where
  | answered
  /-- Opening the sessions raises, or the step raises before the request is sent. -/
  | unreachable
  /-- The request is sent and no server processes it. -/
  | lost
  /-- The server processes the request, the answer does not arrive. -/
  | dropped
  deriving DecidableEq, Repr

/-- One turn of the retry loop, as far as the client does not decide it. -/
structure Attempt where
  fate : Fate
  makeSequence : ℕ → ℕ → List Span
  /-- Which copy of the step the server takes first: `0` is the request of the client, `k + 1`
  the `k`-th one pushed by the stage before it. Further copies are skipped by their step id. -/
  copy : ℕ

structure Config where
  numBlocks : ℕ
  maxLength : ℕ
  maxRetries : Option ℕ
  useServerToServer : Bool

/-- `_ServerInferenceSession` together with the state its server holds for it. -/
structure ServerSession (τ : Type) where
  span : Span
  position : ℕ
  history : Option (List τ)
  stepped : Bool
  closed : Bool
  /-- Per block of the span, the inputs in its attention cache. -/
  caches : List (List τ)
  /-- The copies of the current step that other servers pushed here: start position and
  hidden states. -/
  pushed : List (ℕ × List τ)

def ServerSession.create (span : Span) : ServerSession τ :=
  ⟨span, 0, none, false, false, List.replicate (span.stop - span.start) [], []⟩

/-- Python's `xs[-n:]`; `-0` is `0`, which keeps everything. -/
def lastTokens (n : ℕ) (xs : List τ) : List τ :=
  if n = 0 then xs else xs.drop (xs.length - n)

/-- `_trim_recovered_history_for_existing_downstream`. -/
def trimRecoveredHistory (inputs : List τ) (currentStepTokens downstreamPosition : ℕ) : List τ :=
  if currentStepTokens = 0 ∨ downstreamPosition = 0 then inputs
  else if inputs.length ≤ currentStepTokens then inputs
  else lastTokens currentStepTokens inputs

/-- The blocks of a span one after another: each cuts its cache at `start_from_position`,
takes the new tokens in and answers for these. -/
def serveBlocks (blocks : ℕ → Causal τ τ) (start : ℕ) :
    ℕ → List (List τ) → List τ → List (List τ) × List τ
  | _, [], x => ([], x)
  | b, cache :: caches, x =>
    let cache := cache.take start ++ x
    let (caches, y) := serveBlocks blocks start (b + 1) caches (((blocks b).run cache).drop start)
    (cache :: caches, y)

/-- A server takes one copy of the step; more than `max_length` raises. -/
def ServerSession.serve (cfg : Config) (blocks : ℕ → Causal τ τ) (s : ServerSession τ)
    (copy : ℕ × List τ) : Option (List (List τ) × List τ) :=
  if cfg.maxLength < copy.1 + copy.2.length then none
  else some (serveBlocks blocks copy.1 s.span.start s.caches copy.2)

/-- What a call of `_ServerInferenceSession.step` leaves: the session, the copy its server
pushes on, and the answer the client sees. -/
structure Outcome (τ : Type) where
  session : ServerSession τ
  push : Option (ℕ × List τ)
  answer : Option (List τ)

def ServerSession.log (s : ServerSession τ) (inputs : List τ) : List τ :=
  match s.history with
  | none => inputs
  | some history =>
    if history.length = s.position then history ++ lastTokens inputs.length inputs else history

/-- What the client sends: a session that has not stepped gets the whole log. -/
def ServerSession.sent (s : ServerSession τ) (inputs : List τ) : List τ :=
  if s.stepped then inputs else s.log inputs

def ServerSession.taken (a : Attempt) (s : ServerSession τ) (inputs : List τ) : ℕ × List τ :=
  let direct := (s.position, s.sent inputs)
  (direct :: s.pushed).getD a.copy direct

/-- `_ServerInferenceSession.step`. The log is written before anything is sent; the position
only moves when the answer arrived, by the tokens sent. -/
def ServerSession.step (cfg : Config) (blocks : ℕ → Causal τ τ) (a : Attempt)
    (s : ServerSession τ) (inputs : List τ) : Outcome τ :=
  if s.closed then ⟨s, none, none⟩
  else
    let logged := { s with history := some (s.log inputs) }
    let tokensToAdvance := (s.sent inputs).length
    match a.fate with
    | .unreachable => ⟨logged, none, none⟩
    | .lost => ⟨{ logged with stepped := true }, none, none⟩
    | fate =>
      let copy := s.taken a inputs
      let logged := { logged with stepped := true }
      match s.serve cfg blocks copy with
      | none => ⟨logged, none, none⟩
      | some (caches, outputs) =>
        let served := { logged with caches }
        if fate = .answered then
          ⟨{ served with position := s.position + tokensToAdvance }, some (copy.1, outputs),
            some outputs⟩
        else ⟨served, some (copy.1, outputs), none⟩

/-- `updated_spans[-1].end = min(updated_spans[-1].end, update_end)`. -/
def clampLast (updateEnd : ℕ) : List Span → List Span
  | [] => []
  | [s] => [{ s with stop := min s.stop updateEnd }]
  | s :: spans => s :: clampLast updateEnd spans

/-- `_update_sequence` on the sessions from `server_idx` on, with whether it went through.
The failed session is closed first; the first of the new ones takes over its history. -/
def updateSequence (cfg : Config) (a : Attempt) (blockIdx : ℕ) (todo : List (ServerSession τ)) :
    List (ServerSession τ) × Bool :=
  let closed := todo.modifyHead fun s => { s with closed := true }
  let updateEnd := (todo.head?.map fun s => s.span.stop).getD cfg.numBlocks
  let spans := clampLast updateEnd (a.makeSequence blockIdx updateEnd)
  if a.fate = .unreachable ∨ spans = [] then (closed, false)
  else
    let updated := spans.map ServerSession.create
    match closed with
    | [] => (updated, true)
    | failed :: rest => (updated.modifyHead (fun s => { s with history := failed.history }) ++ rest, true)

/-- A session is pushed to only if it has stepped (`_collect_next_servers`). -/
def ServerSession.receivePush (cfg : Config) (copy : ℕ × List τ) (s : ServerSession τ) :
    ServerSession τ :=
  if cfg.useServerToServer ∧ s.stepped then { s with pushed := s.pushed ++ [copy] } else s

/-- The server that computed a step pushes its outputs to the next session of the chain. -/
def pushOutputs (cfg : Config) (push : Option (ℕ × List τ)) (rest : List (ServerSession τ)) :
    List (ServerSession τ) :=
  match push with
  | none => rest
  | some copy => rest.modifyHead fun s => s.receivePush cfg copy

/-- The body of the `try`: the sessions from `server_idx` on, and the answer if there is one. -/
def attempt (cfg : Config) (blocks : ℕ → Causal τ τ) (a : Attempt) (nInputTokens : ℕ)
    (update : Bool) (blockIdx : ℕ) (todo : List (ServerSession τ)) (inputs : List τ) :
    List (ServerSession τ) × Option (List τ) :=
  let (todo, opened) := if update then updateSequence cfg a blockIdx todo else (todo, true)
  match opened, todo with
  | false, _ => (todo, none)
  | true, [] => ([], none)
  | true, s :: rest =>
    let serverInputs := trimRecoveredHistory inputs nInputTokens s.position
    let o := s.step cfg blocks a serverInputs
    (o.session :: pushOutputs cfg o.push rest, o.answer)

inductive Error where
  | maximumLengthExceeded
  | retriesExhausted
  | fewerTokens
  /-- The given attempts are used up before the step ends. -/
  | pending
  deriving DecidableEq, Repr

/-- The two loops of `step`: over the blocks, and over the attempts at one server. The
sessions are kept split at `server_idx` into `done` and `todo`. -/
def stepLoop (cfg : Config) (blocks : ℕ → Causal τ τ) (nInputTokens : ℕ) :
    List Attempt → List (ServerSession τ) → List (ServerSession τ) → ℕ → ℕ → List τ →
      List (ServerSession τ) × Except Error (List τ)
  | [], done, todo, blockIdx, _, inputs =>
    if cfg.numBlocks ≤ blockIdx then (done ++ todo, .ok inputs) else (done ++ todo, .error .pending)
  | a :: attempts, done, todo, blockIdx, attemptNo, inputs =>
    if cfg.numBlocks ≤ blockIdx then (done ++ todo, .ok inputs)
    else
      let update := (done ++ todo).isEmpty || decide (1 ≤ attemptNo)
      match attempt cfg blocks a nInputTokens update blockIdx todo inputs with
      | (s :: todo, some outputs) =>
        stepLoop cfg blocks nInputTokens attempts (done ++ [s]) todo s.span.stop 0 outputs
      | (todo, _) =>
        if cfg.maxRetries = some (attemptNo + 1) then (done ++ todo, .error .retriesExhausted)
        else stepLoop cfg blocks nInputTokens attempts done todo blockIdx (attemptNo + 1) inputs

structure Session (τ : Type) where
  sessions : List (ServerSession τ)
  position : ℕ

def Session.init : Session τ := ⟨[], 0⟩

/-- `InferenceSession.step`. A new step id: no copy of it was pushed anywhere yet. -/
def Session.step (cfg : Config) (blocks : ℕ → Causal τ τ) (s : Session τ) (attempts : List Attempt)
    (inputs : List τ) : Session τ × Except Error (List τ) :=
  let nInputTokens := inputs.length
  if cfg.maxLength < s.position + nInputTokens then (s, .error .maximumLengthExceeded)
  else
    let sessions := s.sessions.map fun t => { t with pushed := [] }
    match stepLoop cfg blocks nInputTokens attempts [] sessions 0 0 inputs with
    | (sessions, .error e) => ({ s with sessions }, .error e)
    | (sessions, .ok outputs) =>
      let s := ⟨sessions, s.position + nInputTokens⟩
      if 0 < nInputTokens ∧ nInputTokens < outputs.length then
        (s, .ok (lastTokens nInputTokens outputs))
      else if 0 < nInputTokens ∧ outputs.length < nInputTokens then (s, .error .fewerTokens)
      else (s, .ok outputs)

structure Call (τ : Type) where
  inputs : List τ
  attempts : List Attempt

def Session.run (cfg : Config) (blocks : ℕ → Causal τ τ) (s : Session τ) :
    List (Call τ) → Session τ × List (Except Error (List τ))
  | [] => (s, [])
  | c :: calls =>
    let (s, result) := s.step cfg blocks c.attempts c.inputs
    let (s, results) := s.run cfg blocks calls
    (s, result :: results)

end BloomBee.InferenceSession
