import Mathlib.Data.List.Basic
import Mathlib.Data.Nat.Notation

/-! Greedy requests on one inference session (`client/remote_generation.py`): the ordinary branch of
`generate()`, `_fast_generate_greedy`, and `_live_continuous_generate_impl` for rows that arrive
together. The embedding, the servers and the head are one function `next`: the greedy token after
all that a row has been fed in the session. The telemetry of the live path is left out. -/

set_option autoImplicit false

namespace BloomBee.RemoteGeneration

variable {τ : Type} {rows : ℕ}

/-! ### Calls -/

/-- The names of the keyword arguments that one of the two paths knows. -/
inductive Kwarg where
  | maxLength | maxNewTokens | doSample | padTokenId | eosTokenId | bosTokenId | useCache
  | numBeams | numReturnSequences | returnDictInGenerate | attentionMask | logitsProcessor
  | stoppingCriteria | generationConfig | liveArrivalTicks | outputHiddenStates
  | outputAttentions | pastKeyValues | other
  deriving DecidableEq, Repr

def liveContinuousKnownKwargs : List Kwarg :=
  [.maxLength, .maxNewTokens, .doSample, .padTokenId, .eosTokenId, .bosTokenId, .useCache,
   .numBeams, .numReturnSequences, .returnDictInGenerate, .attentionMask, .logitsProcessor,
   .stoppingCriteria, .generationConfig, .liveArrivalTicks]

def fastGenerateKnownKwargs : List Kwarg :=
  [.maxLength, .maxNewTokens, .doSample, .padTokenId, .eosTokenId, .bosTokenId, .useCache,
   .outputHiddenStates, .outputAttentions, .returnDictInGenerate, .pastKeyValues]

/-- A call of `generate` with a prompt for each of the `rows` rows of the session, all of one width.
`given` has the names of its keyword arguments; a flag says that the argument is given with a value
that counts. `use_cache`, `bos_token_id` and `past_key_values` have no effect here: a value that
matters to the ordinary branch is not passed. -/
structure GenerateCall (τ : Type) (rows : ℕ) where
  inputs : List (List τ)
  width : ℕ
  given : List Kwarg := []
  maxNewTokens : Option ℕ := none
  maxLength : Option ℕ := none
  eosTokenId : Option (List τ) := none
  padTokenId : Option τ := none
  doSample : Bool := false
  numBeams : ℕ := 1
  numReturnSequences : ℕ := 1
  attentionMask : Bool := false
  logitsProcessor : Bool := false
  stoppingCriteria : Bool := false
  outputHiddenStates : Bool := false
  outputAttentions : Bool := false
  returnDictInGenerate : Bool := false
  generationConfig : Bool := false
  inputs_length : inputs.length = rows
  rows_pos : 0 < rows
  inputs_width : ∀ input ∈ inputs, input.length = width
  width_pos : 0 < width

/-- What the two predicates read beside the call. -/
structure Setting where
  fastGenerateEnabled : Bool
  liveContinuousEnabled : Bool
  liveMaxBatchSize : Option ℕ := none
  tuningMode : Bool := false
  /-- Another session is active than the one that is passed. -/
  otherSessionActive : Bool := false

/-- What both predicates ask of a call. -/
def plainGreedy (cfg : Setting) (call : GenerateCall τ rows) : Bool :=
  !call.doSample && call.numBeams == 1 && call.numReturnSequences == 1 && !call.attentionMask &&
    !call.logitsProcessor && !call.stoppingCriteria && !call.returnDictInGenerate &&
    !call.generationConfig && (call.maxNewTokens.isSome || call.maxLength.isSome) &&
    !cfg.tuningMode

def fastGenerateEligible (cfg : Setting) (call : GenerateCall τ rows) : Bool :=
  cfg.fastGenerateEnabled && plainGreedy cfg call &&
    !(call.outputHiddenStates || call.outputAttentions) &&
    call.given.all fun k => decide (k ∈ fastGenerateKnownKwargs ∨ k = .generationConfig)

def liveContinuousGenerateEligible (cfg : Setting) (call : GenerateCall τ rows) : Bool :=
  cfg.liveContinuousEnabled && cfg.liveMaxBatchSize.all (fun m => decide (rows ≤ m)) &&
    !cfg.otherSessionActive && plainGreedy cfg call &&
    call.given.all fun k => decide (k ∈ liveContinuousKnownKwargs)

/-! ### Sessions -/

/-- `output_ids` of the session, and the tokens that its rows have been fed. -/
structure Session (τ : Type) where
  outputIds : Option (List (List τ))
  fed : List (List τ)
  deriving DecidableEq

def Session.fresh (τ : Type) : Session τ := { outputIds := none, fed := [] }

/-- `session.output_ids.shape[1]`, 0 without output ids. -/
def Session.nPrevTokens (s : Session τ) : ℕ := ((s.outputIds.getD []).headD []).length

def Session.prevRow (s : Session τ) (b : ℕ) : List τ := (s.outputIds.getD []).getD b []

def Session.fedRow (s : Session τ) (b : ℕ) : List τ := s.fed.getD b []

structure Outcome (τ : Type) where
  returned : List (List τ)
  session : Session τ
  deriving DecidableEq

/-! ### The loops -/

/-- A row in a decode loop. `step` are the tokens that are fed next. -/
structure Row (τ : Type) where
  output : List τ
  fed : List τ
  step : List τ
  done : Bool := false

/-- A decode loop of at most `n` steps. It stops when all rows are done, if there is an EOS token
at all. -/
def decode (stops : Bool) (step : Row τ → Row τ) : ℕ → List (Row τ) → List (Row τ)
  | 0, rows => rows
  | n + 1, rows =>
    let rows := rows.map step
    if stops && rows.all Row.done then rows else decode stops step n rows

variable [DecidableEq τ]

/-- The body of the loop of `_fast_generate_greedy`. -/
def fastStep (next : List τ → τ) (eos : List τ) (pad : Option τ) (row : Row τ) : Row τ :=
  let fed := row.fed ++ row.step
  let nextId := next fed
  let done := row.done || decide (nextId ∈ eos)
  let token := if done then pad.getD nextId else nextId
  { output := row.output ++ [token], fed := fed, step := [token], done := done }

/-- The body of the loop of `_live_continuous_generate_impl`. -/
def liveStep (next : List τ → τ) (eos : List τ) (row : Row τ) : Row τ :=
  let fed := row.fed ++ row.step
  let nextId := next fed
  { output := row.output ++ [nextId], fed := fed, step := [nextId],
    done := row.done || decide (nextId ∈ eos) }

/-- A step of the greedy search of transformers: a finished row emits `pad`. -/
def greedySearchStep (next : List τ → τ) (eos : List τ) (pad : Option τ) (row : Row τ) : Row τ :=
  let fed := row.fed ++ row.step
  let nextId := next fed
  let token := if row.done then pad.getD nextId else nextId
  { output := row.output ++ [token], fed := fed, step := [token],
    done := row.done || decide (nextId ∈ eos) }

/-! ### The three paths -/

/-- `eos_set`, which is empty when no EOS token is given. -/
def eosSet (call : GenerateCall τ rows) : List τ := call.eosTokenId.getD []

/-- `max_new_tokens` of the two shortcuts. -/
def newTokens (call : GenerateCall τ rows) : ℕ :=
  call.maxNewTokens.getD (call.maxLength.getD 0 - call.width)

/-- What a path leaves behind the loop, if it returns the rows without their first `crop`
tokens. -/
def finish (crop : ℕ) (rows : List (Row τ)) : Outcome τ where
  returned := rows.map fun row => row.output.drop crop
  session := { outputIds := some (rows.map Row.output), fed := rows.map Row.fed }

def fastGenerateGreedy (next : List τ → τ) (s : Session τ) (call : GenerateCall τ rows) :
    Outcome τ :=
  let start := call.inputs.mapIdx fun b input =>
    -- only the newest token is fed when the session has already advanced
    { output := s.prevRow b ++ input, fed := s.fedRow b,
      step := if 0 < s.nPrevTokens then input.drop (call.width - 1) else input }
  finish 0 (decode (eosSet call != []) (fastStep next (eosSet call) call.padTokenId)
    (newTokens call) start)

/-- `_live_continuous_generate_impl` without late arrivals. -/
def liveContinuousGenerate (next : List τ → τ) (s : Session τ) (call : GenerateCall τ rows) :
    Outcome τ :=
  let start := call.inputs.mapIdx fun b input =>
    { output := input, fed := s.fedRow b, step := input }
  finish 0 (decode (eosSet call != []) (liveStep next (eosSet call)) (newTokens call) start)

/-- The `generation_config` of the model, which transformers falls back to. -/
structure GenerationConfig (τ : Type) where
  eosTokenId : List τ := []
  padTokenId : Option τ := none

/-- The EOS tokens of the greedy search. -/
def GenerationConfig.eos (cfg : GenerationConfig τ) (call : GenerateCall τ rows) : List τ :=
  call.eosTokenId.getD cfg.eosTokenId

/-- The padding of the greedy search: the first EOS token if none is set. -/
def GenerationConfig.pad (cfg : GenerationConfig τ) (call : GenerateCall τ rows) : Option τ :=
  (call.padTokenId.or cfg.padTokenId).or (cfg.eos call).head?

/-- The legacy branch of `generate()`, for a plain greedy call. -/
def legacyGenerate (next : List τ → τ) (cfg : GenerationConfig τ) (s : Session τ)
    (call : GenerateCall τ rows) : Outcome τ :=
  let start := call.inputs.mapIdx fun b input =>
    -- the tokens of the previous call are prepended, and all but the last of them skipped
    { output := s.prevRow b ++ input, fed := s.fedRow b,
      step := (s.prevRow b ++ input).drop (s.nPrevTokens - 1) }
  let limit := call.maxNewTokens.getD (call.maxLength.getD 0 - (s.nPrevTokens + call.width))
  finish s.nPrevTokens (decode (cfg.eos call != []) (greedySearchStep next (cfg.eos call)
    (cfg.pad call)) limit start)

/-- The two shortcuts of `generate()`. -/
inductive Shortcut where
  | fast
  | live
  deriving DecidableEq, Repr

def Shortcut.eligible : Shortcut → Setting → GenerateCall τ rows → Bool
  | fast => fastGenerateEligible
  | live => liveContinuousGenerateEligible

def Shortcut.generate : Shortcut → (List τ → τ) → Session τ → GenerateCall τ rows → Outcome τ
  | fast => fastGenerateGreedy
  | live => liveContinuousGenerate

end BloomBee.RemoteGeneration
