import BloomBee.Lib.Loop
import Mathlib.Data.Finset.Basic
import Mathlib.Data.Fintype.Basic
import Mathlib.Data.List.FinRange
import Mathlib.Data.List.Sort
import Mathlib.Algebra.BigOperators.Group.Finset.Basic

/-! `_live_continuous_generate_late_arrival_impl` (`client/remote_generation.py`): the
token-level scheduler for one-token prompts that arrive at different ticks. The session is a
parameter: a step takes what the scheduler stages for a group of rows and gives back the argmax
of each returned row. -/

set_option autoImplicit false

namespace BloomBee.LateArrival

open Loop

structure Request (n : ℕ) where
  inputIds : Fin n → ℕ
  maxNewTokens : ℕ
  eosSet : List ℕ
  arrivalTicks : Fin n → ℕ

structure LiveDecodeRow where
  requestId : String
  tick : ℕ
  position : ℕ
  inputTokenId : ℕ

/-- `staged_batch` with the two tensors of the call of `layers`. `rows` has the request ids,
positions and input tokens of the whole batch. -/
structure GroupStep (n : ℕ) where
  tick : ℕ
  rows : Fin n → LiveDecodeRow
  activeMask : Fin n → Bool
  batchOffset : ℕ
  fullBatchSize : ℕ
  microBatchSize : ℕ
  stepIds : List ℕ
  prefillLength : List ℕ

/-- What `recorder` gets at the end of a tick, with the groups of the tick. -/
structure TickRecord (n : ℕ) where
  tick : ℕ
  rows : Fin n → LiveDecodeRow
  activeMask : Fin n → Bool
  outputTokenIds : Fin n → ℕ
  groups : List (List (Fin n))

inductive Error (ε : Type) where
  | session (e : ε)
  | runtimeError (message : String)

structure State (n : ℕ) (σ : Type) where
  generatedByRow : Fin n → List ℕ
  done : Fin n → Bool
  pending : List (Fin n)
  active : List (Fin n)
  activeSet : Finset (Fin n)
  tick : ℕ
  session : σ
  log : List (TickRecord n)

variable {n : ℕ} {σ ε : Type}

/-- The sort key of `pending`. -/
def Request.before (c : Request n) (a b : Fin n) : Prop :=
  c.arrivalTicks a < c.arrivalTicks b ∨ c.arrivalTicks a = c.arrivalTicks b ∧ a ≤ b

instance (c : Request n) : DecidableRel c.before := fun a b =>
  inferInstanceAs (Decidable
    (c.arrivalTicks a < c.arrivalTicks b ∨ c.arrivalTicks a = c.arrivalTicks b ∧ a ≤ b))

def State.init (c : Request n) (session : σ) : State n σ where
  generatedByRow _ := []
  done _ := false
  pending := (List.finRange n).insertionSort c.before
  active := []
  activeSet := ∅
  tick := ((List.finRange n).map c.arrivalTicks).min?.getD 0
  session := session
  log := []

structure Queues (n : ℕ) where
  pending : List (Fin n)
  active : List (Fin n)
  activeSet : Finset (Fin n)

/-- The inner loop that moves arrived rows from `pending` to `active`. -/
def moveArrived (c : Request n) (tick : ℕ) (done : Fin n → Bool) :
    List (Fin n) → List (Fin n) → Finset (Fin n) → Queues n
  | [], active, activeSet => ⟨[], active, activeSet⟩
  | r :: pending, active, activeSet =>
    if c.arrivalTicks r ≤ tick then
      if r ∉ activeSet ∧ done r = false then
        moveArrived c tick done pending (active ++ [r]) (insert r activeSet)
      else moveArrived c tick done pending active activeSet
    else ⟨r :: pending, active, activeSet⟩

structure Popped (n : ℕ) where
  active : List (Fin n)
  activeSet : Finset (Fin n)
  rowIndices : List (Fin n)

/-- The loop over `range(batch_size)` that takes the rows of this tick. -/
def popRows (done : Fin n → Bool) :
    ℕ → List (Fin n) → Finset (Fin n) → List (Fin n) → Popped n
  | 0, active, activeSet, rowIndices => ⟨active, activeSet, rowIndices⟩
  | _ + 1, [], activeSet, rowIndices => ⟨[], activeSet, rowIndices⟩
  | k + 1, r :: active, activeSet, rowIndices =>
    popRows done k active (activeSet.erase r) (if done r then rowIndices else rowIndices ++ [r])

/-- One turn of the loop that builds `compute_groups`. -/
def addToGroups (position : Fin n → ℕ) (groups : List (List (Fin n))) (r : Fin n) :
    List (List (Fin n)) :=
  match groups.getLast? with
  | none => groups ++ [[r]]
  | some g =>
    if g.getLast?.map (fun last => last.val + 1) = some r.val ∧
        g.head?.map position = some (position r) then
      groups.dropLast ++ [g ++ [r]]
    else groups ++ [[r]]

def computeGroups (position : Fin n → ℕ) (rowIndices : List (Fin n)) : List (List (Fin n)) :=
  rowIndices.foldl (addToGroups position) []

def inputToken (c : Request n) (generatedByRow : Fin n → List ℕ) (r : Fin n) : ℕ :=
  (generatedByRow r).getLastD (c.inputIds r)

def liveRow (c : Request n) (generatedByRow : Fin n → List ℕ) (tick : ℕ) (r : Fin n) :
    LiveDecodeRow where
  requestId := "generate-" ++ toString r.val
  tick := tick
  position := (generatedByRow r).length
  inputTokenId := inputToken c generatedByRow r

def maskOf (rows : List (Fin n)) (r : Fin n) : Bool := decide (r ∈ rows)

def groupStep (c : Request n) (generatedByRow : Fin n → List ℕ) (tick : ℕ) (g : List (Fin n)) :
    GroupStep n where
  tick := tick
  rows := liveRow c generatedByRow tick
  activeMask := maskOf g
  batchOffset := (g.head?.map Fin.val).getD 0
  fullBatchSize := n
  microBatchSize := g.length
  stepIds := g.map (inputToken c generatedByRow)
  prefillLength := g.map fun r => (generatedByRow r).length

/-- Rows the server returned beyond those of the group are cut off by the `zip`. -/
def computeGroup (step : σ → GroupStep n → Except ε (σ × List ℕ)) (c : Request n)
    (generatedByRow : Fin n → List ℕ) (tick : ℕ) (session : σ) (output : Fin n → ℕ)
    (g : List (Fin n)) : Except (Error ε) (σ × (Fin n → ℕ)) :=
  match step session (groupStep c generatedByRow tick g) with
  | .error e => .error (.session e)
  | .ok (session, nextId) =>
    if nextId.length < g.length then
      .error (.runtimeError
        "live continuous batching server returned fewer rows than the active compute batch")
    else .ok (session, (g.zip nextId).foldl (fun out p => Function.update out p.1 p.2) output)

def runGroups (step : σ → GroupStep n → Except ε (σ × List ℕ)) (c : Request n)
    (generatedByRow : Fin n → List ℕ) (tick : ℕ) :
    List (List (Fin n)) → σ → (Fin n → ℕ) → Except (Error ε) (σ × (Fin n → ℕ))
  | [], session, output => .ok (session, output)
  | g :: groups, session, output =>
    match computeGroup step c generatedByRow tick session output g with
    | .error e => .error e
    | .ok (session, output) => runGroups step c generatedByRow tick groups session output

structure Progress (n : ℕ) where
  generatedByRow : Fin n → List ℕ
  done : Fin n → Bool
  active : List (Fin n)
  activeSet : Finset (Fin n)

/-- The end of a tick for one row: its token, `done`, and the queue again. -/
def commitRow (c : Request n) (output : Fin n → ℕ) (p : Progress n) (r : Fin n) : Progress n :=
  let generated := p.generatedByRow r ++ [output r]
  let done := p.done r || decide (output r ∈ c.eosSet)
  let again := done = false ∧ generated.length < c.maxNewTokens
  { generatedByRow := Function.update p.generatedByRow r generated
    done := Function.update p.done r done
    active := if again then p.active ++ [r] else p.active
    activeSet := if again then insert r p.activeSet else p.activeSet }

/-- The tick for the sorted `row_indices`. `q` has the queues after the rows were taken. -/
def serve (step : σ → GroupStep n → Except ε (σ × List ℕ)) (c : Request n) (s : State n σ)
    (q : Queues n) (rowIndices : List (Fin n)) : Turn (State n σ) (Error ε) :=
  let groups := computeGroups (fun r => (s.generatedByRow r).length) rowIndices
  match runGroups step c s.generatedByRow s.tick groups s.session
    (inputToken c s.generatedByRow) with
  | .error e => .raise e
  | .ok (session, output) =>
    if groups = [] then
      .raise (.runtimeError "live continuous batching tick had no active compute rows")
    else
      let p := rowIndices.foldl (commitRow c output)
        ⟨s.generatedByRow, s.done, q.active, q.activeSet⟩
      .next
        { generatedByRow := p.generatedByRow
          done := p.done
          pending := q.pending
          active := p.active
          activeSet := p.activeSet
          tick := s.tick + 1
          session := session
          log := s.log ++
            [⟨s.tick, liveRow c s.generatedByRow s.tick, maskOf rowIndices, output, groups⟩] }

def turn (step : σ → GroupStep n → Except ε (σ × List ℕ)) (c : Request n) (s : State n σ) :
    Turn (State n σ) (Error ε) :=
  if ∃ r, (s.generatedByRow r).length < c.maxNewTokens then
    let q := moveArrived c s.tick s.done s.pending s.active s.activeSet
    let s := { s with pending := q.pending, active := q.active, activeSet := q.activeSet }
    if q.active = [] then
      match q.pending with
      | r :: _ => .next { s with tick := max (s.tick + 1) (c.arrivalTicks r) }
      | [] => .stop s
    else
      let p := popRows s.done n q.active q.activeSet []
      if p.rowIndices = [] then
        .next { s with active := p.active, activeSet := p.activeSet, tick := s.tick + 1 }
      else
        serve step c s ⟨q.pending, p.active, p.activeSet⟩ (p.rowIndices.insertionSort (· ≤ ·))
  else .stop s

/-- A row of the result, filled up with the prompt token. -/
def outputRow (c : Request n) (generatedByRow : Fin n → List ℕ) (r : Fin n) : List ℕ :=
  let generated := generatedByRow r
  let filled :=
    if generated.length < c.maxNewTokens then
      generated ++ List.replicate (c.maxNewTokens - generated.length) (c.inputIds r)
    else generated
  c.inputIds r :: filled.take c.maxNewTokens

/-- The variables after the main loop, and the output. `none` when `fuel` turns are not
enough. -/
def lateArrivalGenerate (step : σ → GroupStep n → Except ε (σ × List ℕ)) (c : Request n)
    (session : σ) (fuel : ℕ) : Option (Except (Error ε) (State n σ × (Fin n → List ℕ))) :=
  (run (turn step c) fuel (State.init c session)).map fun result =>
    result.map fun s => (s, outputRow c s.generatedByRow)

/-! ### Each row alone -/

/-- Greedy decoding after `history`: at most `k` tokens, cut after the first EOS. -/
def greedy (next : List ℕ → ℕ) (eosSet : List ℕ) : ℕ → List ℕ → List ℕ
  | 0, _ => []
  | k + 1, history =>
    if next history ∈ eosSet then [next history]
    else next history :: greedy next eosSet k (history ++ [next history])

/-- What decoding row `r` alone generates. -/
def alone (next : List ℕ → ℕ) (c : Request n) (r : Fin n) : List ℕ :=
  greedy next c.eosSet c.maxNewTokens [c.inputIds r]

/-- What a step is promised when `rows` is its group and `fed r` are the tokens row `r` has fed
so far: the rows are consecutive and have one position, below the length of the session. -/
structure Fits (g : GroupStep n) (rows : List (Fin n)) (fed : Fin n → List ℕ) (maxLength : ℕ) :
    Prop where
  nonempty : rows ≠ []
  contiguous : rows.IsChain fun a b => b.val = a.val + 1
  offset : rows.head?.map Fin.val = some g.batchOffset
  full : g.fullBatchSize = n
  micro : g.microBatchSize = rows.length
  mask : ∀ r, g.activeMask r = true ↔ r ∈ rows
  tokens : g.stepIds = rows.map fun r => (g.rows r).inputTokenId
  prefill : g.prefillLength = rows.map fun r => (fed r).length
  positions : ∀ r ∈ rows, (g.rows r).position = (fed r).length
  samePosition : ∀ r ∈ rows, ∀ r' ∈ rows, (fed r).length = (fed r').length
  length : ∀ r ∈ rows, (fed r).length < maxLength

/-- A session whose step gives each row of the group what decoding the row alone gives: the
greedy choice after the tokens fed to this row. -/
structure RowByRow (step : σ → GroupStep n → Except ε (σ × List ℕ)) (next : List ℕ → ℕ)
    (fed : σ → Fin n → List ℕ) (maxLength : ℕ) : Prop where
  returns : ∀ (s : σ) (g : GroupStep n) (rows : List (Fin n)), Fits g rows (fed s) maxLength →
    ∃ s' extra, step s g =
        .ok (s', (rows.map fun r => next (fed s r ++ [(g.rows r).inputTokenId])) ++ extra) ∧
      ∀ r, fed s' r = if r ∈ rows then fed s r ++ [(g.rows r).inputTokenId] else fed s r

/-- How often row `r` is served at tick `t`. -/
def serves (log : List (TickRecord n)) (t : ℕ) (r : Fin n) : ℕ :=
  ((log.filter (·.tick = t)).flatMap fun e => e.groups.flatten).count r

/-- How often row `r` was served before tick `t`. -/
def received (log : List (TickRecord n)) (t : ℕ) (r : Fin n) : ℕ :=
  ∑ i ∈ Finset.range t, serves log i r

end BloomBee.LateArrival
