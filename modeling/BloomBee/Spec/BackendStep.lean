import BloomBee.Spec.RpcInference

/-! `TransformerBackend.inference_step` (`server/backend.py`) of one block on the standard path:
the selected cache, the chunks of the forward pass, and the cache update after them. The block is
causal attention over the selected keys and values and those of the chunk it is given. It works
row by row, on a cache that holds the full batch. -/

set_option autoImplicit false

namespace BloomBee.BackendStep

open RpcInference

variable {τ κ : Type}

/-- A token at a position has a key and value, and gets its output from those it attends to. -/
structure Attention (τ κ : Type) where
  keyValue : τ → ℕ → κ
  output : List κ → τ → ℕ → τ

/-- A position of the input, with what it attended to. -/
structure Position (τ κ : Type) where
  context : List κ
  positionId : ℕ
  output : τ
  deriving DecidableEq

/-- `_run_block_forward` on a row: its positions, and its new keys and values. -/
def Attention.forward (att : Attention τ κ) (past : List κ) (xs : List τ)
    (positionIds : List ℕ) : List (Position τ κ) × List κ :=
  let newKvs := List.zipWith att.keyValue xs positionIds
  ((xs.zip positionIds).mapIdx fun i x =>
    ⟨past ++ newKvs.take (i + 1), x.2, att.output (past ++ newKvs.take (i + 1)) x.1 x.2⟩, newKvs)

/-! ### A step -/

/-- A regular step. `maxChunkLength` is the length estimated for it. -/
structure Step (τ : Type) where
  prefixLength : ℕ
  batchOffset : ℕ
  hidden : Batch τ
  hypoIds : List ℕ
  maxChunkLength : ℕ

def positionIds (cacheLen chunkLength offset : ℕ) : List ℕ :=
  (List.range chunkLength).map (· + (cacheLen + offset))

/-- The chunk loop on a row. `layer_past` is the same for every chunk, and `new_kvs` is that of the
last one. -/
def chunkLoop (att : Attention τ κ) (maxChunkLength cacheLen : ℕ) (past : List κ) (xs : List τ) :
    List ℕ → List (Position τ κ) × List κ → List (Position τ κ) × List κ
  | [], acc => acc
  | offset :: offsets, acc =>
    let step := att.forward past ((xs.drop offset).take maxChunkLength)
      (positionIds cacheLen (min maxChunkLength (xs.length - offset)) offset)
    chunkLoop att maxChunkLength cacheLen past xs offsets (acc.1 ++ step.1, step.2)

def runRow (att : Attention τ κ) (maxChunkLength cacheLen : ℕ) (past : List κ) (xs : List τ) :
    List (Position τ κ) × List κ :=
  chunkLoop att maxChunkLength cacheLen past xs
    (chunkOffsets xs.length maxChunkLength xs.length 0) ([], [])

/-- `select_cache` for row `i` of the step. It takes `hypo_ids`, but the reordering by them is
commented out. -/
def selectCache (c : Slab κ) (prefixLength batchOffset : ℕ) (_hypoIds : List ℕ) (i : ℕ) : List κ :=
  (c.row (batchOffset + i)).take prefixLength

structure StepResult (τ κ : Type) where
  rows : List (List (Position τ κ))
  slab : Slab κ

def runRows (att : Attention τ κ) (c : Slab κ) (s : Step τ) :
    List (List (Position τ κ) × List κ) :=
  s.hidden.rows.mapIdx fun i xs =>
    runRow att s.maxChunkLength s.prefixLength
      (selectCache c s.prefixLength s.batchOffset s.hypoIds i) xs

/-- The step after the length of its chunks is estimated. Without tokens no chunk runs, and
`new_kvs` is unbound. -/
def inferenceStep (att : Attention τ κ) (c : Slab κ) (s : Step τ) :
    Except Error (StepResult τ κ) :=
  if s.prefixLength > c.seqLen then .error (.prefixTooLong s.prefixLength c.seqLen)
  else if s.batchOffset + s.hidden.rows.length > c.batch then .error .shapeMismatch
  else if s.hidden.width = 0 then .error .other
  else
    match writeKvs c s.prefixLength s.batchOffset ((runRows att c s).map Prod.snd) with
    | none => .error .shapeMismatch
    | some slab => .ok ⟨(runRows att c s).map Prod.fst, slab⟩

def Step.onePiece (s : Step τ) : Step τ := { s with maxChunkLength := max 1 s.hidden.width }

end BloomBee.BackendStep
