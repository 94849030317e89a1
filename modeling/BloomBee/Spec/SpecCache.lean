import BloomBee.Spec.RpcInference
import BloomBee.Spec.SpeDecTree

/-! The cache of one block in a round of speculative decoding: the position ids that the client
builds from the accepted paths (`models/llama/speculative_model.py`), and what the server reads,
writes and compacts with them (`server/memory_cache_manager.py`). The round is served in one
submission, and the cache holds the full batch. -/

set_option autoImplicit false

namespace BloomBee.Speculative

open RpcInference
open BackendStep (ChunkConfig estimateMaxChunkLength runUncut)

variable {κ : Type}

/-- What a round is run with: the zeros of compacted rows, the padding of the trees, the
`pad_token_id` of finished rows, and what the server estimates the length of its chunks by. -/
structure RoundConfig (κ : Type) where
  zero : κ
  pad : κ
  padTokenId : κ
  chunks : ChunkConfig
  prefixLength : ℕ

/-! ### The client -/

/-- A row of the batch between two rounds. `committed` is what is cached for the tokens of the
row, the root of `tree` being the last of them, and `tree` is the tree of the last round, of
which a path was accepted. A row that an end token has finished takes `pad_token_id` for all its
tokens. `next` is the tree of the next round. -/
structure RoundRow (κ : Type) where
  committed : List κ
  tree : Forest κ
  accepted : List (Node κ)
  llmToken : κ
  finished : Bool
  next : Forest κ
  committed_ne : committed ≠ []
  accepted_path : ∃ p ∈ tree.leafNodePaths, accepted <+: p

/-- `tree_root_position` -/
def RoundRow.root (row : RoundRow κ) : ℕ := row.committed.length - 1

/-- `verified_tokens` of a row in `_sample_with_session`. -/
def RoundRow.verifiedTokens (row : RoundRow κ) (padTokenId : κ) : List κ :=
  if row.finished then List.replicate row.accepted.length padTokenId
  else row.accepted.map Node.token

/-- `llm_generated_token` of a row, the root of the next tree. -/
def RoundRow.rootToken (row : RoundRow κ) (padTokenId : κ) : κ :=
  if row.finished then padTokenId else row.llmToken

/-- The committed tokens after `_update_input_ids_with_padding`. -/
def RoundRow.committed' (row : RoundRow κ) (padTokenId : κ) : List κ :=
  row.committed ++ row.verifiedTokens padTokenId ++ [row.rootToken padTokenId]

/-- `all_positions` of a row in `_extract_best_verified_paths_fixed`. -/
def RoundRow.positions (row : RoundRow κ) : List ℤ :=
  (row.root : ℤ) :: row.accepted.map fun n => ((row.root + n.position + 1 : ℕ) : ℤ)

/-- The rows of position ids, filled up with -1. -/
def padIds (rows : List (List ℤ)) : List (List ℤ) :=
  let maxPosLen := (rows.map List.length).foldr max 0
  rows.map fun r => r ++ List.replicate (maxPosLen - r.length) (-1)

/-- The `kv_cache_position_ids` that the last round left. Without a drafted node it was a fallback
round, which returns zeros. -/
def kvCachePositionIds (rows : List (RoundRow κ)) : List (List ℤ) :=
  if ∀ row ∈ rows, row.tree.size = 0 then rows.map fun _ => [0]
  else padIds (rows.map RoundRow.positions)

/-- The inputs of a round: the root, the nodes of the tree, and padding. -/
def RoundRow.inputs (cfg : RoundConfig κ) (maxSize : ℕ) (row : RoundRow κ) : List κ :=
  row.rootToken cfg.padTokenId :: paddedTokens cfg.pad maxSize row.next

/-! ### The server -/

/-- `cache_len` of `select_cache_without_reorder`: the largest of the rows' ends. -/
def selectLen (ids : List (List ℤ)) : ℕ :=
  (ids.map fun r => (r.map fun p => (p + 1).toNat).foldr max 0).foldr max 0

/-- A row of `reorder_and_write_cache`: the slots before the root stay, the valid ids follow
in their order, and zeros fill the rest. -/
def compactRow (zero : κ) (old : List κ) (ids : List ℤ) (newLen : ℕ) : List κ :=
  let valid := ids.filter fun p => 0 ≤ p
  let root := (valid.head?.map Int.toNat).getD old.length
  (List.range newLen).map fun i =>
    if i < root then old.getD i zero
    else
      match valid[i - root]? with
      | some source => old.getD source.toNat zero
      | none => zero

theorem compactRow_length (zero : κ) (old : List κ) (ids : List ℤ) (newLen : ℕ) :
    (compactRow zero old ids newLen).length = newLen := by
  rw [compactRow, List.length_map, List.length_range]

/-- `valid_lengths` of a row. -/
def validLength (cacheLen : ℕ) (ids : List ℤ) : ℕ :=
  let valid := ids.filter fun p => 0 ≤ p
  (valid.head?.map Int.toNat).getD cacheLen + valid.length

def maxNewLength (cacheLen : ℕ) (ids : List (List ℤ)) : ℕ :=
  (ids.map (validLength cacheLen)).foldr max 0

/-- `reorder_and_write_cache` over the first `cacheLen` slots. -/
def reorderAndWriteCache (zero : κ) (slab : Slab κ) (batchOffset cacheLen : ℕ)
    (ids : List (List ℤ)) : Option (Slab κ) :=
  writeKvs slab 0 batchOffset (ids.mapIdx fun b r =>
    compactRow zero ((slab.row (batchOffset + b)).take cacheLen) r (maxNewLength cacheLen ids))

def extendIds (ids : List (List ℤ)) (writePosition treeLen : ℕ) : List (List ℤ) :=
  ids.map fun r => r ++ (List.range treeLen).map fun j => ((writePosition + j : ℕ) : ℤ)

/-- `_do_reorder_task`. What it raises it logs. -/
def doReorderTask (zero : κ) (slab : Slab κ) (batchOffset : ℕ) (ids : List (List ℤ))
    (treeLen : ℕ) (new : List (List κ)) : Slab κ :=
  let writePosition := cacheLenOf ids
  if writePosition = 0 then (writeKvs slab 0 batchOffset new).getD slab
  else
    match writeKvs slab writePosition batchOffset new with
    | none => slab
    | some slab =>
      let extended := extendIds ids writePosition treeLen
      let cacheLen := cacheLenOf extended
      if slab.seqLen < cacheLen then slab
      else (reorderAndWriteCache zero slab batchOffset cacheLen extended).getD slab

inductive SpecError where
  /-- `convert_mask_to_scores` gets the empty tensor that stands for no mask. -/
  | maskNotBool
  | zeroDivision
  | windowTooLong (cacheLen seqLen : ℕ)
  /-- The mask of all inputs meets a chunk of them. -/
  | maskTooLong
  | shapeMismatch
  deriving DecidableEq, Repr

/-- The cached part of what input `i` of a row attends to. -/
def attendedSlots (slab : Slab κ) (ids : List (List ℤ)) (maxSize b : ℕ) (next : Forest κ)
    (i : ℕ) : List κ :=
  select ((generationMaskRow (ids.getD b []) (cacheLenOf ids) maxSize next i).take (selectLen ids))
    ((slab.row b).take (selectLen ids))

/-- A round after the first one: what the inputs of each row attend to in the cache, and the cache
afterwards. A batch without drafted nodes has no mask, and the server raises. -/
def serveRound (cfg : RoundConfig κ) (slab : Slab κ) (rows : List (RoundRow κ)) :
    Except SpecError ((ℕ → RoundRow κ → ℕ → List κ) × Slab κ) :=
  let ids := kvCachePositionIds rows
  let maxSize := maxTreeSize (rows.map RoundRow.next)
  let treeLen := 1 + maxSize
  if ∀ row ∈ rows, row.next.size = 0 then .error .maskNotBool
  else if slab.batch < rows.length then .error .shapeMismatch
  else
    match estimateMaxChunkLength cfg.chunks rows.length treeLen cfg.prefixLength with
    | none => .error .zeroDivision
    | some maxChunkLength =>
      if slab.seqLen < selectLen ids then .error (.windowTooLong (selectLen ids) slab.seqLen)
      else
        match runUncut treeLen maxChunkLength (rows.map fun row => row.inputs cfg maxSize) with
        | none => .error .maskTooLong
        | some new =>
          .ok (fun b row i => attendedSlots slab ids maxSize b row.next i,
            doReorderTask cfg.zero slab 0 ids treeLen new)

end BloomBee.Speculative
