import BloomBee.Spec.SpeDecTree

/-! `_sample_with_session` (`models/llama/speculative_model.py`) without sampling and without
logits processors: rounds of drafting, verification and update of the token sequences. The target
model gives the row of logits for the tokens a position attends to. -/

set_option autoImplicit false

namespace BloomBee.Speculative

/-- What the client uses of a row of logits: its argmax, and whether it is all zero, as it is
for a pruned position. -/
structure LogitsRow where
  argmax : ℕ
  zero : Bool
  deriving DecidableEq

/-- A row of `current_input_ids` with its entry of `seq_lengths` and of `unfinished_sequences`. -/
structure SeqRow where
  ids : List ℕ
  seqLength : ℕ
  unfinished : Bool
  deriving DecidableEq

def SeqRow.sequence (row : SeqRow) : List ℕ := row.ids.take row.seqLength

structure SampleState where
  rows : List SeqRow
  isFirstIteration : Bool
  deriving DecidableEq

/-- `stops` are the stopping criteria on a row of the padded ids, `hasEos` says whether one of
them has an end token. -/
structure SampleConfig where
  padTokenId : ℕ
  hasEos : Bool
  stops : List ℕ → Bool
  maxNewTokens : ℕ

/-- What a round gets from outside: the trees of the drafter, and the tokens that the fallback
draws at random. -/
structure Round where
  trees : List (Forest ℕ)
  drawn : List ℕ

def ignoreTokenIds : List ℕ := [0, 2]

def startRows (inputIds : List (List ℕ)) : SampleState where
  rows := inputIds.map fun ids => ⟨ids, ids.countP fun t => t ∉ ignoreTokenIds, true⟩
  isFirstIteration := true

/-! ### The request -/

/-- The logits of the first round, for the prompt and the tree. -/
def firstLogits (model : List ℕ → LogitsRow) (row : SeqRow) (maxSeqLen maxSize : ℕ)
    (tree : Forest ℕ) (i : ℕ) : LogitsRow :=
  model (select (prefillMaskRow row.ids.length row.seqLength maxSize tree i)
    (row.ids.take maxSeqLen ++ paddedTokens 0 maxSize tree))

/-- The tokens that input `i` of a later round attends to: the cached tokens of the row, the root
and nodes of the tree. -/
def laterContext (row : SeqRow) (maxSize : ℕ) (tree : Forest ℕ) (i : ℕ) : List ℕ :=
  row.sequence.dropLast ++ select (generationMaskRow [] 0 maxSize tree i)
    (row.sequence.getLastD 0 :: paddedTokens 0 maxSize tree)

/-- The logits of a later round, for the root and the tree. -/
def laterLogits (model : List ℕ → LogitsRow) (row : SeqRow) (maxSize : ℕ) (tree : Forest ℕ)
    (i : ℕ) : LogitsRow :=
  model (laterContext row maxSize tree i)

/-! ### `_extract_best_verified_paths_fixed` -/

/-- The loop over the nodes of a path. `pos` is the row of logits after the parent of the first
of them. -/
def verifyPath (seqLen : ℕ) (predicted : ℕ → ℕ) : ℕ → List (Node ℕ) → List (Node ℕ)
  | _, [] => []
  | pos, node :: path =>
    if seqLen ≤ pos then []
    else if predicted pos = node.token then
      node :: verifyPath seqLen predicted (node.position + 1) path
    else []

/-- The first of the longest verified paths. -/
def bestVerified (seqLen : ℕ) (predicted : ℕ → ℕ) (paths : List (List (Node ℕ))) :
    List (Node ℕ) :=
  paths.foldl (fun best path =>
    let verified := verifyPath seqLen predicted 0 path
    if best.length < verified.length then verified else best) []

/-- The verified tokens of a row and its `llm_token`. -/
def extractRow (logits : ℕ → LogitsRow) (seqLen fallback : ℕ) (tree : Forest ℕ) :
    List ℕ × ℕ :=
  let best := bestVerified seqLen (fun i => (logits i).argmax) tree.leafNodePaths
  match best.getLast? with
  | some last =>
    if (logits (last.position + 1)).zero then (best.dropLast.map Node.token, last.token)
    else (best.map Node.token, (logits (last.position + 1)).argmax)
  | none => ([], (logits fallback).argmax)

/-- The verification of a row. Without a verified node the token comes from the last row of the
prompt in the first round (from the last row of all if the prompt has no token that counts), and
from the row of the root later. -/
def verifyRow (model : List ℕ → LogitsRow) (isFirstIteration : Bool) (maxSeqLen maxSize : ℕ)
    (row : SeqRow) (tree : Forest ℕ) : List ℕ × ℕ :=
  if isFirstIteration then
    extractRow (firstLogits model row maxSeqLen maxSize tree) (maxSeqLen + maxSize)
      (if row.seqLength = 0 then maxSeqLen + maxSize - 1 else row.seqLength - 1) tree
  else extractRow (laterLogits model row maxSize tree) (1 + maxSize) 0 tree

/-! ### A round -/

/-- The tokens of a row after a round. A row that is finished is padded. -/
def SeqRow.extend (cfg : SampleConfig) (row : SeqRow) (verified : List ℕ) (llmToken : ℕ) :
    List ℕ :=
  if cfg.hasEos && !row.unfinished then
    row.sequence ++ verified.map (fun _ => cfg.padTokenId) ++ [cfg.padTokenId]
  else row.sequence ++ verified ++ [llmToken]

/-- `verified_tokens` and `llm_generated_token` of all rows. Without any drafted node the
fallback draws a token for each row. -/
def verifyTrees (model : List ℕ → LogitsRow) (st : SampleState) (r : Round) :
    List (List ℕ × ℕ) :=
  let maxSeqLen := (st.rows.map SeqRow.seqLength).foldr max 0
  let maxSize := maxTreeSize r.trees
  if ∀ tree ∈ r.trees, tree.size = 0 then st.rows.mapIdx fun b _ => ([], r.drawn.getD b 0)
  else st.rows.mapIdx fun b row =>
    verifyRow model st.isFirstIteration maxSeqLen maxSize row (r.trees.getD b .nil)

/-- What `_verify_trees_with_forward` returns for each row: the verified tokens up to the valid
length, and the token of the target model. -/
abbrev Outcome := ℕ → List ℕ × ℕ

/-- A turn of the main loop after the verification: the stopping conditions and
`_update_input_ids_with_padding`. -/
def updateRows (cfg : SampleConfig) (st : SampleState) (outcome : Outcome) : SampleState :=
  let sequences := st.rows.mapIdx fun b row => row.extend cfg (outcome b).1 (outcome b).2
  let newMaxLen := (sequences.map List.length).foldr max 0
  { rows := (st.rows.zip sequences).map fun (row, s) =>
      let ids := s ++ List.replicate (newMaxLen - s.length) cfg.padTokenId
      ⟨ids, s.length, row.unfinished && !cfg.stops ids⟩
    isFirstIteration := false }

def greedyOutcome (model : List ℕ → LogitsRow) (st : SampleState) (r : Round) : Outcome :=
  fun b => (verifyTrees model st r).getD b ([], 0)

def sampleRound (cfg : SampleConfig) (model : List ℕ → LogitsRow) (st : SampleState)
    (r : Round) : SampleState :=
  updateRows cfg st (greedyOutcome model st r)

def running (cfg : SampleConfig) (initialLen : ℕ) (st : SampleState) : Bool :=
  st.rows.any SeqRow.unfinished &&
    st.rows.any fun row => row.seqLength < initialLen + cfg.maxNewTokens

def sample (cfg : SampleConfig) (model : List ℕ → LogitsRow) (initialLen : ℕ) :
    SampleState → List Round → SampleState
  | st, [] => st
  | st, r :: rounds =>
    if running cfg initialLen st then
      sample cfg model initialLen (sampleRound cfg model st r) rounds
    else st

def sampleWith (cfg : SampleConfig) (initialLen : ℕ) : SampleState → List Outcome → SampleState
  | st, [] => st
  | st, outcome :: outcomes =>
    if running cfg initialLen st then
      sampleWith cfg initialLen (updateRows cfg st outcome) outcomes
    else st

/-! ### Logits processors -/

/-- The whole rows of logits, with what `LogitsRow` keeps of one. -/
structure LogitsOps (L : Type) where
  argmax : L → ℕ
  zero : L → Bool

def LogitsOps.row {L : Type} (ops : LogitsOps L) (logits : L) : LogitsRow :=
  ⟨ops.argmax logits, ops.zero logits⟩

def processed {L : Type} (processors : List (List ℕ → L → L)) (history : List ℕ) (logits : L) : L :=
  processors.foldl (fun logits processor => processor history logits) logits

/-- The path that is verified in a later round. The processors have no part in it. -/
def laterBest {L : Type} (ops : LogitsOps L) (model : List ℕ → L) (row : SeqRow) (maxSize : ℕ)
    (tree : Forest ℕ) : List (Node ℕ) :=
  bestVerified (1 + maxSize) (fun i => ops.argmax (model (laterContext row maxSize tree i)))
    tree.leafNodePaths

/-- `_extract_best_verified_paths_fixed` for a row in a later round. The history that the
processors get is the row of `input_ids` before the round, with its padding. -/
def extractProcessed {L : Type} (ops : LogitsOps L) (processors : List (List ℕ → L → L))
    (model : List ℕ → L) (row : SeqRow) (maxSize : ℕ) (tree : Forest ℕ) : List ℕ × ℕ :=
  let logits := fun i => model (laterContext row maxSize tree i)
  let best := laterBest ops model row maxSize tree
  match best.getLast? with
  | some last =>
    if ops.zero (logits (last.position + 1)) then (best.dropLast.map Node.token, last.token)
    else (best.map Node.token,
      ops.argmax (processed processors row.ids (logits (last.position + 1))))
  | none => ([], ops.argmax (processed processors row.ids (logits 0)))

/-- The verification of row `b` in a later round. Without any drafted node in the batch the fallback
draws a token, at temperature 1 whatever `do_sample` is. -/
def verifyProcessed {L : Type} (ops : LogitsOps L) (processors : List (List ℕ → L → L))
    (model : List ℕ → L) (r : Round) (b : ℕ) (row : SeqRow) : List ℕ × ℕ :=
  if ∀ tree ∈ r.trees, tree.size = 0 then ([], r.drawn.getD b 0)
  else extractProcessed ops processors model row (maxTreeSize r.trees) (r.trees.getD b .nil)

/-! ### Greedy decoding -/

def greedySteps (model : List ℕ → LogitsRow) (prompt : List ℕ) : ℕ → List ℕ
  | 0 => prompt
  | n + 1 => greedySteps model prompt n ++ [(model (greedySteps model prompt n)).argmax]

end BloomBee.Speculative
