import BloomBee.Lib.Law
import BloomBee.Spec.SpeDecTree
import Mathlib.Logic.Function.Basic

/-! Rejection sampling for speculative decoding: `models/llama/spec_decoding_verify.py`, and the
rows of `_extract_sampling_paths_specinfer` (`models/llama/speculative_model.py`). Probabilities
are rational numbers, and a function that draws at random returns the law of what it returns. -/

set_option autoImplicit false

namespace BloomBee.Speculative

variable {n : ℕ}

/-- The token is the accepted draft token, or the one drawn on rejection. -/
structure EdgeVerifyResult (n : ℕ) where
  accepted : Bool
  sampledToken : Fin n
  deriving DecidableEq

/-- `(p_target - p_draft)+`, normalized. If it is zero everywhere, `p_target`. -/
def residualDistribution (pTarget pDraft : Fin n → ℚ) : Fin n → ℚ :=
  let residual := fun i => max (pTarget i - pDraft i) 0
  let total := ∑ i, residual i
  if total ≤ 0 then fun i => pTarget i / max (∑ j, pTarget j) (1 / 10 ^ 20)
  else fun i => residual i / total

/-- `torch.multinomial` with one sample: the entries are weights. -/
def multinomial (weights : Fin n → ℚ) : Law (Fin n) :=
  Law.weighted fun i => weights i / ∑ j, weights j

def verifyEdge (pTarget pDraft : Fin n → ℚ) (draftToken : Fin n) : Law (EdgeVerifyResult n) :=
  let q := pDraft draftToken
  let p := pTarget draftToken
  if q ≤ 0 then Law.pure ⟨true, draftToken⟩
  else
    (Law.below (min (p / q) 1)).bind fun accepted =>
      if accepted then Law.pure ⟨true, draftToken⟩
      else (multinomial (residualDistribution pTarget pDraft)).map fun sampled => ⟨false, sampled⟩

/-- A row of `target_probs`, `draft_probs` and `draft_tokens`. -/
structure PathEdge (n : ℕ) where
  pTarget : Fin n → ℚ
  pDraft : Fin n → ℚ
  draftToken : Fin n

/-- The loop of `verify_path`, and the bonus token after it from the target distribution `last`. -/
def verifyLoop (last : Fin n → ℚ) :
    List (PathEdge n) → List (Fin n) → ℕ → Law (List (Fin n) × ℕ)
  | [], committed, acceptedLen =>
    (multinomial last).map fun bonus => (committed ++ [bonus], acceptedLen)
  | e :: edges, committed, acceptedLen =>
    (verifyEdge e.pTarget e.pDraft e.draftToken).bind fun result =>
      if result.accepted then
        verifyLoop last edges (committed ++ [result.sampledToken]) (acceptedLen + 1)
      else Law.pure (committed ++ [result.sampledToken], acceptedLen)

/-- `verify_path`: the committed tokens and the number of accepted ones. -/
def verifyPathEdges (edges : List (PathEdge n)) : Law (List (Fin n) × ℕ) :=
  verifyLoop (edges.getLast?.elim (fun _ => 0) PathEdge.pTarget) edges [] 0

/-! ### Paths -/

/-- The token and the drafter's probability of a node. -/
structure Draft (n : ℕ) where
  token : Fin n
  probability : ℚ
  deriving DecidableEq

namespace Forest

variable {α : Type}

/-- The roots of the forest: the children of the node that it is under. -/
def roots : Forest α → List α
  | nil => []
  | cons token _ siblings => token :: siblings.roots

/-- Every node with the children of its parent, which are `level` for the roots. -/
def annotate (level : List α) : Forest α → Forest (α × List α)
  | nil => nil
  | cons token children siblings =>
    cons (token, level) (children.annotate children.roots) (siblings.annotate level)

def withSiblings (tree : Forest α) : Forest (α × List α) := tree.annotate tree.roots

end Forest

/-- A node of a path, with its siblings. -/
abbrev PathNode (n : ℕ) := Node (Draft n × List (Draft n))

/-- The row of logits after the parent of the last node of a path. -/
def lastPos (path : List (PathNode n)) : ℕ :=
  path.dropLast.getLast?.elim 0 fun parent => parent.position + 1

/-- The probability of a path, if it is a candidate. The code adds logarithms, which are ordered in
the same way. -/
def pathProbability (seqLen : ℕ) (path : List (PathNode n)) : Option ℚ :=
  if path = [] then none
  else if ∃ node ∈ path, node.token.1.probability ≤ 0 then none
  else if seqLen ≤ lastPos path then none
  else some (path.map fun node => node.token.1.probability).prod

/-- The best path after one more, which has to be strictly better. -/
def betterPath (seqLen : ℕ) (best : Option (ℚ × List (PathNode n))) (path : List (PathNode n)) :
    Option (ℚ × List (PathNode n)) :=
  match pathProbability seqLen path, best with
  | none, _ => best
  | some p, none => some (p, path)
  | some p, some b => if b.1 < p then some (p, path) else best

/-- The first of the candidate paths with the largest probability. -/
def bestPath (seqLen : ℕ) (paths : List (List (PathNode n))) : Option (ℚ × List (PathNode n)) :=
  paths.foldl (betterPath seqLen) none

/-- `draft_probs[i, tok] = max(sib.probability, draft_probs[i, tok])` -/
def addSibling (draft : Fin n → ℚ) (sib : Draft n) : Fin n → ℚ :=
  Function.update draft sib.token (max sib.probability (draft sib.token))

/-- The sparse draft distribution of a set of siblings. -/
def draftProbs (siblings : List (Draft n)) : Fin n → ℚ := siblings.foldl addSibling fun _ => 0

/-- The edges of a path whose first node is verified by row `pos`. `target` is the distribution of
each row of logits. -/
def pathEdges (target : ℕ → Fin n → ℚ) : ℕ → List (PathNode n) → List (PathEdge n)
  | _, [] => []
  | pos, node :: path =>
    ⟨target pos, draftProbs node.token.2, node.token.1.token⟩ ::
      pathEdges target (node.position + 1) path

/-- The row of logits for a row without a candidate path. -/
def fallbackRow (seqLen realFallbackPos : ℕ) : ℕ :=
  if realFallbackPos = 0 ∨ seqLen < realFallbackPos then seqLen - 1 else realFallbackPos - 1

/-- A row of `_extract_sampling_paths_specinfer`: its verified tokens and its token of the target
model. -/
def extractSamplingRow (target : ℕ → Fin n → ℚ) (seqLen realFallbackPos : ℕ)
    (tree : Forest (Draft n)) : Law (List (Fin n) × Option (Fin n)) :=
  match bestPath seqLen tree.withSiblings.leafNodePaths with
  | none => (multinomial (target (fallbackRow seqLen realFallbackPos))).map fun t => ([], some t)
  | some best =>
    (verifyPathEdges (pathEdges target 0 best.2)).map fun result =>
      (result.1.take result.2, result.1[result.2]?.or result.1.getLast?)

/-- A row in a generation round: the rows of logits are that of the root and those of the
`treeLen` nodes. -/
def generationRow (target : ℕ → Fin n → ℚ) (treeLen : ℕ) (tree : Forest (Draft n)) :
    Law (List (Fin n) × Option (Fin n)) :=
  extractSamplingRow target (1 + treeLen) (1 + treeLen - treeLen) tree

end BloomBee.Speculative
