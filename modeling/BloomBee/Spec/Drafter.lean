import BloomBee.Spec.SpeculativeTree
import Mathlib.Algebra.BigOperators.Group.List.Basic
import Mathlib.Algebra.Order.Field.Rat

/-! `MultiSSMDrafter._build_trees_batched` (`models/llama/spec_decoding_drafter.py`) without the
forward pass, and the selection it uses (`models/llama/spec_decoding_tree_shape.py`). A path has
its probability in place of the sum of logarithms, which orders paths in the same way, and 0 in
place of minus infinity. -/

set_option autoImplicit false

namespace BloomBee.Speculative

/-! ### Selection -/

/-- A candidate on the frontier. The handle is the parent's identity with the candidate. -/
structure FrontierNode where
  nodeHandle : ℕ × ℕ × ℚ
  pathProb : ℚ
  deriving DecidableEq

def selectTopkByLogprob (frontier : List FrontierNode) (budget : ℕ) : List FrontierNode :=
  if budget ≤ 0 then []
  else if frontier.length ≤ budget then frontier
  else (frontier.mergeSort fun a b => decide (b.pathProb ≤ a.pathProb)).take budget

def pruneBelowThreshold (frontier : List FrontierNode) (minProb : ℚ) : List FrontierNode :=
  frontier.filter fun n => decide (minProb ≤ n.pathProb)

def budgetedExpandPlan (frontier : List FrontierNode) (budget : ℕ) (minProb : Option ℚ) :
    List FrontierNode :=
  let pool :=
    match minProb with
    | some minProb => pruneBelowThreshold frontier minProb
    | none => frontier
  selectTopkByLogprob pool budget

/-! ### The drafter -/

inductive BeamWidth where
  | scalar (width : ℤ)
  | plan (widths : List ℤ)

/-- The small model: for a row of the batch and the tokens from its root on, the `k` most likely
next tokens with their probabilities. `topk` returns different indices. -/
structure Drafter where
  topk : ℕ → List ℕ → ℕ → List (ℕ × ℚ)
  distinct : ∀ b path k, ((topk b path k).map Prod.fst).Nodup
  fits : ∀ b path k, (topk b path k).length ≤ k

structure DraftConfig where
  beamWidth : BeamWidth
  maxDepth : ℕ
  treeBudget : Option ℕ
  treeMinProb : Option ℚ

/-- `max_depth`, capped by a plan. -/
def DraftConfig.depths (cfg : DraftConfig) : ℕ :=
  match cfg.beamWidth with
  | .scalar _ => cfg.maxDepth
  | .plan widths => min cfg.maxDepth widths.length

def DraftConfig.depthWidth (cfg : DraftConfig) (depth : ℕ) : ℤ :=
  match cfg.beamWidth with
  | .scalar width => width
  | .plan widths => if depth < widths.length then widths.getD depth 0 else 0

def idOf (path : List TreeNode) : ℕ := path.getLast?.elim 0 TreeNode.id

/-- `_node_path_log_prob` -/
def nodePathProb (path : List TreeNode) : ℚ :=
  if ∀ node ∈ path, 0 < node.probability then (path.map TreeNode.probability).prod else 0

/-- `per_node`: the nodes of a layer, each with its candidates. -/
abbrev PerNode := List (List TreeNode × List (ℕ × ℚ))

def handleOf (path : List TreeNode) (candidate : ℕ × ℚ) : ℕ × ℕ × ℚ :=
  (idOf path, candidate.1, candidate.2)

/-- The candidates of a layer as a frontier. -/
def frontierOf (perNode : PerNode) : List FrontierNode :=
  perNode.flatMap fun (path, candidates) =>
    candidates.map fun c =>
      ⟨handleOf path c, nodePathProb path * if 0 < c.2 then c.2 else 0⟩

def shapeLayer (cfg : DraftConfig) (perNode : PerNode) : PerNode :=
  if cfg.treeBudget.isSome ∨ cfg.treeMinProb.isSome then
    let frontier := frontierOf perNode
    let survivors :=
      budgetedExpandPlan frontier (cfg.treeBudget.getD frontier.length) cfg.treeMinProb
    let keptHandles := survivors.map FrontierNode.nodeHandle
    let filtered := perNode.map fun (path, candidates) =>
      (path, candidates.filter fun c => decide (handleOf path c ∈ keptHandles))
    filtered.filter fun (_, kept) => !kept.isEmpty
  else perNode

def perNodeOf (cfg : DraftConfig) (drafter : Drafter) (b depth : ℕ) (tree : SpeculativeTree) :
    PerNode :=
  (tree.nodesAtDepth depth).map fun path =>
    (path, drafter.topk b (tree.rootToken :: path.map TreeNode.tokenId)
      (cfg.depthWidth depth).toNat)

/-- A tree of the batch after one more layer. A `ValueError` of `add_layer` is passed over. -/
def growTree (cfg : DraftConfig) (drafter : Drafter) (depth b : ℕ) (tree : SpeculativeTree) :
    SpeculativeTree :=
  let perNode := shapeLayer cfg (perNodeOf cfg drafter b depth tree)
  (tree.addLayer (perNode.map fun x => idOf x.1) (perNode.map Prod.snd)).getD tree

/-- The loop over the depths, which `left` counts down. -/
def growLayers (cfg : DraftConfig) (drafter : Drafter) :
    ℕ → ℕ → List SpeculativeTree → List SpeculativeTree
  | 0, _, trees => trees
  | left + 1, depth, trees =>
    if ∀ tree ∈ trees, tree.nodesAtDepth depth = [] then trees
    else if cfg.depthWidth depth ≤ 0 then trees
    else
      let grown := trees.mapIdx (growTree cfg drafter depth)
      -- `any_new`
      if ∃ p ∈ trees.zip grown, p.1.totalNodes < p.2.totalNodes then
        growLayers cfg drafter left (depth + 1) grown
      else grown

/-- `_build_trees_batched`, from the root tokens of the rows. -/
def buildTreesBatched (cfg : DraftConfig) (drafter : Drafter) (rootTokens : List ℕ) :
    List SpeculativeTree :=
  growLayers cfg drafter cfg.depths 0 (rootTokens.map SpeculativeTree.new)

/-- `build_trees_parallel`: the rows in chunks, one for each worker. -/
def buildTreesParallel (cfg : DraftConfig) (workers : List Drafter) (rootTokens : List ℕ) :
    List SpeculativeTree :=
  let chunkSize := (rootTokens.length + workers.length - 1) / workers.length
  (workers.mapIdx fun w drafter =>
    buildTreesBatched cfg drafter ((rootTokens.drop (w * chunkSize)).take chunkSize)).flatten

end BloomBee.Speculative
