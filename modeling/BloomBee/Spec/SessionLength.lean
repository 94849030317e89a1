import BloomBee.Spec.Drafter
import BloomBee.Spec.SpeculativeModel

/-! The length of the session that `generate` opens (`models/llama/speculative_model.py`), and the
rounds of `_sample_with_session` with the trees of the drafter. What a round accepts is left open:
any path of the tree. -/

set_option autoImplicit false

namespace BloomBee.Speculative

/-- The arguments of `generate` that matter here. The ids are padded to one width. -/
structure GenerateArgs where
  inputIds : List (List ℕ)
  width : ℕ
  rect : ∀ ids ∈ inputIds, ids.length = width
  maxNewTokens : ℕ
  maxTreeDepth : ℕ
  beamWidth : BeamWidth

/-- `max(int(w), 1)` -/
def atLeastOne (w : ℤ) : ℕ := (max w 1).toNat

/-- The loop over the widths: `running` and `tree_nodes`. -/
def planNodes (widths : List ℤ) : ℕ × ℕ :=
  widths.foldl (fun s w => (s.1 * atLeastOne w, s.2 + s.1 * atLeastOne w)) (1, 0)

def GenerateArgs.treeNodes (args : GenerateArgs) : ℕ :=
  match args.beamWidth with
  | .plan widths => (planNodes widths).2
  | .scalar width => args.maxTreeDepth * atLeastOne width

/-- `session_max_length`, from a keyword or by default. -/
def GenerateArgs.sessionMaxLength (args : GenerateArgs) (override : Option ℕ) : ℕ :=
  override.getD
    (max (args.width + args.maxNewTokens * (args.treeNodes + 1) + 32) (args.width + 256))

/-- The drafter of the main loop has neither a budget nor a threshold. -/
def GenerateArgs.draftConfig (args : GenerateArgs) : DraftConfig where
  beamWidth := args.beamWidth
  maxDepth := args.maxTreeDepth
  treeBudget := none
  treeMinProb := none

/-! ### Rounds -/

/-- The trees of a round. The root of a tree is the last token of the row; a row without tokens
raises. -/
def draftTrees (args : GenerateArgs) (workers : List Drafter) (st : SampleState) :
    Option (List SpeculativeTree) :=
  (st.rows.mapM fun row : SeqRow => row.sequence.getLast?).map
    (buildTreesParallel args.draftConfig workers)

/-- What the verification may return for the trees of a round: for each row a path of its tree. -/
def Accepts (trees : List SpeculativeTree) (outcome : Outcome) : Prop :=
  ∀ (b : ℕ) (tree : SpeculativeTree), trees[b]? = some tree →
    ∃ depth, ∃ path ∈ tree.nodesAtDepth depth, (outcome b).1 = path.map TreeNode.tokenId

/-- The states before the rounds of the main loop. -/
inductive Rounds (args : GenerateArgs) (cfg : SampleConfig) : SampleState → Prop where
  | start : Rounds args cfg (startRows args.inputIds)
  | round {st : SampleState} {workers : List Drafter} {trees : List SpeculativeTree}
      {outcome : Outcome} (hst : Rounds args cfg st) (hrun : running cfg args.width st = true)
      (hworkers : workers ≠ []) (htrees : draftTrees args workers st = some trees)
      (haccepts : Accepts trees outcome) : Rounds args cfg (updateRows cfg st outcome)

end BloomBee.Speculative
