import BloomBee.Lib.Fallible
import BloomBee.Proofs.Drafter
import BloomBee.Proofs.SpeculativeModel
import BloomBee.Spec.SessionLength

/-! The default length of a session. It has to hold the longest row of any round with a root and
the largest tree of the drafter. A row can be ahead of the shortest one, for which the loop goes
on, by a whole path of the tree in every round. -/

set_option autoImplicit false

namespace BloomBee.Speculative

/-! ### The largest tree -/

def fullNodes (cfg : DraftConfig) : ℕ → ℕ → ℕ
  | 0, _ => 0
  | left + 1, depth =>
    (cfg.depthWidth depth).toNat * (1 + fullNodes cfg left (depth + 1))

def fullDepth (cfg : DraftConfig) : ℕ → ℕ → ℕ
  | 0, _ => 0
  | left + 1, depth => if cfg.depthWidth depth ≤ 0 then 0 else 1 + fullDepth cfg left (depth + 1)

section Largest

variable {cfg : DraftConfig} {drafter : Drafter}

theorem pairsOf_length (perNode : PerNode) :
    (pairsOf perNode).length = (perNode.map fun x => x.2.length).sum := by
  rw [pairsOf, List.length_flatMap]
  simp only [List.length_map]

/-- Without a budget and a threshold a layer is not shaped. -/
theorem growTree_plain (hbudget : cfg.treeBudget = none) (hmin : cfg.treeMinProb = none)
    (b depth : ℕ) (tree : SpeculativeTree) (hdeep : ∀ q ∈ tree.allPaths, q.length ≤ depth) :
    let kept := pairsOf (perNodeOf cfg drafter b depth tree)
    let grown := growTree cfg drafter depth b tree
    grown.totalNodes = tree.totalNodes + kept.length ∧
      (layerOf (depth + 1) grown).length = kept.length := by
  intro kept grown
  have hplain : shapeLayer cfg (perNodeOf cfg drafter b depth tree) =
      perNodeOf cfg drafter b depth tree := by
    rw [shapeLayer, if_neg]
    simp [hbudget, hmin]
  obtain ⟨-, htotal, -⟩ := growTree_paths cfg drafter b depth tree
  have hlayer := (@layerOf_growTree cfg drafter b depth tree hdeep).length_eq
  rw [hplain] at htotal hlayer
  rw [List.length_map] at hlayer
  exact ⟨htotal, hlayer⟩

theorem perNodeOf_lengths (b depth : ℕ) (tree : SpeculativeTree) :
    (pairsOf (perNodeOf cfg drafter b depth tree)).length =
      ((tree.nodesAtDepth depth).map fun path =>
        (drafter.topk b (tree.rootToken :: path.map TreeNode.tokenId)
          (cfg.depthWidth depth).toNat).length).sum := by
  rw [pairsOf_length, perNodeOf, List.map_map]
  rfl

theorem growRow_nodes_le (hbudget : cfg.treeBudget = none) (hmin : cfg.treeMinProb = none)
    (b left : ℕ) : ∀ {depth : ℕ} {tree : SpeculativeTree}, (∀ q ∈ tree.allPaths, q.length ≤ depth) →
      (growRow cfg drafter b left depth tree).totalNodes ≤
        tree.totalNodes + (layerOf depth tree).length * fullNodes cfg left depth := by
  induction left with
  | zero =>
    intro depth tree _
    exact Nat.le_add_right _ _
  | succ left ih =>
    intro depth tree hdeep
    rw [growRow, fullNodes]
    split_ifs with hwidth
    · exact Nat.le_add_right _ _
    · obtain ⟨htotal, hlayer⟩ := @growTree_plain cfg drafter hbudget hmin b depth tree hdeep
      have hrest := @ih (depth + 1) (growTree cfg drafter depth b tree) (growTree_shallow hdeep)
      rw [hlayer, htotal] at hrest
      -- every node of the layer has at most as many children as the width says
      have hkept : (pairsOf (perNodeOf cfg drafter b depth tree)).length ≤
          (layerOf depth tree).length * (cfg.depthWidth depth).toNat := by
        rw [perNodeOf_lengths, layerOf, List.length_map]
        exact (List.sum_le_card_nsmul _ _ fun x hx => by
          obtain ⟨path, -, rfl⟩ := List.mem_map.mp hx
          exact drafter.fits _ _ _).trans_eq (by rw [List.length_map, Nat.nsmul_eq_mul])
      calc (growRow cfg drafter b left (depth + 1) (growTree cfg drafter depth b tree)).totalNodes
          ≤ tree.totalNodes + (pairsOf (perNodeOf cfg drafter b depth tree)).length *
              (1 + fullNodes cfg left (depth + 1)) := by
            rw [Nat.mul_add, Nat.mul_one]
            omega
        _ ≤ tree.totalNodes + (layerOf depth tree).length * (cfg.depthWidth depth).toNat *
              (1 + fullNodes cfg left (depth + 1)) :=
            Nat.add_le_add_left (Nat.mul_le_mul_right _ hkept) _
        _ = tree.totalNodes + (layerOf depth tree).length *
              ((cfg.depthWidth depth).toNat * (1 + fullNodes cfg left (depth + 1))) := by
            rw [Nat.mul_assoc]

theorem growRow_depth_le (b left : ℕ) : ∀ {depth : ℕ} {tree : SpeculativeTree},
    (∀ q ∈ tree.allPaths, q.length ≤ depth) →
      ∀ q ∈ (growRow cfg drafter b left depth tree).allPaths,
        q.length ≤ depth + fullDepth cfg left depth := by
  induction left with
  | zero => exact fun hdeep => hdeep
  | succ left ih =>
    intro depth tree hdeep q hq
    rw [growRow] at hq
    rw [fullDepth]
    split_ifs at hq ⊢ with hwidth
    · exact hdeep q hq
    · have := ih (growTree_shallow hdeep) q hq
      omega

/-- A small model that always has as many candidates as it is asked for. -/
def fullDrafter : Drafter where
  topk := fun _ _ k => (List.range k).map fun t => (t, 1)
  distinct := fun _ _ k => by
    rw [List.map_map]
    exact (List.map_id _).symm ▸ List.nodup_range
  fits := fun _ _ k => by rw [List.length_map, List.length_range]

theorem growTree_full (hbudget : cfg.treeBudget = none) (hmin : cfg.treeMinProb = none)
    (b depth : ℕ) (tree : SpeculativeTree) (hdeep : ∀ q ∈ tree.allPaths, q.length ≤ depth) :
    let grown := growTree cfg fullDrafter depth b tree
    let new := (layerOf depth tree).length * (cfg.depthWidth depth).toNat
    grown.totalNodes = tree.totalNodes + new ∧ (layerOf (depth + 1) grown).length = new := by
  intro grown new
  have hnew : (pairsOf (perNodeOf cfg fullDrafter b depth tree)).length = new := by
    have hk : ∀ path : List TreeNode, (fullDrafter.topk b
        (tree.rootToken :: path.map TreeNode.tokenId) (cfg.depthWidth depth).toNat).length =
          (cfg.depthWidth depth).toNat := fun _ => by
      rw [fullDrafter, List.length_map, List.length_range]
    rw [perNodeOf_lengths]
    simp only [hk]
    rw [List.map_const', List.sum_replicate, Nat.nsmul_eq_mul]
    exact congrArg (· * _) (List.length_map _).symm
  obtain ⟨htotal, hlayer⟩ := @growTree_plain cfg fullDrafter hbudget hmin b depth tree hdeep
  rw [hnew] at htotal hlayer
  exact ⟨htotal, hlayer⟩

theorem growRow_full (hbudget : cfg.treeBudget = none) (hmin : cfg.treeMinProb = none)
    (b left : ℕ) : ∀ {depth : ℕ} {tree : SpeculativeTree}, (∀ q ∈ tree.allPaths, q.length ≤ depth) →
      (growRow cfg fullDrafter b left depth tree).totalNodes =
          tree.totalNodes + (layerOf depth tree).length * fullNodes cfg left depth ∧
        (0 < (layerOf depth tree).length →
          ∃ path ∈ (growRow cfg fullDrafter b left depth tree).allPaths,
            path.length = depth + fullDepth cfg left depth) := by
  induction left with
  | zero =>
    intro depth tree _
    refine ⟨rfl, fun h => ?_⟩
    obtain ⟨draws, hdraws⟩ := List.exists_mem_of_length_pos h
    obtain ⟨path, hpath, -⟩ := List.mem_map.mp hdraws
    obtain ⟨hpath, hlen⟩ := nodesAtDepth_mem hpath
    exact ⟨path, hpath, hlen⟩
  | succ left ih =>
    intro depth tree hdeep
    rw [growRow, fullNodes, fullDepth]
    split_ifs with hwidth
    · rw [Int.toNat_of_nonpos hwidth, Nat.zero_mul, Nat.mul_zero]
      refine ⟨rfl, fun h => ?_⟩
      obtain ⟨draws, hdraws⟩ := List.exists_mem_of_length_pos h
      obtain ⟨path, hpath, -⟩ := List.mem_map.mp hdraws
      obtain ⟨hpath, hlen⟩ := nodesAtDepth_mem hpath
      exact ⟨path, hpath, hlen⟩
    · obtain ⟨htotal, hlayer⟩ := growTree_full hbudget hmin b depth tree hdeep
      obtain ⟨hnodes, hpath⟩ :=
        @ih (depth + 1) (growTree cfg fullDrafter depth b tree) (growTree_shallow hdeep)
      rw [hlayer] at hnodes hpath
      refine ⟨?_, fun h => ?_⟩
      · rw [hnodes, htotal, Nat.add_assoc, Nat.mul_assoc, ← Nat.mul_add,
          Nat.mul_add (cfg.depthWidth depth).toNat 1, Nat.mul_one]
      · obtain ⟨path, hmem, hlen⟩ := hpath (Nat.mul_pos h (by omega))
        exact ⟨path, hmem, by omega⟩

end Largest

/-! ### The trees of a round -/

section Trees

variable {cfg : DraftConfig} {workers : List Drafter} {rootTokens : List ℕ}

theorem chunks_length {α : Type} (n c : ℕ) (l : List α) :
    (l.mapIdx fun w _ => min c (n - w * c)).sum = min (l.length * c) n := by
  induction l using List.reverseRecOn with
  | nil => rw [List.mapIdx_nil, List.sum_nil, List.length_nil, Nat.zero_mul, Nat.zero_min]
  | append_singleton l x ih =>
    rw [List.mapIdx_concat, List.sum_append, List.sum_singleton, ih, List.length_append,
      List.length_singleton, Nat.add_mul, Nat.one_mul]
    omega

theorem buildTreesParallel_length (hworkers : workers ≠ []) :
    (buildTreesParallel cfg workers rootTokens).length = rootTokens.length := by
  have hpos := List.length_pos_iff.mpr hworkers
  have hdiv := Nat.div_add_mod (rootTokens.length + workers.length - 1) workers.length
  have hmod := Nat.mod_lt (rootTokens.length + workers.length - 1) hpos
  rw [buildTreesParallel, List.length_flatten]
  set chunkSize := (rootTokens.length + workers.length - 1) / workers.length
  have hlen : (workers.mapIdx fun w drafter => buildTreesBatched cfg drafter
      ((rootTokens.drop (w * chunkSize)).take chunkSize)).map List.length =
        workers.mapIdx fun w _ => min chunkSize (rootTokens.length - w * chunkSize) := by
    refine List.ext_getElem (by simp) fun w h₁ h₂ => ?_
    rw [List.getElem_map, List.getElem_mapIdx, List.getElem_mapIdx, buildTreesBatched_eq,
      List.length_mapIdx, List.length_take, List.length_drop]
  rw [hlen, chunks_length]
  omega

theorem mem_buildTreesParallel {tree : SpeculativeTree}
    (h : tree ∈ buildTreesParallel cfg workers rootTokens) :
    ∃ drafter b root, tree = growRow cfg drafter b cfg.depths 0 (.new root) := by
  obtain ⟨trees, htrees, htree⟩ := List.mem_flatten.mp h
  obtain ⟨w, hw, rfl⟩ := List.mem_mapIdx.mp htrees
  rw [buildTreesBatched_eq] at htree
  obtain ⟨b, hb, rfl⟩ := List.mem_mapIdx.mp htree
  exact ⟨_, _, _, rfl⟩

theorem buildTreesParallel_single (drafter : Drafter) :
    buildTreesParallel cfg [drafter] rootTokens = buildTreesBatched cfg drafter rootTokens := by
  rw [buildTreesParallel]
  simp

/-- A tree has at most the nodes and the depth of the largest one. -/
theorem built_le (hbudget : cfg.treeBudget = none) (hmin : cfg.treeMinProb = none)
    {tree : SpeculativeTree} (h : tree ∈ buildTreesParallel cfg workers rootTokens) :
    tree.nodes.length ≤ fullNodes cfg cfg.depths 0 ∧
      ∀ q ∈ tree.allPaths, q.length ≤ fullDepth cfg cfg.depths 0 := by
  obtain ⟨drafter, b, root, rfl⟩ := mem_buildTreesParallel h
  have hdeep := new_shallow root
  have hnodes := @growRow_nodes_le cfg drafter hbudget hmin b cfg.depths 0 _ hdeep
  have hpaths := @growRow_depth_le cfg drafter b cfg.depths 0 _ hdeep
  have hnew : (SpeculativeTree.new root).totalNodes = 1 := rfl
  have hlayer : (layerOf 0 (SpeculativeTree.new root)).length = 1 := rfl
  have hlen := (growRow cfg drafter b cfg.depths 0 (.new root)).nodes_length
  rw [hnew, hlayer, Nat.one_mul] at hnodes
  rw [Nat.zero_add] at hpaths
  exact ⟨by omega, hpaths⟩

theorem full_built (hbudget : cfg.treeBudget = none) (hmin : cfg.treeMinProb = none) {b root : ℕ}
    {tree : SpeculativeTree} (hroot : rootTokens[b]? = some root)
    (htree : (buildTreesParallel cfg [fullDrafter] rootTokens)[b]? = some tree) :
    tree.nodes.length = fullNodes cfg cfg.depths 0 ∧
      ∃ path ∈ tree.allPaths, path.length = fullDepth cfg cfg.depths 0 := by
  rw [buildTreesParallel_single, buildTreesBatched_eq, List.getElem?_mapIdx, hroot] at htree
  have hrow : tree = growRow cfg fullDrafter b cfg.depths 0 (.new root) :=
    (Option.some.inj htree).symm
  subst hrow
  have hdeep := new_shallow root
  obtain ⟨hnodes, hpath⟩ := growRow_full hbudget hmin b cfg.depths hdeep
  have hnew : (SpeculativeTree.new root).totalNodes = 1 := rfl
  have hlayer : (layerOf 0 (SpeculativeTree.new root)).length = 1 := rfl
  have hlen := (growRow cfg fullDrafter b cfg.depths 0 (.new root)).nodes_length
  rw [hnew, hlayer, Nat.one_mul] at hnodes
  rw [hlayer, Nat.zero_add] at hpath
  exact ⟨by omega, hpath Nat.one_pos⟩

end Trees

/-! ### Rounds -/

def GenerateArgs.promptLengths (args : GenerateArgs) : List ℕ :=
  args.inputIds.map fun ids => ids.countP fun t => t ∉ ignoreTokenIds

def GenerateArgs.maxDepth (args : GenerateArgs) : ℕ :=
  fullDepth args.draftConfig args.draftConfig.depths 0

def GenerateArgs.maxNodes (args : GenerateArgs) : ℕ :=
  fullNodes args.draftConfig args.draftConfig.depths 0

section Run

variable {args : GenerateArgs} {cfg : SampleConfig} {st : SampleState} {workers : List Drafter}
  {trees : List SpeculativeTree}

theorem extend_length (row : SeqRow) (verified : List ℕ) (llmToken : ℕ) :
    (row.extend cfg verified llmToken).length = row.sequence.length + verified.length + 1 := by
  rw [SeqRow.extend]
  split_ifs <;> simp [Nat.add_assoc]

theorem SeqRow.sequence_length {row : SeqRow} (h : row.seqLength ≤ row.ids.length) :
    row.sequence.length = row.seqLength := by
  rw [SeqRow.sequence, List.length_take, Nat.min_eq_left h]

theorem updateRows_length (outcome : Outcome) :
    (updateRows cfg st outcome).rows.length = st.rows.length := by
  simp [updateRows]

/-- A row after a round: its length grows by the accepted tokens and one more. -/
theorem updateRows_row {outcome : Outcome} {b : ℕ} {row : SeqRow}
    (h : (updateRows cfg st outcome).rows[b]? = some row)
    (hfit : ∀ row ∈ st.rows, row.seqLength ≤ row.ids.length) :
    ∃ before, st.rows[b]? = some before ∧ row.seqLength ≤ row.ids.length ∧
      row.seqLength = before.seqLength + (outcome b).1.length + 1 ∧
      row.unfinished = (before.unfinished && !cfg.stops row.ids) := by
  have hlt := (List.getElem?_eq_some_iff.mp h).1
  rw [updateRows_length] at hlt
  have hbefore := List.getElem?_eq_getElem hlt
  obtain ⟨n, hrow⟩ := @updateRows_getElem cfg _ _ _ hbefore outcome
  obtain rfl := Option.some.inj (hrow.symm.trans h)
  refine ⟨_, hbefore, ?_, ?_, rfl⟩
  · rw [List.length_append]
    exact Nat.le_add_right _ _
  · rw [extend_length, SeqRow.sequence_length (hfit _ (List.getElem_mem hlt))]

theorem draftTrees_eq_some (h : draftTrees args workers st = some trees) :
    ∃ roots, st.rows.map (fun row => row.sequence.getLast?) = roots.map some ∧
      trees = buildTreesParallel args.draftConfig workers roots := by
  obtain ⟨roots, hroots, htrees⟩ := Option.map_eq_some_iff.mp h
  exact ⟨roots, Fallible.mapM_eq_some_iff.mp hroots, htrees.symm⟩

/-- What a run of the loop has made of its rows after some rounds. -/
structure After (args : GenerateArgs) (rounds : ℕ) (st : SampleState) : Prop where
  size : st.rows.length = args.promptLengths.length
  fit : ∀ row ∈ st.rows, row.seqLength ≤ row.ids.length
  between : ∀ (b : ℕ) (row : SeqRow) (len : ℕ), st.rows[b]? = some row →
    args.promptLengths[b]? = some len →
      len + rounds ≤ row.seqLength ∧ row.seqLength ≤ len + rounds * (args.maxDepth + 1)

theorem after_start : After args 0 (startRows args.inputIds) where
  size := by rw [startRows, GenerateArgs.promptLengths, List.length_map, List.length_map]
  fit := fun row hrow => by
    obtain ⟨ids, -, rfl⟩ := List.mem_map.mp hrow
    exact List.countP_le_length
  between := fun b row len hrow hlen => by
    rw [GenerateArgs.promptLengths, List.getElem?_map, Option.map_eq_some_iff] at hlen
    obtain ⟨ids, hids, rfl⟩ := hlen
    rw [startRows, List.getElem?_map, hids] at hrow
    obtain rfl := Option.some.inj hrow
    exact ⟨Nat.le_refl _, Nat.le_add_right _ _⟩

/-- A round adds at least one token to a row, and at most a path and one more. -/
theorem After.round {rounds : ℕ} {outcome : Outcome} (h : After args rounds st)
    (hworkers : workers ≠ []) (htrees : draftTrees args workers st = some trees)
    (haccepts : Accepts trees outcome) : After args (rounds + 1) (updateRows cfg st outcome) where
  size := by rw [updateRows_length, h.size]
  fit := fun row hrow => by
    obtain ⟨b, hb⟩ := List.getElem?_of_mem hrow
    exact (updateRows_row hb h.fit).choose_spec.2.1
  between := fun b row len hrow hlen => by
    obtain ⟨before, hbefore, -, hseq, -⟩ := updateRows_row hrow h.fit
    obtain ⟨hlow, hhigh⟩ := h.between b before len hbefore hlen
    obtain ⟨roots, hroots, rfl⟩ := draftTrees_eq_some htrees
    have hsize : (buildTreesParallel args.draftConfig workers roots).length = st.rows.length := by
      rw [buildTreesParallel_length hworkers]
      simpa using (congrArg List.length hroots).symm
    have hb : b < st.rows.length := (List.getElem?_eq_some_iff.mp hbefore).1
    obtain ⟨depth, path, hpath, hverified⟩ :=
      haccepts b _ (List.getElem?_eq_getElem (hsize.symm ▸ hb))
    have hbound := (built_le rfl rfl (List.getElem_mem (hsize.symm ▸ hb))).2 path
      (nodesAtDepth_mem hpath).1
    have hacc : (outcome b).1.length ≤ args.maxDepth := by
      rw [hverified, List.length_map]
      exact hbound
    rw [hseq, Nat.add_mul, Nat.one_mul]
    omega

theorem rounds_after (h : Rounds args cfg st) : ∃ rounds, After args rounds st := by
  induction h with
  | start => exact ⟨0, after_start⟩
  | round _ _ hworkers htrees haccepts ih =>
    obtain ⟨rounds, hafter⟩ := ih
    exact ⟨rounds + 1, hafter.round hworkers htrees haccepts⟩

theorem prompts_of_draft (h : Rounds args cfg st) :
    ∀ {workers : List Drafter} {trees : List SpeculativeTree},
      draftTrees args workers st = some trees → ∀ len ∈ args.promptLengths, len ≠ 0 := by
  induction h with
  | start =>
    intro workers trees htrees len hlen hzero
    obtain ⟨roots, hroots, -⟩ := draftTrees_eq_some htrees
    obtain ⟨ids, hids, rfl⟩ := List.mem_map.mp hlen
    have hrow : (⟨ids, ids.countP fun t => t ∉ ignoreTokenIds, true⟩ : SeqRow) ∈
        (startRows args.inputIds).rows := List.mem_map_of_mem hids
    have hmem := hroots ▸ List.mem_map_of_mem (f := fun row : SeqRow => row.sequence.getLast?) hrow
    obtain ⟨root, -, hroot⟩ := List.mem_map.mp hmem
    rw [SeqRow.sequence, hzero] at hroot
    cases hroot
  | round _ _ _ htrees _ ih =>
    intro _ _ _
    exact ih htrees

end Run

/-! ### The condition -/

/-- The length of row `b` before the last round that row `a` takes part in, if `a` gains a single
token in every round. -/
def GenerateArgs.fill (args : GenerateArgs) (a b : ℕ) : ℕ :=
  args.promptLengths.getD b 0 +
    (args.width + args.maxNewTokens - 1 - args.promptLengths.getD a 0) *
      (if a = b then 1 else args.maxDepth + 1)

/-- The longest row of any round fits with a root and the largest tree. A prompt without a token
is never drafted for. -/
def SessionFits (args : GenerateArgs) : Prop :=
  (∀ len ∈ args.promptLengths, len ≠ 0) →
    ∀ a < args.promptLengths.length, ∀ b < args.promptLengths.length,
      args.promptLengths.getD a 0 < args.width + args.maxNewTokens →
        args.fill a b + 1 + args.maxNodes ≤ args.sessionMaxLength none

/-- In every round the session holds the tokens of every row, a root and every tree that the
drafter may build. -/
def SessionLargeEnough (args : GenerateArgs) : Prop :=
  ∀ (cfg : SampleConfig) (st : SampleState), cfg.maxNewTokens = args.maxNewTokens →
    Rounds args cfg st → running cfg args.width st = true →
      ∀ (workers : List Drafter) (trees : List SpeculativeTree),
        draftTrees args workers st = some trees → ∀ row ∈ st.rows, ∀ tree ∈ trees,
          row.seqLength + 1 + tree.nodes.length ≤ args.sessionMaxLength none

theorem largeEnough_of_fits {args : GenerateArgs} (hfits : SessionFits args) :
    SessionLargeEnough args := by
  intro cfg st hnew hst hrun workers trees htrees row hrow tree htree
  obtain ⟨rounds, hafter⟩ := rounds_after hst
  obtain ⟨roots, -, rfl⟩ := draftTrees_eq_some htrees
  have hnodes : tree.nodes.length ≤ args.maxNodes := (built_le rfl rfl htree).1
  obtain ⟨-, hshort⟩ := Bool.and_eq_true_iff.mp hrun
  obtain ⟨slow, hslow, hlt⟩ := List.any_eq_true.mp hshort
  have hlt := of_decide_eq_true hlt
  obtain ⟨a, ha⟩ := List.getElem?_of_mem hslow
  obtain ⟨b, hb⟩ := List.getElem?_of_mem hrow
  have halt := (List.getElem?_eq_some_iff.mp ha).1
  have hblt := (List.getElem?_eq_some_iff.mp hb).1
  rw [hafter.size] at halt hblt
  have hlenA := List.getElem?_eq_getElem halt
  have hlenB := List.getElem?_eq_getElem hblt
  obtain ⟨hlowA, -⟩ := hafter.between a slow _ ha hlenA
  obtain ⟨-, hhighB⟩ := hafter.between b row _ hb hlenB
  have hfit := hfits (prompts_of_draft hst htrees) a halt b hblt
  rw [GenerateArgs.fill, List.getD_eq_getElem?_getD, List.getD_eq_getElem?_getD, hlenA, hlenB,
    Option.getD_some, Option.getD_some, ← hnew] at hfit
  have hfit := hfit (by omega)
  have hrow : row.seqLength ≤ args.promptLengths[b] +
      (args.width + cfg.maxNewTokens - 1 - args.promptLengths[a]) *
        (if a = b then 1 else args.maxDepth + 1) := by
    by_cases hab : a = b
    · subst hab
      obtain rfl := Option.some.inj (ha.symm.trans hb)
      rw [if_pos rfl]
      omega
    · rw [if_neg hab]
      have := Nat.mul_le_mul_right (args.maxDepth + 1)
        (show rounds ≤ args.width + cfg.maxNewTokens - 1 - args.promptLengths[a] by omega)
      omega
  omega

/-! ### The worst run -/

section Worst

variable {args : GenerateArgs} {st : SampleState}

def neverStops (args : GenerateArgs) : SampleConfig where
  padTokenId := 0
  hasEos := false
  stops := fun _ => false
  maxNewTokens := args.maxNewTokens

/-- After some rounds row `b` has gained as much as it can, unless it is row `a`, and all other
rows one token in each round. -/
structure Worst (args : GenerateArgs) (a b rounds : ℕ) (st : SampleState) : Prop where
  size : st.rows.length = args.promptLengths.length
  fit : ∀ row ∈ st.rows, row.seqLength ≤ row.ids.length
  unfinished : ∀ row ∈ st.rows, row.unfinished = true
  gained : ∀ (i : ℕ) (row : SeqRow), st.rows[i]? = some row →
    row.seqLength = args.promptLengths.getD i 0 +
      rounds * (if i = b ∧ a ≠ b then args.maxDepth + 1 else 1)

theorem worst_start (a b : ℕ) : Worst args a b 0 (startRows args.inputIds) where
  size := after_start.size
  fit := after_start.fit
  unfinished := fun row hrow => by
    obtain ⟨ids, -, rfl⟩ := List.mem_map.mp hrow
    rfl
  gained := fun i row hrow => by
    rw [startRows, List.getElem?_map, Option.map_eq_some_iff] at hrow
    obtain ⟨ids, hids, rfl⟩ := hrow
    rw [GenerateArgs.promptLengths, List.getD_eq_getElem?_getD, List.getElem?_map, hids,
      Nat.zero_mul]
    rfl

theorem Worst.drafts {a b rounds : ℕ} (h : Worst args a b rounds st)
    (hprompts : ∀ len ∈ args.promptLengths, len ≠ 0) :
    ∃ trees, draftTrees args [fullDrafter] st = some trees ∧ trees.length = st.rows.length ∧
      ∀ tree ∈ trees, tree.nodes.length = args.maxNodes ∧
        ∃ path ∈ tree.allPaths, path.length = args.maxDepth := by
  obtain ⟨roots, hroots, hlen, -⟩ := Fallible.mapM_total (l := st.rows)
    (f := fun row : SeqRow => row.sequence.getLast?) (g := fun _ _ => True) fun i row hi => by
      have hpos : row.sequence ≠ [] := by
        rw [← List.length_pos_iff, SeqRow.sequence_length (h.fit row (List.mem_of_getElem? hi)),
          h.gained i row hi]
        have hlt := (List.getElem?_eq_some_iff.mp hi).1
        rw [h.size] at hlt
        have hne := hprompts _ (List.getElem_mem hlt)
        rw [List.getD_eq_getElem?_getD, List.getElem?_eq_getElem hlt, Option.getD_some]
        omega
      exact ⟨_, List.getLast?_eq_some_getLast hpos, trivial⟩
  refine ⟨_, by rw [draftTrees, hroots, Option.map_some], ?_, fun tree htree => ?_⟩
  · rw [buildTreesParallel_length (List.cons_ne_nil _ _), hlen]
  · obtain ⟨i, hi⟩ := List.getElem?_of_mem htree
    have hlt := (List.getElem?_eq_some_iff.mp hi).1
    rw [buildTreesParallel_length (List.cons_ne_nil _ _)] at hlt
    exact full_built rfl rfl (List.getElem?_eq_getElem hlt) hi

theorem Worst.running {a b rounds : ℕ} (h : Worst args a b rounds st)
    (ha : a < args.promptLengths.length)
    (hrounds : args.promptLengths.getD a 0 + rounds < args.width + args.maxNewTokens) :
    running (neverStops args) args.width st = true := by
  have hlt : a < st.rows.length := h.size ▸ ha
  have hmem := List.getElem_mem hlt
  have hgained := h.gained a _ (List.getElem?_eq_getElem hlt)
  rw [if_neg (fun hab => hab.2 hab.1), Nat.mul_one] at hgained
  rw [Speculative.running, Bool.and_eq_true_iff, List.any_eq_true, List.any_eq_true]
  exact ⟨⟨_, hmem, h.unfinished _ hmem⟩, _, hmem, decide_eq_true (by
    rw [hgained]
    exact hrounds)⟩

theorem Worst.round {a b rounds : ℕ} (h : Worst args a b rounds st)
    (hprompts : ∀ len ∈ args.promptLengths, len ≠ 0) (hst : Rounds args (neverStops args) st)
    (hrun : Speculative.running (neverStops args) args.width st = true) :
    ∃ st', Rounds args (neverStops args) st' ∧ Worst args a b (rounds + 1) st' := by
  obtain ⟨trees, htrees, hlen, hfull⟩ := h.drafts hprompts
  -- the tokens that row `i` accepts
  have htokens : ∀ i : ℕ, ∃ tokens : List ℕ, ∀ tree : SpeculativeTree, trees[i]? = some tree →
      ∃ path ∈ tree.allPaths, tokens = path.map TreeNode.tokenId ∧
        path.length = if i = b ∧ a ≠ b then args.maxDepth else 0 := by
    intro i
    by_cases hfast : (i = b ∧ a ≠ b) ∧ i < trees.length
    · obtain ⟨hfast, hi⟩ := hfast
      obtain ⟨path, hpath, hlength⟩ := (hfull _ (List.getElem_mem hi)).2
      refine ⟨path.map TreeNode.tokenId, fun tree htree => ?_⟩
      obtain rfl := Option.some.inj ((List.getElem?_eq_getElem hi).symm.trans htree)
      exact ⟨path, hpath, rfl, by rw [if_pos hfast, hlength]⟩
    · refine ⟨[], fun tree htree => ⟨[], List.mem_cons_self, rfl, ?_⟩⟩
      rw [if_neg fun h => hfast ⟨h, (List.getElem?_eq_some_iff.mp htree).1⟩]
      rfl
  choose tokens houtcome using htokens
  have haccepts : Accepts trees fun i => (tokens i, 0) := by
    intro i tree htree
    obtain ⟨path, hmem, hpath, -⟩ := houtcome i tree htree
    refine ⟨path.length, path, ?_, hpath⟩
    rw [SpeculativeTree.nodesAtDepth_eq, List.mem_filter]
    exact ⟨hmem, decide_eq_true rfl⟩
  refine ⟨_, .round hst hrun (List.cons_ne_nil _ _) htrees haccepts, ?_, fun row hrow => ?_,
    fun row hrow => ?_, fun i row hrow => ?_⟩
  · rw [updateRows_length, h.size]
  · obtain ⟨i, hi⟩ := List.getElem?_of_mem hrow
    obtain ⟨_, -, hfit, -⟩ := updateRows_row hi h.fit
    exact hfit
  · obtain ⟨i, hi⟩ := List.getElem?_of_mem hrow
    obtain ⟨before, hbefore, -, -, hunfinished⟩ := updateRows_row hi h.fit
    rw [hunfinished, h.unfinished _ (List.mem_of_getElem? hbefore)]
    rfl
  · obtain ⟨before, hbefore, -, hseq, -⟩ := updateRows_row hrow h.fit
    have hlt := (List.getElem?_eq_some_iff.mp hbefore).1
    rw [← hlen] at hlt
    obtain ⟨path, -, hpath, hlength⟩ := houtcome i _ (List.getElem?_eq_getElem hlt)
    rw [hseq, h.gained i before hbefore, hpath, List.length_map, hlength, Nat.add_mul]
    split_ifs <;> omega

/-- The run in which row `a` is as slow and row `b` as fast as possible. -/
theorem worst_run (hprompts : ∀ len ∈ args.promptLengths, len ≠ 0) {a : ℕ} (b : ℕ)
    (ha : a < args.promptLengths.length) (rounds : ℕ) :
    args.promptLengths.getD a 0 + rounds < args.width + args.maxNewTokens →
      ∃ st, Rounds args (neverStops args) st ∧ Worst args a b rounds st := by
  induction rounds with
  | zero => exact fun _ => ⟨_, .start, worst_start a b⟩
  | succ rounds ih =>
    intro hrounds
    obtain ⟨st, hst, hworst⟩ := ih (by omega)
    exact hworst.round hprompts hst (hworst.running ha (by omega))

theorem fits_of_largeEnough (h : SessionLargeEnough args) : SessionFits args := by
  intro hprompts a ha b hb hlt
  obtain ⟨st, hst, hworst⟩ := worst_run hprompts b ha
    (args.width + args.maxNewTokens - 1 - args.promptLengths.getD a 0) (by omega)
  obtain ⟨trees, htrees, hlen, hfull⟩ := hworst.drafts hprompts
  have hbrow : b < st.rows.length := hworst.size ▸ hb
  have hbtree : b < trees.length := hlen ▸ hbrow
  have hle := h (neverStops args) st rfl hst (hworst.running ha (by omega)) _ trees htrees _
    (List.getElem_mem hbrow) _ (List.getElem_mem hbtree)
  rw [hworst.gained b _ (List.getElem?_eq_getElem hbrow),
    (hfull _ (List.getElem_mem hbtree)).1] at hle
  rw [GenerateArgs.fill]
  by_cases hab : a = b
  · rw [if_neg (fun h => h.2 hab)] at hle
    rw [if_pos hab]
    exact hle
  · rw [if_pos ⟨rfl, hab⟩] at hle
    rw [if_neg hab]
    exact hle

end Worst

/-- The default length is large enough exactly when the worst run fits. -/
theorem default_session_length_iff (args : GenerateArgs) :
    SessionLargeEnough args ↔ SessionFits args :=
  ⟨fits_of_largeEnough, largeEnough_of_fits⟩

/-! ### Plans of widths -/

def countedNodes : List ℤ → ℕ
  | [] => 0
  | w :: widths => atLeastOne w * (1 + countedNodes widths)

theorem planNodes_eq (widths : List ℤ) : (planNodes widths).2 = countedNodes widths := by
  have hfold : ∀ s : ℕ × ℕ, (widths.foldl
      (fun s w => (s.1 * atLeastOne w, s.2 + s.1 * atLeastOne w)) s).2 =
        s.2 + s.1 * countedNodes widths := by
    induction widths with
    | nil =>
      intro s
      rw [List.foldl_nil, countedNodes, Nat.mul_zero, Nat.add_zero]
    | cons w widths ih =>
      intro s
      rw [List.foldl_cons, ih, countedNodes, Nat.mul_add, Nat.mul_one, Nat.mul_add, Nat.mul_assoc,
        Nat.add_assoc]
  rw [planNodes, hfold, Nat.zero_add, Nat.one_mul]

/-- With a plan the largest tree has no more nodes, and no more layers, than `generate` counts. -/
theorem full_le_counted {cfg : DraftConfig} {widths : List ℤ} (hplan : cfg.beamWidth = .plan widths)
    (left : ℕ) : ∀ depth, fullNodes cfg left depth ≤ countedNodes (widths.drop depth) ∧
      fullDepth cfg left depth ≤ countedNodes (widths.drop depth) := by
  induction left with
  | zero => exact fun depth => ⟨Nat.zero_le _, Nat.zero_le _⟩
  | succ left ih =>
    intro depth
    rw [fullNodes, fullDepth]
    by_cases hlt : depth < widths.length
    · obtain ⟨hnodes, hdepth⟩ := ih (depth + 1)
      have hwidth : cfg.depthWidth depth = widths[depth] := by
        rw [DraftConfig.depthWidth, hplan]
        simp only [if_pos hlt]
        rw [List.getD_eq_getElem?_getD, List.getElem?_eq_getElem hlt, Option.getD_some]
      have hone : 1 ≤ atLeastOne widths[depth] ∧
          widths[depth].toNat ≤ atLeastOne widths[depth] := by
        rw [atLeastOne]
        omega
      rw [List.drop_eq_getElem_cons hlt, countedNodes, hwidth]
      refine ⟨Nat.mul_le_mul hone.2 (by omega), ?_⟩
      have := Nat.mul_le_mul hone.1 (show 1 + fullDepth cfg left (depth + 1) ≤
        1 + countedNodes (widths.drop (depth + 1)) by omega)
      split_ifs <;> omega
    · have hwidth : cfg.depthWidth depth = 0 := by
        rw [DraftConfig.depthWidth, hplan]
        exact if_neg hlt
      rw [hwidth, if_pos (Int.le_refl 0), Int.toNat_zero, Nat.zero_mul]
      exact ⟨Nat.zero_le _, Nat.zero_le _⟩

/-- For prompts without padding, `generate` counts enough for every plan of widths. -/
theorem fits_of_plan {args : GenerateArgs} {widths : List ℤ}
    (hplan : args.beamWidth = .plan widths) (hnew : 1 ≤ args.maxNewTokens)
    (hfull : ∀ len ∈ args.promptLengths, len = args.width) : SessionFits args := by
  intro _ a ha b hb _
  have hlen : ∀ i < args.promptLengths.length, args.promptLengths.getD i 0 = args.width := by
    intro i hi
    rw [List.getD_eq_getElem?_getD, List.getElem?_eq_getElem hi, Option.getD_some]
    exact hfull _ (List.getElem_mem hi)
  obtain ⟨hnodes, hdepth⟩ :=
    @full_le_counted args.draftConfig _ hplan args.draftConfig.depths 0
  rw [List.drop_zero] at hnodes hdepth
  have hcounted : args.treeNodes = countedNodes widths := by
    rw [GenerateArgs.treeNodes, hplan]
    exact planNodes_eq widths
  rw [← hcounted] at hnodes hdepth
  -- every round but the last adds at most a path and one more
  have hrounds : (args.width + args.maxNewTokens - 1 - args.width) *
      (if a = b then 1 else args.maxDepth + 1) ≤
        (args.maxNewTokens - 1) * (args.treeNodes + 1) := by
    refine Nat.mul_le_mul (by omega) ?_
    rw [GenerateArgs.maxDepth]
    split_ifs <;> omega
  have hlast : (args.maxNewTokens - 1) * (args.treeNodes + 1) + (args.treeNodes + 1) =
      args.maxNewTokens * (args.treeNodes + 1) := by
    rw [← Nat.succ_mul]
    congr 1
    omega
  rw [GenerateArgs.fill, hlen a ha, hlen b hb, GenerateArgs.sessionMaxLength, Option.getD_none,
    GenerateArgs.maxNodes]
  omega

/-- One prompt of one token, one token to generate, and eight layers of two nodes each. -/
def eightLayers : GenerateArgs where
  inputIds := [[5]]
  width := 1
  rect := by decide
  maxNewTokens := 1
  maxTreeDepth := 8
  beamWidth := .scalar 2

/-- The length is counted for 16 nodes, and the drafter may build 510. -/
theorem default_session_too_short : ¬ ∀ args : GenerateArgs, 1 ≤ args.maxNewTokens →
    1 ≤ args.maxTreeDepth → SessionLargeEnough args := by
  intro h
  have hfits := fits_of_largeEnough (h eightLayers (by decide) (by decide))
  exact absurd (hfits (by decide) 0 (by decide) 0 (by decide) (by decide)) (by decide)

end BloomBee.Speculative
