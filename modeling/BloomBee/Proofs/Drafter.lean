import BloomBee.Sanity.Drafter
import Mathlib.Algebra.Order.BigOperators.Group.List
import Mathlib.Algebra.Order.Ring.Nat

/-! The budget of the drafter. It is applied to every layer for itself, so a tree keeps to it
when the whole grid above the threshold does, or when the first layer uses it up and nothing comes
below that layer. -/

set_option autoImplicit false

namespace BloomBee.Speculative

/-! ### The grid -/

def drawsProb (draws : Draws) : ℚ :=
  if ∀ x ∈ draws, 0 < x.2 then (draws.map Prod.snd).prod else 0

theorem nodePathProb_eq (path : List TreeNode) : nodePathProb path = drawsProb (drawsOf path) := by
  rw [nodePathProb, drawsProb, drawsOf]
  simp only [List.mem_map, forall_exists_index, and_imp, forall_apply_eq_imp_iff₂, List.map_map]
  rfl

def AboveThreshold (cfg : DraftConfig) (draws : Draws) (candidate : ℕ × ℚ) : Prop :=
  ∀ minProb ∈ cfg.treeMinProb,
    minProb ≤ drawsProb draws * if 0 < candidate.2 then candidate.2 else 0

instance (cfg : DraftConfig) (draws : Draws) (candidate : ℕ × ℚ) :
    Decidable (AboveThreshold cfg draws candidate) :=
  inferInstanceAs (Decidable (∀ minProb ∈ cfg.treeMinProb,
    minProb ≤ drawsProb draws * if 0 < candidate.2 then candidate.2 else 0))

section Grid

variable (cfg : DraftConfig) (drafter : Drafter) (b root : ℕ)

def candidatesOf (depth : ℕ) (draws : Draws) : List (ℕ × ℚ) :=
  (drafter.topk b (root :: draws.map Prod.fst) (cfg.depthWidth depth).toNat).filter
    fun c => decide (AboveThreshold cfg draws c)

def nextLayer (depth : ℕ) (layer : List Draws) : List Draws :=
  layer.flatMap fun draws =>
    (candidatesOf cfg drafter b root depth draws).map fun c => draws ++ [c]

/-- The number of nodes of the grid in `left` layers below a path. -/
def gridSize : ℕ → ℕ → Draws → ℕ
  | 0, _, _ => 0
  | left + 1, depth, draws =>
    if cfg.depthWidth depth ≤ 0 then 0
    else ((candidatesOf cfg drafter b root depth draws).map fun c =>
      1 + gridSize left (depth + 1) (draws ++ [c])).sum

def gridBelow (left depth : ℕ) (layer : List Draws) : ℕ :=
  (layer.map (gridSize cfg drafter b root left depth)).sum

theorem nextLayer_cons (depth : ℕ) (draws : Draws) (layer : List Draws) :
    nextLayer cfg drafter b root depth (draws :: layer) =
      (candidatesOf cfg drafter b root depth draws).map (fun c => draws ++ [c]) ++
        nextLayer cfg drafter b root depth layer := List.flatMap_cons ..

theorem gridBelow_append (left depth : ℕ) (layer layer' : List Draws) :
    gridBelow cfg drafter b root left depth (layer ++ layer') =
      gridBelow cfg drafter b root left depth layer +
        gridBelow cfg drafter b root left depth layer' := by
  rw [gridBelow, List.map_append, List.sum_append, gridBelow, gridBelow]

theorem gridSize_succ (left depth : ℕ) (draws : Draws) (h : 0 < cfg.depthWidth depth) :
    gridSize cfg drafter b root (left + 1) depth draws =
      (candidatesOf cfg drafter b root depth draws).length +
        gridBelow cfg drafter b root left (depth + 1)
          ((candidatesOf cfg drafter b root depth draws).map fun c => draws ++ [c]) := by
  rw [gridSize, if_neg (by omega)]
  generalize candidatesOf cfg drafter b root depth draws = l
  induction l with
  | nil => rfl
  | cons c l ih =>
    rw [gridBelow] at ih ⊢
    simp only [List.map_cons, List.sum_cons, List.length_cons, ih]
    omega

theorem gridBelow_succ (left depth : ℕ) (layer : List Draws) (h : 0 < cfg.depthWidth depth) :
    gridBelow cfg drafter b root (left + 1) depth layer =
      (nextLayer cfg drafter b root depth layer).length +
        gridBelow cfg drafter b root left (depth + 1)
          (nextLayer cfg drafter b root depth layer) := by
  induction layer with
  | nil => rfl
  | cons draws layer ih =>
    rw [nextLayer_cons, gridBelow_append, List.length_append, List.length_map]
    have hcons : gridBelow cfg drafter b root (left + 1) depth (draws :: layer) =
        gridSize cfg drafter b root (left + 1) depth draws +
          gridBelow cfg drafter b root (left + 1) depth layer := by
      rw [gridBelow, gridBelow, List.map_cons, List.sum_cons]
    rw [hcons, ih, gridSize_succ _ _ _ _ _ _ _ h]
    omega

end Grid

/-! ### The selection -/

/-- What `budgeted_expand_plan` may keep. -/
def poolOf (frontier : List FrontierNode) (minProb : Option ℚ) : List FrontierNode :=
  frontier.filter fun n => decide (∀ m ∈ minProb, m ≤ n.pathProb)

theorem budgetedExpandPlan_spec (frontier : List FrontierNode) (budget : ℕ) (minProb : Option ℚ) :
    (budgetedExpandPlan frontier budget minProb).length =
        min budget (poolOf frontier minProb).length ∧
      (budgetedExpandPlan frontier budget minProb).Subperm (poolOf frontier minProb) ∧
      ((poolOf frontier minProb).length ≤ budget →
        budgetedExpandPlan frontier budget minProb = poolOf frontier minProb) := by
  have hpool : budgetedExpandPlan frontier budget minProb =
      selectTopkByLogprob (poolOf frontier minProb) budget := by
    rw [poolOf]
    cases minProb with
    | none => simp [budgetedExpandPlan]
    | some m => simp [budgetedExpandPlan, pruneBelowThreshold]
  rw [hpool, selectTopkByLogprob]
  generalize poolOf frontier minProb = pool
  split_ifs with hzero hall
  · obtain rfl : budget = 0 := by omega
    refine ⟨by simp, List.nil_subperm, fun h => ?_⟩
    exact (List.length_eq_zero_iff.mp (by omega)).symm
  · exact ⟨by omega, List.Subperm.refl _, fun _ => rfl⟩
  · refine ⟨by rw [List.length_take, List.length_mergeSort], ?_, fun h => absurd h hall⟩
    exact (List.take_sublist _ _).subperm.trans (List.mergeSort_perm _ _).subperm

/-! ### A layer -/

/-- The candidates of a layer, each with the path it comes after. -/
def pairsOf (perNode : PerNode) : List (List TreeNode × (ℕ × ℚ)) :=
  perNode.flatMap fun x => x.2.map fun c => (x.1, c)

def keptLayer (cfg : DraftConfig) (perNode : PerNode) : List Draws :=
  (pairsOf (shapeLayer cfg perNode)).map fun x => drawsOf x.1 ++ [x.2]

theorem frontierOf_eq (perNode : PerNode) : frontierOf perNode = (pairsOf perNode).map fun x =>
    ⟨handleOf x.1 x.2, nodePathProb x.1 * if 0 < x.2.2 then x.2.2 else 0⟩ := by
  rw [frontierOf, pairsOf, List.map_flatMap]
  simp only [List.map_map]
  rfl

theorem length_filter_keys {α κ : Type} [DecidableEq κ] {key : α → κ} {l : List α} {keys : List κ}
    {p : α → Bool} (hp : ∀ x, p x = true ↔ key x ∈ keys) (hl : (l.map key).Nodup)
    (hkeys : keys.Nodup) (hsub : keys ⊆ l.map key) : (l.filter p).length = keys.length := by
  rw [← List.length_map (f := key)]
  refine List.Perm.length_eq ((List.perm_ext_iff_of_nodup
    (hl.sublist (List.filter_sublist.map _)) hkeys).mpr fun k => ⟨fun h => ?_, fun h => ?_⟩)
  · obtain ⟨x, hx, rfl⟩ := List.mem_map.mp h
    exact (hp x).mp (List.mem_filter.mp hx).2
  · obtain ⟨x, hx, rfl⟩ := List.mem_map.mp (hsub h)
    exact List.mem_map_of_mem (List.mem_filter.mpr ⟨hx, (hp x).mpr h⟩)

theorem pairsOf_filtered (kept : List (ℕ × ℕ × ℚ)) (perNode : PerNode) :
    pairsOf ((perNode.map fun x =>
        (x.1, x.2.filter fun c => decide (handleOf x.1 c ∈ kept))).filter fun x => !x.2.isEmpty) =
      (pairsOf perNode).filter fun x => decide (handleOf x.1 x.2 ∈ kept) := by
  rw [pairsOf, pairsOf]
  induction perNode with
  | nil => rfl
  | cons x perNode ih =>
    rw [List.flatMap_cons, List.filter_append, ← ih, List.map_cons, List.filter_map]
    have hhead : (x.2.filter ((fun y : List TreeNode × (ℕ × ℚ) =>
        decide (handleOf y.1 y.2 ∈ kept)) ∘ fun c => (x.1, c))) = x.2.filter fun c => decide (handleOf x.1 c ∈ kept) := rfl
    rw [hhead]
    cases hkept : x.2.filter fun c => decide (handleOf x.1 c ∈ kept) with
    | nil => simp
    | cons c rest => simp

theorem pairsOf_shapeLayer {cfg : DraftConfig} {budget : ℕ} (hbudget : cfg.treeBudget = some budget)
    (perNode : PerNode) :
    pairsOf (shapeLayer cfg perNode) = (pairsOf perNode).filter fun x => decide (handleOf x.1 x.2 ∈
      (budgetedExpandPlan (frontierOf perNode) budget cfg.treeMinProb).map
        FrontierNode.nodeHandle) := by
  rw [shapeLayer, hbudget, if_pos (.inl rfl)]
  exact pairsOf_filtered _ perNode

/-- The paths of a layer have their own identities, and the candidates of a node their own
tokens. -/
theorem pairsOf_nodup {perNode : PerNode} (hpaths : (perNode.map fun x => idOf x.1).Nodup)
    (htokens : ∀ x ∈ perNode, (x.2.map Prod.fst).Nodup) :
    ((pairsOf perNode).map fun x => handleOf x.1 x.2).Nodup := by
  rw [pairsOf, List.map_flatMap]
  refine List.nodup_flatMap.mpr ⟨fun x hx => ?_, ?_⟩
  · rw [List.map_map]
    refine List.Nodup.of_map (fun h => h.2.1) ?_
    rw [List.map_map]
    exact htokens x hx
  · refine (List.pairwise_map.mp hpaths).imp fun {x y} hne => ?_
    refine List.disjoint_left.mpr fun h hx hy => ?_
    simp only [List.map_map] at hx hy
    obtain ⟨c, -, rfl⟩ := List.mem_map.mp hx
    obtain ⟨c', -, heq⟩ := List.mem_map.mp hy
    exact hne (congrArg Prod.fst heq).symm

/-- Shaping keeps a part of the candidates above the threshold, as many as the budget allows. -/
theorem shapeLayer_budget {cfg : DraftConfig} {budget : ℕ} (hbudget : cfg.treeBudget = some budget)
    {perNode : PerNode} (hnodup : ((pairsOf perNode).map fun x => handleOf x.1 x.2).Nodup) :
    let pool := (pairsOf perNode).filter fun x => decide (AboveThreshold cfg (drawsOf x.1) x.2)
    let kept := pairsOf (shapeLayer cfg perNode)
    kept.Sublist pool ∧ kept.length = min budget pool.length ∧
      (pool.length ≤ budget → kept = pool) := by
  intro pool kept
  obtain ⟨hlen, hsub, hall⟩ :=
    budgetedExpandPlan_spec (frontierOf perNode) budget cfg.treeMinProb
  have hkept : kept = _ := pairsOf_shapeLayer hbudget perNode
  -- the pool of the plan are the candidates above the threshold
  have hpool : (poolOf (frontierOf perNode) cfg.treeMinProb).map FrontierNode.nodeHandle =
      pool.map fun x => handleOf x.1 x.2 := by
    rw [poolOf, frontierOf_eq, List.filter_map, List.map_map]
    simp only [nodePathProb_eq]
    rfl
  have hpoolLen : (poolOf (frontierOf perNode) cfg.treeMinProb).length = pool.length := by
    rw [← List.length_map (f := FrontierNode.nodeHandle), hpool, List.length_map]
  obtain ⟨l, hperm, hsublist⟩ := hsub
  set survivors := budgetedExpandPlan (frontierOf perNode) budget cfg.treeMinProb
  have hhandles : ∀ h, h ∈ survivors.map FrontierNode.nodeHandle →
      h ∈ pool.map fun x => handleOf x.1 x.2 := by
    intro h hh
    rw [← hpool]
    exact (hsublist.map _).subset ((hperm.map _).mem_iff.mpr hh)
  have hsurvivors : (survivors.map FrontierNode.nodeHandle).Nodup := by
    refine (hperm.map _).nodup_iff.mp (List.Nodup.sublist (hsublist.map _) ?_)
    rw [hpool]
    exact hnodup.sublist (List.filter_sublist.map _)
  -- a survivor is above the threshold
  have habove : kept = pool.filter fun x => decide (handleOf x.1 x.2 ∈
      survivors.map FrontierNode.nodeHandle) := by
    rw [hkept, List.filter_filter]
    refine List.filter_congr fun x hx => ?_
    by_cases hin : handleOf x.1 x.2 ∈ survivors.map FrontierNode.nodeHandle
    · obtain ⟨y, hy, heq⟩ := List.mem_map.mp (hhandles _ hin)
      obtain ⟨hy, hthreshold⟩ := List.mem_filter.mp hy
      obtain rfl := List.inj_on_of_nodup_map hnodup hy hx heq
      rw [hthreshold, Bool.and_true]
    · simp only [hin, decide_false, Bool.false_and]
  refine ⟨habove ▸ List.filter_sublist, ?_, fun hle => ?_⟩
  · rw [hkept, length_filter_keys (fun x => decide_eq_true_iff) hnodup hsurvivors fun h hh =>
      (List.filter_sublist.map _).subset (hhandles h hh), List.length_map, hlen, hpoolLen]
  · rw [habove, List.filter_eq_self.mpr]
    intro x hx
    rw [decide_eq_true_iff, hall (by omega), hpool]
    exact List.mem_map_of_mem hx

section Layer

variable {cfg : DraftConfig} {drafter : Drafter} {b depth : ℕ} {tree : SpeculativeTree}

def layerOf (depth : ℕ) (tree : SpeculativeTree) : List Draws :=
  (tree.nodesAtDepth depth).map drawsOf

theorem nodesAtDepth_mem {q : List TreeNode} (h : q ∈ tree.nodesAtDepth depth) :
    q ∈ tree.allPaths ∧ q.length = depth := by
  rw [SpeculativeTree.nodesAtDepth_eq, List.mem_filter, decide_eq_true_iff] at h
  exact h

theorem mem_perNodeOf {x : List TreeNode × List (ℕ × ℚ)}
    (hx : x ∈ shapeLayer cfg (perNodeOf cfg drafter b depth tree)) :
    x.1 ∈ tree.allPaths ∧ x.1.length = depth := by
  have hsub : ∃ y ∈ perNodeOf cfg drafter b depth tree, y.1 = x.1 := by
    rw [shapeLayer] at hx
    split_ifs at hx
    · obtain ⟨y, hy, rfl⟩ := List.mem_map.mp (List.mem_filter.mp hx).1
      exact ⟨y, hy, rfl⟩
    · exact ⟨x, hx, rfl⟩
  obtain ⟨y, hy, hxy⟩ := hsub
  obtain ⟨q, hq, rfl⟩ := List.mem_map.mp hy
  rw [← hxy]
  exact nodesAtDepth_mem hq

/-- What `growTree` adds. -/
theorem growTree_paths (cfg : DraftConfig) (drafter : Drafter) (b depth : ℕ)
    (tree : SpeculativeTree) :
    let kept := pairsOf (shapeLayer cfg (perNodeOf cfg drafter b depth tree))
    let grown := growTree cfg drafter depth b tree
    grown.rootToken = tree.rootToken ∧ grown.totalNodes = tree.totalNodes + kept.length ∧
      (grown.allPaths.map drawsOf).Perm
        (tree.allPaths.map drawsOf ++ kept.map fun x => drawsOf x.1 ++ [x.2]) := by
  intro kept grown
  obtain ⟨tree', hadd, hroot, htotal, hpaths⟩ := tree.addLayer_paths
    (shapeLayer cfg (perNodeOf cfg drafter b depth tree)) fun x hx => (mem_perNodeOf hx).1
  have hgrown : grown = tree' := by
    rw [show grown = (tree.addLayer _ _).getD tree from rfl, hadd]
    rfl
  refine ⟨hgrown ▸ hroot, ?_, ?_⟩
  · rw [hgrown, htotal, show kept.length = _ from List.length_flatMap]
    simp only [List.length_map]
  · rw [hgrown, show kept.map (fun x => drawsOf x.1 ++ [x.2]) = _ from List.map_flatMap]
    simp only [List.map_map]
    exact hpaths

theorem growTree_shallow (hdeep : ∀ q ∈ tree.allPaths, q.length ≤ depth) :
    ∀ q ∈ (growTree cfg drafter depth b tree).allPaths, q.length ≤ depth + 1 := by
  intro q hq
  obtain ⟨-, -, hpaths⟩ := growTree_paths cfg drafter b depth tree
  have hmem := hpaths.mem_iff.mp (List.mem_map_of_mem hq)
  rw [← drawsOf_length q]
  rcases List.mem_append.mp hmem with h | h
  · obtain ⟨q', hq', heq⟩ := List.mem_map.mp h
    rw [← heq, drawsOf_length]
    exact Nat.le_succ_of_le (hdeep q' hq')
  · obtain ⟨x, hx, heq⟩ := List.mem_map.mp h
    obtain ⟨y, hy, hx⟩ := List.mem_flatMap.mp hx
    obtain ⟨c, -, rfl⟩ := List.mem_map.mp hx
    rw [← heq, List.length_append, drawsOf_length, (mem_perNodeOf hy).2]
    exact Nat.le_refl _

theorem layerOf_growTree (hdeep : ∀ q ∈ tree.allPaths, q.length ≤ depth) :
    (layerOf (depth + 1) (growTree cfg drafter depth b tree)).Perm
      ((pairsOf (shapeLayer cfg (perNodeOf cfg drafter b depth tree))).map
        fun x => drawsOf x.1 ++ [x.2]) := by
  obtain ⟨-, -, hpaths⟩ := growTree_paths cfg drafter b depth tree
  have hfilter : ∀ t : SpeculativeTree, layerOf (depth + 1) t =
      (t.allPaths.map drawsOf).filter fun a => decide (a.length = depth + 1) := by
    intro t
    rw [layerOf, SpeculativeTree.nodesAtDepth_eq, List.filter_map]
    congr 2
    funext q
    simp
  rw [hfilter]
  refine (hpaths.filter _).trans (List.Perm.of_eq ?_)
  rw [List.filter_append, List.filter_eq_nil_iff.mpr, List.nil_append, List.filter_eq_self.mpr]
  · intro a ha
    obtain ⟨x, hx, rfl⟩ := List.mem_map.mp ha
    obtain ⟨y, hy, hx⟩ := List.mem_flatMap.mp hx
    obtain ⟨c, -, rfl⟩ := List.mem_map.mp hx
    rw [decide_eq_true_iff, List.length_append, drawsOf_length, (mem_perNodeOf hy).2]
    rfl
  · intro a ha
    obtain ⟨q, hq, rfl⟩ := List.mem_map.mp ha
    have := hdeep q hq
    rw [decide_eq_true_iff, drawsOf_length]
    omega

/-- The candidates above the threshold are the next layer of the grid. -/
theorem pool_eq_nextLayer :
    ((pairsOf (perNodeOf cfg drafter b depth tree)).filter fun x =>
        decide (AboveThreshold cfg (drawsOf x.1) x.2)).map (fun x => drawsOf x.1 ++ [x.2]) =
      nextLayer cfg drafter b tree.rootToken depth (layerOf depth tree) := by
  rw [pairsOf, perNodeOf, nextLayer, layerOf, List.flatMap_map, List.flatMap_map,
    List.filter_flatMap, List.map_flatMap]
  refine List.flatMap_congr fun q _ => ?_
  rw [candidatesOf, List.filter_map, List.map_map]
  have htokens : (drawsOf q).map Prod.fst = q.map TreeNode.tokenId := by
    rw [drawsOf, List.map_map]
    rfl
  rw [htokens]
  rfl

/-- A layer with a budget: as many as fit, taken from the next layer of the grid. -/
theorem growTree_budget {budget : ℕ} (hbudget : cfg.treeBudget = some budget)
    (hdeep : ∀ q ∈ tree.allPaths, q.length ≤ depth) :
    let next := nextLayer cfg drafter b tree.rootToken depth (layerOf depth tree)
    let grown := growTree cfg drafter depth b tree
    let kept := keptLayer cfg (perNodeOf cfg drafter b depth tree)
    kept.Sublist next ∧ kept.length = min budget next.length ∧
      (next.length ≤ budget → kept = next) ∧
      grown.totalNodes = tree.totalNodes + kept.length ∧
      (layerOf (depth + 1) grown).Perm kept := by
  intro next grown kept
  obtain ⟨-, htotal, -⟩ := growTree_paths cfg drafter b depth tree
  have hnodup : ((pairsOf (perNodeOf cfg drafter b depth tree)).map
      fun x => handleOf x.1 x.2).Nodup := by
    refine pairsOf_nodup ?_ fun x hx => ?_
    · rw [perNodeOf, List.map_map, SpeculativeTree.nodesAtDepth_eq]
      have := tree.sound.idOf_allPaths.nodup_iff.mpr List.nodup_range
      exact this.sublist (List.filter_sublist.map _)
    · obtain ⟨q, -, rfl⟩ := List.mem_map.mp hx
      exact drafter.distinct _ _ _
  obtain ⟨hsub, hlen, hall⟩ := shapeLayer_budget hbudget hnodup
  have hnext : next = _ := (@pool_eq_nextLayer cfg drafter b depth tree).symm
  have hkept : kept = (pairsOf (shapeLayer cfg (perNodeOf cfg drafter b depth tree))).map
    fun x => drawsOf x.1 ++ [x.2] := rfl
  rw [hnext, hkept]
  refine ⟨hsub.map _, ?_, fun hle => ?_, ?_, layerOf_growTree hdeep⟩
  · rw [List.length_map, List.length_map, hlen]
  · rw [List.length_map] at hle
    rw [hall hle]
  · rw [List.length_map]
    exact htotal

end Layer

/-! ### All layers -/

def growRow (cfg : DraftConfig) (drafter : Drafter) (b : ℕ) :
    ℕ → ℕ → SpeculativeTree → SpeculativeTree
  | 0, _, tree => tree
  | left + 1, depth, tree =>
    if cfg.depthWidth depth ≤ 0 then tree
    else growRow cfg drafter b left (depth + 1) (growTree cfg drafter depth b tree)

section Run

variable {cfg : DraftConfig} {drafter : Drafter}

theorem growTree_of_empty {b depth : ℕ} {tree : SpeculativeTree}
    (h : tree.nodesAtDepth depth = []) : growTree cfg drafter depth b tree = tree := by
  have hnone : shapeLayer cfg (perNodeOf cfg drafter b depth tree) = [] := by
    rw [perNodeOf, h, shapeLayer]
    split_ifs <;> rfl
  rw [growTree]
  simp only [hnone]
  rfl

/-- A row without nodes at a depth does not grow any more. -/
theorem growRow_of_empty (b left : ℕ) : ∀ {depth : ℕ} {tree : SpeculativeTree},
    (∀ q ∈ tree.allPaths, q.length ≤ depth) → tree.nodesAtDepth depth = [] →
      growRow cfg drafter b left depth tree = tree := by
  induction left with
  | zero => exact fun _ _ => rfl
  | succ left ih =>
    intro depth tree hdeep hempty
    rw [growRow, growTree_of_empty hempty]
    split_ifs
    · rfl
    · refine ih (fun q hq => Nat.le_succ_of_le (hdeep q hq)) ?_
      rw [SpeculativeTree.nodesAtDepth_eq, List.filter_eq_nil_iff]
      intro q hq
      have := hdeep q hq
      rw [decide_eq_true_iff]
      omega

/-- The rows of a batch grow independently: the loop stops early only when no row grows. -/
theorem growLayers_eq (left : ℕ) : ∀ {depth : ℕ} {trees : List SpeculativeTree},
    (∀ tree ∈ trees, ∀ q ∈ tree.allPaths, q.length ≤ depth) →
      growLayers cfg drafter left depth trees =
        trees.mapIdx fun b tree => growRow cfg drafter b left depth tree := by
  induction left with
  | zero =>
    intro depth trees _
    rw [growLayers]
    exact (List.ext_getElem (by simp) fun i h₁ h₂ => by simp [growRow]).symm
  | succ left ih =>
    intro depth trees hdeep
    have hself : ∀ f : ℕ → SpeculativeTree → SpeculativeTree,
        (∀ b, ∀ tree ∈ trees, f b tree = tree) → trees.mapIdx f = trees := by
      intro f hf
      refine List.ext_getElem (by simp) fun i h₁ h₂ => ?_
      rw [List.getElem_mapIdx, hf i _ (List.getElem_mem _)]
    rw [growLayers]
    split_ifs with hempty hwidth
    · exact (hself _ fun b tree htree =>
        growRow_of_empty b (left + 1) (hdeep tree htree) (hempty tree htree)).symm
    · exact (hself _ fun b tree _ => by rw [growRow, if_pos hwidth]).symm
    · have hgrown : ∀ tree ∈ trees.mapIdx (growTree cfg drafter depth), ∀ q ∈ tree.allPaths,
          q.length ≤ depth + 1 := by
        intro tree htree
        obtain ⟨i, hi, rfl⟩ := List.mem_mapIdx.mp htree
        exact growTree_shallow (hdeep _ (List.getElem_mem _))
      have hrows : trees.mapIdx (fun b tree => growRow cfg drafter b (left + 1) depth tree) =
          (trees.mapIdx (growTree cfg drafter depth)).mapIdx
            fun b tree => growRow cfg drafter b left (depth + 1) tree := by
        rw [List.mapIdx_mapIdx]
        refine List.mapIdx_eq_mapIdx_iff.mpr fun i hi => ?_
        rw [growRow, if_neg hwidth]
        rfl
      simp only
      split_ifs with hnew
      · rw [ih hgrown, hrows]
      · -- nothing new in any row
        rw [hrows]
        symm
        refine List.ext_getElem (by simp) fun i h₁ h₂ => ?_
        simp only [List.getElem_mapIdx]
        have hi : i < trees.length := by simpa using h₂
        have hdeep' := hdeep _ (List.getElem_mem hi)
        refine growRow_of_empty i left (growTree_shallow hdeep') ?_
        obtain ⟨-, htotal, -⟩ := growTree_paths cfg drafter i depth trees[i]
        have hsame : ¬ trees[i].totalNodes <
            (growTree cfg drafter depth i trees[i]).totalNodes := by
          intro hlt
          refine hnew ⟨(trees[i], growTree cfg drafter depth i trees[i]), ?_, hlt⟩
          refine List.mem_iff_getElem.mpr ⟨i, by simpa using hi, ?_⟩
          simp
        have hnone : pairsOf (shapeLayer cfg (perNodeOf cfg drafter i depth trees[i])) = [] :=
          List.length_eq_zero_iff.mp (by omega)
        have hlayer := @layerOf_growTree cfg drafter i depth _ hdeep'
        rw [hnone, List.map_nil] at hlayer
        exact List.map_eq_nil_iff.mp hlayer.eq_nil

theorem gridBelow_perm {b root left depth : ℕ} {l l' : List Draws} (h : l.Perm l') :
    gridBelow cfg drafter b root left depth l = gridBelow cfg drafter b root left depth l' :=
  (h.map _).sum_eq

theorem gridBelow_sublist {b root left depth : ℕ} {l l' : List Draws} (h : l.Sublist l') :
    gridBelow cfg drafter b root left depth l ≤ gridBelow cfg drafter b root left depth l' :=
  (h.map _).sum_le_sum fun _ _ => Nat.zero_le _

/-- With a budget a row has at most the nodes of the grid, and all of them unless some layer has
used the budget up. -/
theorem growRow_budget {budget : ℕ} (hbudget : cfg.treeBudget = some budget) (b left : ℕ) :
    ∀ {depth : ℕ} {tree : SpeculativeTree}, (∀ q ∈ tree.allPaths, q.length ≤ depth) →
      let grid := gridBelow cfg drafter b tree.rootToken left depth (layerOf depth tree)
      let grown := growRow cfg drafter b left depth tree
      grown.totalNodes ≤ tree.totalNodes + grid ∧ tree.totalNodes ≤ grown.totalNodes ∧
        (grown.totalNodes = tree.totalNodes + grid ∨
          tree.totalNodes + budget ≤ grown.totalNodes) := by
  induction left with
  | zero =>
    intro depth tree _
    have hzero : gridBelow cfg drafter b tree.rootToken 0 depth (layerOf depth tree) = 0 := by
      rw [gridBelow, List.sum_eq_zero_iff_forall_eq_nat]
      intro x hx
      obtain ⟨a, -, rfl⟩ := List.mem_map.mp hx
      rfl
    rw [hzero]
    exact ⟨Nat.le_refl _, Nat.le_refl _, .inl rfl⟩
  | succ left ih =>
    intro depth tree hdeep
    by_cases hwidth : cfg.depthWidth depth ≤ 0
    · have hzero : gridBelow cfg drafter b tree.rootToken (left + 1) depth (layerOf depth tree) =
          0 := by
        rw [gridBelow, List.sum_eq_zero_iff_forall_eq_nat]
        intro x hx
        obtain ⟨a, -, rfl⟩ := List.mem_map.mp hx
        rw [gridSize, if_pos hwidth]
      rw [hzero, growRow, if_pos hwidth]
      exact ⟨Nat.le_refl _, Nat.le_refl _, .inl rfl⟩
    · rw [growRow, if_neg hwidth, gridBelow_succ _ _ _ _ _ _ _ (by omega)]
      obtain ⟨hsub, hlen, hall, htotal, hlayer⟩ :=
        @growTree_budget cfg drafter b depth tree budget hbudget hdeep
      obtain ⟨hroot, -, -⟩ := growTree_paths cfg drafter b depth tree
      obtain ⟨hupper, hlower, hexact⟩ :=
        @ih (depth + 1) (growTree cfg drafter depth b tree) (growTree_shallow hdeep)
      rw [hroot, gridBelow_perm hlayer] at hupper hexact
      have hle := @gridBelow_sublist cfg drafter b tree.rootToken left (depth + 1) _ _ hsub
      have hkept := hsub.length_le
      refine ⟨by omega, by omega, ?_⟩
      by_cases hfits : (nextLayer cfg drafter b tree.rootToken depth (layerOf depth tree)).length ≤
          budget
      · rw [hall hfits] at hexact htotal
        omega
      · right
        omega

end Run

/-! ### The budget of a tree -/

def firstLayer (cfg : DraftConfig) (drafter : Drafter) (b root : ℕ) : List Draws :=
  keptLayer cfg [([], drafter.topk b [root] (cfg.depthWidth 0).toNat)]

/-- The whole grid above the threshold is within the budget, or the first layer is not, and there
is nothing below what the budget leaves of it. -/
def BudgetKept (cfg : DraftConfig) (drafter : Drafter) (budget b root : ℕ) : Prop :=
  gridSize cfg drafter b root cfg.depths 0 [] ≤ budget ∨
    (budget < (candidatesOf cfg drafter b root 0 []).length ∧
      gridBelow cfg drafter b root (cfg.depths - 1) 1 (firstLayer cfg drafter b root) = 0)

theorem new_shallow (root : ℕ) : ∀ q ∈ (SpeculativeTree.new root).allPaths, q.length ≤ 0 := by
  intro q hq
  rw [List.mem_singleton.mp hq]
  exact Nat.le_refl _

theorem growRow_new (cfg : DraftConfig) (drafter : Drafter) {budget : ℕ}
    (hbudget : cfg.treeBudget = some budget) (b root : ℕ) :
    (growRow cfg drafter b cfg.depths 0 (.new root)).totalNodes ≤ budget + 1 ↔
      BudgetKept cfg drafter budget b root := by
  have hdeep := new_shallow root
  rw [BudgetKept]
  cases hdepths : cfg.depths with
  | zero => exact iff_of_true (Nat.le_add_left _ _) (.inl (Nat.zero_le _))
  | succ left =>
    by_cases hwidth : cfg.depthWidth 0 ≤ 0
    · rw [growRow, if_pos hwidth, gridSize, if_pos hwidth]
      exact iff_of_true (Nat.le_add_left _ _) (.inl (Nat.zero_le _))
    · obtain ⟨hsub, hlen, hall, htotal, hlayer⟩ :=
        @growTree_budget cfg drafter b 0 (.new root) budget hbudget hdeep
      obtain ⟨hroot, -, -⟩ := growTree_paths cfg drafter b 0 (.new root)
      obtain ⟨hupper, -, hexact⟩ :=
        @growRow_budget cfg drafter budget hbudget b left 1 _ (growTree_shallow hdeep)
      have hle := @gridBelow_sublist cfg drafter b root left 1 _ _ hsub
      have hgrid : gridSize cfg drafter b root (left + 1) 0 [] =
          (candidatesOf cfg drafter b root 0 []).length + gridBelow cfg drafter b root left 1
            ((candidatesOf cfg drafter b root 0 []).map fun c => [] ++ [c]) :=
        gridSize_succ cfg drafter b root left 0 [] (by omega)
      have hnext : nextLayer cfg drafter b (SpeculativeTree.new root).rootToken 0
          (layerOf 0 (.new root)) =
            (candidatesOf cfg drafter b root 0 []).map fun c => [] ++ [c] := List.append_nil _
      have hkept : keptLayer cfg (perNodeOf cfg drafter b 0 (.new root)) =
          firstLayer cfg drafter b root := rfl
      rw [hnext, hkept] at hsub hlen hall hle
      rw [hkept] at htotal hlayer
      have hrootToken : (SpeculativeTree.new root).rootToken = root := rfl
      rw [hroot, hrootToken, gridBelow_perm hlayer] at hupper hexact
      rw [List.length_map] at hlen hall
      have hgrow : growRow cfg drafter b (left + 1) 0 (.new root) =
          growRow cfg drafter b left 1 (growTree cfg drafter 0 b (.new root)) := by
        rw [growRow, if_neg hwidth]
      rw [hgrow, hgrid, Nat.add_sub_cancel]
      have hnew : (SpeculativeTree.new root).totalNodes = 1 := rfl
      rw [hnew] at htotal
      have hnil : ∀ l : List Draws, l.length = 0 →
          gridBelow cfg drafter b root left 1 l = 0 := by
        intro l hl
        rw [List.length_eq_zero_iff.mp hl]
        rfl
      constructor
      · intro hN
        by_cases hpool : (candidatesOf cfg drafter b root 0 []).length ≤ budget
        · left
          have hsame := hall hpool
          have hlen' := congrArg List.length hsame
          rw [List.length_map] at hlen'
          rw [hsame] at hexact hupper
          have := hnil ((candidatesOf cfg drafter b root 0 []).map fun c => [] ++ [c])
          rw [List.length_map] at this
          omega
        · right
          have := hnil (firstLayer cfg drafter b root)
          omega
      · intro h
        omega

theorem buildTreesBatched_eq (cfg : DraftConfig) (drafter : Drafter) (rootTokens : List ℕ) :
    buildTreesBatched cfg drafter rootTokens =
      rootTokens.mapIdx fun b root => growRow cfg drafter b cfg.depths 0 (.new root) := by
  have hdeep : ∀ t ∈ rootTokens.map SpeculativeTree.new, ∀ q ∈ t.allPaths, q.length ≤ 0 := by
    intro t ht
    obtain ⟨root, -, rfl⟩ := List.mem_map.mp ht
    exact new_shallow root
  rw [buildTreesBatched, growLayers_eq _ hdeep]
  refine List.ext_getElem (by simp) fun i h₁ h₂ => ?_
  rw [List.getElem_mapIdx, List.getElem_mapIdx, List.getElem_map]

/-- A tree keeps to its budget exactly in these cases. The parents of its nodes are in the tree
in every case. -/
theorem tree_budget_iff (cfg : DraftConfig) (drafter : Drafter) (rootTokens : List ℕ) (budget : ℕ)
    (hbudget : cfg.treeBudget = some budget) (b root : ℕ) (tree : SpeculativeTree)
    (hroot : rootTokens[b]? = some root)
    (htree : (buildTreesBatched cfg drafter rootTokens)[b]? = some tree) :
    (tree.nodes.length ≤ budget ↔ BudgetKept cfg drafter budget b root) ∧
      ∀ node ∈ tree.nodes, ∃ parent, tree.IsParent parent node ∧
        (parent = tree.root ∨ parent ∈ tree.nodes) := by
  rw [buildTreesBatched_eq, List.getElem?_mapIdx, hroot] at htree
  have hrow : tree = growRow cfg drafter b cfg.depths 0 (.new root) :=
    (Option.some.inj htree).symm
  refine ⟨?_, fun node hnode => ?_⟩
  · have hlen := tree.nodes_length
    rw [← growRow_new cfg drafter hbudget b root, ← hrow]
    omega
  · obtain ⟨i, hi⟩ := List.getElem?_of_mem hnode
    obtain ⟨p, z, hp, -, hcases⟩ := tree.exists_parent hi
    refine ⟨p, hp, ?_⟩
    rcases hcases with ⟨hp, -⟩ | ⟨k, -, hk, -⟩
    · exact .inl hp
    · exact .inr (List.mem_of_getElem? hk)

def oneToken : Drafter where
  topk := fun _ _ k => [(7, 1 / 2)].take k
  distinct := fun _ _ k => by
    cases k <;> simp
  fits := fun _ _ k => List.length_take_le _ _

def chainConfig (budget : ℕ) : DraftConfig := ⟨.scalar 1, 2, some budget, none⟩

theorem tree_budget_kept_chain :
    ((buildTreesBatched (chainConfig 2) oneToken [5]).map fun t => decide (t.nodes.length ≤ 2)) =
      [true] := by
  have hlen : (buildTreesBatched (chainConfig 2) oneToken [5]).length = 1 := by decide +kernel
  obtain ⟨tree, htree⟩ := List.length_eq_one_iff.mp hlen
  have hiff := (tree_budget_iff (chainConfig 2) oneToken [5] 2 rfl 0 5 tree rfl
    (by rw [htree]; rfl)).1
  rw [htree, List.map_singleton, decide_eq_true (hiff.mpr (.inl (by decide +kernel)))]

/-- A budget of one node, and a tree of two. -/
theorem tree_budget_exceeded : ¬ ∀ (cfg : DraftConfig) (drafter : Drafter) (rootTokens : List ℕ)
    (budget : ℕ), cfg.treeBudget = some budget →
      ∀ tree ∈ buildTreesBatched cfg drafter rootTokens, tree.nodes.length ≤ budget := by
  intro h
  have hall := h (chainConfig 1) oneToken [5] 1 rfl
  have hsize : ((buildTreesBatched (chainConfig 1) oneToken [5]).map fun t => t.nodes.length) =
      [2] := by decide +kernel
  obtain ⟨tree, htree, hlen⟩ : ∃ tree ∈ buildTreesBatched (chainConfig 1) oneToken [5],
      tree.nodes.length = 2 := by
    have : 2 ∈ (buildTreesBatched (chainConfig 1) oneToken [5]).map fun t => t.nodes.length := by
      rw [hsize]
      exact List.mem_singleton_self 2
    exact List.mem_map.mp this
  have := hall tree htree
  omega

end BloomBee.Speculative
