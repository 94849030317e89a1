import BloomBee.Spec.SpeDecTree
import Mathlib.Data.List.Perm.Lattice
import Mathlib.Data.Rat.Init
import Mathlib.Tactic.Common

/-! `SpeculativeTree` as objects (`models/llama/spe_dec_tree.py`): `add_layer`, the linearization
with its map of positions, and the two walks over the parent indices. -/

set_option autoImplicit false

namespace BloomBee.Speculative

/-! ### Nodes and layers -/

/-- A drafted node. `id` is the identity of the object: the nodes of a tree are numbered in the
order in which they are made, the root being 0. -/
structure TreeNode where
  id : ℕ
  tokenId : ℕ
  probability : ℚ
  deriving DecidableEq

namespace Forest

variable {α : Type}

def append : Forest α → Forest α → Forest α
  | nil, g => g
  | cons token children siblings, g => cons token children (siblings.append g)

def leaves : List α → Forest α
  | [] => nil
  | x :: xs => cons x nil (leaves xs)

/-- `parent.children` gets `new` at its end. -/
def addUnder (parent : ℕ) (new : Forest TreeNode) : Forest TreeNode → Forest TreeNode
  | nil => nil
  | cons node children siblings =>
    let below := addUnder parent new children
    cons node (if node.id = parent then below.append new else below)
      (addUnder parent new siblings)

/-- The pairs of a node and a child of it, for a forest under `parent`. -/
def edges (parent : α) : Forest α → List (α × α)
  | nil => []
  | cons node children siblings =>
    (parent, node) :: (children.edges node ++ siblings.edges parent)

/-- The paths to the nodes `depth` levels below those of the forest, in the order of the
traversal. -/
def pathsBelow : ℕ → Forest α → List (List α)
  | _, nil => []
  | 0, cons node _ siblings => [node] :: pathsBelow 0 siblings
  | depth + 1, cons node children siblings =>
    (pathsBelow depth children).map (node :: ·) ++ pathsBelow (depth + 1) siblings

@[simp] theorem tokens_append (f g : Forest α) : (f.append g).tokens = f.tokens ++ g.tokens := by
  induction f with
  | nil => rfl
  | cons token children siblings _ ih =>
    rw [append, tokens, tokens, ih, List.cons_append, List.append_assoc]

@[simp] theorem tokens_leaves (xs : List α) : (leaves xs).tokens = xs := by
  induction xs with
  | nil => rfl
  | cons x xs ih => rw [leaves, tokens, tokens, ih, List.nil_append]

theorem addUnder_of_notMem {parent : ℕ} (new : Forest TreeNode) {f : Forest TreeNode}
    (h : parent ∉ f.tokens.map TreeNode.id) : addUnder parent new f = f := by
  induction f with
  | nil => rfl
  | cons node children siblings ihc ihs =>
    rw [tokens, List.map_cons, List.map_append, List.mem_cons, List.mem_append] at h
    push Not at h
    rw [addUnder, ihc h.2.1, ihs h.2.2, if_neg (Ne.symm h.1)]

/-- The new nodes come in once when the parent is there once. -/
theorem tokens_addUnder {parent : ℕ} (new : Forest TreeNode) {f : Forest TreeNode}
    (hmem : parent ∈ f.tokens.map TreeNode.id) (hnodup : (f.tokens.map TreeNode.id).Nodup) :
    (addUnder parent new f).tokens.Perm (f.tokens ++ new.tokens) := by
  induction f with
  | nil => cases hmem
  | cons node children siblings ihc ihs =>
    rw [tokens, List.map_cons, List.map_append] at hmem hnodup
    obtain ⟨hnode, hnodup⟩ := List.nodup_cons.mp hnodup
    obtain ⟨hchildren, hsiblings, hdisjoint⟩ := List.nodup_append'.mp hnodup
    rw [addUnder, tokens, tokens]
    by_cases hid : node.id = parent
    · -- the node itself
      subst hid
      rw [List.mem_append, not_or] at hnode
      rw [addUnder_of_notMem new hnode.1, addUnder_of_notMem new hnode.2, if_pos rfl,
        tokens_append, List.cons_append, List.append_assoc, List.append_assoc]
      exact (List.perm_append_comm.append_left _).cons _
    · rw [if_neg hid]
      rcases List.mem_append.mp ((List.mem_cons.mp hmem).resolve_left (Ne.symm hid)) with h | h
      · -- below its children
        rw [addUnder_of_notMem new (hdisjoint h), List.cons_append, List.append_assoc]
        refine (((ihc h hchildren).append_right _).trans ?_).cons _
        rw [List.append_assoc]
        exact List.perm_append_comm.append_left _
      · -- among the siblings
        rw [addUnder_of_notMem new fun hc => hdisjoint hc h, List.cons_append,
          List.append_assoc]
        exact ((ihs h hsiblings).append_left _).cons _

end Forest

/-- A tree under construction: the nodes below the root, and `total_nodes`, which is also the
identity of the next node. -/
structure Growing where
  children : Forest TreeNode
  totalNodes : ℕ

/-- The node identities are those handed out so far, each of them once. -/
def Growing.Sound (g : Growing) : Prop :=
  (g.children.tokens.map TreeNode.id).Perm (List.range' 1 (g.totalNodes - 1)) ∧
    0 < g.totalNodes

/-- `parent.add_children(candidates)` for one pair of `add_layer`. -/
def Growing.addChildren (g : Growing) (parent : ℕ) (candidates : List (ℕ × ℚ)) : Growing :=
  let new := Forest.leaves
    (candidates.mapIdx fun k c => (⟨g.totalNodes + k, c.1, c.2⟩ : TreeNode))
  { children :=
      if parent = 0 then g.children.append new else Forest.addUnder parent new g.children
    totalNodes := g.totalNodes + candidates.length }

theorem new_ids (start : ℕ) (candidates : List (ℕ × ℚ)) :
    ((candidates.mapIdx fun k c => (⟨start + k, c.1, c.2⟩ : TreeNode)).map TreeNode.id) =
      List.range' start candidates.length := by
  apply List.ext_getElem
  · simp
  · intro i h₁ h₂
    simp

theorem Growing.Sound.addChildren {g : Growing} (h : g.Sound) {parent : ℕ}
    (hparent : parent < g.totalNodes) (candidates : List (ℕ × ℚ)) :
    (g.addChildren parent candidates).Sound := by
  obtain ⟨hperm, hpos⟩ := h
  refine ⟨?_, Nat.lt_of_lt_of_le hpos (Nat.le_add_right _ _)⟩
  have hrange : List.range' 1 (g.totalNodes + candidates.length - 1) =
      List.range' 1 (g.totalNodes - 1) ++ List.range' g.totalNodes candidates.length := by
    rw [show g.totalNodes + candidates.length - 1 = g.totalNodes - 1 + candidates.length by omega,
      ← List.range'_append, show 1 + 1 * (g.totalNodes - 1) = g.totalNodes by omega]
  have hmem : parent = 0 ∨ parent ∈ g.children.tokens.map TreeNode.id := by
    rw [hperm.mem_iff, List.mem_range'_1]
    omega
  have htokens : (g.addChildren parent candidates).children.tokens.Perm
      (g.children.tokens ++ candidates.mapIdx fun k c =>
        (⟨g.totalNodes + k, c.1, c.2⟩ : TreeNode)) := by
    rw [Growing.addChildren]
    simp only
    split_ifs with hroot
    · rw [Forest.tokens_append, Forest.tokens_leaves]
    · have := Forest.tokens_addUnder (Forest.leaves
        (candidates.mapIdx fun k c => (⟨g.totalNodes + k, c.1, c.2⟩ : TreeNode)))
        (hmem.resolve_left hroot) (hperm.nodup_iff.mpr List.nodup_range')
      rwa [Forest.tokens_leaves] at this
  rw [show (g.addChildren parent candidates).totalNodes = g.totalNodes + candidates.length from rfl,
    hrange]
  refine (htokens.map _).trans ?_
  rw [List.map_append, new_ids]
  exact hperm.append_right _

/-- A tree that was built layer by layer. -/
structure SpeculativeTree where
  rootToken : ℕ
  grown : Growing
  sound : grown.Sound

namespace SpeculativeTree

def children (tree : SpeculativeTree) : Forest TreeNode := tree.grown.children

def totalNodes (tree : SpeculativeTree) : ℕ := tree.grown.totalNodes

/-- `SpeculativeTree(root_token, request_id)` -/
def new (rootToken : ℕ) : SpeculativeTree := ⟨rootToken, ⟨.nil, 1⟩, .nil, Nat.one_pos⟩

def root (tree : SpeculativeTree) : TreeNode := ⟨0, tree.rootToken, 1⟩

theorem foldl_sound : ∀ (pairs : List (ℕ × List (ℕ × ℚ))) {g : Growing}, g.Sound →
    (∀ p ∈ pairs, p.1 < g.totalNodes) →
      (pairs.foldl (fun g p => g.addChildren p.1 p.2) g).Sound
  | [], _, h, _ => h
  | p :: pairs, _, h, hin =>
    foldl_sound pairs (h.addChildren (hin p List.mem_cons_self) p.2) fun q hq =>
      Nat.lt_of_lt_of_le (hin q (List.mem_cons_of_mem _ hq)) (Nat.le_add_right _ _)

theorem layer_sound (tree : SpeculativeTree) {parents : List ℕ}
    (candidates : List (List (ℕ × ℚ))) (hparents : ∀ p ∈ parents, p < tree.totalNodes) :
    ((parents.zip candidates).foldl (fun g p => g.addChildren p.1 p.2) tree.grown).Sound :=
  foldl_sound _ tree.sound fun _ hp => hparents _ (List.of_mem_zip hp).1

/-- `add_layer`. The `ValueError` of lists of different length is `none`, as are parents that are
no nodes of the tree. -/
def addLayer (tree : SpeculativeTree) (parents : List ℕ) (candidates : List (List (ℕ × ℚ))) :
    Option SpeculativeTree :=
  if h : parents.length = candidates.length ∧ ∀ p ∈ parents, p < tree.totalNodes then
    some
      { rootToken := tree.rootToken
        grown := (parents.zip candidates).foldl (fun g p => g.addChildren p.1 p.2) tree.grown
        sound := layer_sound tree candidates h.2 }
  else none

def nodes (tree : SpeculativeTree) : List TreeNode := tree.children.tokens

/-- `get_nodes_at_depth`: the nodes with the path from the root to each of them. The root has the
empty path. -/
def nodesAtDepth (tree : SpeculativeTree) : ℕ → List (List TreeNode)
  | 0 => [[]]
  | depth + 1 => tree.children.pathsBelow depth

def IsParent (tree : SpeculativeTree) (parent node : TreeNode) : Prop :=
  (parent, node) ∈ tree.children.edges tree.root

/-- `ancestor` is a strict ancestor of `node`, which may be the root. -/
def IsAncestor (tree : SpeculativeTree) : TreeNode → TreeNode → Prop :=
  Relation.TransGen tree.IsParent

end SpeculativeTree

/-! ### `linearize_tree_with_positions` -/

structure Linearized (ν : Type) where
  linearizedNodes : List ν
  parentIndices : List ℤ
  positionMap : ν → Option ℕ

/-- The index of a parent, -1 when it has none. -/
def indexOf {ν : Type} (positionMap : ν → Option ℕ) (parent : ν) : ℤ :=
  ((positionMap parent).map Int.ofNat).getD (-1)

/-- `dfs_with_positions` on a node, up to its children. -/
def Linearized.visit {ν : Type} [DecidableEq ν] (s : Linearized ν) (parent node : ν) :
    Linearized ν :=
  let pos := s.linearizedNodes.length
  let positionMap := Function.update s.positionMap node (some pos)
  { linearizedNodes := s.linearizedNodes ++ [node]
    parentIndices := s.parentIndices ++ [indexOf positionMap parent]
    positionMap }

/-- `dfs_with_positions` on the nodes of a forest, whose parent is `parent`. -/
def dfsWithPositions {ν : Type} [DecidableEq ν] (parent : ν) :
    Forest ν → Linearized ν → Linearized ν
  | .nil, s => s
  | .cons node children siblings, s =>
    dfsWithPositions parent siblings (dfsWithPositions node children (s.visit parent node))

/-- `linearize_tree_with_positions`. The root has no entry in the map. -/
def linearizeTreeWithPositions (tree : SpeculativeTree) : Linearized TreeNode :=
  dfsWithPositions tree.root tree.children ⟨[], [], fun _ => none⟩

/-! ### The ancestor matrix -/

/-- The loop `while j >= 0` of `build_ancestor_matrix_optimized`, which collects what it visits.
`none` when it goes on after `fuel` turns, or leaves the list. -/
def ancestorRow (parents : List ℤ) : ℕ → ℤ → Option (List ℕ)
  | 0, _ => none
  | fuel + 1, j =>
    if 0 ≤ j then do
      let next ← parents[j.toNat]?
      let row ← ancestorRow parents fuel next
      return j.toNat :: row
    else some []

/-- A row of booleans that is set at `columns`. -/
def boolRow (n : ℕ) (columns : List ℕ) : List Bool :=
  (List.range n).map fun j => decide (j ∈ columns)

def buildAncestorMatrixOptimized (fuel : ℕ) (parents : List ℤ) : Option (List (List Bool)) := do
  let ancestorRows ← parents.mapM (ancestorRow parents fuel)
  return ancestorRows.map (boolRow parents.length)

/-- The loop `while current >= 0` of `build_tree_attention_mask_with_root`: what it marks besides
the node itself. -/
def markAncestors (parents : List ℤ) : ℕ → ℕ → Option (List ℕ)
  | 0, _ => none
  | fuel + 1, current => do
    let parent ← parents[current]?
    if 0 ≤ parent then
      let marked ← markAncestors parents fuel parent.toNat
      return parent.toNat :: marked
    else some []

def buildTreeAttentionMaskWithRoot (fuel treeLen : ℕ) (parents : List ℤ) :
    Option (List (List Bool)) :=
  (List.range treeLen).mapM fun i => do
    let marked ← markAncestors parents fuel i
    return boolRow treeLen (i :: marked)

end BloomBee.Speculative
