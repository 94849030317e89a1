import BloomBee.Lib.Fallible
import BloomBee.Lib.Parents
import BloomBee.Sanity.SpeDecTree
import BloomBee.Spec.SpeculativeTree

/-! The linearization numbers the nodes depth first, so that the parent indices point to the left,
and both walks over them end with the strict ancestors. -/

set_option autoImplicit false

namespace BloomBee.Speculative

open Parents

/-! ### Identities -/

namespace SpeculativeTree

variable (tree : SpeculativeTree)

theorem ids_nodup : (tree.nodes.map TreeNode.id).Nodup :=
  tree.sound.1.nodup_iff.mpr List.nodup_range'

theorem nodes_nodup : tree.nodes.Nodup := List.Nodup.of_map _ tree.ids_nodup

theorem root_notMem : tree.root ∉ tree.nodes := by
  intro h
  have : (0 : ℕ) ∈ tree.children.tokens.map TreeNode.id := List.mem_map_of_mem (f := TreeNode.id) h
  rw [children, tree.sound.1.mem_iff, List.mem_range'_1] at this
  omega

/-- `total_nodes` counts the root and the nodes. -/
theorem nodes_length : tree.nodes.length + 1 = tree.totalNodes := by
  have hlen := tree.sound.1.length_eq
  have hpos := tree.sound.2
  rw [List.length_map, List.length_range'] at hlen
  rw [nodes, children, totalNodes, hlen]
  omega

theorem size_children : tree.children.size = tree.nodes.length := (tokens_length _).symm

end SpeculativeTree

/-! ### Depth first -/

section Dfs

variable {ν : Type}

/-- What distinct nodes say about a node, its children and its siblings. -/
theorem nodup_cons_forest {parent node : ν} {children siblings : Forest ν}
    (h : (parent :: (Forest.cons node children siblings).tokens).Nodup) :
    (node :: children.tokens).Nodup ∧ (parent :: siblings.tokens).Nodup ∧
      node ∉ siblings.tokens ∧ parent ≠ node ∧ parent ∉ children.tokens ∧
        children.tokens.Disjoint siblings.tokens := by
  rw [Forest.tokens] at h
  obtain ⟨hparent, h⟩ := List.nodup_cons.mp h
  obtain ⟨hnode, h⟩ := List.nodup_cons.mp h
  obtain ⟨hchildren, hsiblings, hdisjoint⟩ := List.nodup_append'.mp h
  rw [List.mem_cons, List.mem_append] at hparent
  rw [List.mem_append] at hnode
  push Not at hparent hnode
  exact ⟨List.nodup_cons.mpr ⟨hnode.1, hchildren⟩, List.nodup_cons.mpr ⟨hparent.2.2, hsiblings⟩,
    hnode.2, hparent.1, hparent.2.1, hdisjoint⟩

variable [DecidableEq ν]

section Visit

variable (s : Linearized ν) (parent node : ν)

@[simp] theorem visit_nodes :
    (s.visit parent node).linearizedNodes = s.linearizedNodes ++ [node] := rfl

@[simp] theorem visit_position :
    (s.visit parent node).positionMap node = some s.linearizedNodes.length :=
  Function.update_self ..

variable {s parent node}

theorem visit_position_of_ne {n : ν} (h : n ≠ node) :
    (s.visit parent node).positionMap n = s.positionMap n := Function.update_of_ne h ..

theorem visit_parentIndices (h : parent ≠ node) :
    (s.visit parent node).parentIndices =
      s.parentIndices ++ [indexOf s.positionMap parent] := by
  rw [Linearized.visit, indexOf, Function.update_of_ne h]
  rfl

end Visit

theorem dfs_positionMap_of_notMem {f : Forest ν} : ∀ {parent : ν} {s : Linearized ν} {n : ν},
    n ∉ f.tokens → (dfsWithPositions parent f s).positionMap n = s.positionMap n := by
  induction f with
  | nil => intro parent s n _; rfl
  | cons node children siblings ihc ihs =>
    intro parent s n hn
    rw [Forest.tokens, List.mem_cons, List.mem_append] at hn
    push Not at hn
    rw [dfsWithPositions, ihs hn.2.2, ihc hn.2.1, visit_position_of_ne hn.1]

theorem dfs_lists {f : Forest ν} : ∀ {parent : ν} {s : Linearized ν},
    (parent :: f.tokens).Nodup →
      (dfsWithPositions parent f s).linearizedNodes = s.linearizedNodes ++ f.tokens ∧
      (dfsWithPositions parent f s).parentIndices = s.parentIndices ++
        f.parentIndices (indexOf s.positionMap parent) s.linearizedNodes.length := by
  induction f with
  | nil =>
    intro parent s _
    simp [dfsWithPositions, Forest.tokens, Forest.parentIndices]
  | cons node children siblings ihc ihs =>
    intro parent s hnodup
    obtain ⟨hbelow, hbeside, -, hne, hout, -⟩ := nodup_cons_forest hnodup
    obtain ⟨hnodes, hindices⟩ := @ihc node (s.visit parent node) hbelow
    obtain ⟨hnodes', hindices'⟩ :=
      @ihs parent (dfsWithPositions node children (s.visit parent node)) hbeside
    -- the parent has the same index before the siblings
    have hup : indexOf (dfsWithPositions node children (s.visit parent node)).positionMap parent =
        indexOf s.positionMap parent := by
      rw [indexOf, dfs_positionMap_of_notMem hout, visit_position_of_ne hne, indexOf]
    have hself : indexOf (s.visit parent node).positionMap node = s.linearizedNodes.length := by
      rw [indexOf, visit_position]
      rfl
    rw [dfsWithPositions]
    refine ⟨?_, ?_⟩
    · rw [hnodes', hnodes, visit_nodes, Forest.tokens]
      simp
    · rw [hindices', hindices, hnodes, hself, hup, visit_nodes, visit_parentIndices hne,
        Forest.parentIndices]
      simp [tokens_length, Nat.add_assoc, Nat.add_comm 1]

/-- The node at an index of the forest has the position that the traversal has reached there. -/
theorem dfs_positionMap {f : Forest ν} : ∀ {parent : ν} {s : Linearized ν},
    (parent :: f.tokens).Nodup → ∀ (k : ℕ) (n : ν), f.tokens[k]? = some n →
      (dfsWithPositions parent f s).positionMap n = some (s.linearizedNodes.length + k) := by
  induction f with
  | nil => intro parent s _ k n h; cases h
  | cons node children siblings ihc ihs =>
    intro parent s hnodup k n hk
    obtain ⟨hbelow, hbeside, hnode, -, -, hdisjoint⟩ := nodup_cons_forest hnodup
    rw [dfsWithPositions]
    rw [Forest.tokens] at hk
    cases k with
    | zero =>
      obtain rfl : node = n := Option.some.inj hk
      rw [dfs_positionMap_of_notMem hnode,
        dfs_positionMap_of_notMem (List.nodup_cons.mp hbelow).1, visit_position, Nat.add_zero]
    | succ k =>
      rw [List.getElem?_cons_succ, List.getElem?_append] at hk
      split_ifs at hk with hlt
      · -- among the children
        have hmem := List.mem_of_getElem? hk
        rw [dfs_positionMap_of_notMem fun h => hdisjoint hmem h, ihc hbelow k n hk, visit_nodes,
          List.length_append, List.length_singleton]
        congr 1
        omega
      · -- among the siblings
        rw [ihs hbeside _ n hk, (dfs_lists hbelow).1, visit_nodes, List.length_append,
          List.length_append, List.length_singleton]
        congr 1
        omega

end Dfs

/-! ### Parent indices and edges -/

section Edges

variable {α : Type}

theorem edges_map_snd (parent : α) (f : Forest α) :
    (f.edges parent).map Prod.snd = f.tokens := by
  induction f generalizing parent with
  | nil => rfl
  | cons node children siblings ihc ihs =>
    rw [Forest.edges, Forest.tokens, List.map_cons, List.map_append, ihc, ihs]

/-- The parent index of a node says where its parent is. -/
theorem edges_parentIndices {f : Forest α} : ∀ {parent : α} {q : ℤ} {start i : ℕ} {p n : α},
    (f.edges parent)[i]? = some (p, n) →
      ∃ z, (f.parentIndices q start)[i]? = some z ∧
        ((p = parent ∧ z = q) ∨ ∃ k < i, f.tokens[k]? = some p ∧ z = ((start + k : ℕ) : ℤ)) := by
  induction f with
  | nil => intro parent q start i p n h; cases h
  | cons node children siblings ihc ihs =>
    intro parent q start i p n h
    have hedges : (children.edges node).length = children.size := by
      rw [← tokens_length, ← edges_map_snd node, List.length_map]
    have hlen := parentIndices_length children start (start + 1)
    rw [Forest.edges] at h
    rw [Forest.parentIndices, Forest.tokens]
    cases i with
    | zero =>
      obtain ⟨rfl, rfl⟩ : parent = p ∧ node = n := by simpa using h
      exact ⟨q, rfl, .inl ⟨rfl, rfl⟩⟩
    | succ i =>
      rw [List.getElem?_cons_succ, List.getElem?_append] at h
      simp only [List.getElem?_cons_succ, List.getElem?_append, hlen]
      rw [hedges] at h
      split_ifs at h ⊢ with hlt
      · obtain ⟨z, hz, hp⟩ := @ihc node start (start + 1) i p n h
        refine ⟨z, hz, .inr ?_⟩
        rcases hp with ⟨rfl, rfl⟩ | ⟨k, hk, htok, rfl⟩
        · exact ⟨0, Nat.succ_pos _, rfl, by simp⟩
        · have : k < children.tokens.length := (List.getElem?_eq_some_iff.mp htok).1
          refine ⟨k + 1, by omega, ?_, by push_cast; omega⟩
          rw [List.getElem?_cons_succ, List.getElem?_append_left this, htok]
      · obtain ⟨z, hz, hp⟩ := @ihs parent q (start + 1 + children.size) _ p n h
        refine ⟨z, hz, ?_⟩
        rcases hp with hp | ⟨k, hk, htok, rfl⟩
        · exact .inl hp
        · have := tokens_length children
          refine .inr ⟨k + children.size + 1, by omega, ?_, by push_cast; omega⟩
          rw [List.getElem?_cons_succ, List.getElem?_append_right (by omega), this,
            Nat.add_sub_cancel, htok]

end Edges

namespace SpeculativeTree

variable (tree : SpeculativeTree)

def parentIndices : List ℤ := tree.children.parentIndices (-1) 0

theorem linearize_nodes : (linearizeTreeWithPositions tree).linearizedNodes = tree.nodes := by
  rw [linearizeTreeWithPositions,
    (dfs_lists (List.nodup_cons.mpr ⟨tree.root_notMem, tree.nodes_nodup⟩)).1]
  rfl

theorem linearize_parentIndices :
    (linearizeTreeWithPositions tree).parentIndices = tree.parentIndices := by
  rw [linearizeTreeWithPositions,
    (dfs_lists (List.nodup_cons.mpr ⟨tree.root_notMem, tree.nodes_nodup⟩)).2]
  rfl

theorem linearize_positionMap {i : ℕ} {n : TreeNode} (h : tree.nodes[i]? = some n) :
    (linearizeTreeWithPositions tree).positionMap n = some i := by
  rw [linearizeTreeWithPositions,
    dfs_positionMap (List.nodup_cons.mpr ⟨tree.root_notMem, tree.nodes_nodup⟩) i n h]
  simp

theorem parentIndices_length' : tree.parentIndices.length = tree.nodes.length := by
  rw [parentIndices, Speculative.parentIndices_length, size_children]

/-- Every node has one parent, and its parent index says which. -/
theorem exists_parent {i : ℕ} {n : TreeNode} (h : tree.nodes[i]? = some n) :
    ∃ p z, tree.IsParent p n ∧ tree.parentIndices[i]? = some z ∧
      ((p = tree.root ∧ z = -1) ∨ ∃ k < i, tree.nodes[k]? = some p ∧ z = (k : ℤ)) := by
  have hmap := edges_map_snd tree.root tree.children
  rw [nodes, ← hmap, List.getElem?_map, Option.map_eq_some_iff] at h
  obtain ⟨⟨p, n⟩, he, rfl⟩ := h
  obtain ⟨z, hz, hp⟩ := @edges_parentIndices _ tree.children tree.root (-1) 0 i p n he
  simp only [Nat.zero_add] at hp
  exact ⟨p, z, List.mem_of_getElem? he, hz, hp⟩

theorem isParent_unique {p q n : TreeNode} (hp : tree.IsParent p n) (hq : tree.IsParent q n) :
    p = q := by
  have hnodup : ((tree.children.edges tree.root).map Prod.snd).Nodup := by
    rw [edges_map_snd]
    exact tree.nodes_nodup
  exact congrArg Prod.fst (List.inj_on_of_nodup_map hnodup hp hq rfl)

theorem IsParent.mem {tree : SpeculativeTree} {p n : TreeNode} (h : tree.IsParent p n) :
    n ∈ tree.nodes := by
  have := List.mem_map_of_mem (f := Prod.snd) h
  rwa [edges_map_snd] at this

theorem leftward : Leftward tree.parentIndices := by
  intro i z hz
  have hlt := (List.getElem?_eq_some_iff.mp hz).1
  rw [parentIndices_length'] at hlt
  obtain ⟨p, z', -, hz', hp⟩ := tree.exists_parent (List.getElem?_eq_getElem hlt)
  obtain rfl : z = z' := Option.some.inj (hz.symm.trans hz')
  rcases hp with ⟨-, rfl⟩ | ⟨k, hk, -, rfl⟩ <;> omega

theorem isParent_iff {i j : ℕ} {p n : TreeNode} (hi : tree.nodes[i]? = some n)
    (hj : tree.nodes[j]? = some p) :
    tree.IsParent p n ↔ tree.parentIndices[i]? = some (j : ℤ) := by
  obtain ⟨q, z, hq, hz, hcases⟩ := tree.exists_parent hi
  rw [hz, Option.some.injEq]
  constructor
  · intro h
    obtain rfl := tree.isParent_unique h hq
    rcases hcases with ⟨rfl, -⟩ | ⟨k, -, hk, rfl⟩
    · exact absurd (List.mem_of_getElem? hj) tree.root_notMem
    · rw [(List.getElem?_inj (List.getElem?_eq_some_iff.mp hk).1 tree.nodes_nodup).mp
        (hk.trans hj.symm)]
  · intro h
    subst h
    rcases hcases with ⟨-, hneg⟩ | ⟨k, -, hk, hkj⟩
    · omega
    · obtain rfl : k = j := by omega
      obtain rfl : q = p := Option.some.inj (hk.symm.trans hj)
      exact hq

theorem isAncestor_iff {i j : ℕ} {a n : TreeNode} (hi : tree.nodes[i]? = some n)
    (hj : tree.nodes[j]? = some a) : tree.IsAncestor a n ↔ Above tree.parentIndices j i := by
  constructor
  · intro h
    induction h generalizing i with
    | single h => exact .single ((tree.isParent_iff hi hj).mp h)
    | @tail m n ham hmn ih =>
      have hm : m ∈ tree.nodes := by
        obtain ⟨_, -, hlast⟩ := Relation.TransGen.tail'_iff.mp ham
        exact hlast.mem
      obtain ⟨k, hk⟩ := List.getElem?_of_mem hm
      exact (ih hk).tail ((tree.isParent_iff hi hk).mp hmn)
  · intro h
    induction h generalizing n with
    | single h => exact .single ((tree.isParent_iff hi hj).mpr h)
    | @tail k i hjk hki ih =>
      have hk : k < tree.nodes.length := by
        rw [← tree.parentIndices_length']
        exact Above.lt_length hjk
      have hk := List.getElem?_eq_getElem hk
      exact (ih hk).tail ((tree.isParent_iff hi hk).mpr hki)

end SpeculativeTree

/-! ### The walks -/

section Walks

variable {parents : List ℤ}

/-- The walk from the parent of `i` ends with the ancestors of `i`. -/
theorem ancestorRow_total (hleft : Leftward parents) (fuel : ℕ) :
    ∀ (i : ℕ) (p : ℤ), parents[i]? = some p → i < fuel →
      ∃ row, ancestorRow parents fuel p = some row ∧ ∀ j, j ∈ row ↔ Above parents j i := by
  induction fuel with
  | zero => intro i p _ h; omega
  | succ fuel ih =>
    intro i p hp hi
    rw [ancestorRow]
    split_ifs with hnonneg
    · have hlt := hleft i p hp
      have hlen := (List.getElem?_eq_some_iff.mp hp).1
      obtain ⟨q, hq⟩ : ∃ q, parents[p.toNat]? = some q :=
        ⟨_, List.getElem?_eq_getElem (by omega)⟩
      obtain ⟨row, hrow, hmem⟩ := ih p.toNat q hq (by omega)
      refine ⟨p.toNat :: row, by simp [hq, hrow], fun j => ?_⟩
      rw [List.mem_cons, hmem, above_iff hp]
      exact (and_iff_right hnonneg).symm
    · refine ⟨[], rfl, fun j => ?_⟩
      have := not_above_of_neg (j := j) hp (by omega)
      simp [this]

/-- The walk from `i` marks the ancestors of `i`. -/
theorem markAncestors_total (hleft : Leftward parents) (fuel : ℕ) :
    ∀ i < parents.length, i < fuel →
      ∃ row, markAncestors parents fuel i = some row ∧ ∀ j, j ∈ row ↔ Above parents j i := by
  induction fuel with
  | zero => intro i _ h; omega
  | succ fuel ih =>
    intro i hlen hi
    obtain ⟨p, hp⟩ : ∃ p, parents[i]? = some p := ⟨_, List.getElem?_eq_getElem hlen⟩
    rw [markAncestors, hp]
    simp only [Option.bind_eq_bind, Option.bind_some]
    split_ifs with hnonneg
    · have hlt := hleft i p hp
      obtain ⟨row, hrow, hmem⟩ := ih p.toNat (by omega) (by omega)
      refine ⟨p.toNat :: row, by simp [hrow], fun j => ?_⟩
      rw [List.mem_cons, hmem, above_iff hp]
      exact (and_iff_right hnonneg).symm
    · refine ⟨[], rfl, fun j => ?_⟩
      have := not_above_of_neg (j := j) hp (by omega)
      simp [this]

end Walks

end BloomBee.Speculative
