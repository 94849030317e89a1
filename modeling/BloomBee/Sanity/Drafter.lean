import BloomBee.Sanity.SpeculativeTree
import BloomBee.Spec.Drafter

/-! What a layer does to the paths of a tree: `add_layer` adds the paths to the new nodes, and
`get_nodes_at_depth` finds them one level further down. -/

set_option autoImplicit false

namespace BloomBee.Speculative

/-! ### Paths -/

namespace Forest

variable {α : Type}

def paths : Forest α → List (List α)
  | nil => []
  | cons node children siblings => [node] :: (children.paths.map (node :: ·) ++ siblings.paths)

theorem ne_nil_of_mem_paths {f : Forest α} {q : List α} (h : q ∈ f.paths) : q ≠ [] := by
  induction f with
  | nil => cases h
  | cons node children siblings _ ihs =>
    rcases List.mem_cons.mp h with rfl | h
    · exact List.cons_ne_nil _ _
    · rcases List.mem_append.mp h with h | h
      · obtain ⟨q, -, rfl⟩ := List.mem_map.mp h
        exact List.cons_ne_nil _ _
      · exact ihs h

theorem pathsBelow_eq (f : Forest α) : ∀ depth,
    f.pathsBelow depth = f.paths.filter fun q => decide (q.length = depth + 1) := by
  induction f with
  | nil =>
    intro depth
    cases depth <;> rfl
  | cons node children siblings ihc ihs =>
    intro depth
    cases depth with
    | zero =>
      have hnone : (children.paths.map (node :: ·)).filter
          (fun q => decide (q.length = 0 + 1)) = [] := by
        refine List.filter_eq_nil_iff.mpr fun q hq => ?_
        obtain ⟨q', hq', rfl⟩ := List.mem_map.mp hq
        have := List.length_pos_iff.mpr (ne_nil_of_mem_paths hq')
        rw [List.length_cons, decide_eq_true_iff]
        omega
      rw [pathsBelow, paths, List.filter_cons_of_pos (by simp), List.filter_append, hnone,
        List.nil_append, ihs]
    | succ depth =>
      rw [pathsBelow, paths, List.filter_cons_of_neg (by simp), List.filter_append,
        List.filter_map, ihs, ihc]
      congr 3
      funext q
      simp

theorem map_getLast_paths (f : Forest α) : f.paths.map List.getLast? = f.tokens.map some := by
  induction f with
  | nil => rfl
  | cons node children siblings ihc ihs =>
    have hbelow : (children.paths.map (node :: ·)).map List.getLast? =
        children.paths.map List.getLast? := by
      rw [List.map_map]
      refine List.map_congr_left fun q hq => ?_
      exact List.getLast?_cons_of_ne_nil (ne_nil_of_mem_paths hq)
    rw [paths, tokens, List.map_cons, List.map_cons, List.map_append, List.map_append, hbelow, ihc,
      ihs]
    rfl

@[simp] theorem paths_append (f g : Forest α) : (f.append g).paths = f.paths ++ g.paths := by
  induction f with
  | nil => rfl
  | cons node children siblings _ ih =>
    rw [append, paths, paths, ih, List.cons_append, List.append_assoc]

@[simp] theorem paths_leaves (xs : List α) : (leaves xs).paths = xs.map fun x => [x] := by
  induction xs with
  | nil => rfl
  | cons x xs ih =>
    rw [leaves, paths, paths, ih]
    rfl

/-- The paths that new nodes under `parent` add. -/
theorem paths_addUnder {parent : ℕ} (xs : List TreeNode) (f : Forest TreeNode) :
    (addUnder parent (leaves xs) f).paths.Perm
      (f.paths ++ f.paths.flatMap fun q =>
        if idOf q = parent then xs.map fun x => q ++ [x] else []) := by
  induction f with
  | nil => exact .nil
  | cons node children siblings ihc ihs =>
    -- below `node` the paths have one more node in front
    have hbelow : ((addUnder parent (leaves xs) children).paths.map (node :: ·)).Perm
        (children.paths.map (node :: ·) ++ (children.paths.map (node :: ·)).flatMap fun q =>
          if idOf q = parent then xs.map fun x => q ++ [x] else []) := by
      refine (ihc.map _).trans (List.Perm.of_eq ?_)
      rw [List.map_append, List.map_flatMap, List.flatMap_map]
      congr 1
      refine List.flatMap_congr fun q hq => ?_
      rw [idOf, idOf, List.getLast?_cons_of_ne_nil (ne_nil_of_mem_paths hq)]
      split_ifs
      · rw [List.map_map]
        rfl
      · rfl
    have hid : idOf [node] = node.id := rfl
    rw [addUnder, paths, paths, List.flatMap_cons, List.flatMap_append, hid, List.perm_iff_count]
    intro q
    have hchildren := hbelow.count_eq q
    have hsiblings := ihs.count_eq q
    rw [List.count_append] at hchildren hsiblings
    split_ifs with hnode
    · have hnew : (((leaves xs).paths).map (node :: ·)) = xs.map fun x => [node] ++ [x] := by
        rw [paths_leaves, List.map_map]
        rfl
      simp only [paths_append, List.map_append, hnew, List.count_cons, List.count_append]
      omega
    · simp only [List.count_cons, List.count_append, List.nil_append]
      omega

theorem idOf_pos {f : Forest TreeNode} (h : ∀ n ∈ f.tokens, 0 < n.id) {q : List TreeNode}
    (hq : q ∈ f.paths) : 0 < idOf q := by
  have hlast := List.mem_map_of_mem (f := List.getLast?) hq
  rw [map_getLast_paths] at hlast
  obtain ⟨n, hn, hlast⟩ := List.mem_map.mp hlast
  rw [idOf, ← hlast]
  exact h n hn

end Forest

/-- A key picks one entry out of a list without repeats. -/
theorem flatMap_ite_key {α β κ : Type} [DecidableEq κ] {key : α → κ} {l : List α}
    (hnodup : (l.map key).Nodup) {a : α} (ha : a ∈ l) (f : α → List β) :
    (l.flatMap fun x => if key x = key a then f x else []) = f a := by
  induction l with
  | nil => cases ha
  | cons x l ih =>
    rw [List.map_cons] at hnodup
    obtain ⟨hx, hnodup⟩ := List.nodup_cons.mp hnodup
    rw [List.flatMap_cons]
    rcases List.mem_cons.mp ha with rfl | ha
    · rw [if_pos rfl, List.flatMap_eq_nil_iff.mpr, List.append_nil]
      intro y hy
      rw [if_neg]
      exact fun h => hx (h ▸ List.mem_map_of_mem hy)
    · have hne : key x ≠ key a := fun h => hx (h ▸ List.mem_map_of_mem ha)
      rw [if_neg hne, List.nil_append, ih hnodup ha]

/-! ### Layers -/

def Growing.allPaths (g : Growing) : List (List TreeNode) := [] :: g.children.paths

abbrev Draws := List (ℕ × ℚ)

def drawsOf (path : List TreeNode) : Draws := path.map fun n => (n.tokenId, n.probability)

@[simp] theorem drawsOf_length (path : List TreeNode) : (drawsOf path).length = path.length :=
  List.length_map ..

theorem Growing.Sound.idOf_allPaths {g : Growing} (h : g.Sound) :
    (g.allPaths.map idOf).Perm (List.range g.totalNodes) := by
  obtain ⟨hperm, hpos⟩ := h
  have hids : g.children.paths.map idOf = g.children.tokens.map TreeNode.id := by
    calc g.children.paths.map idOf
        = (g.children.paths.map List.getLast?).map fun o => o.elim 0 TreeNode.id := by
          rw [List.map_map]
          rfl
      _ = g.children.tokens.map TreeNode.id := by
          rw [Forest.map_getLast_paths, List.map_map]
          rfl
  obtain ⟨n, hn⟩ : ∃ n, g.totalNodes = n + 1 := ⟨g.totalNodes - 1, by omega⟩
  rw [Growing.allPaths, List.map_cons, hids, hn, List.range_eq_range', List.range'_succ]
  rw [hn, Nat.add_sub_cancel] at hperm
  exact hperm.cons 0

theorem Growing.Sound.idOf_lt {g : Growing} (h : g.Sound) {q : List TreeNode}
    (hq : q ∈ g.allPaths) : idOf q < g.totalNodes :=
  List.mem_range.mp (h.idOf_allPaths.mem_iff.mp (List.mem_map_of_mem hq))

/-- `add_children` adds the paths to the new nodes. -/
theorem Growing.Sound.addChildren_paths {g : Growing} (h : g.Sound) {q : List TreeNode}
    (hq : q ∈ g.allPaths) (candidates : List (ℕ × ℚ)) :
    (g.addChildren (idOf q) candidates).allPaths.Perm (g.allPaths ++
      (candidates.mapIdx fun k c => (⟨g.totalNodes + k, c.1, c.2⟩ : TreeNode)).map
        fun x => q ++ [x]) := by
  have hpick := flatMap_ite_key (h.idOf_allPaths.nodup_iff.mpr List.nodup_range) hq fun p =>
    (candidates.mapIdx fun k c => (⟨g.totalNodes + k, c.1, c.2⟩ : TreeNode)).map fun x => p ++ [x]
  rw [← hpick, Growing.addChildren, Growing.allPaths, Growing.allPaths, List.flatMap_cons]
  have hroot : idOf [] = 0 := rfl
  simp only
  by_cases hzero : idOf q = 0
  · -- under the root: no other node has its identity
    have hothers : (g.children.paths.flatMap fun p => if idOf p = idOf q then
        (candidates.mapIdx fun k c => (⟨g.totalNodes + k, c.1, c.2⟩ : TreeNode)).map
          fun x => p ++ [x] else []) = [] := by
      refine List.flatMap_eq_nil_iff.mpr fun p hp => if_neg ?_
      have := Forest.idOf_pos (f := g.children) (fun n hn => by
        have := h.1.mem_iff.mp (List.mem_map_of_mem (f := TreeNode.id) hn)
        rw [List.mem_range'_1] at this
        omega) hp
      omega
    rw [hothers, if_pos hzero, if_pos (hroot.trans hzero.symm), Forest.paths_append,
      Forest.paths_leaves, List.append_nil]
    exact List.Perm.refl _
  · have hne : idOf [] ≠ idOf q := fun h => hzero (h.symm.trans hroot)
    rw [if_neg hzero, if_neg hne, List.nil_append, List.cons_append]
    exact (Forest.paths_addUnder _ _).cons _

/-- `add_layer` over the pairs of a parent's path and its candidates. -/
theorem foldl_addChildren_paths : ∀ (pairs : List (List TreeNode × List (ℕ × ℚ))) {g : Growing},
    g.Sound → (∀ x ∈ pairs, x.1 ∈ g.allPaths) →
      let g' := (pairs.map fun x => (idOf x.1, x.2)).foldl (fun g p => g.addChildren p.1 p.2) g
      (g'.allPaths.map drawsOf).Perm (g.allPaths.map drawsOf ++
        pairs.flatMap fun x => x.2.map fun c => drawsOf x.1 ++ [c]) ∧
      g'.totalNodes = g.totalNodes + (pairs.map fun x => x.2.length).sum
  | [], g, _, _ => by simp
  | (q, candidates) :: pairs, g, h, hin => by
    intro g'
    have hq := hin _ List.mem_cons_self
    have hstep := h.addChildren_paths hq candidates
    obtain ⟨hpaths, htotal⟩ := foldl_addChildren_paths pairs
      (h.addChildren (h.idOf_lt hq) candidates) fun x hx =>
        hstep.mem_iff.mpr (List.mem_append_left _ (hin x (List.mem_cons_of_mem _ hx)))
    have hnew : ((candidates.mapIdx fun k c => (⟨g.totalNodes + k, c.1, c.2⟩ : TreeNode)).map
        fun x => q ++ [x]).map drawsOf = candidates.map fun c => drawsOf q ++ [c] := by
      apply List.ext_getElem
      · simp
      · intro i h₁ h₂
        simp [drawsOf]
    refine ⟨hpaths.trans ?_, htotal.trans ?_⟩
    · rw [List.flatMap_cons, ← List.append_assoc, ← hnew, ← List.map_append]
      exact (hstep.map _).append_right _
    · rw [List.map_cons, List.sum_cons, ← Nat.add_assoc]
      rfl

namespace SpeculativeTree

def allPaths (tree : SpeculativeTree) : List (List TreeNode) := tree.grown.allPaths

theorem nodesAtDepth_eq (tree : SpeculativeTree) (depth : ℕ) :
    tree.nodesAtDepth depth = tree.allPaths.filter fun q => decide (q.length = depth) := by
  cases depth with
  | zero =>
    have hnone : tree.grown.children.paths.filter (fun q => decide (q.length = 0)) = [] := by
      refine List.filter_eq_nil_iff.mpr fun q hq => ?_
      have := List.length_pos_iff.mpr (Forest.ne_nil_of_mem_paths hq)
      rw [decide_eq_true_iff]
      omega
    rw [nodesAtDepth, allPaths, Growing.allPaths, List.filter_cons_of_pos (by rfl), hnone]
  | succ depth =>
    rw [nodesAtDepth, allPaths, Growing.allPaths, List.filter_cons_of_neg (by simp),
      Forest.pathsBelow_eq]
    rfl

/-- A layer for nodes of the tree, each given by its path. -/
theorem addLayer_paths (tree : SpeculativeTree) (pairs : List (List TreeNode × List (ℕ × ℚ)))
    (hpairs : ∀ x ∈ pairs, x.1 ∈ tree.allPaths) :
    ∃ tree', tree.addLayer (pairs.map fun x => idOf x.1) (pairs.map Prod.snd) = some tree' ∧
      tree'.rootToken = tree.rootToken ∧
      tree'.totalNodes = tree.totalNodes + (pairs.map fun x => x.2.length).sum ∧
      (tree'.allPaths.map drawsOf).Perm (tree.allPaths.map drawsOf ++
        pairs.flatMap fun x => x.2.map fun c => drawsOf x.1 ++ [c]) := by
  have hok : (pairs.map fun x => idOf x.1).length = (pairs.map Prod.snd).length ∧
      ∀ p ∈ pairs.map fun x => idOf x.1, p < tree.totalNodes := by
    refine ⟨by rw [List.length_map, List.length_map], fun p hp => ?_⟩
    obtain ⟨x, hx, rfl⟩ := List.mem_map.mp hp
    exact tree.sound.idOf_lt (hpairs x hx)
  have hzip : (pairs.map fun x => idOf x.1).zip (pairs.map Prod.snd) =
      pairs.map fun x => (idOf x.1, x.2) := List.zip_map'
  obtain ⟨hpaths, htotal⟩ := foldl_addChildren_paths pairs tree.sound hpairs
  rw [addLayer, dif_pos hok]
  refine ⟨_, rfl, rfl, ?_, ?_⟩
  · rw [totalNodes]
    simp only [hzip]
    exact htotal
  · rw [allPaths]
    simp only [hzip]
    exact hpaths

end SpeculativeTree

end BloomBee.Speculative
