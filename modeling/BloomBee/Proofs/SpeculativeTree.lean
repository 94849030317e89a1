import BloomBee.Sanity.SpeculativeTree

/-! The linearization of a tree and its two ancestor matrices. -/

set_option autoImplicit false

namespace BloomBee.Speculative

open Parents

theorem getElem?_boolRow {n j : ℕ} (columns : List ℕ) (hj : j < n) :
    (boolRow n columns)[j]? = some (decide (j ∈ columns)) := by
  rw [boolRow, List.getElem?_map, List.getElem?_range hj]
  rfl

theorem boolRow_length (n : ℕ) (columns : List ℕ) : (boolRow n columns).length = n := by
  rw [boolRow, List.length_map, List.length_range]

theorem ancestorRows_total (tree : SpeculativeTree) {fuel : ℕ}
    (hfuel : tree.nodes.length < fuel) :
    ∃ rows, tree.parentIndices.mapM (ancestorRow tree.parentIndices fuel) = some rows ∧
      rows.length = tree.nodes.length ∧
        ∀ i row, rows[i]? = some row → ∀ j, j ∈ row ↔ Above tree.parentIndices j i := by
  obtain ⟨rows, hrows, hlen, hmem⟩ := Fallible.mapM_total (l := tree.parentIndices)
    (f := ancestorRow tree.parentIndices fuel)
    (g := fun i row => ∀ j, j ∈ row ↔ Above tree.parentIndices j i) fun i p hp => by
      have hlt := (List.getElem?_eq_some_iff.mp hp).1
      rw [tree.parentIndices_length'] at hlt
      exact ancestorRow_total tree.leftward fuel i p hp (by omega)
  exact ⟨rows, hrows, hlen.trans tree.parentIndices_length', hmem⟩

/-- The rows of the mask with the root, as sets of columns. -/
theorem markedRows_total (tree : SpeculativeTree) {fuel : ℕ} (hfuel : tree.nodes.length < fuel) :
    ∃ mask, buildTreeAttentionMaskWithRoot fuel tree.nodes.length tree.parentIndices = some mask ∧
      mask.length = tree.nodes.length ∧
        ∀ i row, mask[i]? = some row → row.length = tree.nodes.length ∧
          ∀ j < tree.nodes.length,
            (row[j]? = some true ↔ j = i ∨ Above tree.parentIndices j i) := by
  obtain ⟨mask, hmask, hlen, hrow⟩ := Fallible.mapM_total (l := List.range tree.nodes.length)
    (f := fun i => do
      let marked ← markAncestors tree.parentIndices fuel i
      return boolRow tree.nodes.length (i :: marked))
    (g := fun i row => row.length = tree.nodes.length ∧ ∀ j < tree.nodes.length,
      (row[j]? = some true ↔ j = i ∨ Above tree.parentIndices j i)) fun i k hk => by
      obtain ⟨hlt, rfl⟩ : i < tree.nodes.length ∧ i = k := by
        simpa [List.getElem?_eq_some_iff] using hk
      obtain ⟨marked, hmarked, hmem⟩ := markAncestors_total tree.leftward fuel i
        (by rw [tree.parentIndices_length']; exact hlt) (by omega)
      refine ⟨_, by rw [hmarked]; rfl, boolRow_length _ _, fun j hj => ?_⟩
      rw [getElem?_boolRow _ hj, Option.some.injEq, decide_eq_true_iff, List.mem_cons, hmem]
  rw [List.length_range] at hlen
  exact ⟨mask, hmask, hlen, hrow⟩

/-- The mask with the root is the matrix with its diagonal, entry by entry. -/
theorem diagonal_added {parents : List ℤ} {n : ℕ} {rows : List (List ℕ)} {mask : List (List Bool)}
    (hlen : rows.length = n) (hlen' : mask.length = n)
    (hrows : ∀ i row, rows[i]? = some row → ∀ j, j ∈ row ↔ Above parents j i)
    (hmask : ∀ i row, mask[i]? = some row → row.length = n ∧
      ∀ j < n, (row[j]? = some true ↔ j = i ∨ Above parents j i)) :
    mask = (rows.map (boolRow n)).mapIdx
      fun i row => row.mapIdx fun j b => b || decide (j = i) := by
  apply List.ext_getElem (by rw [List.length_mapIdx, List.length_map, hlen, hlen'])
  intro i hi hi'
  obtain ⟨hwidth, hentry⟩ := hmask i _ (List.getElem?_eq_getElem hi)
  rw [List.getElem_mapIdx, List.getElem_map]
  apply List.ext_getElem (by rw [List.length_mapIdx, boolRow_length, hwidth])
  intro j hj hj'
  have hiff := hentry j (by omega)
  have hmem := hrows i _ (List.getElem?_eq_getElem (by omega)) j
  rw [List.getElem?_eq_getElem hj, Option.some.injEq] at hiff
  have hrow := getElem?_boolRow (n := n) (rows[i]) (j := j) (by omega)
  rw [List.getElem?_eq_getElem (by rw [boolRow_length]; omega), Option.some.injEq] at hrow
  rw [List.getElem_mapIdx, hrow, Bool.eq_iff_iff, hiff, Bool.or_eq_true, decide_eq_true_iff,
    decide_eq_true_iff, hmem, or_comm]

/-- The nodes get the positions `0..n-1`, each after its parent, whose position is its parent
index. Both matrices are built within `n + 1` turns of every walk: the first holds the strict
ancestors, the second has the diagonal besides. -/
theorem linearization_and_ancestors (tree : SpeculativeTree) :
    let lin := linearizeTreeWithPositions tree
    let n := tree.nodes.length
    lin.linearizedNodes.length = n ∧ lin.parentIndices.length = n ∧
      (∀ x, x ∈ lin.linearizedNodes ↔ x ∈ tree.nodes) ∧ lin.linearizedNodes.Nodup ∧
      (∀ (i : ℕ) x, lin.linearizedNodes[i]? = some x → lin.positionMap x = some i) ∧
      (∀ (i : ℕ) x p, lin.linearizedNodes[i]? = some x → tree.IsParent p x →
        (p = tree.root ∧ lin.parentIndices[i]? = some (-1)) ∨
          ∃ j : ℕ, j < i ∧ lin.linearizedNodes[j]? = some p ∧
            lin.parentIndices[i]? = some (j : ℤ)) ∧
      ∀ fuel > n, ∃ matrix mask,
        buildAncestorMatrixOptimized fuel lin.parentIndices = some matrix ∧
        buildTreeAttentionMaskWithRoot fuel n lin.parentIndices = some mask ∧
        matrix.length = n ∧ (∀ row ∈ matrix, row.length = n) ∧
        (∀ (i j : ℕ) x y, lin.linearizedNodes[i]? = some x → lin.linearizedNodes[j]? = some y →
          ∃ row, matrix[i]? = some row ∧ (row[j]? = some true ↔ tree.IsAncestor y x)) ∧
        mask = matrix.mapIdx fun i row => row.mapIdx fun j b => b || decide (j = i) := by
  intro lin n
  have hnodes : lin.linearizedNodes = tree.nodes := tree.linearize_nodes
  have hindices : lin.parentIndices = tree.parentIndices := tree.linearize_parentIndices
  rw [hnodes, hindices]
  refine ⟨rfl, tree.parentIndices_length', fun _ => Iff.rfl, tree.nodes_nodup,
    fun i x h => tree.linearize_positionMap h, ?_, ?_⟩
  · intro i x p hx hp
    obtain ⟨q, z, hq, hz, hcases⟩ := tree.exists_parent hx
    obtain rfl := tree.isParent_unique hp hq
    rcases hcases with ⟨hroot, rfl⟩ | ⟨k, hk, hkp, rfl⟩
    · exact .inl ⟨hroot, hz⟩
    · exact .inr ⟨k, hk, hkp, hz⟩
  · intro fuel hfuel
    obtain ⟨rows, hrows, hlen, hmem⟩ := ancestorRows_total tree hfuel
    obtain ⟨mask, hmask, hlen', hmask'⟩ := markedRows_total tree hfuel
    have hn := tree.parentIndices_length'
    refine ⟨rows.map (boolRow n), mask, ?_, hmask, ?_, ?_, ?_, ?_⟩
    · rw [buildAncestorMatrixOptimized, hrows, hn]
      rfl
    · rw [List.length_map, hlen]
    · intro row hrow
      obtain ⟨cols, -, rfl⟩ := List.mem_map.mp hrow
      exact boolRow_length _ _
    · intro i j x y hx hy
      have hi := (List.getElem?_eq_some_iff.mp hx).1
      have hj := (List.getElem?_eq_some_iff.mp hy).1
      obtain ⟨row, hrow⟩ : ∃ row, rows[i]? = some row :=
        ⟨_, List.getElem?_eq_getElem (by omega)⟩
      refine ⟨boolRow n row, by rw [List.getElem?_map, hrow]; rfl, ?_⟩
      rw [getElem?_boolRow _ hj, Option.some.injEq, decide_eq_true_iff, hmem i row hrow,
        tree.isAncestor_iff hx hy]
    · exact diagonal_added hlen hlen' hmem hmask'

end BloomBee.Speculative
