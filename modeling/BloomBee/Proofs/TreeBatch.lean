import BloomBee.Sanity.SpeculativeTree
import BloomBee.Spec.TreeBatch
import BloomBee.Proofs.SpeculativeTree

/-! The masks of `prepare_incremental_tree_batch` are exact: a node attends to the tokens of its
own row, to the root, to its ancestors and to itself. First what each of the two masks holds in the
rows that count. -/

set_option autoImplicit false

namespace BloomBee.Speculative

open BoolMatrix Parents

/-! ### Generation -/

section Generation

variable {cacheLen maxTreeSize treeLen : ℕ} (cacheValid : List Bool) (treeMask : List (List Bool))

theorem generationMask_shape (hle : treeLen ≤ maxTreeSize) :
    (generationMask cacheLen maxTreeSize treeLen cacheValid treeMask).rows = maxTreeSize + 1 ∧
      (generationMask cacheLen maxTreeSize treeLen cacheValid treeMask).cols =
        cacheLen + (maxTreeSize + 1) := by
  rw [generationMask]
  simp only
  split_ifs with h
  · exact ⟨rfl, rfl⟩
  · obtain rfl : treeLen = maxTreeSize := by omega
    simp [generationInputsMask, BoolMatrix.zeros]

theorem generationInputsMask_root (j : ℕ) :
    (generationInputsMask cacheLen treeLen cacheValid treeMask).entry 0 j =
      if j < cacheLen then cacheValid.getD j false else decide (j = cacheLen) := by
  simp only [generationInputsMask, entry_assignIf, entry_assign, entry_zeros, Nat.sub_zero]
  rw [if_neg (by omega), if_neg (by omega), if_neg (by omega)]
  rcases Nat.lt_trichotomy j cacheLen with hj | rfl | hj
  · rw [if_neg (by omega), if_pos (by omega), if_pos hj]
  · rw [if_pos (by omega), if_neg (Nat.lt_irrefl _), decide_eq_true rfl]
  · rw [if_neg (by omega), if_neg (by omega), if_neg (by omega), decide_eq_false (by omega)]

theorem generationInputsMask_node {i j : ℕ} (hi : i < treeLen) (hj : j < cacheLen + (treeLen + 1)) :
    (generationInputsMask cacheLen treeLen cacheValid treeMask).entry (i + 1) j =
      if j < cacheLen then cacheValid.getD j false
      else if j = cacheLen then true else maskEntry treeMask i (j - (cacheLen + 1)) := by
  simp only [generationInputsMask, entry_assignIf, entry_assign, entry_zeros, Nat.sub_zero,
    Nat.add_sub_cancel]
  rcases Nat.lt_trichotomy j cacheLen with hlt | rfl | hgt
  · rw [if_neg (by omega), if_neg (by omega), if_pos (by omega), if_pos hlt]
  · rw [if_neg (by omega), if_pos (by omega), if_neg (Nat.lt_irrefl _), if_pos rfl]
  · rw [if_pos (by omega), if_neg (by omega), if_neg (by omega)]

/-- The padding changes no row that counts, and adds only empty columns. -/
theorem generationMask_entry {i : ℕ} (hi : i < treeLen + 1) (j : ℕ)
    (hj : j < cacheLen + (maxTreeSize + 1)) (hle : treeLen ≤ maxTreeSize) :
    (generationMask cacheLen maxTreeSize treeLen cacheValid treeMask).entry i j =
      if j < cacheLen + (treeLen + 1) then
        (generationInputsMask cacheLen treeLen cacheValid treeMask).entry i j
      else false := by
  rw [generationMask]
  simp only
  split_ifs with h hj' hj'
  · rw [entry_assign, if_neg (by omega), entry_assign, if_pos (by omega), Nat.sub_zero,
      Nat.sub_zero]
  · rw [entry_assign, if_neg (by omega), entry_assign, if_neg (by omega), entry_zeros]
  · rfl
  · omega

end Generation

/-! ### Prefill -/

section Prefill

variable {pastLen promptLen maxTreeSize treeLen : ℕ} (treeMask : List (List Bool))

/-- The rows of the prompt, the last of them being the root. -/
theorem prefillInputsMask_prompt {i : ℕ} (hi : i ≤ promptLen) (hlt : promptLen < pastLen) (j : ℕ) :
    (prefillInputsMask pastLen promptLen treeLen treeMask).entry i j = decide (j ≤ i) := by
  simp only [prefillInputsMask, entry_assignIf, entry_assign, entry_zeros, Nat.sub_zero]
  rw [if_neg (by omega), if_neg (by omega), if_neg (by omega)]
  by_cases hroot : i = promptLen
  · subst hroot
    rcases Nat.lt_trichotomy j i with hj | rfl | hj
    · rw [if_neg (by omega), if_pos (by omega), decide_eq_true (by omega)]
    · rw [if_pos (by omega), decide_eq_true (Nat.le_refl j)]
    · rw [if_neg (by omega), if_neg (by omega), if_neg (by omega), decide_eq_false (by omega)]
  · rw [if_neg (by omega), if_neg (by omega)]
    split_ifs with hj
    · rfl
    · rw [decide_eq_false (by omega)]

theorem prefillInputsMask_node {i j : ℕ} (hi : i < treeLen) (hlt : promptLen < pastLen)
    (hj : j < pastLen + treeLen) :
    (prefillInputsMask pastLen promptLen treeLen treeMask).entry (pastLen + i) j =
      if pastLen ≤ j then maskEntry treeMask i (j - pastLen) else decide (j ≤ promptLen) := by
  simp only [prefillInputsMask, entry_assignIf, entry_assign, entry_zeros,
    Nat.add_sub_cancel_left]
  by_cases hout : pastLen ≤ j
  · rw [if_pos (by omega), if_pos hout]
  · rw [if_neg (by omega), if_neg hout]
    rcases Nat.lt_trichotomy j promptLen with hj | rfl | hj
    · rw [if_neg (by omega), if_pos (by omega), decide_eq_true (by omega)]
    · rw [if_pos (by omega), decide_eq_true (Nat.le_refl j)]
    · rw [if_neg (by omega), if_neg (by omega), if_neg (by omega), if_neg (by omega),
        if_neg (by omega), decide_eq_false (by omega)]

/-- The places between the prompt and the tree attend to nothing. -/
theorem prefillInputsMask_between {i : ℕ} (hlow : promptLen < i) (hhigh : i < pastLen) (j : ℕ) :
    (prefillInputsMask pastLen promptLen treeLen treeMask).entry i j = false := by
  simp only [prefillInputsMask, entry_assignIf, entry_assign, entry_zeros, Nat.sub_zero]
  rw [if_neg (by omega), if_neg (by omega), if_neg (by omega), if_neg (by omega),
    if_neg (by omega), if_neg (by omega)]

/-- The mask, where the prompt of the row is a part of the padded prompts. -/
theorem prefillMask_spec {currSeqLen : ℕ} (hpos : 0 < currSeqLen) (hlen : currSeqLen ≤ pastLen)
    (hle : treeLen ≤ maxTreeSize) :
    ∃ mask, prefillMask pastLen currSeqLen maxTreeSize treeLen treeMask = some mask ∧
      mask.rows = pastLen + maxTreeSize ∧ mask.cols = pastLen + maxTreeSize ∧
        ∀ i < pastLen + treeLen, ∀ j < pastLen + maxTreeSize, mask.entry i j =
          if j < pastLen + treeLen then
            (prefillInputsMask pastLen (currSeqLen - 1) treeLen treeMask).entry i j
          else false := by
  rw [prefillMask]
  simp only
  rw [if_neg (by omega)]
  split_ifs with h
  · refine ⟨_, rfl, by simp [BoolMatrix.zeros], by simp [BoolMatrix.zeros], fun i hi j hj => ?_⟩
    rw [entry_assignIf, if_neg (by omega), entry_assign]
    split_ifs with hin hj' hj'
    · rfl
    · omega
    · omega
    · rfl
  · obtain rfl : treeLen = maxTreeSize := by omega
    refine ⟨_, rfl, ?_, ?_, fun i _ j hj => by rw [if_pos hj]⟩ <;>
      simp [prefillInputsMask, BoolMatrix.zeros]

end Prefill

/-! ### The cache -/

/-- The slots of a row that hold its tokens: all before its root, which is its first valid id, and
the listed ids. -/
def ValidSlot (ids : List ℤ) (slot : ℕ) : Prop :=
  (∃ root, ids.find? (fun p => decide (0 ≤ p)) = some root ∧ (slot : ℤ) < root) ∨ (slot : ℤ) ∈ ids

theorem find?_valid {ids : List ℤ} (h : ∃ p ∈ ids, 0 ≤ p) :
    ∃ root : ℕ, ids.find? (fun p => decide (0 ≤ p)) = some (root : ℤ) ∧ (root : ℤ) ∈ ids ∧
      rootPosition ids = root := by
  obtain ⟨p, hp, hpos⟩ := h
  cases hfind : ids.find? fun p => decide (0 ≤ p) with
  | none =>
    have := List.find?_eq_none.mp hfind p hp
    rw [decide_eq_true_iff] at this
    exact absurd hpos this
  | some q =>
    have hq := List.find?_some hfind
    rw [decide_eq_true_iff] at hq
    obtain ⟨root, rfl⟩ := Int.eq_ofNat_of_zero_le hq
    refine ⟨root, rfl, List.mem_of_find?_eq_some hfind, ?_⟩
    rw [rootPosition, hfind]
    rfl

theorem ValidSlot.lt_cacheLenOf {all : List (List ℤ)} {ids : List ℤ} (hids : ids ∈ all)
    {slot : ℕ} (hs : ValidSlot ids slot) : slot < cacheLenOf all := by
  rcases hs with ⟨root, hroot, hlt⟩ | hs
  · have hmem := List.mem_of_find?_eq_some hroot
    rw [← Int.toNat_of_nonneg (by omega : 0 ≤ root)] at hmem
    have := Speculative.lt_cacheLenOf hids hmem
    omega
  · exact Speculative.lt_cacheLenOf hids hs

theorem cacheValidMask_valid {all : List (List ℤ)} {ids : List ℤ} (hids : ids ∈ all)
    (h : ∃ p ∈ ids, 0 ≤ p) {j : ℕ} (hj : j < cacheLenOf all) :
    (cacheValidMask ids (cacheLenOf all)).getD j false = true ↔ ValidSlot ids j := by
  obtain ⟨root, hfind, hmem, hroot⟩ := find?_valid h
  have hlt := Speculative.lt_cacheLenOf hids hmem
  have hbefore : j < root ↔
      ∃ root, ids.find? (fun p => decide (0 ≤ p)) = some root ∧ (j : ℤ) < root := by
    rw [hfind]
    simp
  rw [cacheValidMask, List.getD_eq_getElem?_getD, List.getElem?_map, List.getElem?_range hj,
    Option.map_some, Option.getD_some, decide_eq_true_iff, sliceStop, hroot, if_neg (by omega),
    Int.toNat_natCast, Nat.min_eq_left (by omega), ValidSlot]
  refine or_congr hbefore ⟨?_, fun hin => ⟨j, hin, by omega, by omega⟩⟩
  intro hex
  obtain ⟨p, hp, hp0, hmin⟩ := hex
  have := Speculative.lt_cacheLenOf hids (s := p.toNat) (by rwa [Int.toNat_of_nonneg hp0])
  obtain rfl : p = j := by omega
  exact hp

end BloomBee.Speculative

/-! ### The masks are exact -/

namespace BloomBee.Speculative

/-- The node at `j` is the node at `i` or one of its strict ancestors. -/
def SpeculativeTree.Sees (tree : SpeculativeTree) (i j : ℕ) : Prop :=
  ∃ x y, tree.nodes[i]? = some x ∧ tree.nodes[j]? = some y ∧ (y = x ∨ tree.IsAncestor y x)

theorem SpeculativeTree.Sees.lt {tree : SpeculativeTree} {i j : ℕ} (h : tree.Sees i j) :
    j < tree.nodes.length := by
  obtain ⟨x, y, -, hy, -⟩ := h
  exact (List.getElem?_eq_some_iff.mp hy).1

structure GenerationExact (cacheLen : ℕ) (ids : List ℤ) (tree : SpeculativeTree)
    (mask : BoolMatrix) : Prop where
  root : ∀ c < mask.cols, (mask.entry 0 c = true ↔ ValidSlot ids c ∨ c = cacheLen)
  node : ∀ i < tree.nodes.length, ∀ c < mask.cols, (mask.entry (1 + i) c = true ↔
    ValidSlot ids c ∨ c = cacheLen ∨ ∃ j, c = cacheLen + 1 + j ∧ tree.Sees i j)
  /-- Nothing of another row, and no padding. -/
  separate : ∀ r ≤ tree.nodes.length, ∀ c < mask.cols,
    (c < cacheLen ∧ ¬ ValidSlot ids c) ∨ cacheLen + 1 + tree.nodes.length ≤ c →
      mask.entry r c = false

/-- What a mask of the prefill phase is for. The root is the last token of the prompt. -/
structure PrefillExact (inputLen seqLen : ℕ) (tree : SpeculativeTree) (mask : BoolMatrix) :
    Prop where
  prompt : ∀ r < seqLen, ∀ c < mask.cols, (mask.entry r c = true ↔ c ≤ r)
  node : ∀ i < tree.nodes.length, ∀ c < mask.cols, (mask.entry (inputLen + i) c = true ↔
    c < seqLen ∨ ∃ j, c = inputLen + j ∧ tree.Sees i j)
  separate : ∀ r, r < seqLen ∨ inputLen ≤ r ∧ r < inputLen + tree.nodes.length →
    ∀ c < mask.cols, (seqLen ≤ c ∧ c < inputLen) ∨ inputLen + tree.nodes.length ≤ c →
      mask.entry r c = false

/-- The arguments describe the batch: in the prefill phase the real lengths fit into the width,
and later every row has a position id that is not padding. -/
structure BatchArgs.Describes (args : BatchArgs) (n : ℕ) : Prop where
  lengths : ∀ b < n, ∃ l, args.currSeqLen b = some l ∧ 1 ≤ l ∧
    (args.isPrefill = true → l ≤ args.inputLen)
  ids : args.isPrefill = false → ∀ b < n, ∃ ids, args.positionIds b = some ids ∧ ∃ p ∈ ids, 0 ≤ p

theorem treeMask_sees (tree : SpeculativeTree) :
    ∃ mask, buildTreeAttentionMaskWithRoot (tree.nodes.length + 1) tree.nodes.length
        tree.parentIndices = some mask ∧
      ∀ i < tree.nodes.length, ∀ j < tree.nodes.length,
        (maskEntry mask i j = true ↔ tree.Sees i j) := by
  obtain ⟨mask, hmask, hlen, hrows⟩ := markedRows_total tree (Nat.lt_succ_self _)
  refine ⟨mask, hmask, fun i hi j hj => ?_⟩
  obtain ⟨row, hrow⟩ : ∃ row, mask[i]? = some row := ⟨_, List.getElem?_eq_getElem (by omega)⟩
  obtain ⟨hwidth, hentry⟩ := hrows i row hrow
  obtain ⟨b, hb⟩ : ∃ b, row[j]? = some b := ⟨_, List.getElem?_eq_getElem (by omega)⟩
  have hx := List.getElem?_eq_getElem hi
  have hy := List.getElem?_eq_getElem hj
  have hiff := hentry j hj
  rw [← tree.isAncestor_iff hx hy, hb, Option.some.injEq] at hiff
  rw [maskEntry, List.getD_eq_getElem?_getD, List.getD_eq_getElem?_getD, hrow, Option.getD_some,
    hb, Option.getD_some, hiff]
  constructor
  · intro h
    refine ⟨_, _, hx, hy, h.imp_left fun hij => ?_⟩
    subst hij
    rfl
  · intro h
    obtain ⟨x, y, hx', hy', h⟩ := h
    obtain rfl := Option.some.inj (hx'.symm.trans hx)
    obtain rfl := Option.some.inj (hy'.symm.trans hy)
    exact h.imp_left fun hxy => (List.getElem?_inj hj tree.nodes_nodup).mp (by rw [hy, hx, hxy])

section Generation

variable {all : List (List ℤ)} {ids : List ℤ} {tree : SpeculativeTree} {maxTreeSize : ℕ}
  {treeMask : List (List Bool)}

theorem generationMask_root (hids : ids ∈ all) (hvalid : ∃ p ∈ ids, 0 ≤ p)
    (hle : tree.nodes.length ≤ maxTreeSize) {c : ℕ} (hc : c < cacheLenOf all + (maxTreeSize + 1)) :
    (generationMask (cacheLenOf all) maxTreeSize tree.nodes.length
      (cacheValidMask ids (cacheLenOf all)) treeMask).entry 0 c = true ↔
        ValidSlot ids c ∨ c = cacheLenOf all := by
  rw [generationMask_entry _ _ (Nat.succ_pos _) c hc hle]
  by_cases hlt : c < cacheLenOf all
  · rw [if_pos (by omega), generationInputsMask_root, if_pos hlt,
      cacheValidMask_valid hids hvalid hlt, or_iff_left (by omega)]
  · have hnot : ¬ ValidSlot ids c := fun h => hlt (h.lt_cacheLenOf hids)
    rw [generationInputsMask_root, if_neg hlt, or_iff_right hnot]
    split_ifs with hin
    · exact decide_eq_true_iff
    · exact iff_of_false not_false (by omega)

theorem generationMask_node (hids : ids ∈ all) (hvalid : ∃ p ∈ ids, 0 ≤ p)
    (hle : tree.nodes.length ≤ maxTreeSize)
    (htree : ∀ i < tree.nodes.length, ∀ j < tree.nodes.length,
      (maskEntry treeMask i j = true ↔ tree.Sees i j))
    {i c : ℕ} (hi : i < tree.nodes.length) (hc : c < cacheLenOf all + (maxTreeSize + 1)) :
    (generationMask (cacheLenOf all) maxTreeSize tree.nodes.length
      (cacheValidMask ids (cacheLenOf all)) treeMask).entry (i + 1) c = true ↔
        ValidSlot ids c ∨ c = cacheLenOf all ∨
          ∃ j, c = cacheLenOf all + 1 + j ∧ tree.Sees i j := by
  rw [generationMask_entry _ _ (by omega) c hc hle]
  rcases Nat.lt_trichotomy c (cacheLenOf all) with hlt | heq | hgt
  · rw [if_pos (by omega), generationInputsMask_node _ _ hi (by omega), if_pos hlt,
      cacheValidMask_valid hids hvalid hlt]
    refine (or_iff_left ?_).symm
    omega
  · rw [if_pos (by omega), generationInputsMask_node _ _ hi (by omega), if_neg (by omega),
      if_pos heq]
    exact iff_of_true rfl (.inr (.inl heq))
  · have hnot : ¬ ValidSlot ids c := fun h => absurd (h.lt_cacheLenOf hids) (by omega)
    rw [or_iff_right hnot, or_iff_right (by omega)]
    have hcol : (∃ j, c = cacheLenOf all + 1 + j ∧ tree.Sees i j) ↔
        tree.Sees i (c - (cacheLenOf all + 1)) := by
      constructor
      · intro h
        obtain ⟨j, rfl, hj⟩ := h
        rwa [Nat.add_sub_cancel_left]
      · exact fun h => ⟨_, by omega, h⟩
    rw [hcol]
    split_ifs with hin
    · rw [generationInputsMask_node _ _ hi hin, if_neg (by omega), if_neg (by omega),
        htree i hi _ (by omega)]
    · exact iff_of_false not_false fun h => by
        have := h.lt
        omega

theorem generationMask_exact (hids : ids ∈ all) (hvalid : ∃ p ∈ ids, 0 ≤ p)
    (hle : tree.nodes.length ≤ maxTreeSize)
    (htree : ∀ i < tree.nodes.length, ∀ j < tree.nodes.length,
      (maskEntry treeMask i j = true ↔ tree.Sees i j)) :
    GenerationExact (cacheLenOf all) ids tree
      (generationMask (cacheLenOf all) maxTreeSize tree.nodes.length
        (cacheValidMask ids (cacheLenOf all)) treeMask) := by
  have hcols := (@generationMask_shape (cacheLenOf all) _ _
    (cacheValidMask ids (cacheLenOf all)) treeMask hle).2
  refine ⟨fun c hc => ?_, fun i hi c hc => ?_, fun r hr c hc hout => ?_⟩
  · rw [hcols] at hc
    exact generationMask_root hids hvalid hle hc
  · rw [hcols] at hc
    rw [Nat.add_comm 1 i]
    exact generationMask_node hids hvalid hle htree hi hc
  · rw [hcols] at hc
    have hnot : ¬ ValidSlot ids c := by
      rcases hout with h | h
      · exact h.2
      · exact fun hv => absurd (hv.lt_cacheLenOf hids) (by omega)
    apply Bool.eq_false_iff.mpr
    cases r with
    | zero =>
      rw [Ne, generationMask_root hids hvalid hle hc, or_iff_right hnot]
      omega
    | succ i =>
      rw [Ne, generationMask_node hids hvalid hle htree hr hc, or_iff_right hnot]
      intro h
      rcases h with rfl | ⟨j, rfl, hj⟩
      · omega
      · have := hj.lt
        omega

end Generation

theorem prefillMask_exact {inputLen seqLen maxTreeSize : ℕ} (hpos : 1 ≤ seqLen)
    (hlen : seqLen ≤ inputLen) (tree : SpeculativeTree) (hle : tree.nodes.length ≤ maxTreeSize)
    {treeMask : List (List Bool)}
    (htree : ∀ i < tree.nodes.length, ∀ j < tree.nodes.length,
      (maskEntry treeMask i j = true ↔ tree.Sees i j)) :
    ∃ mask, prefillMask inputLen seqLen maxTreeSize tree.nodes.length treeMask = some mask ∧
      mask.rows = inputLen + maxTreeSize ∧ mask.cols = inputLen + maxTreeSize ∧
        PrefillExact inputLen seqLen tree mask := by
  obtain ⟨mask, hmask, hrows, hcols, hentry⟩ := prefillMask_spec treeMask hpos hlen hle
  have hprompt : ∀ r < seqLen, ∀ c < inputLen + maxTreeSize, (mask.entry r c = true ↔ c ≤ r) := by
    intro r hr c hc
    rw [hentry r (by omega) c hc]
    split_ifs with hin
    · rw [prefillInputsMask_prompt treeMask (by omega) (by omega), decide_eq_true_iff]
    · exact iff_of_false not_false (by omega)
  have hnode : ∀ i < tree.nodes.length, ∀ c < inputLen + maxTreeSize,
      (mask.entry (inputLen + i) c = true ↔
        c < seqLen ∨ ∃ j, c = inputLen + j ∧ tree.Sees i j) := by
    intro i hi c hc
    rw [hentry _ (by omega) c hc]
    by_cases hout : inputLen ≤ c
    · have hcol : (∃ j, c = inputLen + j ∧ tree.Sees i j) ↔ tree.Sees i (c - inputLen) := by
        constructor
        · intro h
          obtain ⟨j, rfl, hj⟩ := h
          rwa [Nat.add_sub_cancel_left]
        · exact fun h => ⟨_, by omega, h⟩
      rw [or_iff_right (by omega), hcol]
      split_ifs with hin
      · rw [prefillInputsMask_node treeMask hi (by omega) hin, if_pos hout, htree i hi _ (by omega)]
      · exact iff_of_false not_false fun h => by
          have := h.lt
          omega
    · rw [if_pos (by omega), prefillInputsMask_node treeMask hi (by omega) (by omega),
        if_neg hout, decide_eq_true_iff, or_iff_left (by omega)]
      omega
  refine ⟨mask, hmask, hrows, hcols, ?_, ?_, ?_⟩
  · rw [hcols]
    exact hprompt
  · rw [hcols]
    exact hnode
  · intro r hr c hc hout
    rw [hcols] at hc
    refine Bool.eq_false_iff.mpr ?_
    rcases hr with hr | ⟨hr, hr'⟩
    · rw [Ne, hprompt r hr c hc]
      omega
    · obtain ⟨i, rfl⟩ := Nat.exists_eq_add_of_le hr
      rw [Ne, hnode i (by omega) c hc]
      intro h
      rcases h with h | ⟨j, rfl, hj⟩
      · omega
      · have := hj.lt
        omega

/-! ### The batch -/

theorem nodes_le_maxTreeSize {trees : List SpeculativeTree} {tree : SpeculativeTree}
    (h : tree ∈ trees) : tree.nodes.length ≤ ((trees.filter fun t => 1 < t.totalNodes).map
      fun t => t.totalNodes - 1).foldr max 0 := by
  have hlen := tree.nodes_length
  by_cases hone : 1 < tree.totalNodes
  · have hmem : tree.totalNodes - 1 ∈ (trees.filter fun t => 1 < t.totalNodes).map
        fun t => t.totalNodes - 1 :=
      List.mem_map_of_mem (List.mem_filter.mpr ⟨h, by simpa using hone⟩)
    exact List.le_max_of_le' 0 hmem (by omega)
  · omega

def RowExact (args : BatchArgs) (maxTreeSize b : ℕ) (tree : SpeculativeTree) (mask : BoolMatrix) :
    Prop :=
  if args.isPrefill = true then
    (mask.rows = args.inputLen + maxTreeSize ∧ mask.cols = args.inputLen + maxTreeSize) ∧
      ∃ seqLen, args.currSeqLen b = some seqLen ∧ PrefillExact args.inputLen seqLen tree mask
  else (mask.rows = maxTreeSize + 1 ∧ mask.cols = args.cacheLen + (maxTreeSize + 1)) ∧
    ∃ ids, args.positionIds b = some ids ∧ GenerationExact args.cacheLen ids tree mask

theorem batchRow_exact {args : BatchArgs} {n maxTreeSize b : ℕ} (hargs : args.Describes n)
    (hb : b < n) (tree : SpeculativeTree) (hle : tree.nodes.length ≤ maxTreeSize) :
    ∃ row, batchRow args maxTreeSize tree b = some row ∧ row.tokens.length = maxTreeSize ∧
      RowExact args maxTreeSize b tree row.mask := by
  obtain ⟨seqLen, hseq, hpos, hfits⟩ := hargs.lengths b hb
  obtain ⟨treeMask, hmask, htree⟩ := treeMask_sees tree
  have htokens : (tree.nodes.map TreeNode.tokenId ++ List.replicate
      (maxTreeSize - (tree.nodes.map TreeNode.tokenId).length) args.padTokenId).length =
        maxTreeSize := by
    rw [List.length_append, List.length_replicate, List.length_map]
    omega
  rw [batchRow]
  simp only [hseq, tree.linearize_nodes, tree.linearize_parentIndices, List.length_map, hmask,
    Option.bind_eq_bind, Option.bind_some]
  rw [List.length_map] at htokens
  cases hphase : args.isPrefill with
  | true =>
    obtain ⟨mask, hprefill, hrows, hcols, hexact⟩ :=
      prefillMask_exact hpos (hfits hphase) tree hle htree
    rw [if_pos rfl, hprefill]
    refine ⟨_, rfl, htokens, ?_⟩
    rw [RowExact, if_pos hphase]
    exact ⟨⟨hrows, hcols⟩, seqLen, hseq, hexact⟩
  | false =>
    obtain ⟨ids, hids, hvalid⟩ := hargs.ids hphase b hb
    rw [if_neg Bool.false_ne_true, hids]
    refine ⟨_, rfl, htokens, ?_⟩
    obtain ⟨all, hall, hmem⟩ := Option.bind_eq_some_iff.mp hids
    have hcache : args.cacheLen = cacheLenOf all := by
      rw [BatchArgs.cacheLen, hphase, hall]
      rfl
    rw [RowExact, if_neg (by rw [hphase]; exact Bool.false_ne_true), hcache]
    exact ⟨generationMask_shape _ _ hle, ids, hids,
      generationMask_exact (List.mem_of_getElem? hmem) hvalid hle htree⟩

/-- `max_tree_size` of the batch. -/
def maxTreeNodes (trees : List SpeculativeTree) : ℕ :=
  ((trees.filter fun tree => 1 < tree.totalNodes).map fun tree => tree.totalNodes - 1).foldr max 0

/-- The batch row by row, if some tree has a drafted node. -/
theorem prepareIncrementalTreeBatch_rows {trees : List SpeculativeTree} {args : BatchArgs}
    (hargs : args.Describes trees.length) (hdrafted : ¬ ∀ tree ∈ trees, tree.totalNodes ≤ 1) :
    ∃ rows : List BatchRow, prepareIncrementalTreeBatch trees args = some ⟨rows.map BatchRow.tokens,
        some (rows.map BatchRow.mask), rows.map BatchRow.nodePaths⟩ ∧
      rows.length = trees.length ∧
      (∃ r c, ∀ row ∈ rows, row.mask.rows = r ∧ row.mask.cols = c) ∧
      ∀ b row, rows[b]? = some row →
        ∃ tree, trees[b]? = some tree ∧ batchRow args (maxTreeNodes trees) tree b = some row ∧
          row.tokens.length = maxTreeNodes trees ∧
            RowExact args (maxTreeNodes trees) b tree row.mask := by
  obtain ⟨rows, hrows, hlen, hexact⟩ := Fallible.mapM_total (l := trees.zipIdx)
    (f := fun x => batchRow args (maxTreeNodes trees) x.1 x.2)
    (g := fun i row => ∃ tree, trees[i]? = some tree ∧
      batchRow args (maxTreeNodes trees) tree i = some row ∧
        row.tokens.length = maxTreeNodes trees ∧ RowExact args (maxTreeNodes trees) i tree row.mask) fun i x hx => by
      rw [List.getElem?_zipIdx, Option.map_eq_some_iff] at hx
      obtain ⟨tree, htree, rfl⟩ := hx
      obtain ⟨row, hrow, htokens, hexact⟩ := batchRow_exact hargs
        (List.getElem?_eq_some_iff.mp htree).1 tree
        (nodes_le_maxTreeSize (List.mem_of_getElem? htree))
      rw [Nat.zero_add]
      exact ⟨row, hrow, tree, htree, hrow, htokens, hexact⟩
  rw [List.length_zipIdx] at hlen
  -- the shape does not depend on the tree
  obtain ⟨r, c, hshape⟩ : ∃ r c, ∀ row ∈ rows, row.mask.rows = r ∧ row.mask.cols = c := by
    cases hphase : args.isPrefill with
    | true =>
      refine ⟨args.inputLen + maxTreeNodes trees, args.inputLen + maxTreeNodes trees,
        fun row hrow => ?_⟩
      obtain ⟨i, hi⟩ := List.getElem?_of_mem hrow
      obtain ⟨tree, -, -, -, hmask⟩ := hexact i row hi
      rw [RowExact, if_pos hphase] at hmask
      exact hmask.1
    | false =>
      refine ⟨maxTreeNodes trees + 1, args.cacheLen + (maxTreeNodes trees + 1), fun row hrow => ?_⟩
      obtain ⟨i, hi⟩ := List.getElem?_of_mem hrow
      obtain ⟨tree, -, -, -, hmask⟩ := hexact i row hi
      rw [RowExact, if_neg (by rw [hphase]; exact Bool.false_ne_true)] at hmask
      exact hmask.1
  have htokens : ∀ row ∈ rows, row.tokens.length = maxTreeNodes trees := by
    intro row hrow
    obtain ⟨i, hi⟩ := List.getElem?_of_mem hrow
    obtain ⟨tree, -, -, htokens, -⟩ := hexact i row hi
    exact htokens
  have hsame : SameShape rows := by
    intro row hrow row' hrow'
    obtain ⟨hr, hc⟩ := hshape row hrow
    obtain ⟨hr', hc'⟩ := hshape row' hrow'
    exact ⟨(htokens row hrow).trans (htokens row' hrow').symm, hr.trans hr'.symm,
      hc.trans hc'.symm⟩
  refine ⟨rows, ?_, hlen, ⟨r, c, hshape⟩, hexact⟩
  rw [maxTreeNodes] at hrows
  rw [prepareIncrementalTreeBatch, if_neg hdrafted]
  simp only [hrows, Option.bind_eq_bind, Option.bind_some, if_pos hsame]

/-- For a batch with a drafted node the masks have one shape, and each of them is exact. -/
theorem tree_masks_exact (trees : List SpeculativeTree) (args : BatchArgs)
    (hargs : args.Describes trees.length) :
    (∀ tree ∈ trees, tree.nodes = []) ∧
        prepareIncrementalTreeBatch trees args =
          some ⟨trees.map fun _ => [], none, trees.map fun _ => []⟩ ∨
      ∃ batch masks maxTreeSize, prepareIncrementalTreeBatch trees args = some batch ∧
        batch.attentionMask = some masks ∧ masks.length = trees.length ∧
        (∃ rows cols, ∀ mask ∈ masks, mask.rows = rows ∧ mask.cols = cols) ∧
        ∀ b tree, trees[b]? = some tree →
          ∃ mask, masks[b]? = some mask ∧ RowExact args maxTreeSize b tree mask := by
  by_cases hempty : ∀ tree ∈ trees, tree.totalNodes ≤ 1
  · refine .inl ⟨fun tree htree => ?_, if_pos hempty⟩
    have := hempty tree htree
    have := tree.nodes_length
    exact List.length_eq_zero_iff.mp (by omega)
  · right
    obtain ⟨rows, hbatch, hlen, ⟨r, c, hshape⟩, hexact⟩ :=
      prepareIncrementalTreeBatch_rows hargs hempty
    refine ⟨_, rows.map BatchRow.mask, maxTreeNodes trees, hbatch, rfl,
      by rw [List.length_map, hlen], ⟨r, c, fun mask hmask => ?_⟩, fun b tree htree => ?_⟩
    · obtain ⟨row, hrow, rfl⟩ := List.mem_map.mp hmask
      exact hshape row hrow
    · have hb := (List.getElem?_eq_some_iff.mp htree).1
      have hrow := List.getElem?_eq_getElem (hlen.symm ▸ hb : b < rows.length)
      obtain ⟨tree', htree', -, -, hmask⟩ := hexact b _ hrow
      obtain rfl := Option.some.inj (htree'.symm.trans htree)
      exact ⟨_, by rw [List.getElem?_map, hrow]; rfl, hmask⟩

def twoLeaves : SpeculativeTree where
  rootToken := 5
  grown := ⟨Forest.leaves [⟨1, 7, 1⟩, ⟨2, 8, 1⟩], 3⟩
  sound := ⟨List.Perm.refl _, Nat.succ_pos _⟩

def laterArgs : BatchArgs where
  inputLen := 4
  padTokenId := 0
  seqLengths := some [2, 3]
  isPrefill := false
  kvCachePositionIds := some [[1, 3], [2, -1]]

theorem tree_masks_exact_later :
    ∃ batch masks maxTreeSize,
      prepareIncrementalTreeBatch [twoLeaves, .new 6] laterArgs = some batch ∧
      batch.attentionMask = some masks ∧
      ∀ b tree, [twoLeaves, .new 6][b]? = some tree →
        ∃ mask, masks[b]? = some mask ∧ RowExact laterArgs maxTreeSize b tree mask := by
  have hargs : laterArgs.Describes 2 := by
    refine ⟨fun b hb => ?_, fun _ b hb => ?_⟩
    · match b, hb with
      | 0, _ => exact ⟨2, rfl, by decide, fun h => by cases h⟩
      | 1, _ => exact ⟨3, rfl, by decide, fun h => by cases h⟩
    · match b, hb with
      | 0, _ => exact ⟨[1, 3], rfl, 1, by decide, by decide⟩
      | 1, _ => exact ⟨[2, -1], rfl, 2, by decide, by decide⟩
  rcases tree_masks_exact [twoLeaves, .new 6] laterArgs hargs with ⟨hempty, -⟩ | h
  · exact absurd (hempty twoLeaves List.mem_cons_self) (by decide)
  · obtain ⟨batch, masks, maxTreeSize, hbatch, hmasks, -, -, hexact⟩ := h
    exact ⟨batch, masks, maxTreeSize, hbatch, hmasks, hexact⟩

end BloomBee.Speculative
