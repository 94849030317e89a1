import BloomBee.Lib.Fallible
import BloomBee.Lib.Parents
import BloomBee.Spec.NeuralPruner
import Mathlib.Tactic.IntervalCases

/-! The neural pruner keeps a position exactly when it and all its ancestors are kept at first: in
the pass from left to right a position finds all its ancestors settled. -/

set_option autoImplicit false

namespace BloomBee.NeuralPruner

open Parents

/-! ### Trees -/

/-- The tree block of the mask is the relation of the ancestors of a tree with its root at
position 0, where every position comes after its parent, and of the positions themselves. -/
structure TreeBlock (prefixLen : ℕ) (parents : List ℤ) (row : PrunerRow) : Prop where
  size : parents.length = row.seqLen
  root : parents[0]? = some (-1)
  leftward : Leftward parents
  rooted : ∀ (i : ℕ) (p : ℤ), 0 < i → parents[i]? = some p → 0 ≤ p
  block : ∀ (i : ℕ) (r : List Bool), row.treeAttentionMask[i]? = some r → ∀ j < row.seqLen,
    (r[prefixLen + j]? = some true ↔ j = i ∨ Above parents j i)

def InitiallyKept (neuralThreshold : ℚ) (row : PrunerRow) (i : ℕ) : Prop :=
  i = 0 ∨ ∃ p, row.decisionProbsInner[i - 1]? = some p ∧ neuralThreshold < p

def KeptWithAncestors (neuralThreshold : ℚ) (parents : List ℤ) (row : PrunerRow) (i : ℕ) : Prop :=
  i < row.seqLen ∧ ∀ j, j = i ∨ Above parents j i → InitiallyKept neuralThreshold row j

section Pass

variable {neuralThreshold : ℚ} {prefixLen : ℕ} {parents : List ℤ} {row : PrunerRow}

theorem initialKeep_length : (initialKeep neuralThreshold row).length = row.seqLen := by
  simp [initialKeep, PrunerRow.seqLen]

theorem initialKeep_iff {i : ℕ} (hi : i < row.seqLen) :
    (initialKeep neuralThreshold row)[i]? = some true ↔ InitiallyKept neuralThreshold row i := by
  rw [initialKeep, InitiallyKept]
  cases i with
  | zero => simp
  | succ i =>
    rw [List.getElem?_set_ne (Nat.succ_ne_zero i).symm]
    simp [Option.map_eq_some_iff]

/-- What the discards are after the turns up to `k`: those positions are settled. -/
structure Settled (neuralThreshold : ℚ) (parents : List ℤ) (row : PrunerRow) (k : ℕ)
    (discarded : List Bool) : Prop where
  size : discarded.length = row.seqLen
  done : ∀ i < row.seqLen, i < k → (discarded[i]? = some true ↔
    ¬ KeptWithAncestors neuralThreshold parents row i)
  waiting : ∀ i < row.seqLen, k ≤ i → (discarded[i]? = some true ↔
    ¬ InitiallyKept neuralThreshold row i)

theorem settled_start (htree : TreeBlock prefixLen parents row) :
    Settled neuralThreshold parents row 1 ((initialKeep neuralThreshold row).map (!·)) := by
  have hnot : ∀ i < row.seqLen, ((initialKeep neuralThreshold row).map (!·))[i]? = some true ↔
      ¬ InitiallyKept neuralThreshold row i := by
    intro i hi
    have hlt : i < (initialKeep neuralThreshold row).length := initialKeep_length ▸ hi
    rw [← initialKeep_iff hi, List.getElem?_map, List.getElem?_eq_getElem hlt]
    cases (initialKeep neuralThreshold row)[i] <;> simp
  refine ⟨by rw [List.length_map, initialKeep_length], fun i hi hlt => ?_, fun i hi _ => hnot i hi⟩
  -- nothing is above the root
  obtain rfl : i = 0 := by omega
  rw [hnot 0 hi, KeptWithAncestors]
  refine not_congr ⟨fun h => ⟨hi, fun j hj => ?_⟩, fun h => h.2 0 (.inl rfl)⟩
  rcases hj with rfl | hj
  · exact h
  · exact absurd hj (not_above_of_neg htree.root (by decide))

/-- The conjunction of two lists of bits has a bit that is set. -/
theorem any_zipWith_and (l l' : List Bool) : (List.zipWith (· && ·) l l').any id = true ↔
    ∃ j : ℕ, l[j]? = some true ∧ l'[j]? = some true := by
  rw [List.any_eq_true]
  constructor
  · intro hex
    obtain ⟨x, hx, hid⟩ := hex
    obtain ⟨j, hj⟩ := List.getElem?_of_mem hx
    obtain ⟨a, d, ha, hd, hand⟩ := List.getElem?_zipWith_eq_some.mp hj
    have hboth : (a && d) = true := hand.trans hid
    obtain ⟨rfl, rfl⟩ := Bool.and_eq_true_iff.mp hboth
    exact ⟨j, ha, hd⟩
  · intro hex
    obtain ⟨j, ha, hd⟩ := hex
    exact ⟨true, List.mem_of_getElem? (List.getElem?_zipWith_eq_some.mpr ⟨_, _, ha, hd, rfl⟩), rfl⟩

/-- A turn of the loop finds a discarded position among the ancestors and the position itself
exactly when one of them is not kept at first. -/
theorem Settled.step (htree : TreeBlock prefixLen parents row)
    (hheight : row.treeAttentionMask.length = row.seqLen) {k : ℕ} (hk : k < row.seqLen)
    {discarded : List Bool} (h : Settled neuralThreshold parents row k discarded) :
    Settled neuralThreshold parents row (k + 1)
      (discardStep (row.treeAttentionMask.map (List.drop prefixLen)) discarded k) := by
  have hmask : k < row.treeAttentionMask.length := hheight ▸ hk
  have hrow := List.getElem?_eq_getElem hmask
  have hblock := htree.block k _ hrow
  have hk' : k < discarded.length := h.size ▸ hk
  -- the row of the block
  have hadj : (row.treeAttentionMask.map (List.drop prefixLen)).getD k [] =
      row.treeAttentionMask[k].drop prefixLen := by
    rw [List.getD_eq_getElem?_getD, List.getElem?_map, hrow]
    rfl
  have hany : (List.zipWith (· && ·) (row.treeAttentionMask[k].drop prefixLen)
      discarded).any id = true ↔
        ∃ j < row.seqLen, (j = k ∨ Above parents j k) ∧ discarded[j]? = some true := by
    rw [any_zipWith_and]
    refine exists_congr fun j => ?_
    rw [List.getElem?_drop]
    constructor
    · intro hj
      have hlt : j < row.seqLen := h.size ▸ (List.getElem?_eq_some_iff.mp hj.2).1
      exact ⟨hlt, (hblock j hlt).mp hj.1, hj.2⟩
    · intro hj
      exact ⟨(hblock j hj.1).mpr hj.2.1, hj.2.2⟩
  -- an ancestor is settled, and what is not kept above it is above `k` too
  have hsettled : (∃ j < row.seqLen, (j = k ∨ Above parents j k) ∧ discarded[j]? = some true) ↔
      ¬ KeptWithAncestors neuralThreshold parents row k := by
    constructor
    · intro hex hkept
      obtain ⟨j, hj, hjk, hdiscarded⟩ := hex
      rcases hjk with rfl | hjk
      · exact (h.waiting j hj (Nat.le_refl j)).mp hdiscarded (hkept.2 j (.inl rfl))
      · refine (h.done j hj (hjk.lt htree.leftward)).mp hdiscarded ⟨hj, fun m hm => ?_⟩
        rcases hm with rfl | hm
        · exact hkept.2 m (.inr hjk)
        · exact hkept.2 m (.inr (hm.trans hjk))
    · intro hkept
      by_contra hnone
      refine hkept ⟨hk, fun j hjk => ?_⟩
      by_contra hinit
      have hj : j < row.seqLen ∧ (discarded[j]? = some true) := by
        rcases hjk with rfl | hjk
        · exact ⟨hk, (h.waiting j hk (Nat.le_refl j)).mpr hinit⟩
        · have hlt := hjk.lt htree.leftward
          have hj : j < row.seqLen := Nat.lt_trans hlt hk
          exact ⟨hj, (h.done j hj hlt).mpr fun hkept => hinit (hkept.2 j (.inl rfl))⟩
      exact hnone ⟨j, hj.1, hjk, hj.2⟩
  have hself : discarded[k]? = some true →
      ∃ j < row.seqLen, (j = k ∨ Above parents j k) ∧ discarded[j]? = some true :=
    fun hd => ⟨k, hk, .inl rfl, hd⟩
  rw [discardStep, hadj]
  refine ⟨by rw [List.length_set, h.size], fun i hi hlt => ?_, fun i hi hle => ?_⟩
  · rcases Nat.lt_succ_iff_lt_or_eq.mp hlt with hlt | rfl
    · rw [List.getElem?_set_ne (by omega)]
      exact h.done i hi hlt
    · rw [List.getElem?_set_self hk', Option.some.injEq, Bool.or_eq_true, hany, ← hsettled,
        List.getD_eq_getElem?_getD, List.getElem?_eq_getElem hk', Option.getD_some]
      rw [List.getElem?_eq_getElem hk', Option.some.injEq] at hself
      exact or_iff_right_of_imp hself
  · rw [List.getElem?_set_ne (by omega)]
    exact h.waiting i hi (by omega)

theorem propagatePruneMask_spec (htree : TreeBlock prefixLen parents row)
    (hheight : row.treeAttentionMask.length = row.seqLen) :
    let finalKeep := propagatePruneMask (initialKeep neuralThreshold row) row.treeAttentionMask
      prefixLen
    finalKeep.length = row.seqLen ∧
      ∀ i, finalKeep[i]? = some true ↔ KeptWithAncestors neuralThreshold parents row i := by
  have hpass : ∀ n, 1 + n ≤ row.seqLen → Settled neuralThreshold parents row (1 + n)
      ((List.range' 1 n).foldl
        (discardStep (row.treeAttentionMask.map (List.drop prefixLen)))
        ((initialKeep neuralThreshold row).map (!·))) := by
    intro n
    induction n with
    | zero => exact fun _ => settled_start htree
    | succ n ih =>
      intro hn
      rw [List.range'_concat, List.foldl_concat, Nat.one_mul]
      exact (ih (by omega)).step htree hheight (by omega)
  have hpos : 1 ≤ row.seqLen := Nat.le_add_left 1 _
  have hall := hpass (row.seqLen - 1) (by omega)
  intro finalKeep
  have hfinal : finalKeep = List.map (!·) ((List.range' 1 (row.seqLen - 1)).foldl
      (discardStep (row.treeAttentionMask.map (List.drop prefixLen)))
      ((initialKeep neuralThreshold row).map (!·))) := by
    rw [← @initialKeep_length neuralThreshold row]
    rfl
  generalize (List.range' 1 (row.seqLen - 1)).foldl _ _ = discarded at hall hfinal
  rw [hfinal, List.length_map]
  refine ⟨hall.size, fun i => ?_⟩
  rw [List.getElem?_map]
  by_cases hi : i < row.seqLen
  · have hdone := hall.done i hi (by omega)
    have hlt : i < discarded.length := hall.size ▸ hi
    rw [List.getElem?_eq_getElem hlt] at hdone ⊢
    cases hd : discarded[i] <;> simpa [hd] using hdone
  · rw [List.getElem?_eq_none (by rw [hall.size]; omega)]
    exact iff_of_false (by simp) fun h => hi h.1

end Pass

/-! ### Indices -/

theorem paddedIndices_eq {width : ℕ} {mask : List Bool} (hlow : (positions mask).length ≤ width)
    (hhigh : width ≤ mask.length) : paddedIndices width mask =
      (positions mask).map (fun i : ℕ => (i : ℤ)) ++
        List.replicate (width - (positions mask).length) (-1) := by
  rw [paddedIndices, sort_ranks, List.take_append, List.take_of_length_le hlow,
    List.take_replicate, List.map_append, List.map_replicate, if_pos rfl]
  congr 1
  · refine List.map_congr_left fun i hi => ?_
    have := (List.getElem?_eq_some_iff.mp ((mem_positions mask).mp hi)).1
    rw [if_neg (by omega)]
  · congr 1
    omega

/-- A row of indices: the positions of a set in increasing order, and after them only -1. -/
def Lists (indices : List ℤ) (places : List ℕ) : Prop :=
  places.Pairwise (· < ·) ∧
    ∃ n, indices = places.map (fun i : ℕ => (i : ℤ)) ++ List.replicate n (-1)

theorem paddedIndices_lists {width : ℕ} {mask : List Bool}
    (hlow : mask.countP id ≤ width) (hhigh : width ≤ mask.length) :
    Lists (paddedIndices width mask) (positions mask) := by
  refine ⟨positions_pairwise mask, _, paddedIndices_eq ?_ hhigh⟩
  rw [positions_length]
  exact hlow

/-- `max_prune` bounds the counts and is one of them, or 0. -/
theorem maxPruned_spec {counts : List ℕ} {m : ℕ} (h : maxPruned counts = some m) :
    (∀ n ∈ counts, n ≤ m) ∧ (m = 0 ∨ m ∈ counts) := by
  rw [maxPruned] at h
  split_ifs at h with hany
  · obtain ⟨hmem, hle⟩ := List.max?_eq_some_iff.mp h
    exact ⟨hle, .inr hmem⟩
  · obtain rfl := Option.some.inj h
    refine ⟨fun n hn => ?_, .inl rfl⟩
    by_contra hpos
    exact hany (List.any_eq_true.mpr ⟨n, hn, decide_eq_true (by omega)⟩)

def PrunedExactly (neuralThreshold : ℚ) (parents : List (List ℤ)) (batch : PrunerBatch)
    (out : Pruned) : Prop :=
  ∀ (b : ℕ) (row : PrunerRow) (tree : List ℤ), batch.rows[b]? = some row →
    parents[b]? = some tree → ∃ keep prune kept pruned,
      out.keepIndices[b]? = some keep ∧ out.pruneIndices[b]? = some prune ∧
      Lists keep kept ∧ Lists prune pruned ∧ kept.head? = some 0 ∧
      (∀ i, i ∈ kept ↔ KeptWithAncestors neuralThreshold tree row i) ∧
      (kept ++ pruned).Perm (List.range batch.seqLen) ∧
      out.validLengths[b]? = some kept.length

theorem head_positions {mask : List Bool} (h : mask[0]? = some true) :
    (positions mask).head? = some 0 := by
  have hmem := (mem_positions mask).mpr h
  have hsorted := positions_pairwise mask
  cases hpos : positions mask with
  | nil =>
    rw [hpos] at hmem
    cases hmem
  | cons i rest =>
    rw [hpos] at hmem hsorted
    rcases List.mem_cons.mp hmem with rfl | hrest
    · rfl
    · exact absurd ((List.pairwise_cons.mp hsorted).1 0 hrest) (Nat.not_lt_zero i)

theorem keptWithAncestors_root {neuralThreshold : ℚ} {prefixLen : ℕ} {parents : List ℤ}
    {row : PrunerRow} (htree : TreeBlock prefixLen parents row) :
    KeptWithAncestors neuralThreshold parents row 0 := by
  refine ⟨Nat.succ_pos _, fun j hj => ?_⟩
  rcases hj with rfl | hj
  · exact .inl rfl
  · exact absurd hj (not_above_of_neg htree.root (by decide))

theorem count_le {masks : List (List Bool)} {n m : ℕ} (hlen : ∀ mask ∈ masks, mask.length = n)
    (hm : m ∈ masks.map (List.countP id)) : m ≤ n := by
  obtain ⟨mask, hmask, rfl⟩ := List.mem_map.mp hm
  rw [← hlen mask hmask]
  exact List.countP_le_length

/-! ### The batch -/

abbrev finalKeep (neuralThreshold : ℚ) (batch : PrunerBatch) : List (List Bool) :=
  batch.rows.map fun row =>
    propagatePruneMask (initialKeep neuralThreshold row) row.treeAttentionMask batch.prefixLen

section Batch

variable {neuralThreshold : ℚ} {parents : List (List ℤ)} {batch : PrunerBatch}

theorem pruneBranches_isSome (hne : batch.rows ≠ []) :
    (pruneBranches neuralThreshold batch).isSome := by
  have hmax : ∀ l : List ℕ, l.length = batch.rows.length → ∃ m, l.max? = some m := by
    intro l hl
    refine Option.ne_none_iff_exists'.mp fun hnone => hne ?_
    rw [List.max?_eq_none_iff.mp hnone] at hl
    exact List.length_eq_zero_iff.mp hl.symm
  obtain ⟨maxKeep, hkeep⟩ :=
    hmax ((finalKeep neuralThreshold batch).map (List.countP id)) (by simp)
  obtain ⟨maxPrune, hprune⟩ :=
    hmax (((finalKeep neuralThreshold batch).map (List.map (!·))).map (List.countP id)) (by simp)
  simp only [pruneBranches, Option.bind_eq_bind, Option.pure_def]
  rw [hkeep, Option.bind_some, maxPruned, hprune]
  split_ifs <;> rfl

variable (htrees : ∀ (b : ℕ) (row : PrunerRow), batch.rows[b]? = some row →
  ∃ tree, parents[b]? = some tree ∧ TreeBlock batch.prefixLen tree row)
include htrees

theorem finalKeep_spec {b : ℕ} {row : PrunerRow} (hb : batch.rows[b]? = some row) :
    ∃ keep tree, (finalKeep neuralThreshold batch)[b]? = some keep ∧ parents[b]? = some tree ∧
      keep.length = batch.seqLen ∧ KeptWithAncestors neuralThreshold tree row 0 ∧
      ∀ i, keep[i]? = some true ↔ KeptWithAncestors neuralThreshold tree row i := by
  obtain ⟨tree, htree, hblock⟩ := htrees b row hb
  obtain ⟨hlen, hheight, -⟩ := batch.shape row (List.mem_of_getElem? hb)
  obtain ⟨hkeep, hiff⟩ := @propagatePruneMask_spec neuralThreshold _ _ _ hblock
    (hheight.trans hlen.symm)
  refine ⟨_, tree, ?_, htree, hkeep.trans hlen, keptWithAncestors_root hblock, hiff⟩
  rw [List.getElem?_map, hb]
  rfl

theorem finalKeep_length : ∀ keep ∈ finalKeep neuralThreshold batch,
    keep.length = batch.seqLen := by
  intro keep hkeep
  obtain ⟨b, hb⟩ := List.getElem?_of_mem hkeep
  obtain ⟨row, hrow, rfl⟩ := Option.map_eq_some_iff.mp (List.getElem?_map ▸ hb)
  obtain ⟨keep, _, hkept, -, hlen, -⟩ := @finalKeep_spec neuralThreshold _ _ htrees b row hrow
  obtain rfl := Option.some.inj (hb.symm.trans hkept)
  exact hlen

/-- Both columns of indices are wide enough for every row, and not wider than a row is. -/
theorem widths_spec {maxKeep maxPrune : ℕ} {keep : List Bool}
    (hkeep : ((finalKeep neuralThreshold batch).map (List.countP id)).max? = some maxKeep)
    (hprune : maxPruned (((finalKeep neuralThreshold batch).map (List.map (!·))).map
      (List.countP id)) = some maxPrune) (hmem : keep ∈ finalKeep neuralThreshold batch) :
    (keep.countP id ≤ maxKeep ∧ maxKeep ≤ keep.length) ∧
      (keep.map (!·)).countP id ≤ maxPrune ∧ maxPrune ≤ (keep.map (!·)).length := by
  have hlength := @finalKeep_length neuralThreshold _ _ htrees
  have hpruned : ∀ mask ∈ (finalKeep neuralThreshold batch).map (List.map (!·)),
      mask.length = batch.seqLen := by
    intro mask hmask
    obtain ⟨other, hother, rfl⟩ := List.mem_map.mp hmask
    rw [List.length_map]
    exact hlength other hother
  obtain ⟨hkeepMem, hkeepLe⟩ := List.max?_eq_some_iff.mp hkeep
  obtain ⟨hpruneLe, hpruneMem⟩ := maxPruned_spec hprune
  rw [List.length_map, hlength keep hmem]
  refine ⟨⟨hkeepLe _ (List.mem_map_of_mem hmem), count_le hlength hkeepMem⟩,
    hpruneLe _ (List.mem_map_of_mem (List.mem_map_of_mem hmem)), ?_⟩
  rcases hpruneMem with rfl | hpruneMem
  · exact Nat.zero_le _
  · exact count_le hpruned hpruneMem

end Batch

/-- A batch with a row has a result, and it lists for every row the positions that are kept at
first with all their ancestors. -/
theorem prune_branches_ancestor_closed (neuralThreshold : ℚ) (parents : List (List ℤ))
    (batch : PrunerBatch) (htrees : ∀ (b : ℕ) (row : PrunerRow), batch.rows[b]? = some row →
      ∃ tree, parents[b]? = some tree ∧ TreeBlock batch.prefixLen tree row) :
    (batch.rows ≠ [] → (pruneBranches neuralThreshold batch).isSome) ∧
      ∀ out, pruneBranches neuralThreshold batch = some out →
        PrunedExactly neuralThreshold parents batch out := by
  refine ⟨pruneBranches_isSome, fun out hout b row tree hb htree => ?_⟩
  simp only [pruneBranches, Option.bind_eq_bind, Option.pure_def] at hout
  obtain ⟨maxKeep, hmax, hout⟩ := Option.bind_eq_some_iff.mp hout
  obtain ⟨maxPrune, hprune, hout⟩ := Option.bind_eq_some_iff.mp hout
  obtain rfl := Option.some.inj hout
  obtain ⟨keep, tree', hkeep, htree', hlen, hroot, hiff⟩ :=
    @finalKeep_spec neuralThreshold _ _ htrees b row hb
  obtain rfl := Option.some.inj (htree'.symm.trans htree)
  obtain ⟨⟨hkeepLow, hkeepHigh⟩, hpruneLow, hpruneHigh⟩ :=
    widths_spec htrees hmax hprune (List.mem_of_getElem? hkeep)
  refine ⟨paddedIndices maxKeep keep,
    if 0 < maxPrune then paddedIndices maxPrune (keep.map (!·)) else [],
    positions keep, positions (keep.map (!·)), ?_, ?_, paddedIndices_lists hkeepLow hkeepHigh,
    ?_, head_positions ((hiff 0).mpr hroot), fun i => ?_, ?_, ?_⟩
  · rw [List.getElem?_map, hkeep]
    rfl
  · split_ifs
    · rw [List.getElem?_map, List.getElem?_map, hkeep]
      rfl
    · rw [List.getElem?_map, hb]
      rfl
  · split_ifs with hpos
    · exact paddedIndices_lists hpruneLow hpruneHigh
    · have hnil : positions (keep.map (!·)) = [] := by
        rw [← List.length_eq_zero_iff, positions_length]
        omega
      rw [hnil]
      exact ⟨List.Pairwise.nil, 0, rfl⟩
  · rw [mem_positions]
    exact hiff i
  · rw [← hlen]
    exact positions_append_perm keep
  · rw [List.getElem?_map, hkeep, Option.map_some, positions_length]

/-- A chain of three positions after a prefix of one, where the second one is dropped. -/
def chainRow : PrunerRow where
  decisionProbsInner := [1 / 4, 3 / 4]
  treeAttentionMask :=
    [[true, true, false, false], [true, true, true, false], [true, true, true, true]]

def chainBatch : PrunerBatch where
  rows := [chainRow]
  seqLen := 3
  totalLen := 4
  fits := by decide
  shape := by decide

theorem chain_block : TreeBlock 1 [-1, 0, 1] chainRow := by
  have hzero : ∀ j, ¬ Above [-1, 0, 1] j 0 := fun j => not_above_of_neg rfl (by decide)
  have hone : ∀ j, Above [-1, 0, 1] j 1 ↔ j = 0 := by
    intro j
    rw [above_iff (p := 0) rfl, Int.toNat_zero]
    simp [hzero]
  have htwo : ∀ j, Above [-1, 0, 1] j 2 ↔ j = 1 ∨ j = 0 := by
    intro j
    rw [above_iff (p := 1) rfl, Int.toNat_one]
    simp [hone]
  refine ⟨rfl, rfl, fun i p hp => ?_, fun i p hi hp => ?_, fun i r hr j hj => ?_⟩
  · have hlt : i < 3 := (List.getElem?_eq_some_iff.mp hp).1
    interval_cases i <;> simp at hp <;> omega
  · have hlt : i < 3 := (List.getElem?_eq_some_iff.mp hp).1
    interval_cases i <;> simp at hp <;> omega
  · have hlt : i < 3 := (List.getElem?_eq_some_iff.mp hr).1
    have hj : j < 3 := hj
    interval_cases i
    · obtain rfl := Option.some.inj hr
      interval_cases j <;> simp [hzero]
    · obtain rfl := Option.some.inj hr
      interval_cases j <;> simp [hone]
    · obtain rfl := Option.some.inj hr
      interval_cases j <;> simp [htwo]

theorem prune_branches_ancestor_closed_chain : ∃ out, pruneBranches (1 / 2) chainBatch = some out ∧
    PrunedExactly (1 / 2) [[-1, 0, 1]] chainBatch out := by
  obtain ⟨hsome, hout⟩ := prune_branches_ancestor_closed (1 / 2) [[-1, 0, 1]] chainBatch
    fun b row hb => by
      cases b with
      | zero =>
        obtain rfl := Option.some.inj hb
        exact ⟨_, rfl, chain_block⟩
      | succ b => cases hb
  obtain ⟨out, h⟩ := Option.isSome_iff_exists.mp (hsome (List.cons_ne_nil _ _))
  exact ⟨out, h, hout out h⟩

end BloomBee.NeuralPruner
