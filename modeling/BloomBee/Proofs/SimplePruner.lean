import Mathlib.Data.List.GetD
import Mathlib.Tactic.IntervalCases
import Mathlib.Tactic.Tauto
import BloomBee.Lib.Parents
import BloomBee.Spec.SimplePruner

/-! The probability pruner and the ancestors of what it keeps: a node outside of the top-k takes
its descendants with it, a node outside of the vocabulary does not. -/

set_option autoImplicit false

namespace BloomBee.SimplePruner

open Parents

/-- The tree block of the mask is the relation of the ancestors of a tree, where every node comes
after its parent, and of the nodes themselves. -/
structure TreeMask (prefixLen : ℕ) (parents : List ℤ) (row : SimpleRow) : Prop where
  size : parents.length = row.draftTokens.length
  leftward : Leftward parents
  block : ∀ i < parents.length, ∀ j < parents.length,
    (row.sees prefixLen i j = true ↔ j = i ∨ Above parents j i)

/-! ### What a node is judged by -/

section Node

variable (topk : Topk) (batch : SimpleBatch) (row : SimpleRow) (i : ℕ)

def InVocab : Prop :=
  0 ≤ row.draftTokens.getD i 0 ∧ row.draftTokens.getD i 0 < batch.vocabSize

def InTopk : Prop :=
  (row.draftTokens.getD i 0).toNat ∈
    topk (probsAt row batch.prefixLen i) (min topkCount batch.vocabSize)

/-- A node that the top-k does not have, which is discarded with its descendants. -/
def Rejected : Prop := 0 < i ∧ InVocab batch row i ∧ ¬ InTopk topk batch row i

/-- A node that is kept if nothing discards it before its turn. -/
def Selected : Prop := i = 0 ∨ InVocab batch row i ∧ InTopk topk batch row i

def Kept (parents : List ℤ) : Prop :=
  Selected topk batch row i ∧ ∀ j, Above parents j i → ¬ Rejected topk batch row j

end Node

theorem parentPosition_le (row : SimpleRow) (prefixLen i : ℕ) :
    parentPosition row prefixLen i ≤ i := by
  unfold parentPosition
  cases h : ((List.range i).reverse).find? fun j => row.sees prefixLen i j with
  | none => exact Nat.le_refl i
  | some j =>
    have hj := List.mem_range.mp (List.mem_reverse.mp (List.mem_of_find?_eq_some h))
    exact Nat.le_of_lt hj

theorem length_probsAt {batch : SimpleBatch} {row : SimpleRow} (hrow : row ∈ batch.rows) {i : ℕ}
    (hi : i < batch.seqLen) : (probsAt row batch.prefixLen i).length = batch.vocabSize := by
  obtain ⟨hlen, hvocab, -⟩ := batch.shape row hrow
  have hlt : parentPosition row batch.prefixLen i < row.probs.length := by
    rw [hlen]
    exact Nat.lt_of_le_of_lt (parentPosition_le row batch.prefixLen i) hi
  rw [probsAt, List.getD_eq_getElem _ _ hlt]
  exact hvocab _ (List.getElem_mem hlt)

/-! ### The pass -/

section Pass

variable {topk : Topk} {batch : SimpleBatch} {row : SimpleRow} {parents : List ℤ}

/-- The state before turn `k`: the nodes before it are settled, and of the others those below a
rejected one are discarded. -/
structure Settled (topk : Topk) (batch : SimpleBatch) (row : SimpleRow) (parents : List ℤ) (k : ℕ)
    (s : RowState) : Prop where
  keepLen : s.keepMask.length = batch.seqLen
  discardedLen : s.discarded.length = batch.seqLen
  done : ∀ i < batch.seqLen, i < k →
    (s.keepMask[i]? = some true ↔ Kept topk batch row i parents)
  waiting : ∀ i < batch.seqLen, k ≤ i → (s.discarded[i]? = some true ↔
    ∃ j < k, Above parents j i ∧ Rejected topk batch row j)
  left : ∀ i < batch.seqLen, k ≤ i → (s.keepMask[i]? = some true ↔
    ¬ ∃ j < k, Above parents j i ∧ Rejected topk batch row j)

theorem settled_start : Settled topk batch row parents 0 (rowStart batch.seqLen) := by
  refine ⟨List.length_replicate, List.length_replicate, ?_, ?_, ?_⟩
  · intro i _ hlt
    exact absurd hlt (Nat.not_lt_zero i)
  · intro i hi _
    simp [rowStart, hi]
  · intro i hi _
    simp [rowStart, hi]

/-- A turn that settles node `k` and discards nothing new. -/
theorem Settled.settle {k : ℕ} {s s' : RowState} (h : Settled topk batch row parents k s)
    (hk : k < batch.seqLen) {b : Bool} (hkeep : s'.keepMask = s.keepMask.set k b)
    (hdis : ∀ i, i ≠ k → s'.discarded[i]? = s.discarded[i]?)
    (hlen : s'.discarded.length = s.discarded.length)
    (hb : b = true ↔ Kept topk batch row k parents)
    (hnone : ∀ i, Above parents k i → Rejected topk batch row k →
      ∃ j < k, Above parents j i ∧ Rejected topk batch row j) :
    Settled topk batch row parents (k + 1) s' := by
  have hold : ∀ i, (∃ j < k + 1, Above parents j i ∧ Rejected topk batch row j) ↔
      ∃ j < k, Above parents j i ∧ Rejected topk batch row j := by
    intro i
    constructor
    · rintro ⟨j, hj, habove, hrej⟩
      rcases Nat.lt_succ_iff_lt_or_eq.mp hj with hj | rfl
      · exact ⟨j, hj, habove, hrej⟩
      · exact hnone i habove hrej
    · rintro ⟨j, hj, hrest⟩
      exact ⟨j, Nat.lt_succ_of_lt hj, hrest⟩
  refine ⟨?_, hlen.trans h.discardedLen, ?_, ?_, ?_⟩
  · rw [hkeep, List.length_set, h.keepLen]
  · intro i hi hlt
    rw [hkeep]
    rcases Nat.lt_succ_iff_lt_or_eq.mp hlt with hlt | rfl
    · rw [List.getElem?_set_ne (Nat.ne_of_gt hlt)]
      exact h.done i hi hlt
    · rw [List.getElem?_set_self (h.keepLen ▸ hi), Option.some.injEq]
      exact hb
  · intro i hi hle
    rw [hdis i (Nat.ne_of_gt hle), hold]
    exact h.waiting i hi (Nat.le_of_succ_le hle)
  · intro i hi hle
    rw [hkeep, List.getElem?_set_ne (Nat.ne_of_lt hle), hold]
    exact h.left i hi (Nat.le_of_succ_le hle)

theorem kept_zero (hleft : Leftward parents) : Kept topk batch row 0 parents :=
  ⟨.inl rfl, fun j hj => absurd (hj.lt hleft) (Nat.not_lt_zero j)⟩

/-- A node outside of the top-k discards itself and all nodes below it. -/
theorem Settled.reject {k : ℕ} {s : RowState} {scores : List ℚ}
    (h : Settled topk batch row parents k s)
    (hmask : TreeMask batch.prefixLen parents row) (hsize : parents.length = batch.seqLen)
    (hk : k < batch.seqLen) (hrej : Rejected topk batch row k) :
    Settled topk batch row parents (k + 1) (discardDescendants row batch.prefixLen k
      ⟨s.keepMask.set k false, s.discarded.set k true, scores⟩) := by
  have hnot : ¬ Kept topk batch row k parents := by
    rintro ⟨hsel, -⟩
    rcases hsel with rfl | ⟨-, htop⟩
    · exact Nat.lt_irrefl 0 hrej.1
    · exact hrej.2.2 htop
  -- below the node is what it is above of
  have hsees : ∀ i < batch.seqLen, k < i →
      (row.sees batch.prefixLen i k = true ↔ Above parents k i) := by
    intro i hi hlt
    rw [hmask.block i (hsize ▸ hi) k (hsize ▸ hk)]
    exact or_iff_right (Nat.ne_of_lt hlt)
  have hnew : ∀ i < batch.seqLen, k < i →
      ((∃ j < k + 1, Above parents j i ∧ Rejected topk batch row j) ↔
        (∃ j < k, Above parents j i ∧ Rejected topk batch row j) ∨
          row.sees batch.prefixLen i k = true) := by
    intro i hi hlt
    rw [hsees i hi hlt]
    constructor
    · rintro ⟨j, hj, habove, hrej⟩
      rcases Nat.lt_succ_iff_lt_or_eq.mp hj with hj | rfl
      · exact .inl ⟨j, hj, habove, hrej⟩
      · exact .inr habove
    · rintro (⟨j, hj, hrest⟩ | habove)
      · exact ⟨j, Nat.lt_succ_of_lt hj, hrest⟩
      · exact ⟨k, Nat.lt_succ_self k, habove, hrej⟩
  refine ⟨?_, ?_, ?_, ?_, ?_⟩
  · simp [discardDescendants, h.keepLen]
  · simp [discardDescendants, h.discardedLen]
  · intro i hi hlt
    have hle : ¬ k < i := by omega
    simp only [discardDescendants, List.getElem?_mapIdx, hle, decide_false, Bool.false_and,
      Bool.not_false, Bool.and_true, Option.map_id']
    rcases Nat.lt_succ_iff_lt_or_eq.mp hlt with hlt | rfl
    · rw [List.getElem?_set_ne (Nat.ne_of_gt hlt)]
      exact h.done i hi hlt
    · rw [List.getElem?_set_self (h.keepLen ▸ hi)]
      simpa using hnot
  · intro i hi hle
    have hwait := h.waiting i hi (Nat.le_of_succ_le hle)
    have hlt : i < s.discarded.length := h.discardedLen ▸ hi
    rw [hnew i hi hle, ← hwait]
    simp only [discardDescendants, List.getElem?_mapIdx, List.getElem?_set_ne (Nat.ne_of_lt hle),
      List.getElem?_eq_getElem hlt, Option.map_some, Option.some.injEq, Bool.or_eq_true,
      Bool.and_eq_true, decide_eq_true_eq]
    exact or_congr_right (and_iff_right hle)
  · intro i hi hle
    have hopen := h.left i hi (Nat.le_of_succ_le hle)
    have hlt : i < s.keepMask.length := h.keepLen ▸ hi
    rw [hnew i hi hle, not_or, ← hopen]
    simp only [discardDescendants, List.getElem?_mapIdx, List.getElem?_set_ne (Nat.ne_of_lt hle),
      List.getElem?_eq_getElem hlt, Option.map_some, Option.some.injEq, Bool.and_eq_true,
      Bool.not_eq_true', Bool.and_eq_false_iff, decide_eq_false_iff_not, Bool.not_eq_true]
    exact and_congr_right fun _ => or_iff_right (not_not_intro hle)

/-- The turn of node `k`. -/
theorem Settled.step {k : ℕ} {s : RowState} (h : Settled topk batch row parents k s)
    (hrow : row ∈ batch.rows) (hmask : TreeMask batch.prefixLen parents row)
    (hk : k < batch.seqLen) : Settled topk batch row parents (k + 1)
      (nodeStep topk batch.vocabSize batch.prefixLen row s k) := by
  have hsize : parents.length = batch.seqLen :=
    hmask.size.trans (batch.shape row hrow).2.2.1
  have hprobs := length_probsAt hrow hk
  have hdis := List.getElem?_eq_getElem (h.discardedLen ▸ hk : k < s.discarded.length)
  have hmarked := h.waiting k hk (Nat.le_refl k)
  rw [hdis, Option.some.injEq] at hmarked
  unfold nodeStep
  split_ifs with h0 hd
  · subst h0
    refine h.settle (b := true) hk rfl (fun _ _ => rfl) rfl ?_ ?_
    · exact iff_of_true rfl (kept_zero hmask.leftward)
    · intro i _ hrej
      exact absurd hrej.1 (Nat.lt_irrefl 0)
  · rw [List.getD_eq_getElem?_getD, hdis, Option.getD_some, hmarked] at hd
    obtain ⟨j, hj, habove, hrej⟩ := hd
    refine h.settle (b := false) hk rfl (fun _ _ => rfl) rfl ?_ ?_
    · exact iff_of_false (by decide) fun hkept => hkept.2 j habove hrej
    · intro i hki _
      exact ⟨j, hj, habove.trans hki, hrej⟩
  · rw [List.getD_eq_getElem?_getD, hdis, Option.getD_some, hmarked] at hd
    have hfree : ∀ j, Above parents j k → ¬ Rejected topk batch row j := fun j habove hrej =>
      hd ⟨j, habove.lt hmask.leftward, habove, hrej⟩
    have hvocab : (row.draftTokens.getD k 0 < 0 ∨
        ((probsAt row batch.prefixLen k).length : ℤ) ≤ row.draftTokens.getD k 0) ↔
        ¬ InVocab batch row k := by
      rw [InVocab, hprobs]
      omega
    dsimp only
    split_ifs with hout htop
    · -- the node goes, but not what is below it
      have hnot := hvocab.mp hout
      refine h.settle (b := false) hk rfl ?_ List.length_set ?_ ?_
      · intro i hne
        exact List.getElem?_set_ne hne.symm
      · refine iff_of_false (by decide) fun hkept => ?_
        rcases hkept.1 with rfl | hsel
        · exact h0 rfl
        · exact hnot hsel.1
      · intro i _ hrej
        exact absurd hrej.2.1 hnot
    · have hin : InVocab batch row k := not_not.mp fun hn => hout (hvocab.mpr hn)
      have hkeep := (h.left k hk (Nat.le_refl k)).mpr fun ⟨j, hj, habove, hrej⟩ =>
        hfree j habove hrej
      obtain ⟨hlt, hval⟩ := List.getElem?_eq_some_iff.mp hkeep
      refine h.settle (b := true) hk ?_ (fun _ _ => rfl) rfl ?_ ?_
      · rw [← hval]
        exact (List.set_getElem_self hlt).symm
      · exact iff_of_true rfl ⟨.inr ⟨hin, htop⟩, hfree⟩
      · intro i _ hrej
        exact absurd htop hrej.2.2
    · have hin : InVocab batch row k := not_not.mp fun hn => hout (hvocab.mpr hn)
      exact h.reject hmask hsize hk ⟨Nat.pos_of_ne_zero h0, hin, htop⟩

theorem pruneRow_spec (hrow : row ∈ batch.rows) (hmask : TreeMask batch.prefixLen parents row) :
    (pruneRow topk batch row).keepMask.length = batch.seqLen ∧
      ∀ i, (pruneRow topk batch row).keepMask[i]? = some true ↔
        i < batch.seqLen ∧ Kept topk batch row i parents := by
  have hpass : ∀ k ≤ batch.seqLen, Settled topk batch row parents k ((List.range k).foldl
      (nodeStep topk batch.vocabSize batch.prefixLen row) (rowStart batch.seqLen)) := by
    intro k
    induction k with
    | zero => exact fun _ => settled_start
    | succ k ih =>
      intro hk
      rw [List.range_succ, List.foldl_concat]
      exact (ih (Nat.le_of_succ_le hk)).step hrow hmask hk
  have hall := hpass batch.seqLen (Nat.le_refl _)
  refine ⟨hall.keepLen, fun i => ?_⟩
  constructor
  · intro hi
    have hlt : i < batch.seqLen := hall.keepLen ▸ (List.getElem?_eq_some_iff.mp hi).1
    exact ⟨hlt, (hall.done i hlt hlt).mp hi⟩
  · rintro ⟨hlt, hkept⟩
    exact (hall.done i hlt hlt).mpr hkept

end Pass

/-! ### The batch -/

def KeepsAncestors (parents : List ℤ) (indices : List ℤ) : Prop :=
  ∀ i j : ℕ, (i : ℤ) ∈ indices → Above parents j i → (j : ℤ) ∈ indices

/-- What is below a node outside of the vocabulary goes for a reason of its own. -/
def NoOrphans (topk : Topk) (batch : SimpleBatch) (row : SimpleRow) (parents : List ℤ) : Prop :=
  ∀ i j : ℕ, Above parents j i → 0 < j → ¬ InVocab batch row j →
    ¬ (InVocab batch row i ∧ InTopk topk batch row i) ∨
      ∃ k, Above parents k i ∧ Rejected topk batch row k

theorem mem_padIndices {width : ℕ} {indices : List ℕ} {i : ℕ} :
    (i : ℤ) ∈ padIndices width indices ↔ i ∈ indices := by
  rw [padIndices, List.mem_append, or_iff_left]
  · simp
  · intro hmem
    have := List.eq_of_mem_replicate hmem
    omega

/-- The kept nodes of a row have their ancestors exactly when the row has no orphans. -/
theorem keepsAncestors_iff {topk : Topk} {batch : SimpleBatch} {row : SimpleRow}
    {parents : List ℤ} {width : ℕ} (hrow : row ∈ batch.rows)
    (hmask : TreeMask batch.prefixLen parents row) :
    KeepsAncestors parents (padIndices width (positions (pruneRow topk batch row).keepMask)) ↔
      NoOrphans topk batch row parents := by
  have hsize : parents.length = batch.seqLen :=
    hmask.size.trans (batch.shape row hrow).2.2.1
  have hmem : ∀ i : ℕ, (i : ℤ) ∈
      padIndices width (positions (pruneRow topk batch row).keepMask) ↔
        i < batch.seqLen ∧ Kept topk batch row i parents := by
    intro i
    rw [mem_padIndices, mem_positions, (pruneRow_spec hrow hmask).2]
  constructor
  · intro hclosed i j habove hpos hout
    by_contra hnot
    push Not at hnot
    have hi : i < batch.seqLen := hsize ▸ habove.lt_length
    have hkept : Kept topk batch row i parents := ⟨.inr hnot.1, hnot.2⟩
    have hj := (hmem j).mp (hclosed i j ((hmem i).mpr ⟨hi, hkept⟩) habove)
    rcases hj.2.1 with rfl | hsel
    · exact Nat.lt_irrefl 0 hpos
    · exact hout hsel.1
  · intro hno i j hi habove
    obtain ⟨hlt, hsel, hfree⟩ := (hmem i).mp hi
    have hji := habove.lt hmask.leftward
    refine (hmem j).mpr ⟨Nat.lt_trans hji hlt, ?_, fun k hk => hfree k (hk.trans habove)⟩
    have hsel : InVocab batch row i ∧ InTopk topk batch row i :=
      hsel.resolve_left (Nat.ne_of_gt (Nat.lt_of_le_of_lt (Nat.zero_le j) hji))
    rcases Nat.eq_zero_or_pos j with hzero | hpos
    · exact .inl hzero
    · right
      by_contra hnot
      by_cases hin : InVocab batch row j
      · exact hfree j habove ⟨hpos, hin, fun htop => hnot ⟨hin, htop⟩⟩
      · rcases hno i j habove hpos hin with hnsel | ⟨k, hk, hrej⟩
        · exact hnsel hsel
        · exact hfree k hk hrej

/-- The kept nodes of every row have their ancestors exactly when no row has orphans. -/
theorem prune_branches_closed_iff (topk : Topk) (trees : List (List ℤ)) (batch : SimpleBatch)
    (stats : Stats) (hne : batch.rows ≠ [])
    (htrees : ∀ (b : ℕ) (row : SimpleRow), batch.rows[b]? = some row →
      ∃ tree, trees[b]? = some tree ∧ TreeMask batch.prefixLen tree row) :
    ∃ out stats', pruneBranches topk batch stats = some (out, stats') ∧
      ((∀ (b : ℕ) (tree indices : List ℤ), trees[b]? = some tree →
          out.keepIndices[b]? = some indices → KeepsAncestors tree indices) ↔
        ∀ (b : ℕ) (row : SimpleRow) (tree : List ℤ), batch.rows[b]? = some row →
          trees[b]? = some tree → NoOrphans topk batch row tree) := by
  have hmax : ∀ l : List ℕ, l.length = batch.rows.length → ∃ m, l.max? = some m := by
    intro l hl
    apply Option.ne_none_iff_exists'.mp
    intro hnone
    rw [List.max?_eq_none_iff.mp hnone] at hl
    exact hne (List.length_eq_zero_iff.mp hl.symm)
  obtain ⟨maxKeepLen, hkeep⟩ := hmax (((batch.rows.map (pruneRow topk batch)).map fun s =>
    positions s.keepMask).map List.length) (by simp)
  obtain ⟨maxPruneLen, hprune⟩ := hmax (((batch.rows.map (pruneRow topk batch)).map fun s =>
    positions (s.keepMask.map (!·))).map List.length) (by simp)
  have hat : ∀ (b : ℕ) (row : SimpleRow), batch.rows[b]? = some row →
      (((batch.rows.map (pruneRow topk batch)).map fun s => positions s.keepMask).map
        (padIndices maxKeepLen))[b]? =
          some (padIndices maxKeepLen (positions (pruneRow topk batch row).keepMask)) := by
    intro b row hb
    simp only [List.getElem?_map, hb, Option.map_some]
  unfold pruneBranches
  simp only [Option.bind_eq_bind, Option.pure_def, hkeep, hprune, Option.bind_some]
  refine ⟨_, _, rfl, ?_, ?_⟩
  · intro hclosed b row tree hb htree
    obtain ⟨tree', htree', hmask⟩ := htrees b row hb
    obtain rfl := Option.some.inj (htree'.symm.trans htree)
    exact (keepsAncestors_iff (List.mem_of_getElem? hb) hmask).mp
      (hclosed b _ _ htree (hat b row hb))
  · intro hno b tree indices htree hindices
    obtain ⟨row, hb⟩ : ∃ row, batch.rows[b]? = some row := by
      have hlt := (List.getElem?_eq_some_iff.mp hindices).1
      simp only [List.length_map] at hlt
      exact ⟨_, List.getElem?_eq_getElem hlt⟩
    obtain ⟨tree', htree', hmask⟩ := htrees b row hb
    obtain rfl := Option.some.inj (htree'.symm.trans htree)
    obtain rfl := Option.some.inj ((hat b row hb).symm.trans hindices)
    exact (keepsAncestors_iff (List.mem_of_getElem? hb) hmask).mpr (hno b row _ hb htree)

/-- A chain of a root, a padded node and a drafted one, behind a prefix of one, in a vocabulary
of two. -/
def paddedRow : SimpleRow where
  probs := List.replicate 3 [1 / 2, 1 / 2]
  draftTokens := [0, -1, 1]
  treeAttentionMask :=
    [[true, true, false, false], [true, true, true, false], [true, true, true, true]]

theorem paddedRow_shape : ∀ row ∈ [paddedRow], row.probs.length = 3 ∧
    (∀ p ∈ row.probs, p.length = 2) ∧ row.draftTokens.length = 3 ∧
    row.treeAttentionMask.length = 3 ∧ ∀ r ∈ row.treeAttentionMask, r.length = 4 := by
  decide

def paddedBatch : SimpleBatch where
  rows := [paddedRow]
  seqLen := 3
  totalLen := 4
  vocabSize := 2
  fits := Nat.le_succ 3
  shape := paddedRow_shape

def firstIds : Topk := fun probs k => (List.range probs.length).take k

theorem padded_mask : TreeMask 1 (chain 3) paddedRow := by
  refine ⟨rfl, chain_leftward 3, fun i hi j hj => ?_⟩
  have hsees : ∀ i < 3, ∀ j < 3, (paddedRow.sees 1 i j = true ↔ j = i ∨ j < i) := by decide
  rw [above_chain, hsees i hi j hj]
  have hi : i < 3 := hi
  omega

theorem padded_trees (b : ℕ) (row : SimpleRow) (hb : paddedBatch.rows[b]? = some row) :
    ∃ tree, [chain 3][b]? = some tree ∧ TreeMask paddedBatch.prefixLen tree row := by
  cases b with
  | zero =>
    obtain rfl := Option.some.inj hb
    exact ⟨_, rfl, padded_mask⟩
  | succ b => cases hb

theorem prune_branches_closed_iff_padded : ∃ out stats',
    pruneBranches firstIds paddedBatch ⟨0, 0⟩ = some (out, stats') ∧
      ((∀ (b : ℕ) (tree indices : List ℤ), [chain 3][b]? = some tree →
          out.keepIndices[b]? = some indices → KeepsAncestors tree indices) ↔
        ∀ (b : ℕ) (row : SimpleRow) (tree : List ℤ), paddedBatch.rows[b]? = some row →
          [chain 3][b]? = some tree → NoOrphans firstIds paddedBatch row tree) :=
  prune_branches_closed_iff firstIds [chain 3] paddedBatch ⟨0, 0⟩ (List.cons_ne_nil _ _)
    padded_trees

/-- The padded node goes and the node below it stays. -/
theorem prune_branches_keeps_orphan : ¬ ∀ (topk : Topk) (trees : List (List ℤ))
    (batch : SimpleBatch) (stats : Stats) (out : Pruned) (stats' : Stats),
    (∀ (b : ℕ) (row : SimpleRow), batch.rows[b]? = some row →
      ∃ tree, trees[b]? = some tree ∧ TreeMask batch.prefixLen tree row) →
    pruneBranches topk batch stats = some (out, stats') →
    ∀ (b : ℕ) (tree indices : List ℤ), trees[b]? = some tree →
      out.keepIndices[b]? = some indices → KeepsAncestors tree indices := by
  intro hall
  have hkeep : (pruneBranches firstIds paddedBatch ⟨0, 0⟩).map
      (fun r => r.1.keepIndices) = some [[0, 2]] := by decide +kernel
  obtain ⟨⟨out, stats'⟩, hout, hindices⟩ := Option.map_eq_some_iff.mp hkeep
  have hclosed := hall firstIds [chain 3] paddedBatch ⟨0, 0⟩ out stats' padded_trees hout 0
    (chain 3) [0, 2] rfl (hindices ▸ rfl)
  have hone := hclosed 2 1 (by decide) (above_chain.mpr (by decide))
  exact absurd hone (by decide)

end BloomBee.SimplePruner
