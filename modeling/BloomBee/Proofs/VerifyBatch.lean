import BloomBee.Lib.Fallible
import BloomBee.Proofs.SpeculativeModel
import BloomBee.Sanity.SpeculativeTree
import BloomBee.Spec.VerifyBatch

/-! A greedy round keeps the longest path whose nodes are all predicted by the rows of their
parents. When the row of its last node is zero, that node is left for the token of the target
model. -/

set_option autoImplicit false

namespace BloomBee.Speculative

/-- Every node of a path is the argmax of the row of its parent. Row 0 is that of the root, and
`row` is that of the first node's parent. -/
def Predicted (logits : List LogitsRow) : ℕ → List (Node ℕ) → Prop
  | _, [] => True
  | row, n :: path =>
    (∃ r, logits[row]? = some r ∧ r.argmax = n.token) ∧ Predicted logits (n.position + 1) path

/-- `best` is a longest predicted prefix of the leaf paths. -/
structure IsLongest (logits : List LogitsRow) (tree : Forest ℕ) (best : List (Node ℕ)) : Prop where
  isPrefix : ∃ p ∈ tree.leafNodePaths, best <+: p
  predicted : Predicted logits 0 best
  longest : ∀ p ∈ tree.leafNodePaths, ∀ q, q <+: p → Predicted logits 0 q → q.length ≤ best.length

section Paths

variable {logits : List LogitsRow}

/-- The row of logits at an index, as the walk along a path reads it. -/
abbrev predictedRow (logits : List LogitsRow) (i : ℕ) : ℕ :=
  (logits[i]?.map LogitsRow.argmax).getD 0

theorem verifyPath_predicted (path : List (Node ℕ)) :
    ∀ row, Predicted logits row
      (verifyPath logits.length (predictedRow logits) row path) := by
  induction path with
  | nil => exact fun _ => trivial
  | cons n path ih =>
    intro row
    rw [verifyPath]
    split_ifs with hlen htoken
    · trivial
    · have hrow : logits[row]? = some logits[row] := List.getElem?_eq_getElem (by omega)
      refine ⟨⟨_, hrow, ?_⟩, ih _⟩
      rw [predictedRow, hrow] at htoken
      exact htoken
    · trivial

/-- No predicted prefix of a path is longer than what the walk along it finds. -/
theorem verifyPath_longest (path : List (Node ℕ)) :
    ∀ (row : ℕ) (q : List (Node ℕ)), q <+: path → Predicted logits row q →
      q.length ≤ (verifyPath logits.length (predictedRow logits) row path).length := by
  induction path with
  | nil =>
    intro row q hq _
    rw [List.prefix_nil.mp hq]
    exact Nat.zero_le _
  | cons n path ih =>
    intro row q hq hpred
    cases q with
    | nil => exact Nat.zero_le _
    | cons m q =>
      obtain ⟨rfl, hrest'⟩ := List.cons_prefix_cons.mp hq
      obtain ⟨⟨r, hr, hargmax⟩, hrest⟩ := hpred
      have hlt := (List.getElem?_eq_some_iff.mp hr).1
      rw [verifyPath, if_neg (by omega), if_pos (by rw [predictedRow, hr]; exact hargmax),
        List.length_cons, List.length_cons]
      exact Nat.succ_le_succ (ih _ q hrest' hrest)

theorem le_bestVerified (seqLen : ℕ) (predicted : ℕ → ℕ) (paths : List (List (Node ℕ))) :
    ∀ p ∈ paths,
      (verifyPath seqLen predicted 0 p).length ≤ (bestVerified seqLen predicted paths).length := by
  have hfold : ∀ (l : List (List (Node ℕ))) (best : List (Node ℕ)) (k : ℕ),
      (k ≤ best.length ∨ ∃ p ∈ l, k ≤ (verifyPath seqLen predicted 0 p).length) →
      k ≤ (l.foldl (fun best path =>
        if best.length < (verifyPath seqLen predicted 0 path).length
        then verifyPath seqLen predicted 0 path else best) best).length := by
    intro l
    induction l with
    | nil =>
      intro best k h
      rcases h with h | ⟨p, hp, -⟩
      · exact h
      · cases hp
    | cons p l ih =>
      intro best k h
      rw [List.foldl_cons]
      refine ih _ k ?_
      rcases h with h | ⟨q, hq, h⟩
      · left
        split_ifs <;> omega
      · rcases List.mem_cons.mp hq with rfl | hq
        · left
          split_ifs <;> omega
        · exact .inr ⟨q, hq, h⟩
  exact fun p hp => hfold paths [] _ (.inr ⟨p, hp, Nat.le_refl _⟩)

theorem leafPathsFrom_ne_nil {α : Type} (token : α) (children siblings : Forest α) (start : ℕ) :
    (Forest.cons token children siblings).leafPathsFrom start ≠ [] := by
  induction children generalizing token siblings start with
  | nil => exact List.cons_ne_nil _ _
  | cons t c s ihc _ =>
    rw [Forest.leafPathsFrom]
    exact List.append_ne_nil_of_left_ne_nil
      (fun h => ihc t s (start + 1) (List.map_eq_nil_iff.mp h)) _

theorem leafNodePaths_ne_nil (tree : Forest ℕ) : tree.leafNodePaths ≠ [] := by
  cases tree with
  | nil => exact List.cons_ne_nil _ _
  | cons token children siblings => exact leafPathsFrom_ne_nil token children siblings 0

theorem bestOf_isLongest (logits : List LogitsRow) (tree : Forest ℕ) (actualLen : ℕ) :
    IsLongest logits tree (bestOf ⟨logits, tree.leafNodePaths, actualLen⟩) := by
  rw [bestOf]
  refine ⟨?_, ?_, fun p hp q hq hpred => ?_⟩
  · rcases bestVerified_mem logits.length (predictedRow logits) tree.leafNodePaths with
      h | ⟨p, hp, h⟩
    · obtain ⟨p, hp⟩ := List.exists_mem_of_ne_nil _ (leafNodePaths_ne_nil tree)
      exact ⟨p, hp, h ▸ List.nil_prefix⟩
    · exact ⟨p, hp, h ▸ verifyPath_isPrefix _ _ _ _⟩
  · rcases bestVerified_mem logits.length (predictedRow logits) tree.leafNodePaths with
      h | ⟨p, -, h⟩
    · exact h ▸ trivial
    · exact h ▸ verifyPath_predicted p 0
  · exact (verifyPath_longest p 0 q hq hpred).trans (le_bestVerified _ _ _ p hp)

end Paths

/-! ### Position ids -/

def clientSlots (actualLen : ℕ) (nodes : List (Node ℕ)) : List ℕ :=
  (actualLen - 1) :: nodes.map fun n => actualLen + n.position

theorem slotsOf_eq {actualLen : ℕ} (hpos : 0 < actualLen) (nodes : List (Node ℕ)) :
    slotsOf actualLen nodes = (clientSlots actualLen nodes).map (Nat.cast : ℕ → ℤ) := by
  rw [slotsOf, clientSlots, List.map_cons, List.map_map]
  refine List.cons_eq_cons.mpr ⟨by omega, List.map_congr_left fun n _ => ?_⟩
  simp only [Function.comp_apply]
  omega

theorem clientSlots_sorted {actualLen : ℕ} (hpos : 0 < actualLen) {nodes : List (Node ℕ)}
    (hnodes : (nodes.map Node.position).Pairwise (· < ·)) :
    (clientSlots actualLen nodes).Pairwise (· < ·) := by
  rw [List.pairwise_map] at hnodes
  refine List.pairwise_cons.mpr ⟨fun s hs => ?_, ?_⟩
  · obtain ⟨n, -, rfl⟩ := List.mem_map.mp hs
    omega
  · rw [List.pairwise_map]
    exact hnodes.imp fun h => by omega

/-! ### The batch -/

/-- What a row of the result is for: the nodes that are kept, and the token of the target
model. -/
inductive RowVerified (logits : List LogitsRow) (tree : Forest ℕ) : List (Node ℕ) → ℕ → Prop where
  | none (root : LogitsRow) (hroot : logits[0]? = some root) (longest : IsLongest logits tree []) :
    RowVerified logits tree [] root.argmax
  | next (q : List (Node ℕ)) (last : Node ℕ) (row : LogitsRow)
    (longest : IsLongest logits tree (q ++ [last])) (hrow : logits[last.position + 1]? = some row)
    (hzero : row.zero = false) : RowVerified logits tree (q ++ [last]) row.argmax
  /-- The row of the last node is zero: the node itself is not kept. -/
  | pruned (q : List (Node ℕ)) (last : Node ℕ) (row : LogitsRow)
    (longest : IsLongest logits tree (q ++ [last])) (hrow : logits[last.position + 1]? = some row)
    (hzero : row.zero = true) : RowVerified logits tree q last.token

/-- `l` is `l'`, filled up with -1. -/
def PaddedTo (l l' : List ℤ) : Prop := ∃ k, l = l' ++ List.replicate k (-1)

theorem padIds_get {rows : List (List ℤ)} {b : ℕ} {r : List ℤ} (h : rows[b]? = some r) :
    ∃ r', (padIds rows)[b]? = some r' ∧ PaddedTo r' r := by
  rw [padIds, List.getElem?_map, h]
  exact ⟨_, rfl, _, rfl⟩

theorem verifyBatchRow_spec {logits : List LogitsRow} {tree : Forest ℕ} {treeLen : ℕ}
    (hlen : logits.length = 1 + treeLen) (hsize : tree.size ≤ treeLen) (actualLen : ℕ) :
    ∃ kept llmToken, verifyBatchRow treeLen false ⟨logits, tree.leafNodePaths, actualLen⟩ =
        some ⟨kept, slotsOf actualLen kept, llmToken⟩ ∧ RowVerified logits tree kept llmToken := by
  have hlongest := bestOf_isLongest logits tree actualLen
  rw [verifyBatchRow]
  rcases List.eq_nil_or_concat' (bestOf ⟨logits, tree.leafNodePaths, actualLen⟩) with
    hbest | ⟨q, last, hbest⟩
  · rw [hbest] at hlongest ⊢
    obtain ⟨root, hroot⟩ : ∃ root, logits[0]? = some root :=
      ⟨_, List.getElem?_eq_getElem (by omega)⟩
    refine ⟨[], root.argmax, ?_, .none root hroot hlongest⟩
    have hfallback : fallbackLogits logits (logits.length - treeLen) = some root := by
      rw [fallbackLogits, show logits.length - treeLen = 1 by omega, if_pos Nat.one_pos, hroot]
      rfl
    simp only [List.getLast?_nil, Bool.false_eq_true, if_false, hfallback, Option.bind_eq_bind,
      Option.bind_some]
    rfl
  · rw [hbest] at hlongest ⊢
    have hpath : IsPathFrom 0 tree (q ++ [last]) := by
      obtain ⟨p, hp, hpre⟩ := hlongest.isPrefix
      exact (leafNodePaths_isPath tree p hp).shorten hpre
    have hpos := (hpath.positions.2 last (by simp)).2
    obtain ⟨row, hrow⟩ : ∃ row, logits[last.position + 1]? = some row :=
      ⟨_, List.getElem?_eq_getElem (by omega)⟩
    simp only [List.getLast?_concat, hrow, Option.bind_eq_bind, Option.bind_some,
      List.dropLast_concat]
    cases hzero : row.zero with
    | true => exact ⟨q, last.token, rfl, .pruned q last row hlongest hrow hzero⟩
    | false => exact ⟨q ++ [last], row.argmax, rfl, .next q last row hlongest hrow hzero⟩

/-- One greedy round over a batch of trees. -/
theorem greedy_round_longest (batch : List (Forest ℕ × List LogitsRow × ℕ)) (hne : batch ≠ [])
    (treeLen : ℕ) (hbatch : ∀ r ∈ batch, r.2.1.length = 1 + treeLen ∧ r.1.size ≤ treeLen) :
    ∃ out, extractBestVerifiedPathsFixed treeLen false
        (batch.map fun r => ⟨r.2.1, r.1.leafNodePaths, r.2.2⟩) = some out ∧
      ∀ (b : ℕ) tree logits actualLen, batch[b]? = some (tree, logits, actualLen) →
        ∃ kept llmToken, RowVerified logits tree kept llmToken ∧
          out.llmGeneratedTokens[b]? = some llmToken ∧
          out.validLengths[b]? = some kept.length ∧
          (∃ ids, out.kvCachePositionIds[b]? = some ids ∧
            PaddedTo ids (slotsOf actualLen kept)) ∧
          match out.verifiedTokens with
          | some tokens => ∃ row, tokens[b]? = some row ∧
              PaddedTo row (kept.map fun n => (n.token : ℤ))
          | none => kept = [] := by
  obtain ⟨rows, hrows, hlen, hspec⟩ := Fallible.mapM_total
    (l := batch.map fun r => (⟨r.2.1, r.1.leafNodePaths, r.2.2⟩ : VerifyInput))
    (f := verifyBatchRow treeLen false)
    (g := fun b row => ∀ tree logits actualLen, batch[b]? = some (tree, logits, actualLen) →
      row.positions = slotsOf actualLen row.kept ∧ RowVerified logits tree row.kept row.llmToken)
    fun b input hinput => by
      rw [List.getElem?_map, Option.map_eq_some_iff] at hinput
      obtain ⟨⟨tree, logits, actualLen⟩, hb, rfl⟩ := hinput
      obtain ⟨hlogits, hsize⟩ := hbatch _ (List.mem_of_getElem? hb)
      obtain ⟨kept, llmToken, hrow, hver⟩ := verifyBatchRow_spec hlogits hsize actualLen
      refine ⟨_, hrow, fun tree' logits' actualLen' hb' => ?_⟩
      obtain ⟨rfl, rfl, rfl⟩ : tree = tree' ∧ logits = logits' ∧ actualLen = actualLen' := by
        simpa using hb.symm.trans hb'
      exact ⟨rfl, hver⟩
  rw [List.length_map] at hlen
  have hrows_ne : rows.isEmpty = false := by
    rw [List.isEmpty_eq_false_iff, ← List.length_pos_iff, hlen]
    exact List.length_pos_iff.mpr hne
  rw [extractBestVerifiedPathsFixed]
  simp only [hrows, hrows_ne, Option.bind_eq_bind, Option.bind_some, Bool.false_eq_true, if_false]
  refine ⟨_, rfl, fun b tree logits actualLen hb => ?_⟩
  obtain ⟨row, hrow⟩ : ∃ row, rows[b]? = some row :=
    ⟨_, List.getElem?_eq_getElem (by have := (List.getElem?_eq_some_iff.mp hb).1; omega)⟩
  obtain ⟨hpositions, hver⟩ := hspec b row hrow tree logits actualLen hb
  refine ⟨row.kept, row.llmToken, hver, ?_, ?_, ?_, ?_⟩
  · rw [List.getElem?_map, hrow]
    rfl
  · rw [List.getElem?_map, hrow]
    rfl
  · rw [← hpositions]
    exact padIds_get (by rw [List.getElem?_map, hrow]; rfl)
  · have htokens : (rows.map fun r => r.kept.map fun n => (n.token : ℤ))[b]? =
        some (row.kept.map fun n => (n.token : ℤ)) := by
      rw [List.getElem?_map, hrow]
      rfl
    split_ifs with hmax
    · exact padIds_get htokens
    · -- all rows are empty
      have hle := List.le_max_of_le' 0 (List.mem_map_of_mem (f := List.length)
        (List.mem_of_getElem? htokens)) (Nat.le_refl _)
      rw [List.length_map] at hle
      exact List.length_eq_zero_iff.mp (by omega)

def twoRows : List (Forest ℕ × List LogitsRow × ℕ) :=
  [(.cons 7 .nil (.cons 8 .nil .nil), [⟨8, false⟩, ⟨1, false⟩, ⟨9, false⟩], 4),
    (.nil, [⟨5, false⟩, ⟨1, false⟩, ⟨1, false⟩], 2)]

theorem greedy_round_longest_two : ∃ out, extractBestVerifiedPathsFixed 2 false
      (twoRows.map fun r => ⟨r.2.1, r.1.leafNodePaths, r.2.2⟩) = some out ∧
    ∃ kept llmToken, RowVerified [⟨8, false⟩, ⟨1, false⟩, ⟨9, false⟩]
        (.cons 7 .nil (.cons 8 .nil .nil)) kept llmToken ∧
      out.llmGeneratedTokens[0]? = some llmToken := by
  obtain ⟨out, hout, hrows⟩ := greedy_round_longest twoRows (List.cons_ne_nil _ _) 2 (by decide)
  obtain ⟨kept, llmToken, hver, hllm, -⟩ := hrows 0 _ _ _ rfl
  exact ⟨out, hout, kept, llmToken, hver, hllm⟩

/-- A drafted token that the root predicts, and whose own row is zero, is not kept: the kept path
is not the longest one. -/
theorem longest_path_not_kept : ¬ ∀ (tree : Forest ℕ) (logits : List LogitsRow)
    (treeLen actualLen : ℕ), logits.length = 1 + treeLen → tree.size ≤ treeLen →
      ∃ out accepted, extractBestVerifiedPathsFixed treeLen false
          [⟨logits, tree.leafNodePaths, actualLen⟩] = some out ∧
        IsLongest logits tree accepted ∧ out.validLengths = [accepted.length] ∧
        out.kvCachePositionIds = [slotsOf actualLen accepted] := by
  intro h
  obtain ⟨out, accepted, hout, hlongest, hlen, -⟩ :=
    h (.cons 7 .nil .nil) [⟨7, false⟩, ⟨0, true⟩] 1 3 rfl (by decide)
  have hresult : extractBestVerifiedPathsFixed 1 false
      [⟨[⟨7, false⟩, ⟨0, true⟩], (Forest.cons 7 .nil .nil).leafNodePaths, 3⟩] =
        some ⟨none, [[2]], [7], [0]⟩ := by decide
  rw [hresult, Option.some.injEq] at hout
  subst hout
  have hnil : accepted.length = 0 := by simpa using hlen.symm
  have hbound := hlongest.longest [⟨7, 0⟩] (by decide) [⟨7, 0⟩] List.prefix_rfl
    ⟨⟨⟨7, false⟩, rfl, rfl⟩, trivial⟩
  rw [hnil] at hbound
  exact absurd hbound (by decide)

end BloomBee.Speculative
