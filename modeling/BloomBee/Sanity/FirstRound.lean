import BloomBee.Lib.Fallible
import BloomBee.Proofs.SpecCache
import BloomBee.Proofs.TreeBatch
import BloomBee.Proofs.VerifyBatch
import BloomBee.Spec.FirstRound

/-! What the first round does for each row of its batch: the nodes it accepts, the slots of the
client, the mask, and the entries of the cache (`firstRound_spec`). -/

set_option autoImplicit false

namespace BloomBee.Speculative

open RpcInference
open BackendStep (ChunkConfig OneChunk estimateMaxChunkLength_pos oneChunk_iff_le runUncut_eq_some)

/-! ### The verification -/

section Verify

variable {tree : SpeculativeTree} {logits : List LogitsRow} {treeLen : ℕ}

abbrev tokenPaths (tree : SpeculativeTree) : List (List (Node ℕ)) :=
  tree.children.leafNodePaths.map (List.map Node.toToken)

/-- Nodes that are accepted: their positions increase, and they are nodes of the tree. -/
def Accepted (tree : SpeculativeTree) (nodes : List (Node ℕ)) : Prop :=
  (nodes.map Node.position).Pairwise (· < ·) ∧ ∀ n ∈ nodes, n.position < tree.nodes.length

theorem Accepted.of_path {p : List (Node TreeNode)} (hp : p ∈ tree.children.leafNodePaths)
    {nodes : List (Node ℕ)} (h : nodes <+: p.map Node.toToken) : Accepted tree nodes := by
  have hpath := (leafNodePaths_isPath tree.children p hp).positions
  rw [SpeculativeTree.size_children] at hpath
  have hpositions : (p.map Node.toToken).map Node.position = p.map Node.position := by
    rw [List.map_map]
    rfl
  refine ⟨?_, fun n hn => ?_⟩
  · exact List.Pairwise.sublist (h.sublist.map _) (hpositions ▸ hpath.1)
  · obtain ⟨n', hn', rfl⟩ := List.mem_map.mp (h.subset hn)
    have := (hpath.2 n' hn').2
    rw [Nat.zero_add] at this
    exact this

theorem bestOf_accepted (actualLen : ℕ) :
    Accepted tree (bestOf ⟨logits, tokenPaths tree, actualLen⟩) := by
  rw [bestOf]
  rcases bestVerified_mem logits.length (predictedRow logits) (tokenPaths tree) with h | ⟨p, hp, h⟩
  · rw [h]
    exact ⟨List.Pairwise.nil, List.forall_mem_nil _⟩
  · obtain ⟨q, hq, rfl⟩ := List.mem_map.mp hp
    rw [h]
    exact .of_path hq (verifyPath_isPrefix _ _ _ _)

/-- A row of the first round is verified, and its position ids are those of the kept nodes. -/
theorem verifyBatchRow_first (hsize : tree.nodes.length ≤ treeLen) (hlen : treeLen < logits.length)
    (actualLen : ℕ) :
    ∃ kept llmToken, verifyBatchRow treeLen true ⟨logits, tokenPaths tree, actualLen⟩ =
        some ⟨kept, slotsOf actualLen kept, llmToken⟩ ∧ Accepted tree kept ∧
      ((∀ row ∈ logits, row.zero = false) →
        kept = bestOf ⟨logits, tokenPaths tree, actualLen⟩) := by
  have hbest := @bestOf_accepted tree logits actualLen
  rw [verifyBatchRow]
  simp only
  cases hlast : (bestOf ⟨logits, tokenPaths tree, actualLen⟩).getLast? with
  | some last =>
    have hpos := hbest.2 last (List.mem_of_getLast? hlast)
    have hrow : logits[last.position + 1]? = some logits[last.position + 1] :=
      List.getElem?_eq_getElem (by omega)
    simp only [hrow, Option.bind_eq_bind, Option.bind_some]
    split_ifs with hzero
    · refine ⟨_, _, rfl, ⟨hbest.1.sublist ((List.dropLast_sublist _).map _),
        fun n hn => hbest.2 n (List.dropLast_subset _ hn)⟩, fun h => ?_⟩
      rw [h _ (List.getElem_mem _)] at hzero
      cases hzero
    · exact ⟨_, _, rfl, hbest, fun _ => rfl⟩
  | none =>
    have hnil := List.getLast?_eq_none_iff.mp hlast
    obtain ⟨row, hrow⟩ : ∃ row, fallbackLogits logits actualLen = some row := by
      rw [fallbackLogits, List.getLast?_eq_some_getLast (List.ne_nil_of_length_pos (by omega))]
      exact Option.isSome_iff_exists.mp (by simp)
    simp only [if_true, hrow, Option.bind_eq_bind, Option.bind_some]
    exact ⟨_, _, rfl, ⟨List.Pairwise.nil, List.forall_mem_nil _⟩, fun _ => hnil.symm⟩

theorem exists_path_cons (node : TreeNode) (children siblings : Forest TreeNode) :
    ∃ rest, ⟨node, 0⟩ :: rest ∈ (Forest.cons node children siblings).leafNodePaths := by
  cases children with
  | nil => exact ⟨[], List.mem_cons_self⟩
  | cons token children' siblings' =>
    obtain ⟨p, hp⟩ := List.exists_mem_of_ne_nil _
      (leafPathsFrom_ne_nil token children' siblings' 1)
    exact ⟨p, List.mem_append_left _ (List.mem_map_of_mem hp)⟩

/-- If every row predicts the first child of the root, some node is accepted. -/
theorem bestOf_ne_nil {node : TreeNode} {children siblings : Forest TreeNode}
    (htree : tree.children = .cons node children siblings) (hne : logits ≠ [])
    (hargmax : ∀ row ∈ logits, row.argmax = node.tokenId) (actualLen : ℕ) :
    bestOf ⟨logits, tokenPaths tree, actualLen⟩ ≠ [] := by
  obtain ⟨rest, hrest⟩ := exists_path_cons node children siblings
  have hlen := List.length_pos_iff.mpr hne
  have hrow : logits[0]? = some logits[0] := List.getElem?_eq_getElem hlen
  have hle := le_bestVerified logits.length (predictedRow logits) (tokenPaths tree) _
    (List.mem_map_of_mem (htree ▸ hrest))
  rw [List.map_cons, verifyPath, if_neg (by omega), if_pos] at hle
  · exact List.length_pos_iff.mp (Nat.lt_of_lt_of_le (Nat.succ_pos _) hle)
  · rw [predictedRow, hrow]
    exact hargmax _ (List.getElem_mem _)

end Verify

/-! ### The request -/

theorem PaddedPrompt.seqLength_pos (row : PaddedPrompt) : 0 < row.seqLength := by
  rw [PaddedPrompt.seqLength, PaddedPrompt.inputIds, List.countP_pos_iff]
  simpa using row.counted

namespace FirstBatch

variable (batch : FirstBatch)

def requestLen : ℕ := batch.maxSeqLen + maxTreeNodes batch.trees

variable {batch} {b : ℕ} {row : PaddedPrompt}

theorem seqLengths_get (hrow : batch.rows[b]? = some row) :
    batch.seqLengths[b]? = some row.seqLength := by
  rw [seqLengths, List.getElem?_map, hrow]
  rfl

theorem seqLength_le_maxSeqLen (hrow : row ∈ batch.rows) : row.seqLength ≤ batch.maxSeqLen :=
  List.le_max_of_le' 0 (List.mem_map_of_mem hrow) (Nat.le_refl _)

variable (batch)

theorem maxSeqLen_le_width : batch.maxSeqLen ≤ batch.width := by
  apply List.max_le_of_forall_le
  intro l hl
  obtain ⟨row, hrow, rfl⟩ := List.mem_map.mp hl
  rw [← batch.rect row hrow]
  exact List.countP_le_length

theorem args_describes : batch.args.Describes batch.trees.length := by
  refine ⟨fun b hb => ?_, fun h => by cases h⟩
  rw [batch.size] at hb
  have hrow := List.getElem?_eq_getElem hb
  refine ⟨_, seqLengths_get hrow, ?_, fun _ => ?_⟩
  · exact batch.rows[b].seqLength_pos
  · exact (seqLength_le_maxSeqLen (List.getElem_mem hb)).trans batch.maxSeqLen_le_width

end FirstBatch

/-- What a row of the batch is made of in the prefill phase. -/
theorem batchRow_prefill {args : BatchArgs} {maxTreeSize b seqLen : ℕ} {tree : SpeculativeTree}
    {row : BatchRow} (h : batchRow args maxTreeSize tree b = some row)
    (hphase : args.isPrefill = true) (hseq : args.currSeqLen b = some seqLen) :
    row.nodePaths = tree.children.leafNodePaths ∧
      row.tokens = tree.nodes.map TreeNode.tokenId ++
        List.replicate (maxTreeSize - tree.nodes.length) args.padTokenId ∧
      ∃ treeMask, prefillMask args.inputLen seqLen maxTreeSize tree.nodes.length treeMask =
        some row.mask := by
  rw [batchRow] at h
  simp only [hseq, hphase, tree.linearize_nodes, tree.linearize_parentIndices, List.length_map,
    if_true, Option.bind_eq_bind, Option.bind_some, Option.bind_eq_some_iff] at h
  obtain ⟨treeMask, -, mask, hmask, h⟩ := h
  cases h
  exact ⟨rfl, rfl, treeMask, hmask⟩

theorem origins_get {fullSequence : List (List ℕ)} {b c : ℕ} {row : List ℕ}
    (hrow : fullSequence[b]? = some row) (hc : c < row.length) :
    ∃ entries, (origins fullSequence)[b]? = some entries ∧ entries.length = row.length ∧
      entries[c]? = some (some (b, c)) := by
  refine ⟨row.mapIdx fun c _ => some (b, c), ?_, List.length_mapIdx, ?_⟩
  · rw [origins, List.getElem?_mapIdx, hrow]
    rfl
  · rw [List.getElem?_mapIdx, List.getElem?_eq_getElem hc]
    rfl

/-! ### What the round does -/

def FirstBatch.Drafted (batch : FirstBatch) : Prop := ∃ tree ∈ batch.trees, tree.nodes ≠ []

/-- There is room in the cache, and the model returns logits for every column of the request. -/
structure FirstBatch.Served (batch : FirstBatch) (slab : Slab Origin)
    (logits : List (List LogitsRow)) : Prop where
  rows : batch.rows.length ≤ slab.batch
  room : batch.requestLen ≤ slab.seqLen
  size : logits.length = batch.rows.length
  logits : ∀ row ∈ logits, row.length = batch.requestLen

structure RowRun (batch : FirstBatch) (run : FirstRound) (b : ℕ) (row : PaddedPrompt)
    (tree : SpeculativeTree) (logits : List LogitsRow) (accepted : List (Node ℕ)) : Prop where
  nodes : Accepted tree accepted
  best : (∀ r ∈ logits, r.zero = false) →
    accepted = bestOf ⟨logits, tokenPaths tree, row.seqLength⟩
  ids : ∃ ids, run.kvCachePositionIds[b]? = some ids ∧
    PaddedTo ids (slotsOf row.seqLength accepted)
  mask : ∃ treeMask mask, prefillMask batch.width row.seqLength (maxTreeNodes batch.trees)
      tree.nodes.length treeMask = some mask ∧
    run.masks[b]? = some (alignMask mask batch.requestLen batch.requestLen) ∧
      PrefillExact batch.width row.seqLength tree mask

section

variable {batch : FirstBatch} {slab : Slab Origin} {logits : List (List LogitsRow)}

theorem FirstBatch.drafted_iff :
    batch.Drafted ↔ ¬ ∀ tree ∈ batch.trees, tree.totalNodes ≤ 1 := by
  rw [FirstBatch.Drafted]
  push Not
  refine exists_congr fun tree => and_congr_right fun _ => ?_
  have := tree.nodes_length
  rw [← List.length_pos_iff]
  omega

theorem verifyInputs_get {nodePaths : List (List (List (Node TreeNode)))} {b : ℕ}
    {rowLogits : List LogitsRow} {paths : List (List (Node TreeNode))} {row : PaddedPrompt}
    (hlogits : logits[b]? = some rowLogits) (hpaths : nodePaths[b]? = some paths)
    (hrow : batch.rows[b]? = some row) :
    (batch.verifyInputs nodePaths logits)[b]? =
      some ⟨rowLogits, paths.map (List.map Node.toToken), row.seqLength⟩ := by
  have hzip : (logits.zip (nodePaths.zip batch.seqLengths))[b]? =
      some (rowLogits, paths, row.seqLength) :=
    List.getElem?_zip_eq_some.mpr
      ⟨hlogits, List.getElem?_zip_eq_some.mpr ⟨hpaths, FirstBatch.seqLengths_get hrow⟩⟩
  rw [FirstBatch.verifyInputs, List.getElem?_map, hzip]
  rfl

theorem verifyInputs_length {nodePaths : List (List (List (Node TreeNode)))}
    (hlogits : logits.length = batch.rows.length) (hpaths : nodePaths.length = batch.rows.length) :
    (batch.verifyInputs nodePaths logits).length = batch.rows.length := by
  rw [FirstBatch.verifyInputs, FirstBatch.seqLengths, List.length_map, List.length_zip,
    List.length_zip, List.length_map]
  omega

/-- The cache after the write: every column of the request at the slot of its own number. -/
theorem doReorderTask_origins {treeTokens : List (List ℕ)}
    (hsize : treeTokens.length = batch.rows.length)
    (htokens : ∀ tokens ∈ treeTokens, tokens.length = maxTreeNodes batch.trees)
    (hroom : batch.requestLen ≤ slab.seqLen) (hpos : 0 < batch.requestLen) :
    (doReorderTask none slab 0 [] batch.requestLen
        (origins (batch.fullSequence treeTokens))).seqLen = slab.seqLen ∧
      ∀ b < batch.rows.length, ∀ c < batch.requestLen,
        ((doReorderTask none slab 0 [] batch.requestLen
          (origins (batch.fullSequence treeTokens))).row b)[c]? = some (some (b, c)) := by
  have hwidth : ∀ row ∈ batch.fullSequence treeTokens, row.length = batch.requestLen := by
    intro row hrow
    obtain ⟨b, hb, rfl⟩ := List.mem_iff_getElem.mp hrow
    simp only [FirstBatch.fullSequence, List.getElem_zipWith, List.length_append,
      List.length_take, FirstBatch.requestLen]
    rw [batch.rect _ (List.getElem_mem _), htokens _ (List.getElem_mem _),
      Nat.min_eq_left batch.maxSeqLen_le_width]
  have hentries : ∀ entries ∈ origins (batch.fullSequence treeTokens),
      entries.length = batch.requestLen := by
    intro entries h
    obtain ⟨b, hb, rfl⟩ := List.mem_mapIdx.mp h
    rw [List.length_mapIdx]
    exact hwidth _ (List.getElem_mem _)
  have htask : doReorderTask none slab 0 [] batch.requestLen
      (origins (batch.fullSequence treeTokens)) =
        LiveDecode.place slab
          (LiveDecode.rowsFrom 0 0 (origins (batch.fullSequence treeTokens))) := by
    have hwrite := @LiveDecode.writeKvs_of_fits _ slab 0 0
      (origins (batch.fullSequence treeTokens)) fun kv hkv => by
        have := hentries kv hkv
        omega
    simp only [doReorderTask]
    rw [if_pos (show cacheLenOf [] = 0 from rfl), hwrite]
    rfl
  rw [htask]
  refine ⟨rfl, fun b hb c hc => ?_⟩
  obtain ⟨row, hrow⟩ : ∃ row, (batch.fullSequence treeTokens)[b]? = some row :=
    ⟨_, List.getElem?_eq_getElem (by
      rw [FirstBatch.fullSequence, List.length_zipWith]
      omega)⟩
  have hlen := hwidth row (List.mem_of_getElem? hrow)
  obtain ⟨entries, hget, hsame, hentry⟩ := @origins_get _ b c row hrow (by omega)
  rw [@place_row_of_some _ slab b _ 0 entries]
  · have hfits : c < (slab.row b).length := by
      rw [slab.row_length]
      omega
    have := @overwrite_get_new _ (slab.row b) entries 0 c (by omega) (by omega)
    rw [Nat.zero_add] at this
    rw [this, hentry]
  · rw [LiveDecode.rowsFrom, if_pos (Nat.zero_le b), Nat.sub_zero, hget]
    rfl

theorem cacheLenOf_le {ids : List (List ℤ)} {n : ℕ} (h : ∀ r ∈ ids, ∀ p ∈ r, p < n) :
    cacheLenOf ids ≤ n := by
  apply List.max_le_of_forall_le
  intro x hx
  obtain ⟨p, hp, rfl⟩ := List.mem_map.mp hx
  obtain ⟨r, hr, hp⟩ := List.mem_flatten.mp hp
  have := h r hr p hp
  omega

theorem clientSlots_lt {tree : SpeculativeTree} {accepted : List (Node ℕ)} {row : PaddedPrompt}
    (hrow : row ∈ batch.rows) (htree : tree ∈ batch.trees) (hnodes : Accepted tree accepted) :
    ∀ s ∈ clientSlots row.seqLength accepted, s < batch.requestLen := by
  have hprompt := FirstBatch.seqLength_le_maxSeqLen hrow
  have hpos := row.seqLength_pos
  have hsize : tree.nodes.length ≤ maxTreeNodes batch.trees := nodes_le_maxTreeSize htree
  intro s hs
  rw [FirstBatch.requestLen]
  rcases List.mem_cons.mp hs with rfl | hs
  · omega
  · obtain ⟨n, hn, rfl⟩ := List.mem_map.mp hs
    have := hnodes.2 n hn
    omega

theorem maxTreeNodes_lt_requestLen : maxTreeNodes batch.trees < batch.requestLen := by
  obtain ⟨row, hrow⟩ := List.exists_mem_of_ne_nil _ batch.nonempty
  have hpos := row.seqLength_pos
  have := FirstBatch.seqLength_le_maxSeqLen hrow
  rw [FirstBatch.requestLen]
  omega

theorem prepared_rows (hdrafted : batch.Drafted) :
    ∃ rows : List BatchRow, prepareIncrementalTreeBatch batch.trees batch.args =
        some ⟨rows.map BatchRow.tokens, some (rows.map BatchRow.mask),
          rows.map BatchRow.nodePaths⟩ ∧
      rows.length = batch.rows.length ∧
      (∀ brow ∈ rows, brow.tokens.length = maxTreeNodes batch.trees) ∧
      ∀ (b : ℕ) row tree, batch.rows[b]? = some row → batch.trees[b]? = some tree →
        ∃ brow, rows[b]? = some brow ∧ brow.nodePaths = tree.children.leafNodePaths ∧
          brow.tokens = tree.nodes.map TreeNode.tokenId ++
            List.replicate (maxTreeNodes batch.trees - tree.nodes.length) batch.args.padTokenId ∧
          (∃ treeMask, prefillMask batch.width row.seqLength (maxTreeNodes batch.trees)
            tree.nodes.length treeMask = some brow.mask) ∧
          PrefillExact batch.width row.seqLength tree brow.mask := by
  obtain ⟨rows, hbatch, hlen, -, hrows⟩ :=
    prepareIncrementalTreeBatch_rows batch.args_describes (FirstBatch.drafted_iff.mp hdrafted)
  rw [batch.size] at hlen
  refine ⟨rows, hbatch, hlen, fun brow hbrow => ?_, fun b row tree hrow htree => ?_⟩
  · obtain ⟨b, hb⟩ := List.getElem?_of_mem hbrow
    obtain ⟨_, -, -, htokens, -⟩ := hrows b brow hb
    exact htokens
  · have hb := (List.getElem?_eq_some_iff.mp hrow).1
    obtain ⟨brow, hbrow⟩ : ∃ brow, rows[b]? = some brow :=
      ⟨_, List.getElem?_eq_getElem (by omega)⟩
    obtain ⟨tree', htree', hget, -, hexact⟩ := hrows b brow hbrow
    obtain rfl := Option.some.inj (htree'.symm.trans htree)
    have hseq : batch.args.currSeqLen b = some row.seqLength :=
      FirstBatch.seqLengths_get hrow
    obtain ⟨hnodePaths, htokens, hmask⟩ := batchRow_prefill hget rfl hseq
    rw [RowExact, if_pos (show batch.args.isPrefill = true from rfl)] at hexact
    obtain ⟨-, seqLen, hseq', hexact⟩ := hexact
    obtain rfl := Option.some.inj (hseq'.symm.trans hseq)
    exact ⟨brow, hbrow, hnodePaths, htokens, hmask, hexact⟩

theorem verified_rows {nodePaths : List (List (List (Node TreeNode)))}
    (hserved : batch.Served slab logits) (hsize : nodePaths.length = batch.rows.length)
    (hpaths : ∀ (b : ℕ) tree, batch.trees[b]? = some tree →
      nodePaths[b]? = some tree.children.leafNodePaths) :
    ∃ verified : List VerifiedRow, (batch.verifyInputs nodePaths logits).mapM
        (verifyBatchRow (maxTreeNodes batch.trees) true) = some verified ∧
      verified.length = batch.rows.length ∧
      ∀ (b : ℕ) v, verified[b]? = some v → ∀ row tree rowLogits, batch.rows[b]? = some row →
        batch.trees[b]? = some tree → logits[b]? = some rowLogits →
          v.positions = slotsOf row.seqLength v.kept ∧ Accepted tree v.kept ∧
            ((∀ r ∈ rowLogits, r.zero = false) →
              v.kept = bestOf ⟨rowLogits, tokenPaths tree, row.seqLength⟩) := by
  have hinputs := @verifyInputs_length batch logits nodePaths hserved.size hsize
  obtain ⟨verified, hverified, hlen, hspec⟩ := Fallible.mapM_total
    (l := batch.verifyInputs nodePaths logits)
    (f := verifyBatchRow (maxTreeNodes batch.trees) true)
    (g := fun b v => ∀ row tree rowLogits, batch.rows[b]? = some row →
      batch.trees[b]? = some tree → logits[b]? = some rowLogits →
        v.positions = slotsOf row.seqLength v.kept ∧ Accepted tree v.kept ∧
          ((∀ r ∈ rowLogits, r.zero = false) →
            v.kept = bestOf ⟨rowLogits, tokenPaths tree, row.seqLength⟩))
    fun b input hinput => by
      have hb : b < batch.rows.length := hinputs ▸ (List.getElem?_eq_some_iff.mp hinput).1
      have hbtree : b < batch.trees.length := batch.size.symm ▸ hb
      have hblogits : b < logits.length := hserved.size.symm ▸ hb
      have hrow := List.getElem?_eq_getElem hb
      have htree := List.getElem?_eq_getElem hbtree
      have hrowLogits := List.getElem?_eq_getElem hblogits
      have hget := verifyInputs_get hrowLogits (hpaths b _ htree) hrow
      obtain rfl := Option.some.inj (hget.symm.trans hinput)
      have hlarge : maxTreeNodes batch.trees < logits[b].length := by
        rw [hserved.logits _ (List.getElem_mem _)]
        exact maxTreeNodes_lt_requestLen
      obtain ⟨kept, llmToken, hkept, hnodes, hbest⟩ := verifyBatchRow_first
        (nodes_le_maxTreeSize (List.getElem_mem _)) hlarge batch.rows[b].seqLength
      refine ⟨_, hkept, fun row' tree' rowLogits' hrow' htree' hlogits' => ?_⟩
      obtain rfl := Option.some.inj (hrow.symm.trans hrow')
      obtain rfl := Option.some.inj (htree.symm.trans htree')
      obtain rfl := Option.some.inj (hrowLogits.symm.trans hlogits')
      exact ⟨rfl, hnodes, hbest⟩
  exact ⟨verified, hverified, hlen.trans hinputs, hspec⟩

theorem headD_length {rows : List BatchRow} (hlen : rows.length = batch.rows.length)
    (htokens : ∀ brow ∈ rows, brow.tokens.length = maxTreeNodes batch.trees) :
    ((rows.map BatchRow.tokens).headD []).length = maxTreeNodes batch.trees := by
  have hpos : 0 < batch.rows.length := List.length_pos_iff.mpr batch.nonempty
  cases rows with
  | nil =>
    rw [List.length_nil] at hlen
    omega
  | cons brow rows => exact htokens brow List.mem_cons_self

theorem firstRound_oneChunk {chunks : ChunkConfig} {run : FirstRound} (hdrafted : batch.Drafted)
    (h : firstRound chunks batch slab logits = some run) :
    OneChunk chunks batch.rows.length batch.requestLen 0 := by
  obtain ⟨rows, hbatch, hlen, htokens, -⟩ := prepared_rows hdrafted
  rw [firstRound, hbatch] at h
  simp only [headD_length hlen htokens, Option.bind_eq_bind, Option.bind_some] at h
  obtain ⟨m, hest, h⟩ := Option.bind_eq_some_iff.mp h
  obtain ⟨new, hnew, -⟩ := Option.bind_eq_some_iff.mp h
  exact (oneChunk_iff_le hest).mpr
    ((runUncut_eq_some (estimateMaxChunkLength_pos hest).1).mp hnew).2.1

/-- The round of a batch with a drafted node, in one chunk. -/
theorem firstRound_spec {chunks : ChunkConfig} (hdrafted : batch.Drafted)
    (hone : OneChunk chunks batch.rows.length batch.requestLen 0)
    (hserved : batch.Served slab logits) :
    ∃ run, firstRound chunks batch slab logits = some run ∧
      run.accepted.length = batch.rows.length ∧ run.slab.seqLen = slab.seqLen ∧
      (∀ b < batch.rows.length, ∀ c < batch.requestLen,
        (run.slab.row b)[c]? = some (some (b, c))) ∧
      cacheLenOf run.kvCachePositionIds ≤ batch.requestLen ∧
      ∀ (b : ℕ) row tree rowLogits accepted, batch.rows[b]? = some row →
        batch.trees[b]? = some tree → logits[b]? = some rowLogits →
          run.accepted[b]? = some accepted → RowRun batch run b row tree rowLogits accepted := by
  obtain ⟨rows, hbatch, hlen, htokens, hrows⟩ := prepared_rows hdrafted
  have hpaths : ∀ (b : ℕ) tree, batch.trees[b]? = some tree →
      (rows.map BatchRow.nodePaths)[b]? = some tree.children.leafNodePaths := by
    intro b tree htree
    have hb := (List.getElem?_eq_some_iff.mp htree).1
    rw [batch.size] at hb
    obtain ⟨brow, hbrow, hnodePaths, -⟩ := hrows b _ tree (List.getElem?_eq_getElem hb) htree
    rw [List.getElem?_map, hbrow, Option.map_some, hnodePaths]
  obtain ⟨verified, hverified, hvlen, hspec⟩ :=
    verified_rows hserved (by rw [List.length_map, hlen]) hpaths
  have hpos : 0 < batch.rows.length := List.length_pos_iff.mpr batch.nonempty
  have hlong : 0 < batch.requestLen := Nat.lt_of_le_of_lt (Nat.zero_le _) maxTreeNodes_lt_requestLen
  have hne : verified.isEmpty = false := by
    rw [List.isEmpty_eq_false_iff, ← List.length_pos_iff, hvlen]
    exact hpos
  obtain ⟨hseqLen, hstored⟩ := @doReorderTask_origins batch slab (rows.map BatchRow.tokens)
    (by rw [List.length_map, hlen]) (by simpa using htokens) hserved.room hlong
  obtain ⟨m, hest, hle⟩ := hone
  rw [Option.mem_def, FirstBatch.requestLen] at hest
  have hnew := (@runUncut_eq_some _ _ m (origins (batch.fullSequence (rows.map BatchRow.tokens))) _
    (estimateMaxChunkLength_pos hest).1).mpr ⟨hlong, hle, rfl⟩
  rw [FirstBatch.requestLen] at hnew
  rw [firstRound, hbatch]
  simp only [headD_length hlen htokens, hest, hnew, hverified, extractBestVerifiedPathsFixed, hne,
    Option.bind_eq_bind, Option.bind_some, Bool.false_eq_true, if_false]
  refine ⟨_, rfl, by rw [List.length_map, hvlen], hseqLen, hstored, ?_,
    fun b row tree rowLogits accepted hrow htree hlogits haccepted => ?_⟩
  · refine cacheLenOf_le fun r hr p hp => ?_
    obtain ⟨positions, hpositions, rfl⟩ := List.mem_map.mp hr
    obtain ⟨v, hv, rfl⟩ := List.mem_map.mp hpositions
    obtain ⟨b, hv⟩ := List.getElem?_of_mem hv
    have hb : b < batch.rows.length := hvlen ▸ (List.getElem?_eq_some_iff.mp hv).1
    have hbtree : b < batch.trees.length := batch.size.symm ▸ hb
    have hblogits : b < logits.length := hserved.size.symm ▸ hb
    obtain ⟨hslots, hnodes, -⟩ := hspec b v hv _ _ _ (List.getElem?_eq_getElem hb)
      (List.getElem?_eq_getElem hbtree) (List.getElem?_eq_getElem hblogits)
    rcases List.mem_append.mp hp with hp | hp
    · rw [hslots, slotsOf_eq (batch.rows[b].seqLength_pos)] at hp
      obtain ⟨s, hs, rfl⟩ := List.mem_map.mp hp
      have := clientSlots_lt (List.getElem_mem hb) (List.getElem_mem hbtree) hnodes s hs
      omega
    · rw [List.eq_of_mem_replicate hp]
      omega
  · rw [List.getElem?_map, Option.map_eq_some_iff] at haccepted
    obtain ⟨v, hv, rfl⟩ := haccepted
    obtain ⟨hpositions, hnodes, hbest⟩ := hspec b v hv row tree rowLogits hrow htree hlogits
    obtain ⟨brow, hbrow, -, -, ⟨treeMask, hmask⟩, hexact⟩ := hrows b row tree hrow htree
    refine ⟨hnodes, hbest, ?_, treeMask, brow.mask, hmask, ?_, hexact⟩
    · rw [← hpositions]
      exact padIds_get (by rw [List.getElem?_map, hv]; rfl)
    · rw [List.getElem?_map, List.getElem?_map, hbrow]
      rfl

/-- The columns of the request are the ids that count and the tokens of the nodes. -/
theorem fullSequence_columns (hdrafted : batch.Drafted) :
    ∃ prepared, prepareIncrementalTreeBatch batch.trees batch.args = some prepared ∧
      ∀ (b : ℕ) row tree, batch.rows[b]? = some row → batch.trees[b]? = some tree →
        ∃ request, (batch.fullSequence prepared.treeTokens)[b]? = some request ∧
          (∀ c < row.seqLength, request[c]? = row.inputIds[c]?) ∧
          ∀ (j : ℕ) n, tree.nodes[j]? = some n →
            request[batch.maxSeqLen + j]? = some n.tokenId := by
  obtain ⟨rows, hbatch, -, -, hrows⟩ := prepared_rows hdrafted
  refine ⟨_, hbatch, fun b row tree hrow htree => ?_⟩
  obtain ⟨brow, hbrow, -, htokens, -⟩ := hrows b row tree hrow htree
  have hmem := List.mem_of_getElem? hrow
  have htake : (row.inputIds.take batch.maxSeqLen).length = batch.maxSeqLen := by
    rw [List.length_take, batch.rect row hmem, Nat.min_eq_left batch.maxSeqLen_le_width]
  refine ⟨row.inputIds.take batch.maxSeqLen ++ brow.tokens, ?_, fun c hc => ?_, fun j n hn => ?_⟩
  · rw [FirstBatch.fullSequence, List.getElem?_zipWith, hrow, List.getElem?_map, hbrow]
    rfl
  · have := FirstBatch.seqLength_le_maxSeqLen hmem
    rw [List.getElem?_append_left (by omega), List.getElem?_take_of_lt (by omega)]
  · have hj := (List.getElem?_eq_some_iff.mp hn).1
    rw [List.getElem?_append_right (by omega), htake, Nat.add_sub_cancel_left, htokens,
      List.getElem?_append_left (by rwa [List.length_map]), List.getElem?_map, hn]
    rfl

end

end BloomBee.Speculative
