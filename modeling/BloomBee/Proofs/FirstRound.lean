import BloomBee.Sanity.FirstRound

/-! The first round. The server writes the trees behind the longest prompt, the client counts their
slots from the end of each prompt, and the mask has them behind the width of the padded prompts.
The three agree exactly when a row with a drafted node is as long as the padded prompts, and the
request is one chunk (`first_round_agrees_iff`). -/

set_option autoImplicit false

namespace BloomBee.Speculative

open RpcInference
open BackendStep (ChunkConfig OneChunk)

/-- A row after the round. What the columns of the request are is said in `fullSequence_columns`. -/
structure RowAgrees (batch : FirstBatch) (run : FirstRound) (b : ℕ) (row : PaddedPrompt)
    (tree : SpeculativeTree) (accepted : List (Node ℕ)) : Prop where
  /-- The slots that the client gives the root and the accepted nodes hold their entries. -/
  slots : ∃ (ids : List ℤ) (positions : List ℕ), run.kvCachePositionIds[b]? = some ids ∧
    PaddedTo ids (positions.map (Nat.cast : ℕ → ℤ)) ∧
      positions.map (fun s => (run.slab.row b)[s]?) =
        ((row.prompt.length - 1) :: accepted.map fun n => batch.maxSeqLen + n.position).map
          fun c => some (some (b, c))
  /-- The mask is that of the request. -/
  mask : ∃ mask, run.masks[b]? = some mask ∧ mask.rows = batch.requestLen ∧
    mask.cols = batch.requestLen ∧ PrefillExact batch.maxSeqLen row.prompt.length tree mask
  /-- The inputs of the next round attend to the prompt and to the accepted nodes. -/
  attended : ∀ (maxSize : ℕ) (next : Forest Origin) (i : ℕ),
    attendedSlots run.slab run.kvCachePositionIds maxSize b next i =
      (List.range row.prompt.length ++ accepted.map fun n => batch.maxSeqLen + n.position).map
        fun c => some (b, c)

def FirstRoundAgrees (chunks : ChunkConfig) (batch : FirstBatch) : Prop :=
  ∀ (slab : Slab Origin) (logits : List (List LogitsRow)), batch.Served slab logits →
    ∃ run, firstRound chunks batch slab logits = some run ∧
      run.accepted.length = batch.rows.length ∧
      ∀ (b : ℕ) row tree accepted, batch.rows[b]? = some row → batch.trees[b]? = some tree →
        run.accepted[b]? = some accepted → RowAgrees batch run b row tree accepted

/-- The ids that count are as many as the tokens of each prompt, the prompts are not padded beyond
the longest of them, and a row with a drafted node is as long as that. There is such a row, and
the request is a single chunk. -/
structure FirstRoundFits (chunks : ChunkConfig) (batch : FirstBatch) : Prop where
  drafted : batch.Drafted
  oneChunk : OneChunk chunks batch.rows.length batch.requestLen 0
  counted : ∀ row ∈ batch.rows, row.seqLength = row.prompt.length
  width : batch.width = batch.maxSeqLen
  full : ∀ (b : ℕ) row tree, batch.rows[b]? = some row → batch.trees[b]? = some tree →
    tree.nodes ≠ [] → row.prompt.length = batch.maxSeqLen

section

variable {chunks : ChunkConfig} {batch : FirstBatch} {run : FirstRound} {b : ℕ} {row : PaddedPrompt}
  {tree : SpeculativeTree} {logits : List LogitsRow} {accepted : List (Node ℕ)}

/-- What the next round attends to, by the slots of the client. -/
theorem attended_first (hrun : RowRun batch run b row tree logits accepted)
    (hrow : batch.rows[b]? = some row) (htree : batch.trees[b]? = some tree)
    (hstored : ∀ c < batch.requestLen, (run.slab.row b)[c]? = some (some (b, c)))
    (hfits : cacheLenOf run.kvCachePositionIds ≤ run.slab.seqLen) (maxSize : ℕ)
    (next : Forest Origin) (i : ℕ) :
    attendedSlots run.slab run.kvCachePositionIds maxSize b next i =
      (List.range row.seqLength ++ accepted.map fun n => row.seqLength + n.position).map
        fun c => some (b, c) := by
  obtain ⟨ids, hids, k, rfl⟩ := hrun.ids
  have hpos := row.seqLength_pos
  have hlt := clientSlots_lt (List.mem_of_getElem? hrow) (List.mem_of_getElem? htree) hrun.nodes
  rw [slotsOf_eq hpos] at hids
  have hslots : List.range (row.seqLength - 1) ++ clientSlots row.seqLength accepted =
      List.range row.seqLength ++ accepted.map fun n => row.seqLength + n.position := by
    rw [clientSlots, List.append_cons, ← List.range_succ,
      Nat.succ_eq_add_one, Nat.sub_add_cancel hpos]
  have hsorted : (List.range (row.seqLength - 1) ++
      clientSlots row.seqLength accepted).Pairwise (· < ·) := by
    refine List.pairwise_append.mpr ⟨List.pairwise_lt_range,
      clientSlots_sorted hpos hrun.nodes.1, fun c hc s hs => ?_⟩
    rw [List.mem_range] at hc
    rcases List.mem_cons.mp hs with rfl | hs
    · exact hc
    · obtain ⟨n, -, rfl⟩ := List.mem_map.mp hs
      omega
  have hin : ∀ s ∈ List.range row.seqLength ++
      accepted.map (fun n => row.seqLength + n.position), s < batch.requestLen := by
    intro s hs
    rw [← hslots] at hs
    rcases List.mem_append.mp hs with hs | hs
    · have := hlt _ List.mem_cons_self
      rw [List.mem_range] at hs
      omega
    · exact hlt s hs
  rw [attended_slots hids hsorted hfits next i, ← clientSlots, hslots]
  refine Eq.trans (List.filterMap_congr fun s hs => hstored s (hin s hs)) ?_
  exact congrFun List.filterMap_eq_map _

theorem alignMask_entry (mask : BoolMatrix) (expectedRows expectedCols : ℕ) :
    (alignMask mask expectedRows expectedCols).entry = mask.entry := by
  rw [alignMask]
  split_ifs <;> rfl

/-- Where the client counts the accepted nodes as the request does, the row agrees. -/
theorem rowAgrees_of_fits (hfit : FirstRoundFits chunks batch)
    (hrun : RowRun batch run b row tree logits accepted)
    (hrow : batch.rows[b]? = some row) (htree : batch.trees[b]? = some tree)
    (hstored : ∀ c < batch.requestLen, (run.slab.row b)[c]? = some (some (b, c)))
    (hfits : cacheLenOf run.kvCachePositionIds ≤ run.slab.seqLen) :
    RowAgrees batch run b row tree accepted := by
  have hmem := List.mem_of_getElem? hrow
  have hpos := row.seqLength_pos
  have hcounted := hfit.counted row hmem
  have hcolumns : (accepted.map fun n => row.seqLength + n.position) =
      accepted.map fun n => batch.maxSeqLen + n.position := by
    apply List.map_congr_left
    intro n hn
    have hne : tree.nodes ≠ [] :=
      List.ne_nil_of_length_pos (Nat.lt_of_le_of_lt (Nat.zero_le _) (hrun.nodes.2 n hn))
    rw [hcounted, hfit.full b row tree hrow htree hne]
  refine ⟨?_, ?_, ?_⟩
  · obtain ⟨ids, hids, hpadded⟩ := hrun.ids
    rw [slotsOf_eq hpos] at hpadded
    refine ⟨ids, _, hids, hpadded, ?_⟩
    rw [← hcolumns, ← hcounted]
    exact List.map_congr_left fun s hs => hstored s
      (clientSlots_lt hmem (List.mem_of_getElem? htree) hrun.nodes s hs)
  · obtain ⟨treeMask, mask, hmask, hget, hexact⟩ := hrun.mask
    obtain ⟨mask', hmask', hrows, hcols, -⟩ := prefillMask_spec treeMask hpos
      ((FirstBatch.seqLength_le_maxSeqLen hmem).trans batch.maxSeqLen_le_width)
      (nodes_le_maxTreeSize (List.mem_of_getElem? htree))
    obtain rfl := Option.some.inj (hmask.symm.trans hmask')
    rw [hfit.width] at hrows hcols hexact
    have halign : alignMask mask batch.requestLen batch.requestLen = mask := by
      rw [alignMask, hrows, hcols, if_neg (by rw [FirstBatch.requestLen, maxTreeNodes]; omega)]
    exact ⟨mask, halign ▸ hget, hrows, hcols, hcounted ▸ hexact⟩
  · intro maxSize next i
    rw [attended_first hrun hrow htree hstored hfits, hcolumns, hcounted]

/-- The inputs of the next round attend to as many slots as there are tokens. -/
theorem counted_of_agrees (hrun : RowRun batch run b row tree logits accepted)
    (hagrees : RowAgrees batch run b row tree accepted) (hrow : batch.rows[b]? = some row)
    (htree : batch.trees[b]? = some tree)
    (hstored : ∀ c < batch.requestLen, (run.slab.row b)[c]? = some (some (b, c)))
    (hfits : cacheLenOf run.kvCachePositionIds ≤ run.slab.seqLen) :
    row.seqLength = row.prompt.length := by
  have hsame := (attended_first hrun hrow htree hstored hfits 0 .nil 0).symm.trans
    (hagrees.attended 0 .nil 0)
  have hlen := congrArg List.length hsame
  rw [List.length_map, List.length_map, List.length_append, List.length_append, List.length_map,
    List.length_map, List.length_range, List.length_range] at hlen
  omega

/-- A mask that is wider than the request has nothing in the row of the first node. -/
theorem width_of_agrees (hrun : RowRun batch run b row tree logits accepted)
    (hagrees : RowAgrees batch run b row tree accepted)
    (hcounted : row.seqLength = row.prompt.length) (hrow : batch.rows[b]? = some row)
    (htree : batch.trees[b]? = some tree) (hne : tree.nodes ≠ []) :
    batch.width = batch.maxSeqLen := by
  have hmem := List.mem_of_getElem? hrow
  have hpos := row.seqLength_pos
  have hlength := FirstBatch.seqLength_le_maxSeqLen hmem
  have hwidth := batch.maxSeqLen_le_width
  have hlt : 0 < batch.requestLen := Nat.lt_of_le_of_lt (Nat.zero_le _) maxTreeNodes_lt_requestLen
  obtain ⟨treeMask, mask, hmask, hget, -⟩ := hrun.mask
  obtain ⟨mask', hmask', -, -, hentry⟩ := prefillMask_spec treeMask hpos (hlength.trans hwidth)
    (nodes_le_maxTreeSize (List.mem_of_getElem? htree))
  obtain rfl := Option.some.inj (hmask.symm.trans hmask')
  obtain ⟨aligned, haligned, -, hcols, hexact⟩ := hagrees.mask
  obtain rfl := Option.some.inj (haligned.symm.trans hget)
  have htrue := (hexact.node 0 (List.length_pos_iff.mpr hne) 0 (by omega)).mpr
    (.inl (hcounted ▸ hpos))
  rw [alignMask_entry, Nat.add_zero] at htrue
  by_contra hwide
  rw [hentry _ (by omega) 0 (by omega), prefillInputsMask_between treeMask (by omega) (by omega)]
    at htrue
  split_ifs at htrue

/-- An accepted node is where the client expects it only in a row of full length. -/
theorem full_of_agrees (hrun : RowRun batch run b row tree logits accepted)
    (hagrees : RowAgrees batch run b row tree accepted)
    (hcounted : row.seqLength = row.prompt.length) (hrow : batch.rows[b]? = some row)
    (htree : batch.trees[b]? = some tree)
    (hstored : ∀ c < batch.requestLen, (run.slab.row b)[c]? = some (some (b, c)))
    (hfits : cacheLenOf run.kvCachePositionIds ≤ run.slab.seqLen) (hne : accepted ≠ []) :
    row.prompt.length = batch.maxSeqLen := by
  have hsame := (attended_first hrun hrow htree hstored hfits 0 .nil 0).symm.trans
    (hagrees.attended 0 .nil 0)
  rw [hcounted] at hsame
  obtain ⟨n, nodes, rfl⟩ := List.exists_cons_of_ne_nil hne
  -- the slots behind the prompt
  simpa using congrArg (fun l => l[row.prompt.length]?) hsame

def constLogits (batch : FirstBatch) (token : ℕ) : List (List LogitsRow) :=
  batch.rows.map fun _ => List.replicate batch.requestLen ⟨token, false⟩

def emptySlab (batch : FirstBatch) : Slab Origin where
  seqLen := batch.requestLen
  batch := batch.rows.length
  row _ := List.replicate batch.requestLen none
  row_length _ := List.length_replicate

theorem constLogits_served (token : ℕ) :
    batch.Served (emptySlab batch) (constLogits batch token) := by
  refine ⟨Nat.le_refl _, Nat.le_refl _, List.length_map _, fun l hl => ?_⟩
  obtain ⟨_, -, rfl⟩ := List.mem_map.mp hl
  exact List.length_replicate

end

theorem agrees_of_fits {chunks : ChunkConfig} {batch : FirstBatch}
    (hfit : FirstRoundFits chunks batch) : FirstRoundAgrees chunks batch := by
  intro slab logits hserved
  obtain ⟨run, hrun, hlen, hseqLen, hstored, hcache, hrows⟩ :=
    firstRound_spec hfit.drafted hfit.oneChunk hserved
  refine ⟨run, hrun, hlen, fun b row tree accepted hrow htree haccepted => ?_⟩
  have hb := (List.getElem?_eq_some_iff.mp hrow).1
  have hblogits : b < logits.length := hserved.size.symm ▸ hb
  have hrow' := hrows b row tree _ accepted hrow htree (List.getElem?_eq_getElem hblogits) haccepted
  exact rowAgrees_of_fits hfit hrow' hrow htree (hstored b hb)
    (hseqLen ▸ hcache.trans hserved.room)

theorem drafted_of_agrees {chunks : ChunkConfig} {batch : FirstBatch}
    (h : FirstRoundAgrees chunks batch) : batch.Drafted := by
  by_contra hnone
  rw [FirstBatch.drafted_iff, not_not] at hnone
  obtain ⟨run, hrun, hlen, hrows⟩ := h _ _ (constLogits_served 0)
  have hpos := List.length_pos_iff.mpr batch.nonempty
  have hbtree : 0 < batch.trees.length := batch.size.symm ▸ hpos
  have hbrun : 0 < run.accepted.length := hlen.symm ▸ hpos
  obtain ⟨mask, hmask, -⟩ := (hrows 0 _ _ _ (List.getElem?_eq_getElem hpos)
    (List.getElem?_eq_getElem hbtree) (List.getElem?_eq_getElem hbrun)).mask
  rw [firstRound, prepareIncrementalTreeBatch, if_pos hnone] at hrun
  cases hrun
  cases hmask

theorem oneChunk_of_agrees {chunks : ChunkConfig} {batch : FirstBatch}
    (h : FirstRoundAgrees chunks batch) : OneChunk chunks batch.rows.length batch.requestLen 0 := by
  obtain ⟨run, hrun, -⟩ := h _ _ (constLogits_served 0)
  exact firstRound_oneChunk (drafted_of_agrees h) hrun

/-- A round with a model that predicts one token everywhere. -/
theorem round_of_agrees {chunks : ChunkConfig} {batch : FirstBatch}
    (h : FirstRoundAgrees chunks batch) (token : ℕ) {b : ℕ} {row : PaddedPrompt}
    {tree : SpeculativeTree} (hrow : batch.rows[b]? = some row)
    (htree : batch.trees[b]? = some tree) :
    ∃ run accepted, RowRun batch run b row tree
        (List.replicate batch.requestLen ⟨token, false⟩) accepted ∧
      RowAgrees batch run b row tree accepted ∧
      (∀ c < batch.requestLen, (run.slab.row b)[c]? = some (some (b, c))) ∧
      cacheLenOf run.kvCachePositionIds ≤ run.slab.seqLen := by
  have hserved := @constLogits_served batch token
  obtain ⟨run, hrun, hlen, hseqLen, hstored, hcache, hrows⟩ :=
    firstRound_spec (drafted_of_agrees h) (oneChunk_of_agrees h) hserved
  obtain ⟨run', hrun', -, hagrees⟩ := h _ _ hserved
  obtain rfl := Option.some.inj (hrun'.symm.trans hrun)
  have hb := (List.getElem?_eq_some_iff.mp hrow).1
  have hbrun : b < run'.accepted.length := hlen.symm ▸ hb
  have haccepted := List.getElem?_eq_getElem hbrun
  have hlogits : (constLogits batch token)[b]? =
      some (List.replicate batch.requestLen ⟨token, false⟩) := by
    rw [constLogits, List.getElem?_map, hrow]
    rfl
  exact ⟨run', _, hrows b row tree _ _ hrow htree hlogits haccepted,
    hagrees b row tree _ hrow htree haccepted, hstored b hb, hseqLen ▸ hcache⟩

theorem fits_of_agrees {chunks : ChunkConfig} {batch : FirstBatch}
    (h : FirstRoundAgrees chunks batch) :
    FirstRoundFits chunks batch := by
  have hdrafted := drafted_of_agrees h
  have hcounted : ∀ (b : ℕ) row, batch.rows[b]? = some row →
      row.seqLength = row.prompt.length := by
    intro b row hrow
    have hb := (List.getElem?_eq_some_iff.mp hrow).1
    have htree := List.getElem?_eq_getElem (show b < batch.trees.length from batch.size.symm ▸ hb)
    obtain ⟨run, accepted, hrun, hagrees, hstored, hcache⟩ := round_of_agrees h 0 hrow htree
    exact counted_of_agrees hrun hagrees hrow htree hstored hcache
  have hrow : ∀ (b : ℕ) row tree, batch.rows[b]? = some row → batch.trees[b]? = some tree →
      tree.nodes ≠ [] → batch.width = batch.maxSeqLen ∧ row.prompt.length = batch.maxSeqLen := by
    intro b row tree hrow htree hne
    obtain ⟨node, children, siblings, htree'⟩ : ∃ node children siblings,
        tree.children = .cons node children siblings := by
      cases hchildren : tree.children with
      | nil => exact absurd (by rw [SpeculativeTree.nodes, hchildren]; rfl) hne
      | cons node children siblings => exact ⟨node, children, siblings, rfl⟩
    -- the first child of the root is accepted
    obtain ⟨run, accepted, hrun, hagrees, hstored, hcache⟩ :=
      round_of_agrees h node.tokenId hrow htree
    have hkept : accepted ≠ [] := by
      rw [hrun.best fun r hr => by rw [List.eq_of_mem_replicate hr]]
      refine bestOf_ne_nil htree' ?_ (fun r hr => by rw [List.eq_of_mem_replicate hr]) _
      refine List.ne_nil_of_length_pos ?_
      rw [List.length_replicate]
      exact Nat.lt_of_le_of_lt (Nat.zero_le _) maxTreeNodes_lt_requestLen
    have hcount := hcounted b row hrow
    exact ⟨width_of_agrees hrun hagrees hcount hrow htree hne,
      full_of_agrees hrun hagrees hcount hrow htree hstored hcache hkept⟩
  refine ⟨hdrafted, oneChunk_of_agrees h, fun row hmem => ?_, ?_,
    fun b row tree hb htree hne => (hrow b row tree hb htree hne).2⟩
  · obtain ⟨b, hb⟩ := List.getElem?_of_mem hmem
    exact hcounted b row hb
  · obtain ⟨tree, hmem, hne⟩ := hdrafted
    obtain ⟨b, htree⟩ := List.getElem?_of_mem hmem
    have hb : b < batch.rows.length := batch.size ▸ (List.getElem?_eq_some_iff.mp htree).1
    exact (hrow b _ tree (List.getElem?_eq_getElem hb) htree hne).1

def unevenPrompts : FirstBatch where
  rows := [
    { prompt := [5], padding := [2], counted := by decide },
    { prompt := [5, 6], padding := [], counted := by decide }]
  trees := [twoLeaves, twoLeaves]
  width := 2
  rect := by decide
  size := rfl
  nonempty := by decide

end BloomBee.Speculative
