import BloomBee.Sanity.SpeDecTree
import BloomBee.Spec.SpeculativeModel
import Mathlib.Data.List.MinMax
import Mathlib.Order.Nat

/-! Greedy losslessness of speculative generation. A row of logits that stands for the tokens of a
path verifies the next node of the path as the target model would (`extractRow_greedy`), so
every round extends a row by tokens of the greedy continuation. In the first round the rows are
counted without the prompt, which is right for prompts of one token. -/

set_option autoImplicit false

namespace BloomBee.Speculative

variable {model : List ℕ → LogitsRow}

/-- The sequence is the prompt with some tokens of its greedy continuation. -/
def IsGreedy (model : List ℕ → LogitsRow) (prompt sequence : List ℕ) : Prop :=
  ∃ n, sequence = greedySteps model prompt n

theorem IsGreedy.next {prompt sequence : List ℕ} (h : IsGreedy model prompt sequence) :
    IsGreedy model prompt (sequence ++ [(model sequence).argmax]) := by
  obtain ⟨n, rfl⟩ := h
  exact ⟨n + 1, rfl⟩

/-! ### Verified paths -/

/-- Every node of the path is the token that the model predicts after those before it. -/
def Follows (model : List ℕ → LogitsRow) : List ℕ → List (Node ℕ) → Prop
  | _, [] => True
  | sequence, n :: path =>
    n.token = (model sequence).argmax ∧ Follows model (sequence ++ [n.token]) path

theorem IsGreedy.append_path {prompt : List ℕ} {path : List (Node ℕ)} :
    ∀ {sequence : List ℕ}, IsGreedy model prompt sequence → Follows model sequence path →
      IsGreedy model prompt (sequence ++ path.map Node.token) := by
  induction path with
  | nil =>
    intro sequence h _
    rwa [List.map_nil, List.append_nil]
  | cons n path ih =>
    intro sequence h hf
    obtain ⟨htoken, hf⟩ := hf
    rw [List.map_cons, List.append_cons]
    refine ih ?_ hf
    rw [htoken]
    exact h.next

/-- The rows of logits stand for the sequence and the paths of the tree: row 0 for the sequence,
and the row after a node for the path to it. -/
structure RowsOf (model : List ℕ → LogitsRow) (sequence : List ℕ) (tree : Forest ℕ)
    (logits : ℕ → LogitsRow) : Prop where
  root : logits 0 = model sequence
  node : ∀ q n, IsPathFrom 0 tree (q ++ [n]) →
    logits (n.position + 1) = model (sequence ++ (q ++ [n]).map Node.token)

theorem verifyPath_isPrefix (seqLen : ℕ) (predicted : ℕ → ℕ) (path : List (Node ℕ)) :
    ∀ pos, verifyPath seqLen predicted pos path <+: path := by
  induction path with
  | nil => exact fun _ => List.prefix_rfl
  | cons n path ih =>
    intro pos
    rw [verifyPath]
    split_ifs
    · exact List.nil_prefix
    · exact List.cons_prefix_cons.mpr ⟨rfl, ih _⟩
    · exact List.nil_prefix

/-- The walk from the node after `q` on. -/
theorem verifyPath_follows {sequence : List ℕ} {tree : Forest ℕ} {logits : ℕ → LogitsRow}
    (h : RowsOf model sequence tree logits) (seqLen : ℕ) (path : List (Node ℕ)) :
    ∀ (q : List (Node ℕ)) (pos : ℕ), IsPathFrom 0 tree (q ++ path) →
      logits pos = model (sequence ++ q.map Node.token) →
      Follows model (sequence ++ q.map Node.token)
        (verifyPath seqLen (fun i => (logits i).argmax) pos path) := by
  induction path with
  | nil => exact fun _ _ _ _ => trivial
  | cons n path ih =>
    intro q pos hpath hpos
    rw [verifyPath]
    split_ifs with hlen htoken
    · trivial
    · refine ⟨by rw [← htoken, hpos], ?_⟩
      have hnode : IsPathFrom 0 tree (q ++ [n]) := by
        refine hpath.shorten ?_
        rw [List.append_cons q n path]
        exact List.prefix_append _ _
      have := ih (q ++ [n]) (n.position + 1) (by rwa [← List.append_cons]) (h.node q n hnode)
      rwa [List.map_append, ← List.append_assoc] at this
    · trivial

theorem bestVerified_mem (seqLen : ℕ) (predicted : ℕ → ℕ) (paths : List (List (Node ℕ))) :
    bestVerified seqLen predicted paths = [] ∨
      ∃ p ∈ paths, bestVerified seqLen predicted paths = verifyPath seqLen predicted 0 p := by
  have hfold : ∀ (l : List (List (Node ℕ))) (best : List (Node ℕ)), l ⊆ paths →
      (best = [] ∨ ∃ p ∈ paths, best = verifyPath seqLen predicted 0 p) →
      (l.foldl (fun best path =>
        if best.length < (verifyPath seqLen predicted 0 path).length
        then verifyPath seqLen predicted 0 path else best) best = [] ∨
        ∃ p ∈ paths, l.foldl (fun best path =>
          if best.length < (verifyPath seqLen predicted 0 path).length
          then verifyPath seqLen predicted 0 path else best) best =
            verifyPath seqLen predicted 0 p) := by
    intro l
    induction l with
    | nil => exact fun best _ hbest => hbest
    | cons p l ih =>
      intro best hsub hbest
      rw [List.foldl_cons]
      refine ih _ (fun q hq => hsub (List.mem_cons_of_mem _ hq)) ?_
      split_ifs
      · exact .inr ⟨p, hsub List.mem_cons_self, rfl⟩
      · exact hbest
  exact hfold paths [] (List.Subset.refl _) (.inl rfl)

theorem extractRow_greedy {prompt sequence : List ℕ} {tree : Forest ℕ} {logits : ℕ → LogitsRow}
    (h : RowsOf model sequence tree logits) (hgreedy : IsGreedy model prompt sequence)
    (seqLen : ℕ) {fallback : ℕ} (hfallback : logits fallback = model sequence) :
    IsGreedy model prompt (sequence ++ (extractRow logits seqLen fallback tree).1 ++
      [(extractRow logits seqLen fallback tree).2]) := by
  rw [extractRow]
  cases hlast : (bestVerified seqLen (fun i => (logits i).argmax) tree.leafNodePaths).getLast? with
  | none =>
    simp only [List.append_nil, hfallback]
    exact hgreedy.next
  | some last =>
    -- the best path is verified, and it is not empty
    rcases bestVerified_mem seqLen (fun i => (logits i).argmax) tree.leafNodePaths with
      hbest | ⟨p, hp, hbest⟩
    · rw [hbest] at hlast
      cases hlast
    have hpath := leafNodePaths_isPath tree p hp
    have hfollows := verifyPath_follows h seqLen p [] 0 hpath (by
      rw [List.map_nil, List.append_nil, h.root])
    rw [List.map_nil, List.append_nil, ← hbest] at hfollows
    have hverified := hgreedy.append_path hfollows
    have hsub : IsPathFrom 0 tree
        (bestVerified seqLen (fun i => (logits i).argmax) tree.leafNodePaths) := by
      refine hpath.shorten ?_
      rw [hbest]
      exact verifyPath_isPrefix _ _ _ _
    generalize bestVerified seqLen (fun i => (logits i).argmax) tree.leafNodePaths = best at *
    obtain ⟨q, rfl⟩ : ∃ q, best = q ++ [last] := List.getLast?_eq_some_iff.mp hlast
    simp only
    split_ifs with hzero
    · simp only [List.dropLast_concat]
      rwa [List.map_append, ← List.append_assoc] at hverified
    · simp only
      rw [h.node q last hsub]
      exact hverified.next

/-! ### The rows of a request -/

section

variable {tree : Forest ℕ} {maxSize : ℕ}

theorem treeMaskRow_length (tree : Forest ℕ) (i : ℕ) :
    (treeMaskRow (tree.parentIndices (-1) 0) i).length = tree.tokens.length := by
  rw [treeMaskRow, List.length_map, List.length_range, parentIndices_length, tokens_length]

/-- The tree part of the mask row of a node admits the path to it. -/
theorem select_node {q : List (Node ℕ)} {n : Node ℕ} (h : IsPathFrom 0 tree (q ++ [n])) :
    select (treeMaskRow (tree.parentIndices (-1) 0) n.position ++
        List.replicate (maxSize - tree.size) false) (paddedTokens 0 maxSize tree) =
      (q ++ [n]).map Node.token := by
  rw [paddedTokens, select_append (treeMaskRow_length tree n.position), select_treeMaskRow h,
    select_replicate_false, List.append_nil]

theorem position_lt {q : List (Node ℕ)} {n : Node ℕ} (h : IsPathFrom 0 tree (q ++ [n])) :
    n.position < tree.size := by
  have := (h.positions.2 n (by simp)).2
  omega

theorem sequence_root {row : SeqRow} (hne : row.sequence ≠ []) :
    row.sequence.dropLast ++ [row.sequence.getLastD 0] = row.sequence := by
  rw [List.getLastD_eq_getLast?, List.getLast?_eq_some_getLast hne, Option.getD_some,
    List.dropLast_append_getLast]

theorem laterContext_root {row : SeqRow} (hne : row.sequence ≠ []) :
    laterContext row maxSize tree 0 = row.sequence := by
  have hmask : generationMaskRow [] 0 maxSize tree 0 =
      true :: List.replicate (tree.size + (maxSize - tree.size)) false := by
    rw [List.replicate_add]
    rfl
  rw [laterContext, hmask, select, select_replicate_false, sequence_root hne]

theorem laterContext_node {row : SeqRow} (hne : row.sequence ≠ []) {q : List (Node ℕ)}
    {n : Node ℕ} (hpath : IsPathFrom 0 tree (q ++ [n])) :
    laterContext row maxSize tree (n.position + 1) =
      row.sequence ++ (q ++ [n]).map Node.token := by
  have hmask : generationMaskRow [] 0 maxSize tree (n.position + 1) =
      true :: (treeMaskRow (tree.parentIndices (-1) 0) n.position ++
        List.replicate (maxSize - tree.size) false) := by
    simp only [generationMaskRow, if_pos (position_lt hpath)]
    rfl
  rw [laterContext, hmask, select, select_node hpath, List.append_cons, sequence_root hne]

theorem rowsOf_later {row : SeqRow} (hne : row.sequence ≠ []) :
    RowsOf model row.sequence tree (laterLogits model row maxSize tree) := by
  constructor
  · exact congrArg model (laterContext_root hne)
  · exact fun q n hpath => congrArg model (laterContext_node hne hpath)

/-- The prompt part of a mask row that admits the whole prompt. -/
theorem select_prompt {row : SeqRow} {m : List Bool} {l : List ℕ} {k : ℕ}
    (hlen : row.ids.length ≤ k) :
    select ((List.range row.ids.length).map (fun j => decide (j ≤ row.ids.length - 1)) ++ m)
      (row.ids.take k ++ l) = row.ids ++ select m l := by
  have hall : (List.range row.ids.length).map (fun j => decide (j ≤ row.ids.length - 1)) =
      List.replicate row.ids.length true := by
    rw [List.eq_replicate_iff]
    refine ⟨by rw [List.length_map, List.length_range], ?_⟩
    intro c hc
    obtain ⟨j, hj, rfl⟩ := List.mem_map.mp hc
    rw [List.mem_range] at hj
    exact decide_eq_true (by omega)
  rw [hall, List.take_of_length_le hlen, select_append (by rw [List.length_replicate]),
    select_replicate_true]

variable {row : SeqRow} {maxSeqLen : ℕ}

theorem firstLogits_last (hfull : row.seqLength = row.ids.length) (hpos : 0 < row.ids.length)
    (hmax : row.ids.length ≤ maxSeqLen) :
    firstLogits model row maxSeqLen maxSize tree (row.ids.length - 1) = model row.ids := by
  have hmask : prefillMaskRow row.ids.length row.seqLength maxSize tree (row.ids.length - 1) =
      (List.range row.ids.length).map (fun j => decide (j ≤ row.ids.length - 1)) ++
        List.replicate maxSize false := by
    simp only [prefillMaskRow, hfull]
    rw [if_pos (by omega), if_pos (Nat.le_refl _)]
  rw [firstLogits, hmask, select_prompt hmax, select_replicate_false, List.append_nil]

/-- The rows of the first round are right for a prompt of one token. -/
theorem rowsOf_first (hfull : row.seqLength = row.ids.length) (hone : row.ids.length = 1)
    (hmax : row.ids.length ≤ maxSeqLen) :
    RowsOf model row.ids tree (firstLogits model row maxSeqLen maxSize tree) := by
  constructor
  · have := @firstLogits_last model tree maxSize row maxSeqLen hfull (by omega) hmax
    rwa [hone] at this
  · intro q n hpath
    have hmask : prefillMaskRow row.ids.length row.seqLength maxSize tree (n.position + 1) =
        (List.range row.ids.length).map (fun j => decide (j ≤ row.ids.length - 1)) ++
          (treeMaskRow (tree.parentIndices (-1) 0) n.position ++
            List.replicate (maxSize - tree.size) false) := by
      have hlt := position_lt hpath
      simp only [prefillMaskRow, hfull, hone]
      rw [if_neg (by omega), Nat.add_sub_cancel, if_pos hlt]
    rw [firstLogits, hmask, select_prompt hmax, select_node hpath]

/-- The first row of the first round is that of the first token of the prompt. -/
theorem firstLogits_zero (hpos : 0 < row.ids.length) (hmax : row.ids.length ≤ maxSeqLen) :
    firstLogits model row maxSeqLen maxSize tree 0 = model (row.ids.take 1) := by
  have hmask : prefillMaskRow row.ids.length row.seqLength maxSize tree 0 =
      true :: List.replicate (row.ids.length - 1 + maxSize) false := by
    simp only [prefillMaskRow]
    rw [if_pos hpos, if_pos (Nat.zero_le _), List.replicate_add]
    obtain ⟨n, hn⟩ : ∃ n, row.ids.length = n + 1 := ⟨row.ids.length - 1, by omega⟩
    rw [hn, List.range_succ_eq_map, List.map_cons, List.map_map, List.cons_append]
    congr 2
    rw [Nat.add_sub_cancel, List.eq_replicate_iff]
    refine ⟨by rw [List.length_map, List.length_range], ?_⟩
    intro c hc
    obtain ⟨j, -, rfl⟩ := List.mem_map.mp hc
    exact decide_eq_false (Nat.not_succ_le_zero j)
  rw [firstLogits, hmask, List.take_of_length_le hmax]
  cases hids : row.ids with
  | nil => rw [hids] at hpos; exact absurd hpos (Nat.lt_irrefl 0)
  | cons t ids =>
    rw [List.cons_append, select, select_replicate_false]
    rfl

/-- No child of the root is the prediction after the first token of the prompt. -/
def NoFalseMatch (model : List ℕ → LogitsRow) (prompt : List ℕ) (tree : Forest ℕ) : Prop :=
  ∀ p ∈ tree.leafNodePaths, ∀ n, p.head? = some n → n.token ≠ (model (prompt.take 1)).argmax

theorem bestVerified_eq_nil (hpos : 0 < row.ids.length) (hmax : row.ids.length ≤ maxSeqLen)
    (hmatch : NoFalseMatch model row.ids tree) (seqLen : ℕ) :
    bestVerified seqLen (fun i => (firstLogits model row maxSeqLen maxSize tree i).argmax)
      tree.leafNodePaths = [] := by
  rcases bestVerified_mem seqLen (fun i => (firstLogits model row maxSeqLen maxSize tree i).argmax)
    tree.leafNodePaths with h | ⟨p, hp, h⟩
  · exact h
  · rw [h]
    cases p with
    | nil => rfl
    | cons n p =>
      rw [verifyPath]
      split_ifs with hlen htoken
      · rfl
      · rw [firstLogits_zero hpos hmax] at htoken
        exact absurd htoken.symm (hmatch _ hp n rfl)
      · rfl

theorem verifyRow_first {prompt : List ℕ} (hids : row.ids = prompt)
    (hfull : row.seqLength = prompt.length) (hpos : prompt ≠ []) (hmax : row.seqLength ≤ maxSeqLen)
    (hmeets : row.seqLength = 1 ∨ NoFalseMatch model row.ids tree) :
    IsGreedy model prompt (row.sequence ++ (verifyRow model true maxSeqLen maxSize row tree).1 ++
      [(verifyRow model true maxSeqLen maxSize row tree).2]) := by
  subst hids
  have hlen := List.length_pos_iff.mpr hpos
  have hseq : row.sequence = row.ids := by
    rw [SeqRow.sequence, hfull, List.take_length]
  have hstart : IsGreedy model row.ids row.ids := ⟨0, rfl⟩
  rw [verifyRow, if_pos rfl, if_neg (by omega), hseq]
  rcases hmeets with hone | hmatch
  · refine extractRow_greedy (rowsOf_first hfull (by omega) (by omega)) hstart _ ?_
    rw [hfull]
    exact firstLogits_last hfull hlen (by omega)
  · rw [extractRow, bestVerified_eq_nil hlen (by omega) hmatch]
    simp only [List.getLast?_nil, List.append_nil]
    rw [hfull, firstLogits_last hfull hlen (by omega)]
    exact hstart.next

theorem verifyRow_later {prompt : List ℕ} (hne : row.sequence ≠ [])
    (hgreedy : IsGreedy model prompt row.sequence) :
    IsGreedy model prompt (row.sequence ++ (verifyRow model false maxSeqLen maxSize row tree).1 ++
      [(verifyRow model false maxSeqLen maxSize row tree).2]) := by
  rw [verifyRow, if_neg (by decide)]
  exact extractRow_greedy (rowsOf_later hne) hgreedy _ (rowsOf_later hne).root

end

/-! ### Runs -/

section

variable {cfg : SampleConfig} {st : SampleState} {r : Round} {b : ℕ} {row : SeqRow}

def verifiedOf (model : List ℕ → LogitsRow) (st : SampleState) (r : Round) (b : ℕ) (row : SeqRow) :
    List ℕ × ℕ :=
  verifyRow model st.isFirstIteration ((st.rows.map SeqRow.seqLength).foldr max 0)
    (maxTreeSize r.trees) row (r.trees.getD b .nil)

/-- What row `b` of a state is after a round. -/
theorem updateRows_getElem (hb : st.rows[b]? = some row) (outcome : Outcome) :
    ∃ n, (updateRows cfg st outcome).rows[b]? =
      some ⟨row.extend cfg (outcome b).1 (outcome b).2 ++ List.replicate n cfg.padTokenId,
        (row.extend cfg (outcome b).1 (outcome b).2).length,
        row.unfinished &&
          !cfg.stops (row.extend cfg (outcome b).1 (outcome b).2 ++
            List.replicate n cfg.padTokenId)⟩ := by
  have hzip (f : ℕ → SeqRow → List ℕ) :
      (st.rows.zip (st.rows.mapIdx f))[b]? = some (row, f b row) := by
    refine List.getElem?_zip_eq_some.mpr ⟨hb, ?_⟩
    rw [List.getElem?_mapIdx, hb]
    rfl
  simp only [updateRows, List.getElem?_map, hzip, Option.map_some]
  exact ⟨_, rfl⟩

/-- What row `b` of a state is after a round with a drafted node. -/
theorem sampleRound_row (hb : st.rows[b]? = some row) (hdraft : ∃ tree ∈ r.trees, tree.size ≠ 0) :
    ∃ row', (sampleRound cfg model st r).rows[b]? = some row' ∧
      row'.sequence = row.extend cfg (verifiedOf model st r b row).1
        (verifiedOf model st r b row).2 := by
  have houtcome : greedyOutcome model st r b = verifiedOf model st r b row := by
    rw [greedyOutcome, List.getD_eq_getElem?_getD, verifyTrees,
      if_neg (by push Not; exact hdraft), List.getElem?_mapIdx, hb]
    rfl
  obtain ⟨n, hrow⟩ := @updateRows_getElem cfg st b row hb (greedyOutcome model st r)
  rw [houtcome] at hrow
  refine ⟨_, hrow, ?_⟩
  rw [SeqRow.sequence, List.take_left]

/-- What a round needs for row `b`: a drafted node in some tree, a row that is not finished if
there is an end token, and in the first round a prompt of one token or no false match. -/
structure RoundMeets (cfg : SampleConfig) (model : List ℕ → LogitsRow) (st : SampleState)
    (b : ℕ) (r : Round) : Prop where
  drafted : ∃ tree ∈ r.trees, tree.size ≠ 0
  unfinished : ∀ row, st.rows[b]? = some row → cfg.hasEos = true → row.unfinished = true
  first : ∀ row, st.rows[b]? = some row → st.isFirstIteration = true →
    row.seqLength = 1 ∨ NoFalseMatch model row.ids (r.trees.getD b .nil)

def RunMeets (cfg : SampleConfig) (model : List ℕ → LogitsRow) (initialLen b : ℕ) :
    SampleState → List Round → Prop
  | _, [] => True
  | st, r :: rounds =>
    running cfg initialLen st = true →
      RoundMeets cfg model st b r ∧
        RunMeets cfg model initialLen b (sampleRound cfg model st r) rounds

theorem RunMeets.take {initialLen : ℕ} {rounds : List Round} :
    ∀ {st : SampleState} (k : ℕ), RunMeets cfg model initialLen b st rounds →
      RunMeets cfg model initialLen b st (rounds.take k) := by
  induction rounds with
  | nil =>
    intro st k h
    rwa [List.take_nil]
  | cons r rounds ih =>
    intro st k h
    cases k with
    | zero => trivial
    | succ k =>
      intro hrun
      obtain ⟨hr, hrest⟩ := h hrun
      exact ⟨hr, ih k hrest⟩

/-- Row `b` has a greedy continuation of its prompt, and before the first round the prompt. -/
structure RowHolds (model : List ℕ → LogitsRow) (prompt : List ℕ) (st : SampleState)
    (row : SeqRow) : Prop where
  greedy : IsGreedy model prompt row.sequence
  nonempty : row.sequence ≠ []
  first : st.isFirstIteration = true → row.ids = prompt ∧ row.seqLength = prompt.length

theorem rowHolds_round {prompt : List ℕ} (hb : st.rows[b]? = some row)
    (h : RowHolds model prompt st row) (hr : RoundMeets cfg model st b r) :
    ∃ row', (sampleRound cfg model st r).rows[b]? = some row' ∧
      RowHolds model prompt (sampleRound cfg model st r) row' := by
  obtain ⟨row', hrow', hseq⟩ := @sampleRound_row model cfg st r b row hb hr.drafted
  have hlive : (cfg.hasEos && !row.unfinished) = false := by
    cases heos : cfg.hasEos with
    | false => rfl
    | true => rw [hr.unfinished row hb heos]; rfl
  rw [SeqRow.extend, hlive, if_neg (by decide)] at hseq
  have hmax : row.seqLength ≤ (st.rows.map SeqRow.seqLength).foldr max 0 :=
    List.le_max_of_le' 0 (List.mem_map_of_mem (List.mem_of_getElem? hb)) (Nat.le_refl _)
  refine ⟨row', hrow', ?_, ?_, ?_⟩
  · rw [hseq, verifiedOf]
    cases hfirst : st.isFirstIteration with
    | true =>
      obtain ⟨hids, hfull⟩ := h.first hfirst
      have hne : prompt ≠ [] := by
        intro hnil
        apply h.nonempty
        rw [SeqRow.sequence, hids, hnil, List.take_nil]
      exact verifyRow_first hids hfull hne hmax (hr.first row hb hfirst)
    | false => exact verifyRow_later h.nonempty h.greedy
  · rw [hseq]
    simp
  · intro hfirst
    cases hfirst

theorem rowHolds_run {prompt : List ℕ} {initialLen : ℕ} (rounds : List Round) :
    ∀ {st : SampleState} {row : SeqRow}, st.rows[b]? = some row → RowHolds model prompt st row →
      RunMeets cfg model initialLen b st rounds →
      ∃ row', (sample cfg model initialLen st rounds).rows[b]? = some row' ∧
        IsGreedy model prompt row'.sequence := by
  induction rounds with
  | nil => exact fun hb h _ => ⟨_, hb, h.greedy⟩
  | cons r rounds ih =>
    intro st row hb h hmeets
    rw [sample]
    split_ifs with hrun
    · obtain ⟨hr, hrest⟩ := hmeets hrun
      obtain ⟨row', hrow', h'⟩ := rowHolds_round hb h hr
      exact ih hrow' h' hrest
    · exact ⟨row, hb, h.greedy⟩

theorem countP_ignore {prompt : List ℕ} (h : ∀ t ∈ prompt, t ∉ ignoreTokenIds) :
    (prompt.countP fun t => t ∉ ignoreTokenIds) = prompt.length := by
  rw [List.countP_eq_length]
  exact fun t ht => decide_eq_true (h t ht)

/-- Greedy losslessness. In every run whose rounds meet the condition, after each round the
sequence of a row is its prompt with tokens of the greedy continuation of the target model. -/
theorem sample_greedy {prompts : List (List ℕ)} {prompt : List ℕ} {rounds : List Round}
    (hb : prompts[b]? = some prompt) (hne : prompt ≠ [])
    (hpad : ∀ t ∈ prompt, t ∉ ignoreTokenIds)
    (hmeets : RunMeets cfg model prompt.length b (startRows prompts) rounds) (k : ℕ) :
    ∃ row, (sample cfg model prompt.length (startRows prompts) (rounds.take k)).rows[b]? =
        some row ∧ IsGreedy model prompt row.sequence := by
  have hrow : (startRows prompts).rows[b]? = some ⟨prompt, prompt.length, true⟩ := by
    simp only [startRows, List.getElem?_map, hb, Option.map_some, countP_ignore hpad]
  have hseq : SeqRow.sequence ⟨prompt, prompt.length, true⟩ = prompt := by
    simp [SeqRow.sequence]
  refine rowHolds_run _ hrow ⟨?_, ?_, ?_⟩ (hmeets.take k)
  · rw [hseq]
    exact ⟨0, rfl⟩
  · rwa [hseq]
  · exact fun _ => ⟨rfl, rfl⟩

end

def tenTokens : SampleConfig where
  padTokenId := 0
  hasEos := false
  stops _ := false
  maxNewTokens := 10

def counting (tokens : List ℕ) : LogitsRow := ⟨tokens.length + 2, false⟩

def halfRightRounds : List Round :=
  [⟨[.cons 3 (.cons 9 .nil .nil) .nil], []⟩, ⟨[.cons 7 .nil (.cons 5 .nil .nil)], []⟩]

theorem sample_greedy_counting :
    ∃ row, (sample tenTokens counting 1 (startRows [[5]]) halfRightRounds).rows[0]? = some row ∧
      row.sequence = [5, 3, 4, 5, 6] ∧ IsGreedy counting [5] row.sequence := by
  have hfirst : RoundMeets tenTokens counting (startRows [[5]]) 0
      ⟨[.cons 3 (.cons 9 .nil .nil) .nil], []⟩ := by
    refine ⟨⟨_, List.mem_cons_self, by decide⟩, ?_, ?_⟩
    · intro row _ h
      cases h
    · intro row hrow _
      cases hrow
      exact .inl rfl
  have hmeets : RunMeets tenTokens counting 1 0 (startRows [[5]]) halfRightRounds := by
    refine fun _ => ⟨hfirst, fun _ => ⟨⟨⟨_, List.mem_cons_self, by decide⟩, ?_, ?_⟩, trivial⟩⟩
    · intro row _ h
      cases h
    · intro row _ h
      cases h
  obtain ⟨row, hrow, hgreedy⟩ := @sample_greedy counting tenTokens 0 [[5]] [5] _ rfl
    (by decide) (by decide) hmeets 2
  refine ⟨row, hrow, ?_, hgreedy⟩
  cases hrow
  decide

/-- A model that predicts 7 after the first token of the prompt, and 8 after the prompt. -/
def sevenThenEight (tokens : List ℕ) : LogitsRow := if tokens = [5] then ⟨7, false⟩ else ⟨8, false⟩

theorem greedySteps_length (model : List ℕ → LogitsRow) (prompt : List ℕ) (n : ℕ) :
    (greedySteps model prompt n).length = prompt.length + n := by
  induction n with
  | zero => rfl
  | succ n ih => rw [greedySteps, List.length_append, ih, List.length_singleton, Nat.add_assoc]

/-- A drafted 7 is accepted after the prompt `[5, 6]`, where the model goes on with 8. -/
theorem sample_not_greedy :
    ∃ row, (sample tenTokens sevenThenEight 2 (startRows [[5, 6]])
        [⟨[.cons 7 .nil .nil], []⟩]).rows[0]? = some row ∧
      row.sequence = [5, 6, 7, 8] ∧ ¬IsGreedy sevenThenEight [5, 6] row.sequence := by
  refine ⟨_, rfl, by decide, ?_⟩
  rintro ⟨n, hn⟩
  have hlen := congrArg List.length hn
  rw [greedySteps_length] at hlen
  have h2 : n = 2 := by
    have : (4 : ℕ) = 2 + n := hlen
    omega
  subst h2
  exact absurd hn (by decide)

end BloomBee.Speculative
