import BloomBee.Lib.Fallible
import BloomBee.Proofs.SequentialAutograd

/-! The autograd function on a whole batch. Its rows are split by the number of tokens, and each part
is routed and fails by itself; blocks that take each row by itself are not affected by the split. -/

set_option autoImplicit false

namespace BloomBee.SequentialAutograd

variable {α β γ H G P Q : Type}

/-! ### Parts -/

theorem getElem?_part (size k : ℕ) (rows : List α) (r : ℕ) :
    (part size k rows)[r]? = if r < size then rows[k * size + r]? else none := by
  unfold part
  split_ifs with hr
  · rw [List.getElem?_take_of_lt hr, List.getElem?_drop]
  · exact List.getElem?_take_eq_none (Nat.le_of_not_lt hr)

theorem length_part (size k : ℕ) (rows : List α) :
    (part size k rows).length = min size (rows.length - k * size) := by
  simp [part]

theorem part_zipWith (f : α → β → γ) (size k : ℕ) (xs : List α) (ys : List β) :
    part size k (List.zipWith f xs ys) = List.zipWith f (part size k xs) (part size k ys) := by
  simp [part, List.drop_zipWith, List.take_zipWith]

theorem flatten_parts_take (size n : ℕ) (rows : List α) :
    ((List.range n).map fun k => part size k rows).flatten = rows.take (n * size) := by
  induction n with
  | zero => simp
  | succ n ih =>
    rw [List.range_succ, List.map_append, List.flatten_append, ih, Nat.succ_mul, List.take_add]
    simp [part]

theorem le_numParts {size : ℕ} (hs : 0 < size) (length : ℕ) :
    length ≤ numParts size length * size := by
  have hceil : length ≤ (length + size - 1) / size * size := by
    have := Nat.lt_div_mul_add (a := length + size - 1) hs
    omega
  exact Nat.le_trans hceil (Nat.mul_le_mul_right size (Nat.le_max_left _ _))

theorem flatten_parts {size n : ℕ} {rows : List α} (hlen : rows.length ≤ n * size) :
    ((List.range n).map fun k => part size k rows).flatten = rows := by
  rw [flatten_parts_take, List.take_of_length_le hlen]

theorem catRows_parts {size n : ℕ} (hn : 0 < n) {blocks : List (List α)}
    (hlen : ∀ rows ∈ blocks, rows.length ≤ n * size) :
    catRows ((List.range n).map fun k => blocks.map (part size k)) = blocks := by
  obtain ⟨n, rfl⟩ := Nat.exists_eq_add_of_lt hn
  have hhead : (((List.range (0 + n + 1)).map fun k => blocks.map (part size k)).head?.getD
      []).length = blocks.length := by
    simp [List.range_succ_eq_map]
  unfold catRows
  rw [hhead]
  refine List.ext_getElem (by simp) fun b hb hb' => ?_
  have hrows (k : ℕ) : (blocks.map (part size k)).getD b [] = part size k blocks[b] := by
    rw [List.getD_eq_getElem?_getD, List.getElem?_map, List.getElem?_eq_getElem hb']
    rfl
  rw [List.getElem_map, List.getElem_range, List.flatMap_def, List.map_map]
  simp only [Function.comp_def, hrows]
  exact flatten_parts (hlen _ (List.getElem_mem hb'))

theorem cat_results (size : ℕ) {n : ℕ} (hn : 0 < n) (e : List α × Option (List (List β)))
    (hlen : e.1.length ≤ n * size) (hlens : ∀ bs ∈ e.2, ∀ b ∈ bs, b.length ≤ n * size) :
    let outputs := (List.range n).map fun k =>
      (part size k e.1, e.2.map fun blocks => blocks.map (part size k))
    (outputs.flatMap Prod.fst, if outputs.any fun o => o.2.isNone then none
      else some (catRows (outputs.map fun o => o.2.getD []))) = e := by
  intro outputs
  have hfst : outputs.flatMap Prod.fst = e.1 := by
    rw [List.flatMap_def, List.map_map]
    exact flatten_parts hlen
  rw [hfst]
  obtain ⟨rows, blocks⟩ := e
  cases blocks with
  | none =>
    have hany : (outputs.any fun o => o.2.isNone) = true := by
      rw [List.any_eq_true]
      exact ⟨_, List.mem_map.mpr ⟨0, List.mem_range.mpr hn, rfl⟩, rfl⟩
    rw [hany]
    rfl
  | some blocks =>
    have hany : (outputs.any fun o => o.2.isNone) = false := by
      simp [outputs]
    have hcat : (outputs.map fun o => o.2.getD []) =
        (List.range n).map fun k => blocks.map (part size k) := by
      rw [List.map_map]
      rfl
    rw [hany, hcat, catRows_parts hn (hlens blocks rfl)]
    rfl

/-! ### Blocks on a part -/

section

variable (B : Blocks H G P Q) (size k : ℕ)

theorem batched_forward_part (i : ℕ) (prompts : Option (List P)) (rows : List H) :
    B.batched.forward i (prompts.map (part size k)) (part size k rows) =
      part size k (B.batched.forward i prompts rows) := by
  apply List.ext_getElem?
  intro r
  simp only [Blocks.batched, List.getElem?_mapIdx, getElem?_part]
  split_ifs with hr
  · cases prompts with
    | none => rfl
    | some ps => simp [getElem?_part, hr]
  · rfl

theorem batched_backward_part (i : ℕ) (prompts : Option (List P)) (rows : List H)
    (grads : List G) :
    B.batched.backward i (prompts.map (part size k)) (part size k rows) (part size k grads) =
      part size k (B.batched.backward i prompts rows grads) := by
  apply List.ext_getElem?
  intro r
  simp only [Blocks.batched, List.zip, ← part_zipWith, List.getElem?_mapIdx, getElem?_part]
  split_ifs with hr
  · cases prompts with
    | none => rfl
    | some ps => simp [getElem?_part, hr]
  · rfl

variable (prompts : List (List P)) (start : ℕ) (rows : List H)

theorem inputAt_part (b : ℕ) :
    inputAt B.batched (prompts.map (part size k)) start (part size k rows) b =
      part size k (inputAt B.batched prompts start rows b) := by
  unfold inputAt
  refine List.foldl_hom (part size k) fun hs i => ?_
  rw [List.getElem?_map]
  exact batched_forward_part B size k i _ hs

theorem backwardAt_part (b : ℕ) (r : List G × List (List Q)) :
    backwardAt B.batched (prompts.map (part size k)) start (part size k rows) b
        (part size k r.1, r.2.map (part size k)) =
      (part size k (backwardAt B.batched prompts start rows b r).1,
        (backwardAt B.batched prompts start rows b r).2.map (part size k)) := by
  unfold backwardAt
  simp only [inputAt_part, List.getElem?_map, batched_backward_part, List.map_append]
  congr 2
  cases prompts[b]? with
  | none => rfl
  | some ps => simp [Blocks.batched, part_zipWith]

theorem gradients_part (b stop : ℕ) (grads : List G) :
    gradients B.batched (prompts.map (part size k)) start (part size k rows) b stop
        (part size k grads) =
      (part size k (gradients B.batched prompts start rows b stop grads).1,
        (gradients B.batched prompts start rows b stop grads).2.map (part size k)) := by
  unfold gradients
  induction List.range' b (stop - b) with
  | nil => rfl
  | cons i bs ih => rw [List.foldr_cons, ih, backwardAt_part, List.foldr_cons]

theorem exactGradients_part (stop : ℕ) (grads : List G) :
    exactGradients B.batched (prompts.map (part size k)) start (part size k rows) stop
        (part size k grads) =
      (part size k (exactGradients B.batched prompts start rows stop grads).1,
        (exactGradients B.batched prompts start rows stop grads).2.map fun blocks =>
          blocks.map (part size k)) := by
  unfold exactGradients
  rw [gradients_part]
  simp only [List.map_eq_nil_iff]
  split_ifs <;> rfl

end

/-! ### Rows that there are -/

section

variable {B : Blocks H G P Q} {prompts : List (List P)} {start : ℕ} {rows : List H}

theorem length_batched_forward (i : ℕ) (ps : Option (List P)) :
    (B.batched.forward i ps rows).length = rows.length := by
  simp [Blocks.batched]

theorem length_batched_backward (i : ℕ) (ps : Option (List P)) {grads : List G}
    (hlen : grads.length = rows.length) :
    (B.batched.backward i ps rows grads).length = rows.length := by
  simp [Blocks.batched, hlen]

variable (B prompts start rows) in
theorem length_inputAt_batched (b : ℕ) :
    (inputAt B.batched prompts start rows b).length = rows.length := by
  unfold inputAt
  generalize hn : b - start = n
  clear hn
  induction n with
  | zero => rfl
  | succ n ih => rw [List.range'_concat, List.foldl_append, List.foldl_cons, List.foldl_nil,
      length_batched_forward, ih]

variable (B prompts start) in
theorem length_gradients_batched (b stop : ℕ) {grads : List G} (hlen : grads.length = rows.length) :
    (gradients B.batched prompts start rows b stop grads).1.length = rows.length ∧
      ∀ qs ∈ (gradients B.batched prompts start rows b stop grads).2, qs.length ≤ rows.length := by
  unfold gradients
  induction List.range' b (stop - b) with
  | nil => exact ⟨hlen, fun qs hqs => absurd hqs List.not_mem_nil⟩
  | cons i bs ih =>
    obtain ⟨hgrad, hprompts⟩ := ih
    rw [List.foldr_cons]
    generalize bs.foldr (backwardAt B.batched prompts start rows) (grads, []) = r at hgrad hprompts ⊢
    have hinput := length_inputAt_batched B prompts start rows i
    have hnew : (backwardAt B.batched prompts start rows i r).1.length = rows.length :=
      (length_batched_backward i _ (hgrad.trans hinput.symm)).trans hinput
    refine ⟨hnew, fun qs hqs => ?_⟩
    rcases List.mem_append.mp hqs with hqs | hqs
    · obtain ⟨ps, -, rfl⟩ := Option.map_eq_some_iff.mp (Option.mem_toList.mp hqs)
      refine Nat.le_trans ?_ (Nat.le_of_eq hnew)
      exact Nat.le_trans (Nat.le_of_eq List.length_zipWith) (Nat.min_le_right _ _)
    · exact hprompts qs hqs

end

/-! ### The batches -/

theorem batchSize_ok {seqLen : ℕ} (hseq : 0 < seqLen) :
    ∃ size, batchSize seqLen = .ok size ∧ 0 < size ∧
      (size = 1 ∨ size * seqLen ≤ maxTokensInBatch) := by
  refine ⟨max (maxTokensInBatch / seqLen) 1, if_neg (Nat.ne_of_gt hseq), by omega, ?_⟩
  have hle := Nat.div_mul_le_self maxTokensInBatch seqLen
  rcases Nat.le_total (maxTokensInBatch / seqLen) 1 with h | h
  · exact .inl (Nat.max_eq_right h)
  · rw [Nat.max_eq_left h]
    exact .inr hle

def presentPrompts (prompts : List (List P)) : List (List P) :=
  if isDummy prompts then [] else prompts

theorem promptBatches_eq {size : ℕ} {prompts : List (List P)} {inputs : List H}
    (hrows : ∀ ps ∈ prompts, ps.length = inputs.length) :
    (if isDummy prompts then List.replicate (splitInputs size inputs).length []
      else splitPrompts size prompts) =
      (List.range (numParts size inputs.length)).map fun k =>
        (presentPrompts prompts).map (part size k) := by
  unfold presentPrompts
  split_ifs with hdummy
  · simp [splitInputs]
  · have hhead : (prompts.head?.getD []).length = inputs.length := by
      cases prompts with
      | nil => exact absurd rfl hdummy
      | cons ps prompts => exact hrows ps List.mem_cons_self
    rw [splitPrompts, hhead]

theorem zipIdx_map_range (f : ℕ → α) (n : ℕ) :
    ((List.range n).map f).zipIdx = (List.range n).map fun k => (f k, k) := by
  refine List.ext_getElem (by simp) fun k _ _ => ?_
  simp

variable {cfg : Config} {n : ℕ}

theorem gatherForward_eq {B : Blocks (List H) G (List P) Q} {attempts : ℕ → List Attempt}
    {inputs : ℕ → List H} {prompts : ℕ → List (List P)} {f : ℕ → Forwarded (List H)}
    (h : ∀ k, sequentialForward cfg B (attempts k) (inputs k) (prompts k) 0 none = .ok (f k)) :
    gatherForward cfg B attempts ((List.range n).map inputs) ((List.range n).map prompts) =
      .ok ((List.range n).map f) := by
  unfold gatherForward
  rw [List.zip_map', zipIdx_map_range]
  rw [Fallible.mapM_eq_ok (g := fun x => f x.2), List.map_map]
  · rfl
  · intro x hx
    obtain ⟨k, -, rfl⟩ := List.mem_map.mp hx
    dsimp only
    rw [h]
    rfl

section

variable {B : Blocks (List H) (List G) (List P) (List Q)} {attempts : ℕ → List BackwardAttempt}
  {grads : ℕ → List G} {inputs : ℕ → List (List H)} {prompts : ℕ → List (List P)}
  {sequences : ℕ → List InferenceSession.Span}

theorem gatherBackward_eq {g : ℕ → List G × Option (List (List Q))}
    (h : ∀ k, sequentialBackward cfg B (attempts k) (grads k) (inputs k) (prompts k)
      (sequences k) = .ok (g k)) :
    gatherBackward cfg B attempts ((List.range n).map grads) ((List.range n).map inputs)
      ((List.range n).map prompts) ((List.range n).map sequences) =
        .ok ((List.range n).map g) := by
  unfold gatherBackward
  rw [List.zip_map', List.zip_map', List.zip_map', zipIdx_map_range]
  rw [Fallible.mapM_eq_ok (g := fun x => g x.2), List.map_map]
  · rfl
  · intro x hx
    obtain ⟨k, -, rfl⟩ := List.mem_map.mp hx
    dsimp only
    rw [h]
    rfl

theorem gatherBackward_used (hn : 0 < n) (h : ∀ k, (inputs k).length ≠ (sequences k).length) :
    gatherBackward cfg B attempts ((List.range n).map grads) ((List.range n).map inputs)
      ((List.range n).map prompts) ((List.range n).map sequences) =
        .error (.batch .assertion) := by
  unfold gatherBackward
  rw [List.zip_map', List.zip_map', List.zip_map', zipIdx_map_range]
  have hraises : ∀ k, (sequentialBackward cfg B (attempts k) (grads k) (inputs k) (prompts k)
      (sequences k)).mapError AutogradError.batch = .error (.batch .assertion) := by
    intro k
    rw [sequentialBackward, if_neg (h k)]
    rfl
  apply Fallible.mapM_eq_error
  · intro x hx
    obtain ⟨k, -, rfl⟩ := List.mem_map.mp hx
    exact .inr (hraises k)
  · exact ⟨_, List.mem_map.mpr ⟨0, List.mem_range.mpr hn, rfl⟩, hraises 0⟩

end

/-! ### The autograd function -/

/-- Backward on what a forward pass left, if the requests do not fail too often. -/
theorem sequentialBackward_exact {B : Blocks H G P Q} {prompts : List P} {x : H} {stop : ℕ}
    (hprompts : prompts = [] ∨ prompts.length = cfg.numBlocks) (hstop : stop ≤ cfg.numBlocks)
    {f : Forwarded H} (hf : Exact B prompts 0 x stop f) (grad : G) {backward : List BackwardAttempt}
    (hroute : ∀ a ∈ backward, ∀ f ∈ a.forward, f.Routed cfg)
    (hendures : Retry.endures (BackwardAttempt.succeeds cfg) cfg.maxRetries stop 0 backward = true) :
    sequentialBackward cfg B backward grad f.intermediateInputs prompts f.doneSequences =
      .ok (exactGradients B prompts 0 x stop grad) := by
  have hlength : f.intermediateInputs.length = f.doneSequences.length := by
    rw [hf.inputs, List.length_map]
  have hst : Unwinding B prompts 0 x stop
      ⟨f.intermediateInputs, f.doneSequences, none, grad, ([] : List (List Q))⟩ :=
    ⟨hf.tiles, hf.inputs⟩
  have hc : Collected B prompts 0 x stop grad stop
      ⟨f.intermediateInputs, f.doneSequences, none, grad, []⟩ :=
    ⟨(gradients_self stop grad).symm, fun q hq => absurd hq List.not_mem_nil⟩
  obtain ⟨hexact, hreturns⟩ :=
    backwardLoop_exact hprompts hstop backward stop _ hroute (Nat.le_refl _) hst hc
  obtain ⟨g, hg⟩ := hreturns stop (Nat.le_refl _) (fun m _ h0 => h0) hendures
  rw [sequentialBackward, if_pos hlength, hg, hexact g hg]

/-- What the autograd function is for: `ctx` serves one backward pass, which returns the gradients
of the whole batch, and no second one. -/
structure Ctx.Serves (cfg : Config) (B : Blocks H G P Q) (seqLen : ℕ) (prompts : List (List P))
    (inputs : List H) (ctx : Ctx H P) : Prop where
  /-- No request has more tokens than allowed, unless it is about one row. -/
  small : ∀ ts ∈ ctx.intermediateInputBatches, ∀ t ∈ ts,
    t.length ≤ 1 ∨ t.length * seqLen ≤ maxTokensInBatch
  backward : ∀ (grads : List G) (backward : ℕ → List BackwardAttempt),
    grads.length = inputs.length → (∀ k, ∀ a ∈ backward k, ∀ f ∈ a.forward, f.Routed cfg) →
    (∀ k, Retry.endures (BackwardAttempt.succeeds cfg) cfg.maxRetries cfg.numBlocks 0
      (backward k) = true) →
    ∃ ctx', autogradBackward cfg B.batched backward ctx seqLen grads =
        .ok (exactGradients B.batched prompts 0 inputs cfg.numBlocks grads, ctx') ∧
      (0 < cfg.numBlocks → ∀ (grads' : List G) (again : ℕ → List BackwardAttempt),
        grads'.length = inputs.length →
        autogradBackward cfg B.batched again ctx' seqLen grads' = .error (.batch .assertion))

/-- What the `n` batches leave. -/
def batchCtx (size n : ℕ) (prompts : List (List P)) (f : ℕ → Forwarded (List H)) : Ctx H P where
  promptBatches := (List.range n).map fun k => prompts.map (part size k)
  intermediateInputBatches := (List.range n).map fun k => (f k).intermediateInputs
  sequencesForBatches := (List.range n).map fun k => (f k).doneSequences

theorem serves_of_exact {B : Blocks H G P Q} {seqLen size : ℕ} {prompts : List (List P)}
    {inputs : List H} (hsize : batchSize seqLen = .ok size) (hs : 0 < size)
    (hsmall : size = 1 ∨ size * seqLen ≤ maxTokensInBatch)
    (hprompts : prompts = [] ∨ prompts.length = cfg.numBlocks)
    {f : ℕ → Forwarded (List H)} (hf : ∀ k, Exact B.batched (prompts.map (part size k)) 0
      (part size k inputs) cfg.numBlocks (f k)) :
    (batchCtx size (numParts size inputs.length) prompts f).Serves cfg B seqLen prompts inputs := by
  have hle := le_numParts hs inputs.length
  have hpos : 0 < numParts size inputs.length :=
    Nat.lt_of_lt_of_le Nat.one_pos (Nat.le_max_right _ _)
  generalize hn : numParts size inputs.length = n at hle hpos ⊢
  have hparts (k : ℕ) : prompts.map (part size k) = [] ∨
      (prompts.map (part size k)).length = cfg.numBlocks := by
    rwa [List.map_eq_nil_iff, List.length_map]
  constructor
  · intro ts hts t ht
    obtain ⟨k, -, rfl⟩ := List.mem_map.mp hts
    rw [(hf k).inputs] at ht
    obtain ⟨s, -, rfl⟩ := List.mem_map.mp ht
    have hlen : (inputAt B.batched (prompts.map (part size k)) 0 (part size k inputs)
        s.start).length ≤ size := by
      rw [length_inputAt_batched, length_part]
      exact Nat.min_le_left _ _
    rcases hsmall with h | h
    · exact .inl (h ▸ hlen)
    · exact .inr (Nat.le_trans (Nat.mul_le_mul_right seqLen hlen) h)
  intro grads backward hgrads hroute hendures
  have hsplit (g : List G) (hg : g.length = inputs.length) :
      splitInputs size g = (List.range n).map fun k => part size k g := by
    rw [splitInputs, hg, hn]
  have hbackward := fun k => sequentialBackward_exact (hparts k) (Nat.le_refl _) (hf k)
    (part size k grads) (hroute k) (hendures k)
  obtain ⟨hlen, hlens⟩ := length_gradients_batched B prompts 0 0 cfg.numBlocks hgrads
  simp only [exactGradients_part] at hbackward
  have hcat := cat_results size hpos
    (exactGradients B.batched prompts 0 inputs cfg.numBlocks grads) (by rw [exactGradients, hlen]; exact hle) (by
      intro bs hbs b hb
      unfold exactGradients at hbs
      dsimp only at hbs
      split_ifs at hbs with hnil
      · cases hbs
      · cases hbs
        exact Nat.le_trans (hlens b hb) hle)
  refine ⟨{
      promptBatches := (List.range n).map fun k => prompts.map (part size k)
      intermediateInputBatches := (List.range n).map fun k => (f k).intermediateInputs
      sequencesForBatches := (List.range n).map fun _ => [] },
    ?_, fun hblocks grads' again hgrads' => ?_⟩
  · simp only [autogradBackward, batchCtx, hsize, Fallible.ok_bind, hsplit grads hgrads,
      gatherBackward_eq hbackward, List.length_map, and_self, if_true]
    rw [hcat, List.map_map]
    rfl
  · have hused : gatherBackward cfg B.batched again ((List.range n).map fun k => part size k grads')
        ((List.range n).map fun k => (f k).intermediateInputs)
        ((List.range n).map fun k => prompts.map (part size k)) ((List.range n).map fun _ => []) =
          .error (.batch .assertion) := by
      apply gatherBackward_used hpos
      intro k h
      rw [(hf k).inputs, List.length_map, List.length_nil, List.length_eq_zero_iff] at h
      have htiles := (hf k).tiles
      rw [h] at htiles
      exact absurd htiles (Nat.ne_of_lt hblocks)
    simp only [autogradBackward, hsize, Fallible.ok_bind, hsplit grads' hgrads', List.length_map,
      List.map_map, Function.comp_def, hused, and_self, if_true]
    rfl

theorem presentPrompts_length {prompts : List (List P)}
    (hblocks : isDummy prompts = true ∨ prompts.length = cfg.numBlocks) :
    presentPrompts prompts = [] ∨ (presentPrompts prompts).length = cfg.numBlocks := by
  unfold presentPrompts
  split_ifs with hdummy
  · exact .inl rfl
  · exact .inr (hblocks.resolve_left hdummy)

/-- Forward on the batches is forward on all rows, and leaves the spans and inputs of each batch. -/
theorem autogradForward_exact {B : Blocks H G P Q} {seqLen size : ℕ} {inputs : List H}
    {prompts : List (List P)} {attempts : ℕ → List Attempt} (hsize : batchSize seqLen = .ok size)
    (hs : 0 < size) (hblocks : isDummy prompts = true ∨ prompts.length = cfg.numBlocks)
    (hrows : ∀ ps ∈ prompts, ps.length = inputs.length)
    (hroute : ∀ k, ∀ a ∈ attempts k, a.Routed cfg)
    (hendures : ∀ k, Retry.endures Attempt.succeeds cfg.maxRetries cfg.numBlocks 0 (attempts k) =
      true) :
    ∃ f : ℕ → Forwarded (List H),
      (∀ k, Exact B.batched ((presentPrompts prompts).map (part size k)) 0 (part size k inputs)
        cfg.numBlocks (f k)) ∧
      autogradForward cfg B.batched attempts seqLen inputs prompts =
        .ok (inputAt B.batched (presentPrompts prompts) 0 inputs cfg.numBlocks,
          batchCtx size (numParts size inputs.length) (presentPrompts prompts) f) := by
  have hforward (k : ℕ) : ∃ f, sequentialForward cfg B.batched (attempts k) (part size k inputs)
      ((presentPrompts prompts).map (part size k)) 0 none = .ok f ∧
        Exact B.batched ((presentPrompts prompts).map (part size k)) 0 (part size k inputs)
          cfg.numBlocks f := by
    have hparts : (presentPrompts prompts).map (part size k) = [] ∨
        ((presentPrompts prompts).map (part size k)).length = cfg.numBlocks := by
      rw [List.map_eq_nil_iff, List.length_map]
      exact presentPrompts_length hblocks
    obtain ⟨hexact, hreturns⟩ := sequentialForward_exact (B := B.batched)
      (x := part size k inputs) hparts (Nat.zero_le _) (Nat.le_refl _) (hroute k)
    obtain ⟨f, hf⟩ := hreturns _ (Nat.le_refl _) (fun m _ h0 => h0) (hendures k)
    exact ⟨f, hf, hexact f hf⟩
  choose f hf hexact using hforward
  refine ⟨f, hexact, ?_⟩
  have houtputs : (((List.range (numParts size inputs.length)).map f).flatMap Forwarded.outputs) =
      inputAt B.batched (presentPrompts prompts) 0 inputs cfg.numBlocks := by
    rw [List.flatMap_def, List.map_map]
    simp only [Function.comp_def, (hexact _).outputs, inputAt_part]
    apply flatten_parts
    rw [length_inputAt_batched]
    exact le_numParts hs _
  simp only [autogradForward, hsize, Fallible.ok_bind, promptBatches_eq hrows]
  rw [splitInputs, gatherForward_eq hf, Fallible.ok_bind, houtputs, if_pos (by simp), List.map_map,
    List.map_map]
  rfl

/-- The autograd function is that of the whole batch. However its rows are split by their tokens, each
part routed by itself and failing fewer than `max_retries` times in a row: `forward` returns the
composition of all blocks on the whole batch, and `ctx` serves the backward pass. -/
theorem autogradFunction_exact (cfg : Config) (B : Blocks H G P Q) (seqLen : ℕ) (inputs : List H)
    (prompts : List (List P)) (attempts : ℕ → List Attempt) (hseq : 0 < seqLen)
    (hblocks : isDummy prompts = true ∨ prompts.length = cfg.numBlocks)
    (hrows : ∀ ps ∈ prompts, ps.length = inputs.length)
    (hroute : ∀ k, ∀ a ∈ attempts k, a.Routed cfg)
    (hendures : ∀ k, Retry.endures Attempt.succeeds cfg.maxRetries cfg.numBlocks 0 (attempts k) =
      true) :
    ∃ ctx, autogradForward cfg B.batched attempts seqLen inputs prompts =
        .ok (inputAt B.batched (presentPrompts prompts) 0 inputs cfg.numBlocks, ctx) ∧
      ctx.Serves cfg B seqLen (presentPrompts prompts) inputs := by
  obtain ⟨size, hsize, hs, hsmall⟩ := batchSize_ok hseq
  obtain ⟨f, hf, hforward⟩ := autogradForward_exact hsize hs hblocks hrows hroute hendures
  exact ⟨_, hforward, serves_of_exact hsize hs hsmall (presentPrompts_length hblocks) hf⟩

/-- Three rows of 600 tokens are three batches: one is answered at once, one has no route at first,
and the last loses a request. -/
theorem autogradFunction_exact_threeBatches :
    let B : Blocks ℕ ℕ ℕ ℕ :=
      ⟨fun b p h => 2 * h + b + p.getD 0, fun b p h g => g + b * h + p.getD 0, fun p g => p * g⟩
    let fates : ℕ → List Fate := fun k => (List.replicate k .failed) ++ [.answered, .answered]
    let attempts : ℕ → List Attempt := fun k => (fates (k % 3)).map Attempt.viaFirstBlockApart
    let backward : ℕ → List BackwardAttempt := fun _ => [⟨[], true⟩, ⟨[], true⟩]
    ∃ ctx, autogradForward ⟨2, some 3⟩ B.batched attempts 600 [1, 2, 3] [[4, 5, 6], [7, 8, 9]] =
        .ok ([20, 27, 34], ctx) ∧
      ∃ ctx', autogradBackward ⟨2, some 3⟩ B.batched backward ctx 600 [1, 1, 1] =
        .ok (([18, 23, 28], some [[72, 115, 168], [98, 144, 198]]), ctx') := by
  intro B fates attempts backward
  have hroute : ∀ k, ∀ a ∈ attempts k, a.Routed ⟨2, some 3⟩ := by
    intro k a ha
    obtain ⟨fate, -, rfl⟩ := List.mem_map.mp ha
    exact Attempt.routed_viaFirstBlockApart _ fate
  have hendures : ∀ k, Retry.endures Attempt.succeeds (some 3) 2 0 (attempts k) = true := by
    have hfates : ∀ j < 3, Retry.endures Attempt.succeeds (some 3) 2 0
        ((fates j).map Attempt.viaFirstBlockApart) = true := by decide
    exact fun k => hfates (k % 3) (Nat.mod_lt k (by decide))
  obtain ⟨ctx, hforward, hctx⟩ := autogradFunction_exact ⟨2, some 3⟩ B 600 [1, 2, 3]
    [[4, 5, 6], [7, 8, 9]] attempts (by decide) (.inr rfl) (by decide) hroute hendures
  have hnever : ∀ k, ∀ a ∈ backward k, ∀ f ∈ a.forward, f.Routed ⟨2, some 3⟩ := by
    intro k a ha f hf
    have ha' : a = ⟨[], true⟩ := by simpa [backward] using ha
    rw [ha'] at hf
    exact absurd hf List.not_mem_nil
  obtain ⟨ctx', hbackward, -⟩ :=
    hctx.backward [1, 1, 1] backward rfl hnever fun _ => by decide
  exact ⟨ctx, hforward, ctx', hbackward⟩

end BloomBee.SequentialAutograd
