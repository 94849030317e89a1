import BloomBee.Spec.SequentialAutograd
import BloomBee.Sanity.SessionRetry
import BloomBee.Proofs.InferenceSession

/-! Backward through the remote blocks is exact under failures: what is on the two stacks always
leads from the first block to where the gradients have come, every span with its own input. First
what is computed through a range of blocks, and that requests over consecutive spans add up to it. -/

set_option autoImplicit false

namespace BloomBee.SequentialAutograd

open InferenceSession (Span clampLast Covers covers_append)

variable {H G P Q : Type} (B : Blocks H G P Q) (prompts : List P) (start : ℕ) (x : H)

/-- The input of block `b`: the blocks from `start` on, each with its prompt. -/
def inputAt (b : ℕ) : H :=
  (List.range' start (b - start)).foldl (fun h b => B.forward b prompts[b]? h) x

/-- Backward through block `b`, with the input it had in the forward pass. -/
def backwardAt (b : ℕ) (r : G × List Q) : G × List Q :=
  let grad := B.backward b prompts[b]? (inputAt B prompts start x b) r.1
  (grad, (prompts[b]?.map fun p => B.gradPrompt p grad).toList ++ r.2)

/-- The blocks from `stop - 1` down to `b`, each once, with the gradients of the prompts in the
order of the blocks. -/
def gradients (b stop : ℕ) (grad : G) : G × List Q :=
  (List.range' b (stop - b)).foldr (backwardAt B prompts start x) (grad, [])

/-- What `make_sequence` is assumed to return: spans that lead from the block to the end, once
the last of them is cut there. -/
def Attempt.Routed (cfg : Config) (a : Attempt) : Prop :=
  ∀ b e, b < e → e ≤ cfg.numBlocks → Covers b e (clampLast e (a.makeSequence b e))

/-- What `sequential_forward` is for. -/
structure Exact (stop : ℕ) (f : Forwarded H) : Prop where
  outputs : f.outputs = inputAt B prompts start x stop
  tiles : Covers start stop f.doneSequences
  inputs : f.intermediateInputs = f.doneSequences.map fun s => inputAt B prompts start x s.start

variable {B} {prompts} {start} {x}

/-! ### Ranges of blocks -/

theorem inputAt_start : inputAt B prompts start x start = x := by
  rw [inputAt, Nat.sub_self]
  rfl

theorem inputAt_add {b : ℕ} (hb : start ≤ b) (k : ℕ) : inputAt B prompts start x (b + k) =
    (List.range' b k).foldl (fun h b => B.forward b prompts[b]? h) (inputAt B prompts start x b) := by
  rw [inputAt, inputAt, ← List.foldl_append, show b + k - start = (b - start) + k by omega,
    ← List.range'_append_1, show start + (b - start) = b by omega]

theorem inputAt_succ {b : ℕ} (hb : start ≤ b) : inputAt B prompts start x (b + 1) =
    B.forward b prompts[b]? (inputAt B prompts start x b) := inputAt_add hb 1

theorem inputAt_restart {m b : ℕ} (hm : start ≤ m) (hb : m ≤ b) :
    inputAt B prompts m (inputAt B prompts start x m) b = inputAt B prompts start x b := by
  obtain ⟨k, rfl⟩ := Nat.exists_eq_add_of_le hb
  rw [inputAt_add (Nat.le_refl m), inputAt_start, inputAt_add hm]

theorem foldr_backwardAt (bs : List ℕ) (r : G × List Q) :
    bs.foldr (backwardAt B prompts start x) r =
      ((bs.foldr (backwardAt B prompts start x) (r.1, [])).1,
        (bs.foldr (backwardAt B prompts start x) (r.1, [])).2 ++ r.2) := by
  induction bs with
  | nil => rfl
  | cons b bs ih =>
    rw [List.foldr_cons, ih, List.foldr_cons]
    simp only [backwardAt, List.append_assoc]

theorem gradients_self (b : ℕ) (grad : G) :
    gradients B prompts start x b b grad = (grad, []) := by
  rw [gradients, Nat.sub_self]
  rfl

theorem gradients_split {b m stop : ℕ} (hb : b ≤ m) (hm : m ≤ stop) (grad : G) :
    gradients B prompts start x b stop grad =
      ((gradients B prompts start x b m (gradients B prompts start x m stop grad).1).1,
        (gradients B prompts start x b m (gradients B prompts start x m stop grad).1).2 ++
          (gradients B prompts start x m stop grad).2) := by
  have hsplit : List.range' b (stop - b) = List.range' b (m - b) ++ List.range' m (stop - m) := by
    rw [show stop - b = (m - b) + (stop - m) by omega, ← List.range'_append_1,
      show b + (m - b) = m by omega]
  rw [gradients, hsplit, List.foldr_append, foldr_backwardAt]
  rfl

/-! ### One request -/

/-- The prompts of the blocks of a span are those at their indices. -/
theorem requestedBlocks_slice {span : Span}
    (hprompts : prompts = [] ∨ span.stop ≤ prompts.length) :
    requestedBlocks span (slice prompts span) =
      (List.range' span.start (span.stop - span.start)).map fun b => (b, prompts[b]?) := by
  unfold requestedBlocks slice
  dsimp only
  split_ifs with hnil
  · rcases hprompts with rfl | hlen
    · rfl
    · have hempty : span.stop - span.start = 0 := by
        have := congrArg List.length hnil
        rw [List.length_drop, List.length_take, List.length_nil] at this
        omega
      rw [hempty]
      rfl
  · have hlen : span.stop ≤ prompts.length := by
      refine hprompts.resolve_left fun h => hnil ?_
      rw [h, List.take_nil, List.drop_nil]
    refine List.ext_getElem (by simp; omega) fun i hi hi' => ?_
    simp only [List.length_map, List.length_range'] at hi'
    simp only [List.getElem_zip, List.getElem_map, List.getElem_range', List.getElem_drop,
      List.getElem_take, Nat.one_mul, Prod.mk.injEq, true_and]
    rw [List.getElem?_eq_getElem (by omega)]

/-- The request for a span takes the input of its first block to that of the block after it. -/
theorem rpcForward_span {span : Span} (hprompts : prompts = [] ∨ span.stop ≤ prompts.length)
    (hs : start ≤ span.start) (hlt : span.start < span.stop) :
    rpcForward B (requestedBlocks span (slice prompts span)) (inputAt B prompts start x span.start) =
      inputAt B prompts start x span.stop := by
  have hstop : span.stop = span.start + (span.stop - span.start) := by omega
  rw [requestedBlocks_slice hprompts, rpcForward, List.foldl_map, hstop, inputAt_add hs,
    Nat.add_sub_cancel_left]

theorem rpcBackward_range {b : ℕ} (hb : start ≤ b) (k : ℕ) (grad : G) :
    rpcBackward B ((List.range' b k).map fun b => (b, prompts[b]?)) (inputAt B prompts start x b)
      grad = (List.range' b k).foldr (backwardAt B prompts start x) (grad, []) := by
  induction k generalizing b with
  | zero => rfl
  | succ k ih =>
    rw [List.range'_succ, List.map_cons, rpcBackward, List.foldr_cons, ← ih (Nat.le_succ_of_le hb),
      inputAt_succ hb]
    rfl

/-- The backward request for a span, with the input that its first block had. -/
theorem rpcBackward_span {span : Span} (hprompts : prompts = [] ∨ span.stop ≤ prompts.length)
    (hs : start ≤ span.start) (grad : G) :
    rpcBackward B (requestedBlocks span (slice prompts span)) (inputAt B prompts start x span.start)
      grad = gradients B prompts start x span.start span.stop grad := by
  rw [requestedBlocks_slice hprompts, rpcBackward_range hs]
  rfl

/-! ### Forward -/

structure Ahead (blockIdx endIndex attemptNo : ℕ) (sequences : List Span) : Prop where
  le : blockIdx ≤ endIndex
  covers : attemptNo = 0 → sequences ≠ [] → Covers blockIdx endIndex sequences

theorem Ahead.sequences {cfg : Config} {a : Attempt} {blockIdx endIndex attemptNo : ℕ}
    {seqs : List Span} (h : Ahead blockIdx endIndex attemptNo seqs)
    (hlt : blockIdx < endIndex) (hend : endIndex ≤ cfg.numBlocks) (ha : a.Routed cfg) :
    (∀ r ∈ a.sequences endIndex blockIdx attemptNo seqs, Covers blockIdx endIndex r) ∧
      (a.fate = .answered → (a.sequences endIndex blockIdx attemptNo seqs).isSome) := by
  have hcov := ha blockIdx endIndex hlt hend
  unfold Attempt.sequences
  dsimp only
  split_ifs with hremake hraises
  · refine ⟨fun r hr => (by cases hr), fun hf => ?_⟩
    rcases hraises with hraises | hnil
    · rw [hf] at hraises
      cases hraises
    · rw [hnil] at hcov
      exact absurd hcov (Nat.ne_of_lt hlt)
  · refine ⟨fun r hr => ?_, fun _ => rfl⟩
    obtain rfl := Option.some.inj hr
    exact hcov
  · refine ⟨fun r hr => ?_, fun _ => rfl⟩
    obtain rfl := Option.some.inj hr
    rw [Bool.or_eq_true, List.isEmpty_iff, decide_eq_true_iff, not_or] at hremake
    exact h.covers (by omega) hremake.1

def Attempt.succeeds (_ : ℕ) (a : Attempt) : Bool := decide (a.fate = .answered)

/-- The loop: by induction on the attempts, each success puts the input of one more span and the
span itself aside. -/
theorem forwardLoop_exact {cfg : Config} {stop : ℕ}
    (hprompts : prompts = [] ∨ prompts.length = cfg.numBlocks) (hstop : stop ≤ cfg.numBlocks)
    (attempts : List Attempt) :
    ∀ (seqs : List Span) (b k : ℕ) (ii : List H) (done : List Span),
      (∀ a ∈ attempts, a.Routed cfg) → Ahead b stop k seqs → Covers start b done →
      (ii = done.map fun s => inputAt B prompts start x s.start) →
      Retry.Meets Attempt.succeeds cfg.maxRetries (Exact B prompts start x stop) (stop - b) k
        attempts
        (forwardLoop cfg B prompts stop attempts seqs b k (inputAt B prompts start x b) ii done) := by
  have hend {b : ℕ} {ii : List H} {done : List Span} (hb : ¬ b < stop) (hle : b ≤ stop)
      (hdone : Covers start b done)
      (hii : ii = done.map fun s => inputAt B prompts start x s.start) :
      Exact B prompts start x stop ⟨inputAt B prompts start x b, ii, done⟩ := by
    obtain rfl := Nat.le_antisymm hle (Nat.le_of_not_lt hb)
    exact ⟨rfl, hdone, hii⟩
  induction attempts with
  | nil =>
    intro seqs b k ii done _ hahead hdone hii
    rw [forwardLoop]
    split_ifs with hb
    · exact .pending (Nat.sub_pos_of_lt hb)
    · exact .done (hend hb hahead.le hdone hii)
  | cons a attempts ih =>
    intro seqs b k ii done hroute hahead hdone hii
    obtain ⟨ha, hroute⟩ := List.forall_mem_cons.mp hroute
    rw [forwardLoop]
    by_cases hb : b < stop
    swap
    · rw [if_neg hb]
      exact .done (hend hb hahead.le hdone hii)
    rw [if_pos hb]
    obtain ⟨hcov, hroutes⟩ := hahead.sequences hb hstop ha
    have hfails (rest : List Span) (hf : ¬ a.fate = .answered) :=
      Retry.Meets.failure (e := Error.retriesExhausted) (a := a)
        (by simpa [Attempt.succeeds] using hf) (Nat.sub_pos_of_lt hb)
        (ih rest b (k + 1) ii done hroute
          ⟨hahead.le, fun h => absurd h (Nat.succ_ne_zero k)⟩ hdone hii)
    rcases hseq : a.sequences stop b k seqs with - | seqs'
    · refine hfails _ fun hf => ?_
      have hsome := hroutes hf
      rw [hseq] at hsome
      cases hsome
    rcases seqs' with - | ⟨span, rest⟩
    · exact absurd (hcov [] (by rw [hseq]; rfl)) (Nat.ne_of_lt hb)
    cases hfate : a.fate with
    | answered =>
      obtain ⟨hs, hlt, hrest⟩ := hcov (span :: rest) (by rw [hseq]; rfl)
      have hle : start ≤ span.start := hs ▸ hdone.le
      have hspan : prompts = [] ∨ span.stop ≤ prompts.length := by
        refine hprompts.imp_right fun h => ?_
        have := hrest.le
        omega
      have hdone' : Covers start span.stop (done ++ [span]) :=
        covers_append.mpr ⟨b, hdone, hs, hlt, rfl⟩
      have hii' : ii ++ [inputAt B prompts start x span.start] =
          (done ++ [span]).map fun s => inputAt B prompts start x s.start := by
        rw [List.map_append, hii, List.map_singleton]
      have hmeets := ih rest span.stop 0 _ _ hroute ⟨hrest.le, fun _ _ => hrest⟩ hdone' hii'
      dsimp only
      rw [← hs, rpcForward_span hspan hle hlt]
      have hfewer : stop - span.stop < stop - span.start := by
        have := hrest.le
        omega
      exact hmeets.success (fun _ _ _ _ hsucceeds => hsucceeds) hfewer
    | noRoute => exact hfails rest (by rw [hfate]; exact fun h => by cases h)
    | failed => exact hfails rest (by rw [hfate]; exact fun h => by cases h)

/-- `sequential_forward` returns the composition of the blocks, with the exact input of each
span it went through, unless the retries run out. -/
theorem sequentialForward_exact {cfg : Config} {stop : ℕ}
    (hprompts : prompts = [] ∨ prompts.length = cfg.numBlocks) (hle : start ≤ stop)
    (hstop : stop ≤ cfg.numBlocks) {attempts : List Attempt}
    (hroute : ∀ a ∈ attempts, a.Routed cfg) :
    Retry.Meets Attempt.succeeds cfg.maxRetries (Exact B prompts start x stop) (stop - start) 0
      attempts (sequentialForward cfg B attempts x prompts start (some stop)) := by
  have hassert : ¬ (cfg.numBlocks < stop ∨ (prompts ≠ [] ∧ prompts.length ≠ cfg.numBlocks)) := by
    rintro (h | ⟨hne, hlen⟩)
    · exact absurd hstop (Nat.not_le_of_lt h)
    · exact (hprompts.elim hne hlen)
  have hloop := forwardLoop_exact (B := B) (x := x) hprompts hstop attempts [] start 0 [] []
    hroute ⟨hle, fun _ h => absurd rfl h⟩ rfl rfl
  rw [inputAt_start] at hloop
  simp only [sequentialForward, Option.getD_some, if_neg hassert]
  exact hloop

end BloomBee.SequentialAutograd

/-! ### Backward -/

namespace BloomBee.SequentialAutograd

open InferenceSession (Span clampLast Covers covers_append firstBlockApart)

variable {H G P Q : Type} (B : Blocks H G P Q) (prompts : List P) (start : ℕ) (x : H)

/-- The stacks: spans from the first block up to block `e`, and the inputs of these. -/
structure Saved (e : ℕ) (intermediateInputs : List H) (forwardSequences : List Span) : Prop where
  covers : Covers start e forwardSequences
  inputs : intermediateInputs =
    forwardSequences.map fun s => inputAt B prompts start x s.start

/-- The gradients that have come down to block `e`. -/
structure Collected (stop : ℕ) (grad : G) (e : ℕ) (st : BackwardState H G Q) : Prop where
  eq : (st.gradOutputs, st.gradPromptsReversed.reverse.flatten) =
    gradients B prompts start x e stop grad
  nonempty : ∀ q ∈ st.gradPromptsReversed, q ≠ []

structure Current (e : ℕ) (st : BackwardState H G Q) (inputs : H) (span : Span) : Prop where
  saved : Saved B prompts start x span.start st.intermediateInputs st.forwardSequences
  lt : span.start < span.stop
  stop : span.stop = e
  inputs : inputs = inputAt B prompts start x span.start

def exactGradients (stop : ℕ) (grad : G) : G × Option (List Q) :=
  let r := gradients B prompts start x start stop grad
  (r.1, if r.2 = [] then none else some r.2)

/-- An attempt succeeds if its request is answered, and the forward before it endures. -/
def BackwardAttempt.succeeds (cfg : Config) (attemptNo : ℕ) (a : BackwardAttempt) : Bool :=
  a.answered && (decide (attemptNo = 0) ||
    Retry.endures Attempt.succeeds cfg.maxRetries cfg.numBlocks 0 a.forward)

variable {B} {prompts} {start} {x}

theorem pop_concat {α : Type} (xs : List α) (y : α) : pop (xs ++ [y]) = some (xs, y) := by
  rw [pop, List.getLast?_concat, List.dropLast_concat]
  rfl

theorem covers_mem {b e : ℕ} {spans : List Span} (h : Covers b e spans) :
    ∀ s ∈ spans, b ≤ s.start := by
  induction spans generalizing b with
  | nil => exact fun s hs => absurd hs List.not_mem_nil
  | cons s spans ih =>
    obtain ⟨hs, hlt, h⟩ := h
    refine List.forall_mem_cons.mpr ⟨Nat.le_of_eq hs.symm, fun t ht => ?_⟩
    have := ih h t ht
    omega

/-- Either nothing is left, or a span is on top of the others. -/
theorem Saved.top {e : ℕ} {ii : List H} {fs : List Span} (h : Saved B prompts start x e ii fs) :
    (fs = [] ∧ ii = [] ∧ start = e) ∨
    ∃ fs' span, fs = fs' ++ [span] ∧
      ∃ ii', ii = ii' ++ [inputAt B prompts start x span.start] ∧
      Saved B prompts start x span.start ii' fs' ∧ span.start < span.stop ∧ span.stop = e := by
  obtain ⟨hcov, hinputs⟩ := h
  rcases List.eq_nil_or_concat fs with rfl | ⟨fs', span, rfl⟩
  · exact .inl ⟨rfl, hinputs, hcov⟩
  · rw [List.concat_eq_append] at hcov hinputs ⊢
    obtain ⟨m, hfs, hs, hlt, hstop⟩ := covers_append.mp hcov
    rw [List.map_append, List.map_singleton] at hinputs
    exact .inr ⟨fs', span, rfl, _, hinputs, ⟨hs ▸ hfs, rfl⟩, hlt, hstop⟩

/-- What is pushed on the stacks leads on from where they stand. -/
theorem Saved.extend {m e : ℕ} {ii ii' : List H} {fs fs' : List Span}
    (h : Saved B prompts start x m ii fs) (hcov : Covers m e fs')
    (hinputs : ii' = fs'.map fun s => inputAt B prompts start x s.start) :
    Saved B prompts start x e (ii ++ ii') (fs ++ fs') := by
  refine ⟨covers_append.mpr ⟨m, h.covers, hcov⟩, ?_⟩
  rw [h.inputs, hinputs, List.map_append]

theorem Current.pos {e : ℕ} {st : BackwardState H G Q} {inputs : H} {span : Span}
    (h : Current B prompts start x e st inputs span) : 0 < e - start := by
  have := h.saved.covers.le
  have := h.lt
  have := h.stop
  omega

variable {stop : ℕ} {grad : G} {cfg : Config}

/-- The answer to a request takes the gradients one span further down. -/
theorem Current.answer {e : ℕ} {st : BackwardState H G Q} {inputs : H} {span : Span}
    (h : Current B prompts start x e st inputs span)
    (hprompts : prompts = [] ∨ prompts.length = cfg.numBlocks) (hstop : stop ≤ cfg.numBlocks)
    (he : e ≤ stop) (hc : Collected B prompts start x stop grad e st) :
    Collected B prompts start x stop grad span.start (st.answer B prompts inputs span) := by
  obtain ⟨hgrads, hne⟩ := hc
  have hle := h.saved.covers.le
  have hspan : prompts = [] ∨ span.stop ≤ prompts.length := by
    refine hprompts.imp_right fun hlen => ?_
    rw [hlen, h.stop]
    exact Nat.le_trans he hstop
  have hsplit : gradients B prompts start x span.start stop grad = _ :=
    gradients_split (Nat.le_of_lt h.lt) (Nat.le_trans (Nat.le_of_eq h.stop) he) grad
  rw [h.stop, ← hgrads] at hsplit
  unfold BackwardState.answer
  rw [h.inputs, rpcBackward_span hspan hle, h.stop]
  constructor
  · rw [hsplit]
    dsimp only
    split_ifs with hnil
    · rw [hnil, List.append_nil, List.nil_append]
    · rw [List.reverse_append, List.flatten_append]
      simp
  · dsimp only
    split_ifs with hnil
    · rwa [List.append_nil]
    · exact List.forall_mem_append.mpr ⟨hne, List.forall_mem_singleton.mpr hnil⟩

/-- Where there is work left, the outer loop takes the span on top. -/
theorem Saved.next {e : ℕ} {st : BackwardState H G Q} (hcurrent : st.current = none)
    (h : Saved B prompts start x e st.intermediateInputs st.forwardSequences) :
    (start = e ∧ st.next = none) ∨
    ∃ st' inputs span, st.next = some (st', 0, inputs, span) ∧
      Current B prompts start x e st' inputs span ∧
      st'.gradOutputs = st.gradOutputs ∧ st'.gradPromptsReversed = st.gradPromptsReversed := by
  unfold BackwardState.next
  rw [hcurrent]
  rcases h.top with ⟨hfs, hii, he⟩ | ⟨fs, span, hfs, ii, hii, hsaved, hlt, hstop⟩
  · left
    rw [hfs, hii]
    exact ⟨he, rfl⟩
  · right
    rw [hfs, hii, pop_concat, pop_concat]
    exact ⟨_, _, _, rfl, ⟨hsaved, hlt, hstop, rfl⟩, rfl, rfl⟩

/-- The forward made again replaces the span under way by sub-spans, and the last of these is
under way after it. -/
theorem Current.recover {e : ℕ} {st : BackwardState H G Q} {inputs : H} {span : Span}
    (h : Current B prompts start x e st inputs span)
    (hprompts : prompts = [] ∨ prompts.length = cfg.numBlocks) (he : e ≤ cfg.numBlocks)
    {attempts : List Attempt} (hroute : ∀ a ∈ attempts, a.Routed cfg) :
    (∀ st' inputs' span', st.recover cfg B prompts attempts inputs span =
        some (st', inputs', span') → Current B prompts start x e st' inputs' span' ∧
        st'.gradOutputs = st.gradOutputs ∧ st'.gradPromptsReversed = st.gradPromptsReversed) ∧
      (Retry.endures Attempt.succeeds cfg.maxRetries cfg.numBlocks 0 attempts = true →
        (st.recover cfg B prompts attempts inputs span).isSome) := by
  obtain ⟨hsaved, hlt, hstop, hinputs⟩ := h
  obtain ⟨hexact, hreturns⟩ := sequentialForward_exact (B := B) (x := inputs) hprompts
    (Nat.le_of_lt hlt) (Nat.le_trans (Nat.le_of_eq hstop) he) hroute
  unfold BackwardState.recover
  rcases hforward : sequentialForward cfg B attempts inputs prompts span.start (some span.stop)
    with error | f
  · refine ⟨fun st' inputs' span' h => (by cases h), fun hendures => ?_⟩
    obtain ⟨f, hf⟩ := hreturns cfg.numBlocks (by omega) (fun m _ h0 => h0) hendures
    rw [hforward] at hf
    cases hf
  obtain ⟨-, htiles, hf⟩ := hexact f hforward
  have hii : f.intermediateInputs =
      f.doneSequences.map fun s => inputAt B prompts start x s.start := by
    rw [hf, hinputs]
    exact List.map_congr_left fun s hs =>
      inputAt_restart hsaved.covers.le (covers_mem htiles s hs)
  have hhead : f.doneSequences.head?.map (fun s => s.start) = some span.start := by
    rcases hdone : f.doneSequences with - | ⟨s, spans⟩
    · rw [hdone] at htiles
      exact absurd htiles (Nat.ne_of_lt hlt)
    · rw [hdone] at htiles
      exact congrArg some htiles.1
  have hlast : f.doneSequences.getLast?.map (fun s => s.stop) = some span.stop := by
    rcases List.eq_nil_or_concat f.doneSequences with hdone | ⟨spans, s, hdone⟩
    · rw [hdone] at hhead
      cases hhead
    · rw [hdone, List.concat_eq_append] at htiles ⊢
      obtain ⟨m, -, -, -, hs⟩ := covers_append.mp htiles
      rw [List.getLast?_concat]
      exact congrArg some hs
  have hlength : f.intermediateInputs.length = f.doneSequences.length := by
    rw [hf, List.length_map]
  rcases (hsaved.extend htiles hii).top with ⟨hfs, -, -⟩ | ⟨fs, s, hfs, ii, hii', hsaved', hlt', hs⟩
  · rw [(List.append_eq_nil_iff.mp hfs).2] at hhead
    cases hhead
  dsimp only
  rw [if_pos ⟨hlength, hhead, hlast⟩, hfs, hii', pop_concat, pop_concat]
  refine ⟨?_, fun _ => rfl⟩
  rintro st' inputs' span' ⟨⟩
  exact ⟨⟨hsaved', hlt', hs.trans hstop, rfl⟩, rfl, rfl⟩

/-- The state of the outer loop, or of the inner one after a failure. -/
def Unwinding (B : Blocks H G P Q) (prompts : List P) (start : ℕ) (x : H) (e : ℕ)
    (st : BackwardState H G Q) : Prop :=
  match st.current with
  | none => Saved B prompts start x e st.intermediateInputs st.forwardSequences
  | some (_, inputs, span) => Current B prompts start x e st inputs span

def BackwardState.attemptNo (st : BackwardState H G Q) : ℕ :=
  (st.current.map fun c => c.1).getD 0

theorem Unwinding.next {e : ℕ} {st : BackwardState H G Q} (h : Unwinding B prompts start x e st) :
    (start = e ∧ st.next = none) ∨
    ∃ st' inputs span, st.next = some (st', st.attemptNo, inputs, span) ∧
      Current B prompts start x e st' inputs span ∧
      st'.gradOutputs = st.gradOutputs ∧ st'.gradPromptsReversed = st.gradPromptsReversed := by
  unfold Unwinding at h
  unfold BackwardState.attemptNo
  rcases hc : st.current with - | ⟨k, inputs, span⟩
  · rw [hc] at h
    exact Saved.next hc h
  · rw [hc] at h
    refine .inr ⟨st, inputs, span, ?_, h, rfl, rfl⟩
    rw [BackwardState.next, hc]
    rfl

theorem Collected.result {st : BackwardState H G Q}
    (h : Collected B prompts start x stop grad start st) :
    st.result = exactGradients B prompts start x stop grad := by
  unfold exactGradients
  rw [← h.eq, BackwardState.result]
  by_cases hnil : st.gradPromptsReversed = []
  · rw [hnil]
    rfl
  · have hflat : st.gradPromptsReversed.reverse.flatten ≠ [] := by
      obtain ⟨q, qs, hqs⟩ := List.exists_cons_of_ne_nil hnil
      intro hflat
      exact h.nonempty q (by rw [hqs]; exact List.mem_cons_self)
        (List.flatten_eq_nil_iff.mp hflat q (by rw [hqs]; simp))
    simp only [if_neg hnil, if_neg hflat]

theorem BackwardAttempt.succeeds_antitone (cfg : Config) (j k : ℕ) (a : BackwardAttempt)
    (h : j ≤ k) (ha : a.succeeds cfg k = true) : a.succeeds cfg j = true := by
  simp only [BackwardAttempt.succeeds, Bool.and_eq_true, Bool.or_eq_true,
    decide_eq_true_iff] at ha ⊢
  exact ⟨ha.1, ha.2.imp_left fun hk => by omega⟩

theorem Collected.of_same {e : ℕ} {st st' : BackwardState H G Q}
    (h : Collected B prompts start x stop grad e st) (hgrad : st'.gradOutputs = st.gradOutputs)
    (hqs : st'.gradPromptsReversed = st.gradPromptsReversed) :
    Collected B prompts start x stop grad e st' := by
  refine ⟨?_, ?_⟩
  · rw [hgrad, hqs]
    exact h.eq
  · rw [hqs]
    exact h.nonempty

/-- What an attempt goes on with: the span under way, or what it has recovered. -/
theorem Current.retried {e k : ℕ} {st : BackwardState H G Q} {inputs : H} {span : Span}
    (h : Current B prompts start x e st inputs span)
    (hprompts : prompts = [] ∨ prompts.length = cfg.numBlocks) (he : e ≤ cfg.numBlocks)
    {a : BackwardAttempt} (hroute : ∀ f ∈ a.forward, f.Routed cfg) :
    (∀ st' inputs' span', (if k = 0 then some (st, inputs, span)
        else st.recover cfg B prompts a.forward inputs span) = some (st', inputs', span') →
      Current B prompts start x e st' inputs' span' ∧ st'.gradOutputs = st.gradOutputs ∧
        st'.gradPromptsReversed = st.gradPromptsReversed) ∧
      (a.succeeds cfg k = true → (if k = 0 then some (st, inputs, span)
        else st.recover cfg B prompts a.forward inputs span).isSome) := by
  split_ifs with h0
  · refine ⟨?_, fun _ => rfl⟩
    rintro st' inputs' span' ⟨⟩
    exact ⟨h, rfl, rfl⟩
  · obtain ⟨hsome, hisSome⟩ := h.recover hprompts he hroute
    refine ⟨hsome, fun hs => hisSome ?_⟩
    rw [BackwardAttempt.succeeds, Bool.and_eq_true, Bool.or_eq_true, decide_eq_true_iff] at hs
    exact hs.2.resolve_left h0

/-- The loop: by induction on the attempts, each success takes the gradients down by a span and
each failure leaves a span under way whose input is on hand. -/
theorem backwardLoop_exact (hprompts : prompts = [] ∨ prompts.length = cfg.numBlocks)
    (hstop : stop ≤ cfg.numBlocks) (attempts : List BackwardAttempt) :
    ∀ (e : ℕ) (st : BackwardState H G Q), (∀ a ∈ attempts, ∀ f ∈ a.forward, f.Routed cfg) →
      e ≤ stop → Unwinding B prompts start x e st → Collected B prompts start x stop grad e st →
      Retry.Meets (BackwardAttempt.succeeds cfg) cfg.maxRetries
        (fun g => g = exactGradients B prompts start x stop grad) (e - start) st.attemptNo attempts
        (backwardLoop cfg B prompts attempts st) := by
  induction attempts with
  | nil =>
    intro e st _ _ hst hc
    rw [backwardLoop]
    rcases hst.next with ⟨rfl, hnext⟩ | ⟨st', inputs, span, hnext, hcur, -, -⟩
    · rw [hnext]
      exact .done hc.result
    · rw [hnext]
      exact .pending hcur.pos
  | cons a attempts ih =>
    intro e st hroute he hst hc
    obtain ⟨ha, hroute⟩ := List.forall_mem_cons.mp hroute
    rw [backwardLoop]
    rcases hst.next with ⟨rfl, hnext⟩ | ⟨st', inputs, span, hnext, hcur, hgrad, hqs⟩
    · rw [hnext]
      exact .done hc.result
    rw [hnext]
    dsimp only
    have hfails {st'' : BackwardState H G Q} {inputs'' : H} {span'' : Span}
        (hcur'' : Current B prompts start x e st'' inputs'' span'')
        (hgrad'' : st''.gradOutputs = st'.gradOutputs)
        (hqs'' : st''.gradPromptsReversed = st'.gradPromptsReversed)
        (hsucceeds : ¬ a.succeeds cfg st.attemptNo = true) :=
      Retry.Meets.failure (e := Error.retriesExhausted) hsucceeds hcur.pos
        (ih e { st'' with current := some (st.attemptNo + 1, inputs'', span'') } hroute he
          ⟨hcur''.saved, hcur''.lt, hcur''.stop, hcur''.inputs⟩
          (hc.of_same (hgrad''.trans hgrad) (hqs''.trans hqs)))
    obtain ⟨hcurrent, hisSome⟩ :=
      hcur.retried (k := st.attemptNo) hprompts (Nat.le_trans he hstop) ha
    rcases hrec : (if st.attemptNo = 0 then some (st', inputs, span)
      else st'.recover cfg B prompts a.forward inputs span) with - | ⟨st'', inputs'', span''⟩
    · rw [hrec] at hisSome
      exact hfails hcur rfl rfl fun h => by simpa using hisSome h
    obtain ⟨hcur'', hgrad'', hqs''⟩ := hcurrent st'' inputs'' span'' hrec
    rcases hanswered : a.answered with - | -
    · exact hfails hcur'' hgrad'' hqs'' (by simp [BackwardAttempt.succeeds, hanswered])
    · have hc'' := hc.of_same (hgrad''.trans hgrad) (hqs''.trans hqs)
      have hlt : span''.start < e := hcur''.stop ▸ hcur''.lt
      have hle := hcur''.saved.covers.le
      have hmeets := ih span''.start (st''.answer B prompts inputs'' span'') hroute
        (by omega) hcur''.saved (hcur''.answer hprompts hstop he hc'')
      exact hmeets.success (BackwardAttempt.succeeds_antitone cfg) (by omega)

/-- Fault-tolerant autograd is exact. However `make_sequence` tiles the blocks and whatever
requests fail, fewer than `max_retries` in a row: forward returns the composition of the blocks
`start` to `stop - 1` with the spans it went through and the exact input of each, and backward
on that applies each block's backward once, from the last to the first, with the block's own
input, and returns the gradients of the prompts in the order of the blocks. -/
theorem autograd_exact (cfg : Config) (B : Blocks H G P Q) (prompts : List P) (x : H) (grad : G)
    (start stop : ℕ) (attempts : List Attempt) (backward : List BackwardAttempt)
    (hprompts : prompts = [] ∨ prompts.length = cfg.numBlocks) (hle : start ≤ stop)
    (hstop : stop ≤ cfg.numBlocks) (hroute : ∀ a ∈ attempts, a.Routed cfg)
    (hroute' : ∀ a ∈ backward, ∀ f ∈ a.forward, f.Routed cfg)
    (hendures : Retry.endures Attempt.succeeds cfg.maxRetries (stop - start) 0 attempts = true)
    (hendures' : Retry.endures (BackwardAttempt.succeeds cfg) cfg.maxRetries (stop - start) 0
      backward = true) :
    ∃ f, sequentialForward cfg B attempts x prompts start (some stop) = .ok f ∧
      Exact B prompts start x stop f ∧
      sequentialBackward cfg B backward grad f.intermediateInputs prompts f.doneSequences =
        .ok (exactGradients B prompts start x stop grad) := by
  obtain ⟨hexact, hreturns⟩ := sequentialForward_exact (B := B) (x := x) hprompts hle hstop hroute
  obtain ⟨f, hf⟩ := hreturns _ (Nat.le_refl _) (fun m _ h0 => h0) hendures
  have hforward := hexact f hf
  refine ⟨f, hf, hforward, ?_⟩
  have hlength : f.intermediateInputs.length = f.doneSequences.length := by
    rw [hforward.inputs, List.length_map]
  rw [sequentialBackward, if_pos hlength]
  have hst : Unwinding B prompts start x stop
      ⟨f.intermediateInputs, f.doneSequences, none, grad, ([] : List (List Q))⟩ :=
    ⟨hforward.tiles, hforward.inputs⟩
  have hc : Collected B prompts start x stop grad stop
      ⟨f.intermediateInputs, f.doneSequences, none, grad, []⟩ :=
    ⟨(gradients_self stop grad).symm, fun q hq => absurd hq List.not_mem_nil⟩
  obtain ⟨hexact', hreturns'⟩ :=
    backwardLoop_exact hprompts hstop backward stop _ hroute' (Nat.le_refl _) hst hc
  obtain ⟨g, hg⟩ := hreturns' _ (Nat.le_refl _) (fun m _ h0 => h0) hendures'
  rw [hg, hexact' g hg]

def Attempt.viaFirstBlockApart (fate : Fate) : Attempt := ⟨fate, firstBlockApart⟩

theorem Attempt.routed_viaFirstBlockApart (cfg : Config) (fate : Fate) :
    (Attempt.viaFirstBlockApart fate).Routed cfg :=
  InferenceSession.routed_viaFirstBlockApart ⟨cfg.numBlocks, 0, none, false⟩ .answered

/-- One server holds all blocks and more, and loses the first backward request: the forward
made again goes over two servers, of which the second fails too. -/
theorem autograd_exact_recovered :
    let B : Blocks ℕ ℕ ℕ ℕ :=
      ⟨fun b p h => 2 * h + b + p.getD 0, fun b p h g => g + b * h + p.getD 0, fun p g => p * g⟩
    let attempts := [Fate.noRoute, .failed, .answered, .answered, .answered].map fun fate =>
      (⟨fate, fun b e => [⟨b, e + 2⟩]⟩ : Attempt)
    let again := [Fate.answered, .failed, .answered, .answered].map Attempt.viaFirstBlockApart
    let backward : List BackwardAttempt := [⟨[], false⟩, ⟨again, false⟩, ⟨again, true⟩,
      ⟨[], true⟩, ⟨[], true⟩]
    ∃ f, sequentialForward ⟨3, some 3⟩ B attempts 1 [4, 5, 6] 0 (some 3) = .ok f ∧
      f.outputs = 44 ∧
      sequentialBackward ⟨3, some 3⟩ B backward 7 f.intermediateInputs [4, 5, 6] f.doneSequences =
        .ok (64, some [256, 300, 294]) := by
  intro B attempts again backward
  have hroute : ∀ a ∈ attempts, a.Routed ⟨3, some 3⟩ := by
    intro a ha b e hlt _
    obtain ⟨fate, -, rfl⟩ := List.mem_map.mp ha
    simp [clampLast, Covers, hlt]
  have hagain : ∀ a ∈ backward, ∀ f ∈ a.forward, f.Routed ⟨3, some 3⟩ := by
    intro a ha f hf
    have hforward : a.forward = [] ∨ a.forward = again := by
      simp only [backward, List.mem_cons, List.not_mem_nil, or_false] at ha
      rcases ha with rfl | rfl | rfl | rfl | rfl <;> simp
    rcases hforward with h | h
    · rw [h] at hf
      exact absurd hf List.not_mem_nil
    · rw [h] at hf
      obtain ⟨fate, -, rfl⟩ := List.mem_map.mp hf
      exact Attempt.routed_viaFirstBlockApart _ fate
  obtain ⟨f, hf, hexact, hbackward⟩ := autograd_exact ⟨3, some 3⟩ B [4, 5, 6] 1 7 0 3 attempts
    backward (.inr rfl) (by decide) (by decide) hroute hagain (by decide) (by decide)
  exact ⟨f, hf, hexact.outputs, hbackward⟩

end BloomBee.SequentialAutograd
