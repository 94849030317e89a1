import BloomBee.Lib.ReverseMode
import BloomBee.Proofs.SequentialBatches

/-! What the autograd function returns are the gradients of its output. A row goes through the blocks
with a prompt added in each; backward through them is the adjoint of the derivative, in the inputs
and in every prompt, whatever these are computed from. -/

set_option autoImplicit false

namespace BloomBee.SequentialAutograd

open ReverseMode

/-! ### One row of a batch -/

section

variable {H G P Q : Type} {B : Blocks H G P Q} {prompts : List (List P)} {ps : List P} {r start : ℕ}
  {rows : List H} {grads : List G}

theorem getElem?_rowPrompts (hrow : (prompts.map fun qs => qs[r]?) = ps.map some) (i : ℕ) :
    (prompts[i]?.bind fun qs => qs[r]?) = ps[i]? := by
  have hi := congrArg (fun l => l[i]?) hrow
  simp only [List.getElem?_map] at hi
  cases hp : prompts[i]? <;> cases hq : ps[i]? <;> simp_all

theorem batched_forward_row (i : ℕ) (qs : Option (List P)) {h : H} (hh : rows[r]? = some h) :
    (B.batched.forward i qs rows)[r]? = some (B.forward i (qs.bind fun ps => ps[r]?) h) := by
  simp [Blocks.batched, hh]

theorem batched_backward_row (i : ℕ) (qs : Option (List P)) {h : H} (hh : rows[r]? = some h) {g : G}
    (hg : grads[r]? = some g) : (B.batched.backward i qs rows grads)[r]? =
      some (B.backward i (qs.bind fun ps => ps[r]?) h g) := by
  have hzip : (rows.zip grads)[r]? = some (h, g) := List.getElem?_zip_eq_some.mpr ⟨hh, hg⟩
  simp [Blocks.batched, hzip]

theorem batched_gradPrompt_row {qs : List P} {q : P} (hq : qs[r]? = some q) {g : G}
    (hg : grads[r]? = some g) : (B.batched.gradPrompt qs grads)[r]? = some (B.gradPrompt q g) := by
  simp [Blocks.batched, List.getElem?_zipWith, hq, hg]

variable (B start) in
theorem inputAt_row (hrow : (prompts.map fun qs => qs[r]?) = ps.map some) {h : H}
    (hh : rows[r]? = some h) (b : ℕ) :
    (inputAt B.batched prompts start rows b)[r]? = some (inputAt B ps start h b) := by
  unfold inputAt
  generalize b - start = n
  induction n with
  | zero => exact hh
  | succ n ih =>
    rw [List.range'_concat, List.foldl_append, List.foldl_append, List.foldl_cons, List.foldl_cons,
      List.foldl_nil, List.foldl_nil, batched_forward_row _ _ ih, getElem?_rowPrompts hrow]

variable (B start) in
theorem gradients_row (hrow : (prompts.map fun qs => qs[r]?) = ps.map some) {h : H}
    (hh : rows[r]? = some h) {g : G} (hg : grads[r]? = some g) (b stop : ℕ) :
    (gradients B.batched prompts start rows b stop grads).1[r]? =
        some (gradients B ps start h b stop g).1 ∧
      ((gradients B.batched prompts start rows b stop grads).2.map fun qs => qs[r]?) =
        (gradients B ps start h b stop g).2.map some := by
  unfold gradients
  induction List.range' b (stop - b) with
  | nil => exact ⟨hg, rfl⟩
  | cons i bs ih =>
    obtain ⟨hgrad, hprompts⟩ := ih
    rw [List.foldr_cons, List.foldr_cons]
    generalize bs.foldr (backwardAt B.batched prompts start rows) (grads, []) = s at hgrad hprompts ⊢
    generalize bs.foldr (backwardAt B ps start h) (g, []) = s' at hgrad hprompts ⊢
    have hinput := inputAt_row B start hrow hh i
    have hnew : (backwardAt B.batched prompts start rows i s).1[r]? =
        some (backwardAt B ps start h i s').1 := by
      unfold backwardAt
      rw [batched_backward_row _ _ hinput hgrad, getElem?_rowPrompts hrow]
    refine ⟨hnew, ?_⟩
    have hi := congrArg (fun l => l[i]?) hrow
    simp only [List.getElem?_map] at hi
    unfold backwardAt at hnew ⊢
    dsimp only at hnew ⊢
    rw [List.map_append, List.map_append, hprompts]
    congr 1
    cases hp : prompts[i]? with
    | none =>
      rw [hp] at hi
      cases hq : ps[i]? with
      | none => rfl
      | some q => rw [hq] at hi; cases hi
    | some qs =>
      rw [hp] at hi hnew
      cases hq : ps[i]? with
      | none => rw [hq] at hi; cases hi
      | some q =>
        rw [hq] at hi hnew
        exact congrArg (fun x => [x]) (batched_gradPrompt_row (Option.some.inj hi) hnew)

end

/-! ### One more block -/

section

variable {H G P Q : Type} {B : Blocks H G P Q} {prompts : List P} {x : H}

/-- The last block is the first one on the way back. -/
theorem gradients_succ (k : ℕ) (grad : G) :
    gradients B prompts 0 x 0 (k + 1) grad =
      let grad' := B.backward k prompts[k]? (inputAt B prompts 0 x k) grad
      ((gradients B prompts 0 x 0 k grad').1, (gradients B prompts 0 x 0 k grad').2 ++
        (prompts[k]?.map fun p => B.gradPrompt p grad').toList) := by
  have hlast : gradients B prompts 0 x k (k + 1) grad = backwardAt B prompts 0 x k (grad, []) := by
    rw [gradients, Nat.add_sub_cancel_left]
    rfl
  rw [gradients_split (Nat.zero_le k) (Nat.le_succ k), hlast]
  simp only [backwardAt, List.append_nil]

theorem length_gradients {k : ℕ} (hk : k ≤ prompts.length) (grad : G) :
    (gradients B prompts 0 x 0 k grad).2.length = k := by
  induction k generalizing grad with
  | zero => rw [gradients_self]; rfl
  | succ k ih =>
    rw [gradients_succ, List.getElem?_eq_getElem hk]
    simp [ih (Nat.le_of_succ_le hk)]

end

section

variable {H P T : Type} [NormedAddCommGroup P] [NormedAddCommGroup T] {numPrompts : ℕ} {px : H → T}
  {pp : Fin numPrompts → P → T}

/-- The gradient of what the inputs and the prompts of a row are computed from. -/
def pullRow (px : H → T) (pp : Fin numPrompts → P → T) (r : H × List P) : T :=
  px r.1 + ∑ b, pp b (r.2.getD b 0)

theorem pullRow_concat (hzero : ∀ b, pp b 0 = 0) {k : ℕ} (hk : k < numPrompts) (h : H) {qs : List P}
    (hlen : qs.length = k) (q : P) :
    pullRow px pp (h, qs ++ [q]) = pullRow px pp (h, qs) + pp ⟨k, hk⟩ q := by
  have hterm (b : Fin numPrompts) : pp b ((qs ++ [q]).getD b 0) =
      pp b (qs.getD b 0) + if b = ⟨k, hk⟩ then pp b q else 0 := by
    split_ifs with hb
    · obtain rfl := hb
      simp [List.getD_eq_getElem?_getD, hlen, hzero]
    · have hne : b.val ≠ k := fun h => hb (Fin.ext h)
      rw [add_zero, List.getD_eq_getElem?_getD, List.getD_eq_getElem?_getD]
      congr 2
      rcases Nat.lt_or_gt_of_ne hne with hlt | hgt
      · rw [List.getElem?_append_left (by omega)]
      · rw [List.getElem?_eq_none (by simp; omega), List.getElem?_eq_none (by omega)]
  unfold pullRow
  simp only [hterm, Finset.sum_add_distrib, Finset.sum_ite_eq', Finset.mem_univ, if_true, add_assoc]

variable [NormedAddCommGroup H] [InnerProductSpace ℝ H] [InnerProductSpace ℝ P]
  [InnerProductSpace ℝ T] {embed : P →L[ℝ] H} {slice : H → P} {forward : ℕ → H → H}
  {backward : ℕ → H → H → H} {θ : T}

/-- What the module of block `i` is run on. -/
def moduleInput (add : P → H → H) (B : Blocks H H P P) (prompts : List P) (x : H) (i : ℕ) : H :=
  prompts[i]?.elim (inputAt B prompts 0 x i) fun q => add q (inputAt B prompts 0 x i)

/-- A row through the first `k` blocks, by induction on these: each is differentiated at the input it
was given, and a prompt takes its part of the gradient there. -/
theorem hasPullback_inputAt {add : P → H → H} (hadd : ∀ q h, add q h = h + embed q)
    (hslice : ∀ g q, inner ℝ g (embed q) = inner ℝ (slice g) q) {x : T → H}
    {p : Fin numPrompts → T → P} (hx : HasPullback x px θ) (hp : ∀ b, HasPullback (p b) (pp b) θ)
    {B : Blocks H H P P} (hB : B = serverBlocks add slice forward backward) {k : ℕ}
    (hk : numPrompts = 0 ∨ k ≤ numPrompts)
    (hforward : ∀ i < k, HasPullback (forward i)
      (backward i (moduleInput add B (List.ofFn fun b => p b θ) (x θ) i))
      (moduleInput add B (List.ofFn fun b => p b θ) (x θ) i)) :
    HasPullback (fun θ' => inputAt B (List.ofFn fun b => p b θ') 0 (x θ') k)
      (fun g => pullRow px pp (gradients B (List.ofFn fun b => p b θ) 0 (x θ) 0 k g)) θ := by
  have hzero (b : Fin numPrompts) : pp b 0 = 0 := (hp b).map_zero
  induction k with
  | zero =>
    refine hx.of_eq fun g => ?_
    simp [gradients_self, pullRow, hzero]
  | succ k ih =>
    have ih := ih (hk.imp_right Nat.le_of_succ_le) fun i hi => hforward i (Nat.lt_succ_of_lt hi)
    have hmodule := hforward k (Nat.lt_succ_self k)
    simp only [inputAt_succ (Nat.zero_le k), gradients_succ]
    have hlast (θ' : T) : B.forward k (List.ofFn fun b => p b θ')[k]?
        (inputAt B (List.ofFn fun b => p b θ') 0 (x θ') k) =
          forward k (moduleInput add B (List.ofFn fun b => p b θ') (x θ') k) := by
      rw [hB]
      rfl
    have hback (g : H) : B.backward k (List.ofFn fun b => p b θ)[k]?
        (inputAt B (List.ofFn fun b => p b θ) 0 (x θ) k) g =
          backward k (moduleInput add B (List.ofFn fun b => p b θ) (x θ) k) g := by
      rw [hB]
      rfl
    have hgrad (q : P) (g : H) : B.gradPrompt q g = slice g := by
      rw [hB]
      rfl
    simp only [hlast, hback, hgrad]
    -- it is left to add the prompt to what comes out of the blocks before
    suffices hinput : HasPullback (fun θ' => moduleInput add B (List.ofFn fun b => p b θ') (x θ') k)
        (fun g => pullRow px pp ((gradients B (List.ofFn fun b => p b θ) 0 (x θ) 0 k g).1,
          (gradients B (List.ofFn fun b => p b θ) 0 (x θ) 0 k g).2 ++
            ((List.ofFn fun b => p b θ)[k]?.map fun _ => slice g).toList)) θ from
      HasPullback.comp (f := fun θ' => moduleInput add B (List.ofFn fun b => p b θ') (x θ') k)
        hmodule hinput
    rcases hk with rfl | hk
    · simpa [moduleInput] using ih
    · have hget (θ' : T) : (List.ofFn fun b => p b θ')[k]? = some (p ⟨k, hk⟩ θ') := by
        rw [List.getElem?_ofFn]
        exact dif_pos hk
      simp only [moduleInput, hget, Option.elim_some, Option.map_some, Option.toList_some, hadd]
      have hprompt : HasPullback (fun θ' => embed (p ⟨k, hk⟩ θ')) (fun g => pp ⟨k, hk⟩ (slice g)) θ :=
        (HasPullback.of_linear embed hslice _).comp (hp ⟨k, hk⟩)
      refine (ih.add hprompt).of_eq fun g => ?_
      exact pullRow_concat hzero hk _ (length_gradients (by simpa using Nat.le_of_succ_le hk) g) _

end

/-! ### Rows of hidden states -/

abbrev Row (seqLen hidden : ℕ) : Type := EuclideanSpace ℝ (Fin seqLen × Fin hidden)

section

variable {seqLen promptLen hidden : ℕ}

noncomputable def addRow (q : Row promptLen hidden) (h : Row seqLen hidden) : Row seqLen hidden :=
  WithLp.toLp 2 (addPrompt q.ofLp h.ofLp)

noncomputable def sliceRow (hle : promptLen ≤ seqLen) (g : Row seqLen hidden) :
    Row promptLen hidden :=
  WithLp.toLp 2 (slicePrompt hle g.ofLp)

/-- What a prompt adds. -/
noncomputable def embedRow : Row promptLen hidden →L[ℝ] Row seqLen hidden :=
  LinearMap.toContinuousLinearMap
    { toFun := fun q => addRow q 0
      map_add' := fun q q' => by
        ext i
        simp only [addRow, addPrompt, PiLp.add_apply, PiLp.zero_apply]
        split_ifs <;> simp
      map_smul' := fun c q => by
        ext i
        simp only [addRow, addPrompt, PiLp.smul_apply, PiLp.zero_apply]
        split_ifs <;> simp }

theorem addRow_eq (q : Row promptLen hidden) (h : Row seqLen hidden) :
    addRow q h = h + embedRow q := by
  ext i
  change addPrompt q.ofLp h.ofLp i = h i + addPrompt q.ofLp (0 : Row seqLen hidden).ofLp i
  unfold addPrompt
  split_ifs <;> simp

/-- Slicing a gradient is adjoint to adding a prompt. -/
theorem inner_embedRow (hle : promptLen ≤ seqLen) (g : Row seqLen hidden)
    (q : Row promptLen hidden) : inner ℝ g (embedRow q) = inner ℝ (sliceRow hle g) q := by
  rw [PiLp.inner_apply, PiLp.inner_apply]
  symm
  apply Fintype.sum_of_injective fun x : Fin promptLen × Fin hidden => (Fin.castLE hle x.1, x.2)
  · rintro ⟨s, d⟩ ⟨s', d'⟩ h
    simpa [Fin.ext_iff] using h
  · intro x hx
    have hout : ¬ x.1.val < promptLen := by
      intro hlt
      exact hx ⟨(⟨x.1, hlt⟩, x.2), rfl⟩
    have hzero : (embedRow q : Row seqLen hidden) x = 0 := by
      change addPrompt q.ofLp (0 : Row seqLen hidden).ofLp x = 0
      rw [addPrompt, dif_neg hout]
      rfl
    rw [hzero, inner_zero_right]
  · intro x
    have hin : (embedRow q : Row seqLen hidden) (Fin.castLE hle x.1, x.2) = q x := by
      change addPrompt q.ofLp (0 : Row seqLen hidden).ofLp (Fin.castLE hle x.1, x.2) = q x
      rw [addPrompt]
      refine (dif_pos x.1.isLt).trans ?_
      exact zero_add _
    rw [hin]
    rfl

end

/-! ### The whole batch -/

/-- What the client computes the inputs and the prompts from, and how it takes gradients back. -/
structure Client (T : Type) (numRows numPrompts seqLen promptLen hidden : ℕ) where
  inputs : Fin numRows → T → Row seqLen hidden
  prompts : Fin numPrompts → Fin numRows → T → Row promptLen hidden
  pullInputs : Fin numRows → Row seqLen hidden → T
  pullPrompts : Fin numPrompts → Fin numRows → Row promptLen hidden → T

namespace Client

variable {T : Type} {numRows numPrompts seqLen promptLen hidden : ℕ}
  (c : Client T numRows numPrompts seqLen promptLen hidden)

structure DifferentiableAt [NormedAddCommGroup T] [InnerProductSpace ℝ T] (θ : T) : Prop where
  inputs : ∀ r, HasPullback (c.inputs r) (c.pullInputs r) θ
  prompts : ∀ b r, HasPullback (c.prompts b r) (c.pullPrompts b r) θ

def rowPrompts (r : Fin numRows) (θ : T) : List (Row promptLen hidden) :=
  List.ofFn fun b => c.prompts b r θ

def inputTensor (θ : T) : List (Row seqLen hidden) := List.ofFn fun r => c.inputs r θ

def promptTensor (θ : T) : List (List (Row promptLen hidden)) :=
  List.ofFn fun b => List.ofFn fun r => c.prompts b r θ

/-- What the gradients of inputs and prompts amount to. -/
noncomputable def accumulate [AddCommMonoid T] (grads : List (Row seqLen hidden) × Option (List (List
    (Row promptLen hidden)))) : T :=
  ∑ r : Fin numRows, (c.pullInputs r (grads.1.getD r 0) +
    ∑ b : Fin numPrompts, c.pullPrompts b r (((grads.2.getD []).getD b []).getD r 0))

theorem promptTensor_row (r : Fin numRows) (θ : T) :
    ((presentPrompts (c.promptTensor θ)).map fun qs => qs[r.val]?) =
      (c.rowPrompts r θ).map some := by
  have hall : ((c.promptTensor θ).map fun qs => qs[r.val]?) = (c.rowPrompts r θ).map some := by
    simp [promptTensor, rowPrompts, List.map_ofFn, Function.comp_def]
  unfold presentPrompts
  split_ifs with hdummy
  · -- there is a row, and so there are no prompts
    have hempty := List.flatten_eq_nil_iff.mp (List.isEmpty_iff.mp hdummy)
    rcases Nat.eq_zero_or_pos numPrompts with rfl | hpos
    · simp [rowPrompts]
    · have hnone := hempty _ (List.mem_ofFn.mpr ⟨⟨0, hpos⟩, rfl⟩)
      rw [List.ofFn_eq_nil_iff] at hnone
      exact absurd r.pos (by omega)
  · exact hall

variable (B : Blocks (Row seqLen hidden) (Row seqLen hidden) (Row promptLen hidden)
  (Row promptLen hidden))

/-- A row of the output, by the composition of the blocks. -/
def output (numBlocks : ℕ) (r : Fin numRows) (θ : T) : Row seqLen hidden :=
  inputAt B (c.rowPrompts r θ) 0 (c.inputs r θ) numBlocks

theorem inputAt_tensors (numBlocks : ℕ) (θ : T) :
    inputAt B.batched (presentPrompts (c.promptTensor θ)) 0 (c.inputTensor θ) numBlocks =
      List.ofFn fun r => c.output B numBlocks r θ := by
  have hlen : (inputAt B.batched (presentPrompts (c.promptTensor θ)) 0 (c.inputTensor θ)
      numBlocks).length = numRows := by
    rw [length_inputAt_batched]
    simp [inputTensor]
  refine List.ext_getElem (by simpa using hlen) fun i hi hi' => ?_
  rw [hlen] at hi
  have hinput : (c.inputTensor θ)[i]? = some (c.inputs ⟨i, hi⟩ θ) := by simp [inputTensor, hi]
  have hrow := inputAt_row B 0 (c.promptTensor_row ⟨i, hi⟩ θ) hinput numBlocks
  rw [List.getElem_ofFn]
  exact (List.getElem?_eq_some_iff.mp hrow).2

/-- The gradients of a batch amount to those of its rows. -/
theorem accumulate_exactGradients [NormedAddCommGroup T] (numBlocks : ℕ) (θ : T) (g : Fin numRows → Row seqLen hidden) :
    c.accumulate (exactGradients B.batched (presentPrompts (c.promptTensor θ)) 0 (c.inputTensor θ)
        numBlocks (List.ofFn g)) =
      ∑ r, pullRow (c.pullInputs r) (fun b => c.pullPrompts b r)
        (gradients B (c.rowPrompts r θ) 0 (c.inputs r θ) 0 numBlocks (g r)) := by
  unfold accumulate exactGradients
  refine Finset.sum_congr rfl fun r _ => ?_
  have hinput : (c.inputTensor θ)[r.val]? = some (c.inputs r θ) := by simp [inputTensor]
  have hg : (List.ofFn g)[r.val]? = some (g r) := by simp
  obtain ⟨hgrad, hprompts⟩ :=
    gradients_row B 0 (c.promptTensor_row r θ) hinput hg 0 numBlocks
  generalize gradients B.batched (presentPrompts (c.promptTensor θ)) 0 (c.inputTensor θ) 0 numBlocks
    (List.ofFn g) = s at hgrad hprompts ⊢
  generalize gradients B (c.rowPrompts r θ) 0 (c.inputs r θ) 0 numBlocks (g r) = s' at hgrad hprompts ⊢
  have hentry (b : ℕ) : (((if s.2 = [] then none else some s.2).getD []).getD b []).getD r 0 =
      s'.2.getD b 0 := by
    have hsome : (if s.2 = [] then none else some s.2).getD [] = s.2 := by
      split_ifs with hnil
      · rw [hnil]; rfl
      · rfl
    have hb := congrArg (fun l => l[b]?) hprompts
    simp only [List.getElem?_map] at hb
    rw [hsome, List.getD_eq_getElem?_getD, List.getD_eq_getElem?_getD, List.getD_eq_getElem?_getD]
    cases hs : s.2[b]? with
    | none =>
      rw [hs] at hb
      cases hs' : s'.2[b]? with
      | none => rfl
      | some q => rw [hs'] at hb; cases hb
    | some qs =>
      rw [hs] at hb
      cases hs' : s'.2[b]? with
      | none => rw [hs'] at hb; cases hb
      | some q =>
        rw [hs'] at hb
        have hq : qs[r.val]? = some q := Option.some.inj hb
        rw [Option.getD_some, hq]
  unfold pullRow
  simp only [hentry]
  rw [List.getD_eq_getElem?_getD, hgrad, Option.getD_some]

end Client

/-- Training through the swarm follows the gradient. The client computes inputs and prompts from its
parameters `θ`, the blocks run on any servers, and the loss is any function of the outputs. However
the batch is split and routed, and whatever requests fail, fewer than `max_retries` times in a row:
what `backward` returns for the gradient of the loss at the outputs amounts to the gradient of the
loss at `θ`. -/
theorem autogradFunction_gradient {T : Type} [NormedAddCommGroup T] [InnerProductSpace ℝ T]
    [CompleteSpace T] {numRows numPrompts seqLen promptLen hidden : ℕ} (cfg : Config)
    (c : Client T numRows numPrompts seqLen promptLen hidden) (hseq : 0 < seqLen)
    (hle : promptLen ≤ seqLen) (hnum : numPrompts = 0 ∨ numPrompts = cfg.numBlocks)
    (forward : ℕ → Row seqLen hidden → Row seqLen hidden)
    (backward : ℕ → Row seqLen hidden → Row seqLen hidden → Row seqLen hidden) (θ : T)
    (hclient : c.DifferentiableAt θ) :
    let B := serverBlocks addRow (sliceRow hle) forward backward
    (∀ r, ∀ i < cfg.numBlocks, HasPullback (forward i)
      (backward i (moduleInput addRow B (c.rowPrompts r θ) (c.inputs r θ) i))
      (moduleInput addRow B (c.rowPrompts r θ) (c.inputs r θ) i)) →
    ∀ attempts : ℕ → List Attempt, (∀ k, ∀ a ∈ attempts k, a.Routed cfg) →
    (∀ k, Retry.endures Attempt.succeeds cfg.maxRetries cfg.numBlocks 0 (attempts k) = true) →
    (∀ θ', ∃ ctx, autogradForward cfg B.batched attempts seqLen (c.inputTensor θ')
      (c.promptTensor θ') = .ok (List.ofFn fun r => c.output B cfg.numBlocks r θ', ctx)) ∧
    ∃ ctx, autogradForward cfg B.batched attempts seqLen (c.inputTensor θ) (c.promptTensor θ) =
        .ok (List.ofFn fun r => c.output B cfg.numBlocks r θ, ctx) ∧
      ∀ (L : (PiLp 2 fun _ : Fin numRows => Row seqLen hidden) → ℝ)
        (g : PiLp 2 fun _ : Fin numRows => Row seqLen hidden),
        HasGradientAt L g (WithLp.toLp 2 fun r => c.output B cfg.numBlocks r θ) →
        ∀ retries : ℕ → List BackwardAttempt,
          (∀ k, ∀ a ∈ retries k, ∀ f ∈ a.forward, f.Routed cfg) →
          (∀ k, Retry.endures (BackwardAttempt.succeeds cfg) cfg.maxRetries cfg.numBlocks 0
            (retries k) = true) →
          ∃ grads ctx', autogradBackward cfg B.batched retries ctx seqLen
              (List.ofFn fun r => g r) = .ok (grads, ctx') ∧
            HasGradientAt (fun θ' => L (WithLp.toLp 2 fun r => c.output B cfg.numBlocks r θ'))
              (c.accumulate grads) θ := by
  intro B hforward attempts hroute hendures
  obtain ⟨size, hsize, hs, hsmall⟩ := batchSize_ok hseq
  have hblocks (θ' : T) : isDummy (c.promptTensor θ') = true ∨
      (c.promptTensor θ').length = cfg.numBlocks := by
    refine hnum.imp (fun h => ?_) fun h => by simpa [Client.promptTensor] using h
    subst h
    simp [isDummy, Client.promptTensor]
  have hrows (θ' : T) : ∀ ps ∈ c.promptTensor θ', ps.length = (c.inputTensor θ').length := by
    intro ps hps
    obtain ⟨b, rfl⟩ := List.mem_ofFn.mp hps
    simp [Client.inputTensor]
  have hall (θ' : T) := autogradForward_exact (B := B) hsize hs (hblocks θ') (hrows θ') hroute
    hendures
  simp only [c.inputAt_tensors] at hall
  refine ⟨fun θ' => ?_, ?_⟩
  · obtain ⟨f, -, hout⟩ := hall θ'
    exact ⟨_, hout⟩
  obtain ⟨f, hf, hout⟩ := hall θ
  refine ⟨_, hout, fun L g hL retries hroute' hendures' => ?_⟩
  have hserves := serves_of_exact hsize hs hsmall (presentPrompts_length (hblocks θ)) hf
  obtain ⟨ctx', hbackward, -⟩ := hserves.backward (List.ofFn fun r => g r) retries
    (by simp [Client.inputTensor]) hroute' hendures'
  refine ⟨_, ctx', hbackward, ?_⟩
  rw [c.accumulate_exactGradients]
  have hk : numPrompts = 0 ∨ cfg.numBlocks ≤ numPrompts :=
    hnum.imp_right fun h => Nat.le_of_eq h.symm
  have hrow (r : Fin numRows) := hasPullback_inputAt (p := fun b => c.prompts b r)
    addRow_eq (inner_embedRow hle) (hclient.inputs r) (fun b => hclient.prompts b r) rfl hk
    (hforward r)
  exact (HasPullback.toLp hrow).hasGradientAt hL

/-- Two rows that have the parameters at the first position, and prompts that are the parameters. -/
noncomputable def sampleClient : Client (Row 1 1) 2 2 2 1 1 where
  inputs _ θ := embedRow θ
  prompts _ _ θ := θ
  pullInputs _ g := sliceRow (by decide) g
  pullPrompts _ _ g := g

/-- Blocks that double their input, over servers that lose every first request. -/
theorem autogradFunction_gradient_doubled :
    let B : Blocks (Row 2 1) (Row 2 1) (Row 1 1) (Row 1 1) :=
      serverBlocks addRow (sliceRow (by decide)) (fun _ h => (2 : ℝ) • h) fun _ _ g => (2 : ℝ) • g
    let attempts := fun _ : ℕ => [Fate.failed, .answered, .answered].map Attempt.viaFirstBlockApart
    let retries := fun _ : ℕ => [(⟨[], true⟩ : BackwardAttempt), ⟨[], true⟩]
    let θ : Row 1 1 := WithLp.toLp 2 fun _ => 3
    let g : PiLp 2 fun _ : Fin 2 => Row 2 1 := WithLp.toLp 2 fun _ => WithLp.toLp 2 fun _ => 1
    ∃ ctx, autogradForward ⟨2, some 2⟩ B.batched attempts 2 (sampleClient.inputTensor θ)
        (sampleClient.promptTensor θ) =
          .ok (List.ofFn fun r => sampleClient.output B 2 r θ, ctx) ∧
      ∃ grads ctx', autogradBackward ⟨2, some 2⟩ B.batched retries ctx 2 (List.ofFn fun r => g r) =
          .ok (grads, ctx') ∧
        HasGradientAt (fun θ' => InnerProductSpace.toDual ℝ _ g
            (WithLp.toLp 2 fun r => sampleClient.output B 2 r θ'))
          (sampleClient.accumulate grads) θ := by
  intro B attempts retries θ g
  have hclient : sampleClient.DifferentiableAt θ :=
    { inputs := fun _ => HasPullback.of_linear embedRow (inner_embedRow (by decide)) θ
      prompts := fun _ _ => HasPullback.id θ }
  have hdouble (y : Row 2 1) : HasPullback (fun h => (2 : ℝ) • h) (fun g => (2 : ℝ) • g) y := by
    refine HasPullback.of_linear ((2 : ℝ) • ContinuousLinearMap.id ℝ (Row 2 1)) (fun g v => ?_) y
    simp [inner_smul_left, inner_smul_right]
  have hroute : ∀ k, ∀ a ∈ attempts k, a.Routed ⟨2, some 2⟩ := by
    intro k a ha
    obtain ⟨fate, -, rfl⟩ := List.mem_map.mp ha
    exact Attempt.routed_viaFirstBlockApart _ fate
  have hretries : ∀ k, ∀ a ∈ retries k, ∀ f ∈ a.forward, f.Routed ⟨2, some 2⟩ := by
    intro k a ha f hf
    have ha' : a = ⟨[], true⟩ := by simpa [retries] using ha
    rw [ha'] at hf
    exact absurd hf List.not_mem_nil
  obtain ⟨-, ctx, hforward, hgradient⟩ := autogradFunction_gradient ⟨2, some 2⟩ sampleClient
    (by decide) (by decide) (.inr rfl) (fun _ h => (2 : ℝ) • h) (fun _ _ g => (2 : ℝ) • g) θ hclient
    (fun _ _ _ => hdouble _) attempts hroute fun _ => by decide
  obtain ⟨grads, ctx', hbackward, hgrad⟩ := hgradient (InnerProductSpace.toDual ℝ _ g) g
    (hasGradientAt_iff_hasFDerivAt.mpr (ContinuousLinearMap.hasFDerivAt _)) retries hretries
    fun _ => by decide
  exact ⟨ctx, hforward, grads, ctx', hbackward, hgrad⟩

end BloomBee.SequentialAutograd
