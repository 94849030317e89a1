import BloomBee.Spec.RemoteGeneration
import Mathlib.Data.List.Basic
import Mathlib.Tactic.Common

/-! The shortcuts of `generate()` against its ordinary branch. On a fresh session each of the three
loops emits, as long as a row has not finished, the greedy tokens of its prompt, so they differ only
in what they do with an EOS token (`fresh_agrees_iff`). On a session with output ids the shortcuts
return the old tokens too or lose them, and never agree with the ordinary branch
(`resumed_disagrees`). -/

set_option autoImplicit false

namespace BloomBee.RemoteGeneration

variable {τ : Type} {rows : ℕ} {next : List τ → τ} {eos prompt : List τ}
  {prompts : List (List τ)} {token : ℕ → τ} {i : ℕ}

/-! ### Batches -/

theorem inputs_ne (call : GenerateCall τ rows) : call.inputs ≠ [] := by
  intro hnil
  have hlen := call.inputs_length
  rw [hnil] at hlen
  exact absurd call.rows_pos (by rw [← hlen]; exact Nat.lt_irrefl 0)

theorem mapIdx_eq_map {β γ : Type} {f : ℕ → β → γ} {g : β → γ} (h : ∀ b x, f b x = g x)
    (l : List β) : l.mapIdx f = l.map g := by
  apply List.ext_getElem?
  intro b
  rw [List.getElem?_mapIdx, List.getElem?_map]
  congr 1
  exact funext (h b)

/-! ### Greedy continuations -/

def history (next : List τ → τ) (prompt : List τ) : ℕ → List τ
  | 0 => prompt
  | i + 1 => history next prompt i ++ [next (history next prompt i)]

def greedyToken (next : List τ → τ) (prompt : List τ) (i : ℕ) : τ := next (history next prompt i)

def FinishedBefore (next : List τ → τ) (eos prompt : List τ) (i : ℕ) : Prop :=
  ∃ j < i, greedyToken next prompt j ∈ eos

theorem finishedBefore_succ :
    FinishedBefore next eos prompt (i + 1) ↔
      FinishedBefore next eos prompt i ∨ greedyToken next prompt i ∈ eos := by
  constructor
  · rintro ⟨j, hj, hmem⟩
    rcases Nat.lt_succ_iff_lt_or_eq.mp hj with hlt | rfl
    · exact .inl ⟨j, hlt, hmem⟩
    · exact .inr hmem
  · rintro (⟨j, hj, hmem⟩ | hmem)
    · exact ⟨j, Nat.lt_succ_of_lt hj, hmem⟩
    · exact ⟨i, Nat.lt_succ_self i, hmem⟩

theorem finishedBefore_mono {j : ℕ} (hij : i ≤ j) (h : FinishedBefore next eos prompt i) :
    FinishedBefore next eos prompt j := by
  obtain ⟨k, hk, hmem⟩ := h
  exact ⟨k, Nat.lt_of_lt_of_le hk hij, hmem⟩

theorem not_finishedBefore_nil : ¬FinishedBefore next [] prompt i := by
  rintro ⟨j, -, hmem⟩
  exact List.not_mem_nil hmem

theorem pad_of_finished {cfg : GenerationConfig τ} {call : GenerateCall τ rows}
    (h : FinishedBefore next (cfg.eos call) prompt i) : ∃ pad, cfg.pad call = some pad := by
  have hne : cfg.eos call ≠ [] := by
    intro hnil
    rw [hnil] at h
    exact not_finishedBefore_nil h
  obtain ⟨e, rest, heos⟩ := List.exists_cons_of_ne_nil hne
  rw [GenerationConfig.pad, heos, List.head?_cons]
  cases call.padTokenId.or cfg.padTokenId with
  | none => exact ⟨e, rfl⟩
  | some pad => exact ⟨pad, rfl⟩

variable [DecidableEq τ]

instance (next : List τ → τ) (eos prompt : List τ) (i : ℕ) :
    Decidable (FinishedBefore next eos prompt i) := Nat.decidableExistsLT i

/-- The steps from `i` on until all prompts have finished, `n` more at most. -/
def stepsFrom (next : List τ → τ) (eos : List τ) (prompts : List (List τ)) : ℕ → ℕ → ℕ
  | 0, i => i
  | n + 1, i =>
    if ∀ prompt ∈ prompts, FinishedBefore next eos prompt (i + 1) then i + 1
    else stepsFrom next eos prompts n (i + 1)

/-- How many tokens a greedy search emits: until all prompts have finished, `n` at most. -/
def stopTime (next : List τ → τ) (eos : List τ) (prompts : List (List τ)) (n : ℕ) : ℕ :=
  stepsFrom next eos prompts n 0

theorem stopTime_nil (next : List τ → τ) (hne : prompts ≠ []) (n : ℕ) :
    stopTime next [] prompts n = n := by
  obtain ⟨prompt, hp⟩ := List.exists_mem_of_ne_nil prompts hne
  have hsteps : ∀ n i, stepsFrom next [] prompts n i = i + n := by
    intro n
    induction n with
    | zero => exact fun i => rfl
    | succ n ih =>
      intro i
      rw [stepsFrom, if_neg fun h => not_finishedBefore_nil (h prompt hp), ih]
      omega
  rw [stopTime, hsteps, Nat.zero_add]

/-! ### Rows -/

/-- A row of a fresh session after `i` steps that emitted `token 0`, `token 1` and so on. -/
def rowAt (next : List τ → τ) (eos prompt : List τ) (token : ℕ → τ) : ℕ → Row τ
  | 0 => { output := prompt, fed := [], step := prompt }
  | i + 1 =>
    { output := (rowAt next eos prompt token i).output ++ [token i]
      fed := (rowAt next eos prompt token i).output
      step := [token i]
      done := decide (FinishedBefore next eos prompt (i + 1)) }

theorem rowAt_fed_step (i : ℕ) :
    (rowAt next eos prompt token i).fed ++ (rowAt next eos prompt token i).step =
      (rowAt next eos prompt token i).output := by
  cases i with
  | zero => rfl
  | succ i => rfl

theorem rowAt_output (i : ℕ) :
    (rowAt next eos prompt token i).output = prompt ++ (List.range i).map token := by
  induction i with
  | zero => exact (List.append_nil prompt).symm
  | succ i ih =>
    rw [rowAt, ih, List.range_succ, List.map_append, List.map_singleton, List.append_assoc]

theorem rowAt_done (i : ℕ) :
    (rowAt next eos prompt token i).done = decide (FinishedBefore next eos prompt i) := by
  cases i with
  | zero =>
    rw [eq_comm, rowAt, decide_eq_false_iff_not]
    rintro ⟨j, hj, -⟩
    exact Nat.not_lt_zero j hj
  | succ i => rfl

/-- Greedy so far, the row goes on with the next greedy token. -/
theorem next_rowAt (h : ∀ j < i, token j = greedyToken next prompt j) :
    next ((rowAt next eos prompt token i).fed ++ (rowAt next eos prompt token i).step) =
      greedyToken next prompt i := by
  have hist : ∀ k ≤ i, (rowAt next eos prompt token k).output = history next prompt k := by
    intro k
    induction k with
    | zero => exact fun _ => rfl
    | succ k ih =>
      intro hk
      rw [rowAt, history, ih (by omega), h k hk, greedyToken]
  rw [rowAt_fed_step, hist i (Nat.le_refl i), greedyToken]

/-- The rows of two fresh sessions are the same after the same number of equal tokens. -/
theorem rowAt_congr {eos' : List τ} {token' : ℕ → τ} {n : ℕ}
    (h : ∀ i < n, token i = token' i) :
    (rowAt next eos prompt token n).output = (rowAt next eos' prompt token' n).output ∧
      (rowAt next eos prompt token n).fed = (rowAt next eos' prompt token' n).fed := by
  have hout : ∀ k ≤ n,
      (rowAt next eos prompt token k).output = (rowAt next eos' prompt token' k).output := by
    intro k hk
    rw [rowAt_output, rowAt_output, List.append_cancel_left_eq]
    apply List.map_congr_left
    intro i hi
    exact h i (Nat.lt_of_lt_of_le (List.mem_range.mp hi) hk)
  refine ⟨hout n (Nat.le_refl n), ?_⟩
  cases n with
  | zero => rfl
  | succ n => exact hout n (Nat.le_succ n)

/-! ### Loops -/

/-- A loop whose step moves every row from one stage to the next. -/
theorem decode_rowAt (hne : prompts ≠ []) {step : Row τ → Row τ} {token : List τ → ℕ → τ}
    (hstep : ∀ prompt i, step (rowAt next eos prompt (token prompt) i) =
      rowAt next eos prompt (token prompt) (i + 1)) (n : ℕ) : ∀ i,
      decode (eos != []) step n
          (prompts.map fun prompt => rowAt next eos prompt (token prompt) i) =
        prompts.map fun prompt =>
          rowAt next eos prompt (token prompt) (stepsFrom next eos prompts n i) := by
  induction n with
  | zero => exact fun i => rfl
  | succ n ih =>
    intro i
    have hall : ((eos != []) && (prompts.map fun prompt =>
        rowAt next eos prompt (token prompt) (i + 1)).all Row.done) =
        decide (∀ prompt ∈ prompts, FinishedBefore next eos prompt (i + 1)) := by
      rw [Bool.eq_iff_iff]
      simp only [Bool.and_eq_true, bne_iff_ne, List.all_eq_true, List.mem_map,
        forall_exists_index, and_imp, forall_apply_eq_imp_iff₂, decide_eq_true_eq, rowAt]
      constructor
      · exact fun h => h.2
      · intro h
        obtain ⟨prompt, hp⟩ := List.exists_mem_of_ne_nil prompts hne
        refine ⟨?_, h⟩
        rintro rfl
        exact not_finishedBefore_nil (h prompt hp)
    rw [decode, List.map_map]
    simp only [Function.comp_def, hstep, hall, decide_eq_true_eq, stepsFrom]
    split_ifs
    · rfl
    · exact ih (i + 1)

/-- The greedy tokens, with padding `shift` places after the first EOS token. -/
def paddedToken (shift : ℕ) (next : List τ → τ) (eos : List τ) (pad : Option τ) (prompt : List τ)
    (i : ℕ) : τ :=
  if FinishedBefore next eos prompt (i + shift) then pad.getD (greedyToken next prompt i)
  else greedyToken next prompt i

def legacyToken : (List τ → τ) → List τ → Option τ → List τ → ℕ → τ := paddedToken 0

/-- What `_fast_generate_greedy` emits: the padding is already in place of the EOS token. -/
def fastToken : (List τ → τ) → List τ → Option τ → List τ → ℕ → τ := paddedToken 1

/-- A row that is not finished, or that has no padding, goes on greedily. -/
theorem next_paddedToken {shift : ℕ} (hshift : shift ≤ 1) {pad : Option τ}
    (h : ¬FinishedBefore next eos prompt i ∨ pad = none) :
    next ((rowAt next eos prompt (paddedToken shift next eos pad prompt) i).fed ++
        (rowAt next eos prompt (paddedToken shift next eos pad prompt) i).step) =
      greedyToken next prompt i := by
  apply next_rowAt
  intro j hj
  rw [paddedToken]
  split_ifs with hf
  · rcases h with h | rfl
    · exact absurd (finishedBefore_mono (by omega) hf) h
    · rfl
  · rfl

/-- A step that emits the right token and marks the row as it should. -/
theorem rowAt_succ {tok : τ} {d : Bool} (htok : tok = token i)
    (hdone : d = decide (FinishedBefore next eos prompt (i + 1))) :
    ({ output := (rowAt next eos prompt token i).output ++ [tok]
       fed := (rowAt next eos prompt token i).fed ++ (rowAt next eos prompt token i).step
       step := [tok]
       done := d } : Row τ) = rowAt next eos prompt token (i + 1) := by
  rw [rowAt_fed_step, htok, hdone, rowAt]

theorem done_succ (h : ¬FinishedBefore next eos prompt i →
      next ((rowAt next eos prompt token i).fed ++ (rowAt next eos prompt token i).step) =
        greedyToken next prompt i) :
    ((rowAt next eos prompt token i).done ||
      decide (next ((rowAt next eos prompt token i).fed ++ (rowAt next eos prompt token i).step)
        ∈ eos)) = decide (FinishedBefore next eos prompt (i + 1)) := by
  rw [rowAt_done]
  by_cases hf : FinishedBefore next eos prompt i
  · rw [decide_eq_true hf, Bool.true_or,
      decide_eq_true (finishedBefore_mono (Nat.le_succ i) hf)]
  · rw [h hf, decide_eq_false hf, Bool.false_or]
    simp only [finishedBefore_succ, hf, false_or]

theorem greedySearchStep_rowAt (pad : Option τ) (prompt : List τ) (i : ℕ) :
    greedySearchStep next eos pad (rowAt next eos prompt (legacyToken next eos pad prompt) i) =
      rowAt next eos prompt (legacyToken next eos pad prompt) (i + 1) := by
  have hnext := @next_paddedToken τ next eos prompt i _ 0 (Nat.zero_le 1) pad
  refine rowAt_succ ?_ (done_succ fun h => hnext (.inl h))
  rw [rowAt_done, legacyToken, paddedToken, Nat.add_zero]
  by_cases hf : FinishedBefore next eos prompt i
  · rw [if_pos hf, if_pos (decide_eq_true hf)]
    cases pad with
    | none => exact hnext (.inr rfl)
    | some q => rfl
  · rw [if_neg hf, if_neg (by simpa using hf)]
    exact hnext (.inl hf)

theorem fastStep_rowAt (pad : Option τ) (prompt : List τ) (i : ℕ) :
    fastStep next eos pad (rowAt next eos prompt (fastToken next eos pad prompt) i) =
      rowAt next eos prompt (fastToken next eos pad prompt) (i + 1) := by
  have hnext := @next_paddedToken τ next eos prompt i _ 1 (Nat.le_refl 1) pad
  have hdone := done_succ fun h => hnext (.inl h)
  refine rowAt_succ ?_ hdone
  rw [fastToken, hdone, paddedToken]
  by_cases hf : FinishedBefore next eos prompt (i + 1)
  · rw [if_pos hf, if_pos (decide_eq_true hf)]
    cases pad with
    | none => exact hnext (.inr rfl)
    | some q => rfl
  · have hold : ¬FinishedBefore next eos prompt i := fun h =>
      hf (finishedBefore_mono (Nat.le_succ i) h)
    rw [if_neg hf, if_neg (by simpa using hf)]
    exact hnext (.inl hold)

theorem liveStep_rowAt (prompt : List τ) (i : ℕ) :
    liveStep next eos (rowAt next eos prompt (greedyToken next prompt) i) =
      rowAt next eos prompt (greedyToken next prompt) (i + 1) := by
  have hnext := @next_rowAt τ next eos prompt (greedyToken next prompt) i _ fun _ _ => rfl
  exact rowAt_succ hnext (done_succ fun _ => hnext)

/-! ### Fresh sessions -/

theorem finish_eq_iff (hne : prompts ≠ []) {eos' : List τ} {token token' : List τ → ℕ → τ}
    {m m' : ℕ} :
    finish 0 (prompts.map fun prompt => rowAt next eos prompt (token prompt) m) =
        finish 0 (prompts.map fun prompt => rowAt next eos' prompt (token' prompt) m') ↔
      m = m' ∧ ∀ prompt ∈ prompts, ∀ i < m', token prompt i = token' prompt i := by
  constructor
  · intro h
    have hout := Option.some.inj (congrArg (fun o => o.session.outputIds) h)
    simp only [List.map_map, List.map_inj_left, Function.comp_apply, rowAt_output,
      List.append_cancel_left_eq] at hout
    obtain ⟨prompt, hp⟩ := List.exists_mem_of_ne_nil prompts hne
    have hlen := congrArg List.length (hout prompt hp)
    rw [List.length_map, List.length_map, List.length_range, List.length_range] at hlen
    subst hlen
    refine ⟨rfl, fun prompt hp i hi => ?_⟩
    exact List.map_inj_left.mp (hout prompt hp) i (List.mem_range.mpr hi)
  · rintro ⟨rfl, htok⟩
    have hrow := fun prompt hp => @rowAt_congr τ next eos prompt (token prompt) _ eos'
      (token' prompt) m (htok prompt hp)
    simp only [finish, List.map_map, Outcome.mk.injEq, Session.mk.injEq, Option.some.injEq,
      List.map_inj_left, Function.comp_apply, List.drop_zero]
    exact ⟨fun p hp => (hrow p hp).1, fun p hp => (hrow p hp).1, fun p hp => (hrow p hp).2⟩

/-- The greedy rows that the fast path leaves in a fresh session. -/
theorem fast_fresh (call : GenerateCall τ rows) :
    fastGenerateGreedy next (Session.fresh τ) call =
      finish 0 (call.inputs.map fun prompt => rowAt next (eosSet call) prompt
        (fastToken next (eosSet call) call.padTokenId prompt)
        (stopTime next (eosSet call) call.inputs (newTokens call))) := by
  rw [fastGenerateGreedy, stopTime,
    ← decode_rowAt (inputs_ne call) (fastStep_rowAt call.padTokenId)]
  congr 2
  apply mapIdx_eq_map
  exact fun _ _ => rfl

theorem live_fresh (call : GenerateCall τ rows) :
    liveContinuousGenerate next (Session.fresh τ) call =
      finish 0 (call.inputs.map fun prompt => rowAt next (eosSet call) prompt
        (greedyToken next prompt) (stopTime next (eosSet call) call.inputs (newTokens call))) := by
  rw [liveContinuousGenerate, stopTime, ← decode_rowAt (inputs_ne call) liveStep_rowAt]
  congr 2
  apply mapIdx_eq_map
  exact fun _ _ => rfl

theorem legacy_fresh (cfg : GenerationConfig τ) (call : GenerateCall τ rows) :
    legacyGenerate next cfg (Session.fresh τ) call =
      finish 0 (call.inputs.map fun prompt => rowAt next (cfg.eos call) prompt
        (legacyToken next (cfg.eos call) (cfg.pad call) prompt)
        (stopTime next (cfg.eos call) call.inputs (newTokens call))) := by
  rw [legacyGenerate, stopTime,
    ← decode_rowAt (inputs_ne call) (greedySearchStep_rowAt (cfg.pad call))]
  have hlimit : call.maxNewTokens.getD (call.maxLength.getD 0 -
      ((Session.fresh τ).nPrevTokens + call.width)) = newTokens call := by
    rw [newTokens, show (Session.fresh τ).nPrevTokens = 0 from rfl, Nat.zero_add]
  rw [hlimit]
  show finish 0 _ = _
  congr 2
  apply mapIdx_eq_map
  exact fun _ _ => rfl

/-! ### What the paths do with an EOS token -/

/-- If no EOS token is passed, those of the model do not end the request before its limit. -/
def EndsTogether (next : List τ → τ) (cfg : GenerationConfig τ) (call : GenerateCall τ rows) :
    Prop :=
  call.eosTokenId = none →
    stopTime next cfg.eosTokenId call.inputs (newTokens call) = newTokens call

/-- Behind its EOS token the greedy continuation of a row is the padding. -/
def PadsItself (next : List τ → τ) (cfg : GenerationConfig τ) (call : GenerateCall τ rows) : Prop :=
  ∀ prompt ∈ call.inputs, ∀ i < stopTime next (cfg.eos call) call.inputs (newTokens call),
    FinishedBefore next (cfg.eos call) prompt i →
      some (greedyToken next prompt i) = cfg.pad call

/-- The first EOS token of every row is `pad`. -/
def FinishesWith (next : List τ → τ) (call : GenerateCall τ rows) (pad : τ) : Prop :=
  ∀ prompt ∈ call.inputs, ∀ i < stopTime next (eosSet call) call.inputs (newTokens call),
    ¬FinishedBefore next (eosSet call) prompt i → greedyToken next prompt i ∈ eosSet call →
      greedyToken next prompt i = pad

/-- The condition on a call of a fresh session. The fast path pads only if it is passed an EOS token
and a padding, and then it pads the EOS token too. -/
def SameTokens : Shortcut → (List τ → τ) → GenerationConfig τ → GenerateCall τ rows → Prop
  | .fast, next, cfg, call =>
    EndsTogether next cfg call ∧
      (∀ pad, call.padTokenId = some pad → eosSet call ≠ [] → FinishesWith next call pad) ∧
      (call.padTokenId = none ∨ eosSet call = [] → PadsItself next cfg call)
  | .live, next, cfg, call => EndsTogether next cfg call ∧ PadsItself next cfg call

theorem endsTogether_iff (cfg : GenerationConfig τ) (call : GenerateCall τ rows) :
    stopTime next (eosSet call) call.inputs (newTokens call) =
        stopTime next (cfg.eos call) call.inputs (newTokens call) ↔
      EndsTogether next cfg call := by
  rw [EndsTogether, eosSet, GenerationConfig.eos]
  cases call.eosTokenId with
  | none =>
    rw [Option.getD_none, Option.getD_none, stopTime_nil next (inputs_ne call)]
    exact ⟨fun h _ => h.symm, fun h => (h rfl).symm⟩
  | some eos => exact ⟨fun _ h => absurd h (by simp), fun _ => rfl⟩

theorem greedy_eq_legacy_iff (cfg : GenerationConfig τ) (call : GenerateCall τ rows)
    (prompt : List τ) (i : ℕ) :
    greedyToken next prompt i = legacyToken next (cfg.eos call) (cfg.pad call) prompt i ↔
      (FinishedBefore next (cfg.eos call) prompt i →
        some (greedyToken next prompt i) = cfg.pad call) := by
  rw [legacyToken, paddedToken, Nat.add_zero]
  split_ifs with hf
  · obtain ⟨pad, hpad⟩ := pad_of_finished hf
    rw [hpad, Option.getD_some, Option.some.injEq]
    exact ⟨fun h _ => h, fun h => h hf⟩
  · exact ⟨fun _ h => absurd h hf, fun _ => rfl⟩

theorem fast_eq_legacy_iff (eos : List τ) (pad : τ) (prompt : List τ) (i : ℕ) :
    fastToken next eos (some pad) prompt i = legacyToken next eos (some pad) prompt i ↔
      (¬FinishedBefore next eos prompt i → greedyToken next prompt i ∈ eos →
        greedyToken next prompt i = pad) := by
  simp only [fastToken, legacyToken, paddedToken, Nat.add_zero, Option.getD_some]
  by_cases hf : FinishedBefore next eos prompt i
  · rw [if_pos hf, if_pos (finishedBefore_mono (Nat.le_succ i) hf)]
    exact ⟨fun _ h => absurd hf h, fun _ => rfl⟩
  · rw [if_neg hf]
    by_cases hmem : greedyToken next prompt i ∈ eos
    · rw [if_pos (finishedBefore_succ.mpr (.inr hmem))]
      exact ⟨fun h _ _ => h.symm, fun h => (h hf hmem).symm⟩
    · rw [if_neg fun h => (finishedBefore_succ.mp h).elim hf hmem]
      exact ⟨fun _ _ h => absurd h hmem, fun _ => rfl⟩

/-- Without a padding or without EOS tokens the fast path does not pad. -/
theorem fastToken_eq_greedy {pad : Option τ} (h : pad = none ∨ eos = []) (prompt : List τ) :
    fastToken next eos pad prompt = greedyToken next prompt := by
  funext i
  rw [fastToken, paddedToken]
  split_ifs with hf
  · rcases h with rfl | rfl
    · rfl
    · exact absurd hf not_finishedBefore_nil
  · rfl

theorem greedy_agrees_iff (cfg : GenerationConfig τ) (call : GenerateCall τ rows) :
    finish 0 (call.inputs.map fun prompt => rowAt next (eosSet call) prompt
        (greedyToken next prompt) (stopTime next (eosSet call) call.inputs (newTokens call))) =
      legacyGenerate next cfg (Session.fresh τ) call ↔
      EndsTogether next cfg call ∧ PadsItself next cfg call := by
  rw [legacy_fresh, finish_eq_iff (inputs_ne call), endsTogether_iff]
  simp only [PadsItself, greedy_eq_legacy_iff]

theorem fast_agrees_iff (cfg : GenerationConfig τ) {call : GenerateCall τ rows} {pad : τ}
    (hpad : call.padTokenId = some pad) (heos : eosSet call ≠ []) :
    fastGenerateGreedy next (Session.fresh τ) call =
        legacyGenerate next cfg (Session.fresh τ) call ↔
      EndsTogether next cfg call ∧ FinishesWith next call pad := by
  have hsame : cfg.eos call = eosSet call := by
    rw [eosSet] at heos
    rw [eosSet, GenerationConfig.eos]
    cases he : call.eosTokenId with
    | none =>
      rw [he] at heos
      exact absurd rfl heos
    | some eos => rfl
  have hcfg : cfg.pad call = some pad := by
    rw [GenerationConfig.pad, hpad]
    rfl
  rw [fast_fresh, legacy_fresh, finish_eq_iff (inputs_ne call), endsTogether_iff, hsame, hcfg, hpad]
  simp only [fast_eq_legacy_iff, FinishesWith]

theorem fresh_agrees_iff (shortcut : Shortcut) (cfg : GenerationConfig τ)
    (call : GenerateCall τ rows) :
    shortcut.generate next (Session.fresh τ) call =
        legacyGenerate next cfg (Session.fresh τ) call ↔
      SameTokens shortcut next cfg call := by
  cases shortcut with
  | live => rw [Shortcut.generate, live_fresh, greedy_agrees_iff, SameTokens]
  | fast =>
    rw [Shortcut.generate, SameTokens]
    by_cases hpads : call.padTokenId = none ∨ eosSet call = []
    · rw [fast_fresh]
      simp only [fastToken_eq_greedy hpads]
      rw [greedy_agrees_iff, imp_iff_right hpads]
      refine and_congr_right fun _ => ⟨fun h => ⟨?_, h⟩, fun h => h.2⟩
      intro pad hpad hne
      rcases hpads with hnone | hnil
      · exact absurd (hnone.symm.trans hpad) (by simp)
      · exact absurd hnil hne
    · obtain ⟨hsome, heos⟩ := not_or.mp hpads
      obtain ⟨pad, hpad⟩ := Option.ne_none_iff_exists'.mp hsome
      rw [fast_agrees_iff cfg hpad heos]
      refine and_congr_right fun _ => ⟨fun h => ⟨?_, fun hn => absurd hn hpads⟩, fun h => ?_⟩
      · intro pad' hpad' _
        obtain rfl := Option.some.inj (hpad.symm.trans hpad')
        exact h
      · exact h.1 pad hpad heos

/-! ### Resumed sessions -/

omit [DecidableEq τ] in
/-- What every step keeps of a row, the loop keeps of all rows. -/
theorem decode_forall {P : Row τ → Prop} {stops : Bool} {step : Row τ → Row τ}
    (hstep : ∀ row, P row → P (step row)) (n : ℕ) :
    ∀ {start : List (Row τ)}, (∀ row ∈ start, P row) →
      (∀ row ∈ decode stops step n start, P row) ∧
        (decode stops step n start).length = start.length := by
  induction n with
  | zero => exact fun h => ⟨h, rfl⟩
  | succ n ih =>
    intro start h
    have hmap : ∀ row ∈ start.map step, P row := by
      intro row hr
      obtain ⟨row', hr', rfl⟩ := List.mem_map.mp hr
      exact hstep row' (h row' hr')
    rw [decode]
    split_ifs
    · exact ⟨hmap, List.length_map _⟩
    · obtain ⟨hall, hlen⟩ := ih hmap
      exact ⟨hall, hlen.trans (List.length_map _)⟩

theorem legacy_output_ne (cfg : GenerationConfig τ) (s : Session τ) (call : GenerateCall τ rows) :
    ∃ out : List (List τ), out ≠ [] ∧ (∀ row ∈ out, row ≠ []) ∧
      (legacyGenerate next cfg s call).returned = out.map (List.drop s.nPrevTokens) ∧
      (legacyGenerate next cfg s call).session.outputIds = some out := by
  rw [legacyGenerate]
  generalize hstart : (call.inputs.mapIdx fun b input => ({
    output := s.prevRow b ++ input, fed := s.fedRow b,
    step := (s.prevRow b ++ input).drop (s.nPrevTokens - 1) } : Row τ)) = start
  generalize call.maxNewTokens.getD (call.maxLength.getD 0 - (s.nPrevTokens + call.width)) = n
  have hne : ∀ row ∈ start, row.output ≠ [] := by
    intro row hr
    rw [← hstart, List.mem_mapIdx] at hr
    obtain ⟨b, hb, rfl⟩ := hr
    have hwidth := call.inputs_width _ (List.getElem_mem hb)
    have hpos := call.width_pos
    intro hnil
    rw [(List.append_eq_nil_iff.mp hnil).2, List.length_nil] at hwidth
    omega
  obtain ⟨hall, hlen⟩ := @decode_forall τ (fun row => row.output ≠ []) (cfg.eos call != [])
    (greedySearchStep next (cfg.eos call) (cfg.pad call))
    (fun row _ => List.append_ne_nil_of_right_ne_nil _ (List.cons_ne_nil _ _)) n start hne
  refine ⟨_, ?_, ?_, ?_, rfl⟩
  · intro hnil
    have := congrArg List.length hnil
    rw [List.length_map, hlen, ← hstart, List.length_mapIdx, call.inputs_length] at this
    have := call.rows_pos
    simp only [List.length_nil] at *
    omega
  · intro row hr
    obtain ⟨row', hr', rfl⟩ := List.mem_map.mp hr
    exact hall row' hr'
  · rw [finish, List.map_map]
    rfl

theorem shortcut_outputIds (shortcut : Shortcut) (s : Session τ) (call : GenerateCall τ rows) :
    (shortcut.generate next s call).session.outputIds =
      some (shortcut.generate next s call).returned := by
  cases shortcut with
  | fast => simp only [Shortcut.generate, fastGenerateGreedy, finish, List.drop_zero]
  | live => simp only [Shortcut.generate, liveContinuousGenerate, finish, List.drop_zero]

theorem resumed_disagrees (shortcut : Shortcut) (cfg : GenerationConfig τ) {s : Session τ}
    (hprev : 0 < s.nPrevTokens) (call : GenerateCall τ rows) :
    shortcut.generate next s call ≠ legacyGenerate next cfg s call := by
  intro h
  obtain ⟨out, hne, hrows, hret, hids⟩ := @legacy_output_ne τ rows next _ cfg s call
  have hsaved := @shortcut_outputIds τ rows next _ shortcut s call
  rw [h, hids, hret, Option.some.injEq] at hsaved
  -- the ordinary branch returns less than it saves
  obtain ⟨row, hr⟩ := List.exists_mem_of_ne_nil out hne
  have hid : row.drop s.nPrevTokens = row := by
    have hmap : out.map (List.drop s.nPrevTokens) = out.map id := by
      rw [List.map_id, ← hsaved]
    exact List.map_inj_left.mp hmap row hr
  have hlen := congrArg List.length hid
  have hpos := List.length_pos_iff.mpr (hrows row hr)
  rw [List.length_drop] at hlen
  omega

theorem legacy_nPrevTokens (cfg : GenerationConfig τ) (s : Session τ)
    (call : GenerateCall τ rows) : 0 < (legacyGenerate next cfg s call).session.nPrevTokens := by
  obtain ⟨out, hne, hrows, -, hids⟩ := @legacy_output_ne τ rows next _ cfg s call
  obtain ⟨row, rest, rfl⟩ := List.exists_cons_of_ne_nil hne
  rw [Session.nPrevTokens, hids]
  exact List.length_pos_iff.mpr (hrows row List.mem_cons_self)

/-! ### Sequences of calls -/

def EligibleCall (τ : Type) (rows : ℕ) (shortcut : Shortcut) (setting : Setting) : Type :=
  { call : GenerateCall τ rows // shortcut.eligible setting call = true }

/-- Each call of a sequence returns the same, leaves the same output ids and feeds the same tokens
on the shortcut as on the ordinary branch. -/
def RunAgrees {shortcut : Shortcut} {setting : Setting} (next : List τ → τ)
    (cfg : GenerationConfig τ) :
    Session τ → List (EligibleCall τ rows shortcut setting) → Prop
  | _, [] => True
  | s, call :: calls =>
    shortcut.generate next s call.1 = legacyGenerate next cfg s call.1 ∧
      RunAgrees next cfg (legacyGenerate next cfg s call.1).session calls

/-- The shortcut agrees with the ordinary branch exactly in a sequence of one call at most, in which
the EOS tokens do not show. -/
theorem runAgrees_iff {shortcut : Shortcut} {setting : Setting} (next : List τ → τ)
    (cfg : GenerationConfig τ) (calls : List (EligibleCall τ rows shortcut setting)) :
    RunAgrees next cfg (Session.fresh τ) calls ↔
      calls.length ≤ 1 ∧ ∀ call ∈ calls, SameTokens shortcut next cfg call.1 := by
  cases calls with
  | nil => simp [RunAgrees]
  | cons call calls =>
    rw [RunAgrees, fresh_agrees_iff]
    cases calls with
    | nil => simp [RunAgrees]
    | cons second calls =>
      -- the second call finds the output ids of the first one
      constructor
      · intro h
        have hprev := @legacy_nPrevTokens τ rows next _ cfg (Session.fresh τ) call.1
        exact absurd h.2.1 (resumed_disagrees shortcut cfg hprev second.1)
      · intro h
        simp only [List.length_cons] at h
        omega

def countModel (fed : List ℕ) : ℕ := fed.length

def bothOn : Setting where
  fastGenerateEnabled := true
  liveContinuousEnabled := true

def pairPrompt (a b : ℕ) (eos : Option (List ℕ)) (pad : Option ℕ) : GenerateCall ℕ 1 where
  inputs := [[a, b]]
  width := 2
  given := [.maxNewTokens, .eosTokenId, .padTokenId]
  maxNewTokens := some 1
  eosTokenId := eos
  padTokenId := pad
  inputs_length := rfl
  rows_pos := Nat.one_pos
  inputs_width := fun _ h => congrArg List.length (List.mem_singleton.mp h)
  width_pos := Nat.two_pos

/-- A prompt and a follow-up on the session that the prompt leaves. -/
def followUp (shortcut : Shortcut)
    (h : ∀ a b, shortcut.eligible bothOn (pairPrompt a b none none) = true) :
    List (EligibleCall ℕ 1 shortcut bothOn) :=
  [⟨pairPrompt 1 2 none none, h 1 2⟩, ⟨pairPrompt 5 6 none none, h 5 6⟩]

def afterPrompt : Session ℕ :=
  (legacyGenerate countModel {} (Session.fresh ℕ) (pairPrompt 1 2 none none)).session

/-- The follow-up comes back with the old tokens on the fast path, which fed it only the last token
of the prompt, and is saved without them on the live path. -/
theorem followUp_disagrees :
    (legacyGenerate countModel {} afterPrompt (pairPrompt 5 6 none none)).returned = [[5, 6, 5]] ∧
      (fastGenerateGreedy countModel afterPrompt (pairPrompt 5 6 none none)).returned =
        [[1, 2, 2, 5, 6, 3]] ∧
      (liveContinuousGenerate countModel afterPrompt
        (pairPrompt 5 6 none none)).session.outputIds = some [[5, 6, 4]] ∧
      ¬RunAgrees countModel {} (Session.fresh ℕ) (followUp .fast fun _ _ => rfl) ∧
      ¬RunAgrees countModel {} (Session.fresh ℕ) (followUp .live fun _ _ => rfl) := by
  refine ⟨by decide, by decide, by decide, ?_, ?_⟩
  · intro h
    exact absurd h.2.1 (by decide)
  · intro h
    exact absurd h.2.1 (by decide)

end BloomBee.RemoteGeneration
