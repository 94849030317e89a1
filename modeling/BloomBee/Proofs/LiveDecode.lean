import BloomBee.Sanity.LiveDecode
import Mathlib.Data.List.Forall2
import Mathlib.Data.Nat.Init

/-! Ragged live decoding against decoding each row alone. A step reads a window as long as the
longest row and hides what a row has not written; the invariant is that the first `n` slots of a
row are what the row alone would have cached after `n` tokens (`serveTokens_spec`). -/

set_option autoImplicit false

namespace BloomBee.LiveDecode

open RpcInference
open BackendStep (OneChunk)

variable {τ κ : Type}

/-! ### One step -/

theorem mapM_id_of_isSome {α : Type} {l : List (Option α)} (h : ∀ a ∈ l, a.isSome) :
    ∃ l' : List α, l.mapM id = some l' ∧ l = l'.map some := by
  induction l with
  | nil => exact ⟨[], rfl, rfl⟩
  | cons a l ih =>
    obtain ⟨x, rfl⟩ := Option.isSome_iff_exists.mp (h a List.mem_cons_self)
    obtain ⟨l', hl', rfl⟩ := ih fun b hb => h b (List.mem_cons_of_mem _ hb)
    exact ⟨x :: l', by simp [List.mapM_cons, hl'], rfl⟩

/-- A block that handles the step has a rotary position for every row, and for an active row
its own. -/
theorem rotary_position {rotary : Rotary} {step : LiveStep} (h : rotary.Handles step) {i : ℕ}
    (hi : i < step.batchSize) :
    (rotary.position step.window step.positions i).isSome ∧
      (step.serves (step.batchOffset + i) →
        rotary.position step.window step.positions i =
          some (step.position (step.batchOffset + i))) := by
  have hmem : step.positions[i]? = some (step.position (step.batchOffset + i)) := by
    have := @position_mem step (step.batchOffset + i) (by rwa [Nat.add_sub_cancel_left])
    rwa [Nat.add_sub_cancel_left] at this
  cases rotary with
  | positionIds =>
    rw [Rotary.position, hmem]
    exact ⟨rfl, fun _ => rfl⟩
  | pastLength =>
    rw [Rotary.position]
    exact ⟨rfl, fun hs => by rw [h _ hs]⟩
  | flexgen =>
    obtain ⟨hpos, hhead⟩ := h
    rw [Rotary.position]
    by_cases h0 : step.positions.head? = some 0
    · have hw := hhead h0
      rw [if_pos h0, if_pos hw]
      exact ⟨rfl, fun hs => by rw [hpos _ hs, hw]⟩
    · rw [if_neg h0]
      exact ⟨rfl, fun hs => by rw [hpos _ hs]⟩

/-- An active row sees what it has written: its mask admits no more, or there is no more. -/
theorem visible_merged {masked : Bool} (slab : Slab κ) {step : LiveStep} {i : ℕ}
    (hmask : masked = false → ∀ r, step.serves r → step.position r = step.window)
    (hs : step.serves (step.batchOffset + i)) :
    visible masked slab step.mergedInfo step.batchSize i =
      (slab.row (step.batchOffset + i)).take (step.position (step.batchOffset + i)) := by
  have hle := position_le_window hs
  have hpos : step.positions.getD i 0 = step.position (step.batchOffset + i) := by
    rw [LiveStep.position, Nat.add_sub_cancel_left]
  simp only [visible, liveRowPositions_merged, selectPrefixLength_merged]
  cases masked with
  | true =>
    rw [if_pos rfl, List.take_take, hpos]
    congr 1
    omega
  | false =>
    rw [if_neg Bool.false_ne_true, hmask rfl _ hs]
    rfl

theorem overwrite_take {row : List κ} {position : ℕ} (h : position < row.length) (kv : κ) :
    (overwrite row position [kv]).take (position + 1) = row.take position ++ [kv] :=
  @overwrite_take_new κ row [kv] position h

theorem room_activeRows {seqLen : ℕ} {step : LiveStep}
    (hroom : ∀ r, step.serves r → step.position r < seqLen) {α : Type} (inputs : List α)
    (kv : α → κ) : Room seqLen (activeRows step.batchOffset step.active step.positions
      (inputs.map fun a => [kv a])) := by
  intro b start slots hb
  rw [activeRows_eq] at hb
  by_cases hs : step.serves b
  · rw [if_pos hs, List.getElem?_map, Option.map_map, Option.map_eq_some_iff] at hb
    obtain ⟨a, -, ha⟩ := hb
    cases ha
    have := hroom b hs
    exact ⟨this, this⟩
  · rw [if_neg hs] at hb
    cases hb

/-- What the step gives the attention of a block, and the cache afterwards. -/
theorem inferenceStep_spec {p : LiveBlock τ κ × Slab κ} {step : LiveStep} (h : Accepts p step)
    {hidden : List τ} (hlen : hidden.length = step.batchSize) :
    ∃ inputs, inferenceStep p.1 p.2 step.mergedInfo hidden = .ok (inputs,
        place p.2 (activeRows step.batchOffset step.active step.positions
          (inputs.map fun a => [(p.1.attend a).2]))) ∧
      inputs.length = step.batchSize ∧
      ∀ r, step.serves r → ∀ token, hidden[r - step.batchOffset]? = some token →
        inputs[r - step.batchOffset]? =
          some ⟨(p.2.row r).take (step.position r), step.position r, token⟩ := by
  obtain ⟨hwin, hroom, hrows, hrot, hmask, hchunk⟩ := h
  have hpos : positionIds step.mergedInfo step.batchSize step.window = step.positions := by
    rw [positionIds, liveRowPositions_merged]
    rfl
  obtain ⟨inputs, hmap, hinputs⟩ := mapM_id_of_isSome (l := hidden.mapIdx fun i t =>
      attentionRow p.1 p.2 step.mergedInfo hidden.length i t) (by
    intro a ha
    obtain ⟨i, hi, rfl⟩ := List.mem_mapIdx.mp ha
    rw [hlen] at hi
    rw [attentionRow, hlen, selectPrefixLength_merged, hpos, Option.isSome_map]
    exact (rotary_position hrot hi).1)
  have hilen : inputs.length = step.batchSize := by
    have := congrArg List.length hinputs
    rw [List.length_mapIdx, List.length_map] at this
    omega
  have hnew : (inputs.map fun a => [(p.1.attend a).2]).length = step.batchSize := by
    rw [List.length_map, hilen]
  refine ⟨inputs, ?_, hilen, ?_⟩
  · rw [inferenceStep, hlen, selectPrefixLength_merged,
      if_neg (show ¬¬OneChunk _ _ _ step.mergedInfo.prefixLength from not_not.mpr hchunk),
      if_neg (by omega), ← hlen, hmap]
    simp only
    rw [updateCache, hnew, selectPrefixLength_merged, if_neg (by omega),
      if_neg (by change ¬_ < step.batchOffset + _; omega), finalizeCacheUpdate, hnew,
      activeMaskList_merged, rowPositionList_merged]
    simp only [Option.getD_some]
    rw [show step.mergedInfo.batchOffset = step.batchOffset from rfl,
      writeRuns_activePositionRowRuns (room_activeRows hroom inputs _)]
  · intro r hs token htok
    obtain ⟨i, rfl⟩ : ∃ i, r = step.batchOffset + i := ⟨r - step.batchOffset, by have := hs.1; omega⟩
    have hi := serves_lt hs
    rw [Nat.add_sub_cancel_left] at hi htok ⊢
    have hrow : (hidden.mapIdx fun i t =>
        attentionRow p.1 p.2 step.mergedInfo hidden.length i t)[i]? = (inputs.map some)[i]? := by
      rw [hinputs]
    rw [List.getElem?_mapIdx, htok, Option.map_some, List.getElem?_map, attentionRow, hlen,
      selectPrefixLength_merged, hpos, (rotary_position hrot hi).2 hs, Option.map_some,
      visible_merged p.2 hmask hs] at hrow
    cases hin : inputs[i]? with
    | none => rw [hin] at hrow; cases hrow
    | some a =>
      rw [hin, Option.map_some, Option.some.injEq, Option.some.injEq] at hrow
      rw [hrow]

/-! ### All blocks -/

def rowsOf (r n : ℕ) (blocks : List (LiveBlock τ κ × Slab κ)) : List (List κ) :=
  blocks.map fun p => (p.2.row r).take n

def SameShape (blocks blocks' : List (LiveBlock τ κ × Slab κ)) : Prop :=
  List.Forall₂ (fun p q => p.1 = q.1 ∧ p.2.seqLen = q.2.seqLen ∧ p.2.batch = q.2.batch)
    blocks blocks'

theorem SameShape.refl (blocks : List (LiveBlock τ κ × Slab κ)) : SameShape blocks blocks :=
  List.forall₂_same.mpr fun _ _ => ⟨rfl, rfl, rfl⟩

theorem SameShape.trans {a b c : List (LiveBlock τ κ × Slab κ)} (h : SameShape a b)
    (h' : SameShape b c) : SameShape a c := by
  induction h generalizing c with
  | nil => exact h'
  | cons h1 _ ih =>
    cases h' with
    | cons h2 h' => exact .cons ⟨h1.1.trans h2.1, h1.2.1.trans h2.2.1, h1.2.2.trans h2.2.2⟩ (ih h')

theorem SameShape.fst {blocks blocks' : List (LiveBlock τ κ × Slab κ)}
    (h : SameShape blocks blocks') : blocks'.map Prod.fst = blocks.map Prod.fst := by
  induction h with
  | nil => rfl
  | cons h _ ih => rw [List.map_cons, List.map_cons, ih, h.1]

theorem SameShape.accepts {blocks blocks' : List (LiveBlock τ κ × Slab κ)}
    (h : SameShape blocks blocks') {step : LiveStep} (ha : ∀ p ∈ blocks, Accepts p step) :
    ∀ p ∈ blocks', Accepts p step := by
  induction h with
  | nil => intro p hp; cases hp
  | cons h _ ih =>
    intro p hp
    rcases List.mem_cons.mp hp with rfl | hp
    · obtain ⟨h1, h2, h3, h4, h5, h6⟩ := ha _ List.mem_cons_self
      exact ⟨h.2.1 ▸ h1, h.2.1 ▸ h2, h.2.2 ▸ h3, h.1 ▸ h4, h.1 ▸ h5, h.1 ▸ h6⟩
    · exact ih (fun q hq => ha q (List.mem_cons_of_mem _ hq)) p hp

/-- A step through all blocks: every row it serves goes through them as it would alone, and no
other row changes. -/
theorem runBlocks_spec {step : LiveStep} (blocks : List (LiveBlock τ κ × Slab κ)) :
    (∀ p ∈ blocks, Accepts p step) → ∀ hidden : List τ, hidden.length = step.batchSize →
      ∃ inputs blocks', runBlocks step.mergedInfo blocks hidden = .ok (inputs, blocks') ∧
        SameShape blocks blocks' ∧
        (∀ r, ¬step.serves r → ∀ n, rowsOf r n blocks' = rowsOf r n blocks) ∧
        ∀ r, step.serves r → ∀ token, hidden[r - step.batchOffset]? = some token →
          inputs.filterMap (fun rows => rows[r - step.batchOffset]?) =
            (decodeToken (blocks.map Prod.fst) (rowsOf r (step.position r) blocks) token).1 ∧
          rowsOf r (step.position r + 1) blocks' =
            (decodeToken (blocks.map Prod.fst) (rowsOf r (step.position r) blocks) token).2 := by
  induction blocks with
  | nil =>
    intro _ hidden _
    exact ⟨[], [], rfl, .nil, fun _ _ _ => rfl, fun _ _ _ _ => ⟨rfl, rfl⟩⟩
  | cons p blocks ih =>
    intro ha hidden hlen
    have hp := ha p List.mem_cons_self
    obtain ⟨inputs, hstep, hilen, hrow⟩ := inferenceStep_spec hp hlen
    obtain ⟨trace, blocks', hrun, hshape, hother, hserved⟩ :=
      ih (fun q hq => ha q (List.mem_cons_of_mem _ hq)) (inputs.map fun a => (p.1.attend a).1)
        (by rw [List.length_map, hilen])
    refine ⟨inputs :: trace, (p.1, place p.2 (activeRows step.batchOffset step.active
      step.positions (inputs.map fun a => [(p.1.attend a).2]))) :: blocks', ?_,
      .cons ⟨rfl, rfl, rfl⟩ hshape, ?_, ?_⟩
    · obtain ⟨block, slab⟩ := p
      rw [runBlocks, hstep]
      simp only
      rw [hrun]
    · intro r hr n
      rw [rowsOf, List.map_cons, rowsOf, List.map_cons]
      refine congrArg₂ _ ?_ (hother r hr n)
      simp only [place, activeRows_eq, if_neg hr]
    · intro r hr token htok
      have hin := hrow r hr token htok
      obtain ⟨h1, h2⟩ := hserved r hr _ (by rw [List.getElem?_map, hin, Option.map_some])
      have hrl := p.2.row_length r
      have hlt := hp.room r hr
      have hpl : ((p.2.row r).take (step.position r)).length = step.position r := by
        rw [List.length_take]
        omega
      have hkv : (place p.2 (activeRows step.batchOffset step.active step.positions
          (inputs.map fun a => [(p.1.attend a).2]))).row r =
          overwrite (p.2.row r) (step.position r) [(p.1.attend
            ⟨(p.2.row r).take (step.position r), step.position r, token⟩).2] := by
        simp only [place, activeRows_eq, if_pos hr, List.getElem?_map, hin, Option.map_some]
      simp only [rowsOf, List.map_cons, decodeToken, hpl]
      constructor
      · rw [List.filterMap_cons]
        simp only [hin]
        rw [h1, rowsOf]
      · rw [hkv, overwrite_take (by omega)]
        exact congrArg _ h2

/-! ### Runs -/

/-- The condition on a step: it passes the length check, and every block accepts it. -/
def Runs (cfg : Config) (blocks : List (LiveBlock τ κ × Slab κ)) (t : TokenStep τ) : Prop :=
  t.prefixLength + t.width ≤ cfg.maxLength ∧ ∀ p ∈ blocks, Accepts p t.toLiveStep

theorem hidden_of_serves {t : TokenStep τ} {r : ℕ} (h : t.serves r) :
    ∃ token, t.hidden[r - t.batchOffset]? = some token := by
  have hlt := serves_lt h
  rw [← t.hidden_length] at hlt
  exact ⟨_, List.getElem?_eq_getElem hlt⟩

/-- In a run whose steps all meet the condition, every row goes through the blocks as it would
alone, from what it has cached so far. -/
theorem serveTokens_spec {cfg : Config} (steps : List (TokenStep τ)) :
    ∀ (count : ℕ → ℕ) (blocks : List (LiveBlock τ κ × Slab κ)),
      (∀ t ∈ steps, Runs cfg blocks t) → FollowsCounts count steps →
      ∃ trace blocks', serveTokens cfg steps blocks = .ok (trace, blocks') ∧
        SameShape blocks blocks' ∧
        ∀ r, rowTrace r steps trace =
            (decodeRow (blocks.map Prod.fst) (rowsOf r (count r) blocks) (rowTokens r steps)).1 ∧
          rowsOf r (count r + (rowTokens r steps).length) blocks' =
            (decodeRow (blocks.map Prod.fst) (rowsOf r (count r) blocks) (rowTokens r steps)).2 := by
  induction steps with
  | nil =>
    intro count blocks _ _
    exact ⟨[], blocks, rfl, .refl blocks, fun r => ⟨rfl, rfl⟩⟩
  | cons t steps ih =>
    intro count blocks hruns hfol
    obtain ⟨hcount, hfol⟩ := hfol
    obtain ⟨hmax, hacc⟩ := hruns t List.mem_cons_self
    obtain ⟨inputs, blocks₁, hrun, hshape, hother, hserved⟩ :=
      runBlocks_spec blocks hacc t.hidden t.hidden_length
    obtain ⟨trace, blocks', hrun', hshape', hrows⟩ := ih _ blocks₁
      (fun u hu => ⟨(hruns u (List.mem_cons_of_mem _ hu)).1,
        hshape.accepts (hruns u (List.mem_cons_of_mem _ hu)).2⟩) hfol
    refine ⟨inputs :: trace, blocks', ?_, hshape.trans hshape', ?_⟩
    · rw [serveTokens, serveToken, if_neg (by omega), hrun]
      simp only
      rw [hrun']
    · intro r
      obtain ⟨h1, h2⟩ := hrows r
      rw [hshape.fst] at h1 h2
      by_cases hr : t.serves r
      · -- the row's own step, then the rest from what it wrote
        obtain ⟨token, htok⟩ := hidden_of_serves hr
        obtain ⟨hin, hnew⟩ := hserved r hr token htok
        rw [hcount r hr] at hin hnew
        simp only [if_pos hr, hnew] at h1 h2
        have htokens : rowTokens r (t :: steps) = token :: rowTokens r steps := by
          rw [rowTokens, List.filterMap_cons]
          simp only [if_pos hr, htok]
          rfl
        rw [rowTrace, if_pos hr, htokens, decodeRow, hin, h1]
        refine ⟨rfl, ?_⟩
        rw [List.length_cons, ← Nat.add_assoc, Nat.add_right_comm]
        exact h2
      · simp only [if_neg hr, hother r hr] at h1 h2
        have htokens : rowTokens r (t :: steps) = rowTokens r steps := by
          rw [rowTokens, List.filterMap_cons]
          simp only [if_neg hr]
          rfl
        rw [rowTrace, if_neg hr, htokens]
        exact ⟨h1, h2⟩

/-! ### A batch of one -/

def aloneSteps (r : ℕ) (steps : List (TokenStep τ)) : List (TokenStep τ) :=
  steps.filterMap fun t => t.alone r

structure IsAlone (t u : TokenStep τ) (r : ℕ) : Prop where
  serves : t.serves r
  offset : u.batchOffset = 0
  batch : u.batchSize = 1
  active : u.active = [true]
  positions : u.positions = [t.position r]
  prefixLength : u.prefixLength = t.prefixLength
  token : u.hidden[0]? = t.hidden[r - t.batchOffset]?

theorem isAlone_of_mem {t u : TokenStep τ} {r : ℕ} (h : t.alone r = some u) : IsAlone t u r := by
  rw [TokenStep.alone] at h
  split at h
  · next hr =>
    obtain ⟨token, htok, rfl⟩ := Option.map_eq_some_iff.mp h
    exact ⟨hr, rfl, rfl, rfl, rfl, rfl, htok.symm⟩
  · cases h

theorem alone_of_serves {t : TokenStep τ} {r : ℕ} (h : t.serves r) : ∃ u, t.alone r = some u := by
  obtain ⟨token, htok⟩ := hidden_of_serves h
  rw [TokenStep.alone, if_pos h, htok]
  exact ⟨_, rfl⟩

theorem IsAlone.serves_zero {t u : TokenStep τ} {r : ℕ} (h : IsAlone t u r) : u.serves 0 := by
  refine ⟨Nat.le_of_eq h.offset, ?_⟩
  rw [h.active, h.offset]
  rfl

theorem IsAlone.position_zero {t u : TokenStep τ} {r : ℕ} (h : IsAlone t u r) :
    u.position 0 = t.position r := by
  rw [LiveStep.position, h.positions, h.offset]
  rfl

theorem IsAlone.eq_zero {t u : TokenStep τ} {r : ℕ} (h : IsAlone t u r) {r' : ℕ}
    (hs : u.serves r') : r' = 0 := by
  have := serves_lt hs
  rw [h.offset, h.batch] at this
  omega

/-- Every block accepts a row alone if it accepts the row in a batch. -/
theorem IsAlone.accepts {t u : TokenStep τ} {r : ℕ} (h : IsAlone t u r)
    {p q : LiveBlock τ κ × Slab κ} (hp : Accepts p t.toLiveStep) (hblock : q.1 = p.1)
    (hlen : q.2.seqLen = p.2.seqLen) (hbatch : 1 ≤ q.2.batch) : Accepts q u.toLiveStep := by
  have hroom := hp.room r h.serves
  have hwindow : u.window = t.position r := by
    rw [LiveStep.window, h.positions]
    exact Nat.max_zero _
  have hpos : ∀ r', u.serves r' → u.position r' = u.window := by
    intro r' hs
    rw [h.eq_zero hs, h.position_zero, hwindow]
  refine ⟨by rw [hwindow, hlen]; omega, ?_, by rw [h.offset, h.batch]; omega, ?_, fun _ => hpos, ?_⟩
  · intro r' hs
    rw [h.eq_zero hs, h.position_zero, hlen]
    exact hroom
  · rw [hblock]
    cases p.1.rotary with
    | positionIds => trivial
    | pastLength => exact hpos
    | flexgen =>
      refine ⟨hpos, fun h0 => ?_⟩
      rw [h.positions, List.head?_cons, Option.some.injEq] at h0
      rw [hwindow, h0]
  · rw [hblock, h.batch, h.prefixLength]
    exact hp.chunk.of_le Nat.one_pos t.batch_pos

theorem aloneSteps_follow (r : ℕ) (steps : List (TokenStep τ)) :
    ∀ count count₁ : ℕ → ℕ, FollowsCounts count steps → count₁ 0 = count r →
      FollowsCounts count₁ (aloneSteps r steps) := by
  induction steps with
  | nil => intro _ _ _ _; trivial
  | cons t steps ih =>
    intro count count₁ hfol heq
    obtain ⟨hcount, hfol⟩ := hfol
    rw [aloneSteps, List.filterMap_cons]
    by_cases hr : t.serves r
    · obtain ⟨u, hu⟩ := alone_of_serves hr
      have hal := isAlone_of_mem hu
      simp only [hu]
      refine ⟨?_, ih _ _ hfol ?_⟩
      · intro r' hs
        rw [hal.eq_zero hs, hal.position_zero, hcount r hr, heq]
      · rw [if_pos hal.serves_zero, if_pos hr, heq]
    · have hnone : t.alone r = none := by rw [TokenStep.alone, if_neg hr]
      rw [hnone]
      refine ih _ _ hfol ?_
      rw [if_neg hr, heq]

theorem rowTokens_alone (r : ℕ) (steps : List (TokenStep τ)) :
    rowTokens 0 (aloneSteps r steps) = rowTokens r steps := by
  induction steps with
  | nil => rfl
  | cons t steps ih =>
    rw [rowTokens, aloneSteps, List.filterMap_cons, rowTokens, List.filterMap_cons]
    rw [rowTokens, aloneSteps, rowTokens] at ih
    by_cases hr : t.serves r
    · obtain ⟨u, hu⟩ := alone_of_serves hr
      have hal := isAlone_of_mem hu
      simp only [hu, if_pos hr, List.filterMap_cons, if_pos hal.serves_zero, hal.offset,
        Nat.sub_zero, hal.token, ih]
    · have hnone : t.alone r = none := by rw [TokenStep.alone, if_neg hr]
      simp only [hnone, if_neg hr, ih]

/-! ### What a row alone reads and writes -/

theorem decodeToken_length (blocks : List (LiveBlock τ κ)) :
    ∀ (pasts : List (List κ)) (token : τ), pasts.length = blocks.length →
      (decodeToken blocks pasts token).1.length = blocks.length ∧
        (decodeToken blocks pasts token).2.length = blocks.length := by
  induction blocks with
  | nil => intro pasts token h; exact ⟨rfl, rfl⟩
  | cons block blocks ih =>
    intro pasts token h
    obtain ⟨past, pasts, rfl⟩ := List.exists_cons_of_length_eq_add_one h
    obtain ⟨h1, h2⟩ := ih pasts (block.attend ⟨past, past.length, token⟩).1 (Nat.succ.inj h)
    exact ⟨congrArg (· + 1) h1, congrArg (· + 1) h2⟩

/-- In block `j` a token reads all the row has cached there, and is put after it. -/
theorem decodeToken_get (blocks : List (LiveBlock τ κ)) :
    ∀ (pasts : List (List κ)) (token : τ) (j : ℕ) (block : LiveBlock τ κ) (a : Attention τ κ),
      blocks[j]? = some block → (decodeToken blocks pasts token).1[j]? = some a →
      pasts[j]? = some a.past ∧ a.rotary = a.past.length ∧
        (decodeToken blocks pasts token).2[j]? = some (a.past ++ [(block.attend a).2]) := by
  induction blocks with
  | nil => intro pasts token j block a hb _; cases hb
  | cons b blocks ih =>
    intro pasts token j block a hb ha
    cases pasts with
    | nil => cases ha
    | cons past pasts =>
      cases j with
      | zero =>
        cases hb
        cases ha
        exact ⟨rfl, rfl, rfl⟩
      | succ j => exact ih pasts _ j block a hb ha

theorem decodeRow_extends (blocks : List (LiveBlock τ κ)) (tokens : List τ) :
    ∀ (pasts : List (List κ)) (j : ℕ) (past : List κ), pasts.length = blocks.length →
      pasts[j]? = some past →
      ∃ final, (decodeRow blocks pasts tokens).2[j]? = some final ∧ past <+: final := by
  induction tokens with
  | nil => intro pasts j past _ h; exact ⟨past, h, List.prefix_refl past⟩
  | cons token tokens ih =>
    intro pasts j past hlen h
    have hj : j < blocks.length := by
      rw [← hlen]
      exact (List.getElem?_eq_some_iff.mp h).1
    obtain ⟨hlen1, hlen2⟩ := decodeToken_length blocks pasts token hlen
    obtain ⟨a, ha⟩ : ∃ a, (decodeToken blocks pasts token).1[j]? = some a :=
      ⟨_, List.getElem?_eq_getElem (by omega)⟩
    obtain ⟨hp, -, hnext⟩ := decodeToken_get blocks pasts token j _ a
      (List.getElem?_eq_getElem hj) ha
    rw [h, Option.some.injEq] at hp
    obtain ⟨final, hfinal, hpre⟩ := ih _ j _ hlen2 hnext
    refine ⟨final, hfinal, List.IsPrefix.trans ?_ hpre⟩
    rw [hp]
    exact List.prefix_append _ _

/-- Token `k` of a row reads the slots before its own, is rotated to its own position, and is
put there. -/
theorem decodeRow_get (blocks : List (LiveBlock τ κ)) (tokens : List τ) :
    ∀ (n : ℕ) (pasts : List (List κ)), pasts.length = blocks.length →
      (∀ past ∈ pasts, past.length = n) →
      ∀ (k j : ℕ) (inputs : List (Attention τ κ)) (block : LiveBlock τ κ) (a : Attention τ κ)
        (final : List κ), (decodeRow blocks pasts tokens).1[k]? = some inputs →
        blocks[j]? = some block → inputs[j]? = some a →
        (decodeRow blocks pasts tokens).2[j]? = some final →
        a.past = final.take (n + k) ∧ a.rotary = n + k ∧
          final[n + k]? = some (block.attend a).2 := by
  induction tokens with
  | nil => intro n pasts _ _ k j inputs block a final hk; cases hk
  | cons token tokens ih =>
    intro n pasts hlen hn k j inputs block a final hk hb ha hfinal
    obtain ⟨hlen1, hlen2⟩ := decodeToken_length blocks pasts token hlen
    have hn' : ∀ past ∈ (decodeToken blocks pasts token).2, past.length = n + 1 := by
      intro past hp
      obtain ⟨i, hi, rfl⟩ := List.mem_iff_getElem.mp hp
      obtain ⟨hpi, -, hnext⟩ := decodeToken_get blocks pasts token i _ _
        (List.getElem?_eq_getElem (by omega)) (List.getElem?_eq_getElem (by omega))
      rw [List.getElem?_eq_getElem hi, Option.some.injEq] at hnext
      rw [hnext, List.length_append, List.length_singleton, hn _ (List.mem_of_getElem? hpi)]
    cases k with
    | zero =>
      cases hk
      obtain ⟨hp, hrot, hnext⟩ := decodeToken_get blocks pasts token j block a hb ha
      have hpl := hn _ (List.mem_of_getElem? hp)
      obtain ⟨final', hfinal', hpre⟩ := decodeRow_extends blocks tokens _ j _ hlen2 hnext
      obtain rfl : final' = final := by
        have := hfinal'.symm.trans hfinal
        rwa [Option.some.injEq] at this
      obtain ⟨rest, rfl⟩ := hpre
      refine ⟨?_, by rw [hrot, hpl]; rfl, ?_⟩
      · rw [Nat.add_zero, ← hpl, List.append_assoc, List.take_left]
      · rw [Nat.add_zero, ← hpl, List.append_assoc, List.getElem?_append_right (Nat.le_refl _),
          Nat.sub_self]
        rfl
    | succ k =>
      have := ih (n + 1) _ hlen2 hn' k j inputs block a final hk hb ha hfinal
      rwa [Nat.add_assoc, Nat.add_comm 1 k] at this

/-! ### The main result -/

def ForOneRow (blocks blocks₁ : List (LiveBlock τ κ × Slab κ)) : Prop :=
  List.Forall₂ (fun p q => q.1 = p.1 ∧ q.2.seqLen = p.2.seqLen ∧ 1 ≤ q.2.batch) blocks blocks₁

theorem ForOneRow.fst {blocks blocks₁ : List (LiveBlock τ κ × Slab κ)}
    (h : ForOneRow blocks blocks₁) : blocks₁.map Prod.fst = blocks.map Prod.fst := by
  induction h with
  | nil => rfl
  | cons h _ ih => rw [List.map_cons, List.map_cons, ih, h.1]

theorem ForOneRow.runs {cfg : Config} {blocks blocks₁ : List (LiveBlock τ κ × Slab κ)}
    (h : ForOneRow blocks blocks₁) {t u : TokenStep τ} {r : ℕ} (hal : IsAlone t u r)
    (ht : Runs cfg blocks t) : Runs cfg blocks₁ u := by
  obtain ⟨hmax, hacc⟩ := ht
  refine ⟨by rw [hal.prefixLength, u.width_one, ← t.width_one]; exact hmax, ?_⟩
  clear hmax
  induction h with
  | nil => intro q hq; cases hq
  | cons h _ ih =>
    intro q hq
    rcases List.mem_cons.mp hq with rfl | hq
    · exact hal.accepts (hacc _ List.mem_cons_self) h.1 h.2.1 h.2.2
    · exact ih (fun p hp => hacc p (List.mem_cons_of_mem _ hp)) q hq

theorem rowsOf_zero_length (r : ℕ) (blocks : List (LiveBlock τ κ × Slab κ)) :
    rowsOf r 0 blocks = blocks.map fun _ => [] := by
  simp [rowsOf]

theorem zeros_row_length (seqLen _row : ℕ) : (List.replicate seqLen 0 : List ℕ).length = seqLen :=
  List.length_replicate

def zeros (seqLen batch : ℕ) : Slab ℕ where
  seqLen := seqLen
  batch := batch
  row _ := List.replicate seqLen 0
  row_length := zeros_row_length seqLen

/-- A block that adds up what it reads and caches its token. -/
def summing (rotary : Rotary) (masked : Bool) : LiveBlock ℕ ℕ where
  rotary := rotary
  masked := masked
  chunkConfig := ⟨1, 1, 64⟩
  attend a := (a.past.foldr (· + ·) (a.token + a.rotary), a.token)

theorem twoRows_inside {mask : List Bool} (h : 2 ≤ mask.length) : 0 + 2 ≤ mask.length := by
  rwa [Nat.zero_add]

theorem twoRows_width : 1 = 1 := rfl

def twoRows (mask : List Bool) (positions hidden : List ℕ) (hmask : 2 ≤ mask.length)
    (hpos : positions.length = 2) (hhid : hidden.length = 2) : TokenStep ℕ where
  rawMask := mask
  batchOffset := 0
  batchSize := 2
  width := 1
  positions := positions
  prefixLength := 0
  batch_pos := Nat.two_pos
  width_pos := Nat.one_pos
  positions_length := hpos
  inside := twoRows_inside hmask
  hidden := hidden
  width_one := twoRows_width
  hidden_length := hhid

def lateRow : List (TokenStep ℕ) :=
  [twoRows [true, false] [0, 0] [7, 7] (by decide) rfl rfl,
    twoRows [true, true] [1, 0] [8, 9] (by decide) rfl rfl]

theorem serves_twoRows {mask : List Bool} {positions hidden : List ℕ} (hmask : 2 ≤ mask.length)
    (hpos : positions.length = 2) (hhid : hidden.length = 2) {r : ℕ}
    (h : (twoRows mask positions hidden hmask hpos hhid).serves r) : r = 0 ∨ r = 1 := by
  have := serves_lt h
  simp only [twoRows] at this
  omega

theorem lateRow_follows : FollowsCounts (fun _ => 0) lateRow := by
  refine ⟨?_, ?_, trivial⟩
  · intro r hr
    rcases serves_twoRows _ _ _ hr with rfl | rfl
    · rfl
    · exact absurd hr (by decide)
  · intro r hr
    rcases serves_twoRows _ _ _ hr with rfl | rfl
    · rfl
    · rfl

/-- A Mixtral block, without a mask, shows the late row a slot that it has not written. -/
example : ((serveTokens ⟨4, none⟩ lateRow [(summing .positionIds false, zeros 4 2)]).toOption.map
    fun x => rowTrace 1 lateRow x.1) = some [[⟨[0], 0, 9⟩]] := rfl

end BloomBee.LiveDecode
