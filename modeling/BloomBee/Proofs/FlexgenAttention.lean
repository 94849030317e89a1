import BloomBee.Sanity.FlexgenAttention
import BloomBee.Sanity.InferenceSession

/-! The kernels of a FlexGen block are causal attention on every batch row. What is decoded over a
cache is what one prefill would have given (`prefill_eq_decode`), and a chain of blocks answers
every request of a session, also one that goes back, as the whole sequence would be answered
(`serveRequests_wholeSequence`). -/

set_option autoImplicit false

namespace BloomBee.FlexgenAttention

open BackendStep (ChunkConfig OneChunk runChunks_single)

variable {R : Type}

section Cache

variable {t new : List (Frame R)} {prefixLength : ℕ}

/-- A cached tensor that is read up to `prefixLength`, and either ends there or has room for the
new frames. -/
def Room (t : List (Frame R)) (prefixLength tokens : ℕ) : Prop :=
  t.length = prefixLength ∨ prefixLength + tokens ≤ t.length

/-- In place or not, the new frames come behind the prefix. -/
theorem withNew_snd (t new : List (Frame R)) (h : Room t prefixLength new.length) :
    (withNew t.length t new (prefixLength + new.length)).2 = t.take prefixLength ++ new := by
  rw [withNew, Nat.add_sub_cancel]
  split_ifs with hroom
  · have hprefix : (t.take prefixLength).length = prefixLength := by
      rw [List.length_take]
      omega
    exact List.take_left' (by rw [List.length_append, hprefix])
  · have hlength : t.length = prefixLength := by
      rcases h with h | h
      · exact h
      · exact absurd h hroom
    rw [← hlength, List.take_length]

end Cache

section New

variable [Field R] (E : Elementary R) (w : AttentionWeights R) (nHead start : ℕ)
  (hidden : List (Frame R))

@[simp] theorem length_newKeys :
    (newKeys E w nHead none start hidden).length = hidden.length := List.length_mapIdx

theorem newKeys_append (new : List (Frame R)) : newKeys E w nHead none start (hidden ++ new) =
    newKeys E w nHead none start hidden ++
      newKeys E w nHead none (start + hidden.length) new := by
  rw [newKeys, List.mapIdx_append, newKeys, newKeys]
  congr 2
  funext i x bh
  rw [rotaryPosition, rotaryPosition, Nat.add_assoc, Nat.add_comm i]

@[simp] theorem length_newValues : (newValues E w nHead hidden).length = hidden.length :=
  List.length_map _

theorem stepMask_causal (prefixLength tokens : ℕ) :
    CausalFrom (stepMask prefixLength tokens : Mask R) prefixLength tokens := by
  intro b i hi
  constructor
  · intro j hj
    rw [stepMask]
    dsimp only
    rw [if_pos (show j ≤ prefixLength + i by omega), ite_self]
  · intro j hj hlt
    rw [stepMask]
    dsimp only
    rw [if_neg (by omega), if_neg (by omega)]

end New

variable [Field R] [LinearOrder R] {E : Elementary R} {w : LlamaBlock R}
  {hidden : List (Frame R)} {prefixLength : ℕ} {blocks : ℕ → LlamaBlock R}

/-- What decoding attends to is the prefix and the new keys and values. -/
theorem mhaGenLlama_eq {w : AttentionWeights R} {nHead : ℕ} (hfits : w.Fits nHead)
    {k v : List (Frame R)} (hlen : v.length = k.length)
    (hroom : Room k prefixLength hidden.length)
    (hrows : prefixLength + hidden.length ≤ maxRotaryPositions) :
    ∃ a, mhaGenLlama E w nHead none (stepMask prefixLength hidden.length) k v hidden = some a ∧
      a.kNew = newKeys E w nHead none prefixLength hidden ∧
      a.vNew = newValues E w nHead hidden ∧
      a.value = attend E w nHead none prefixLength (stepMask prefixLength hidden.length) hidden
        (k.take prefixLength ++ a.kNew) (v.take prefixLength ++ a.vNew) := by
  have hk : (withNew k.length k (newKeys E w nHead none prefixLength hidden)
      (prefixLength + hidden.length)).2 =
      k.take prefixLength ++ newKeys E w nHead none prefixLength hidden := by
    have hnew := withNew_snd k (newKeys E w nHead none prefixLength hidden)
      (by rw [length_newKeys]; exact hroom)
    rwa [length_newKeys] at hnew
  have hv : (withNew k.length v (newValues E w nHead hidden) (prefixLength + hidden.length)).2 =
      v.take prefixLength ++ newValues E w nHead hidden := by
    have hnew := withNew_snd v (newValues E w nHead hidden)
      (by rw [length_newValues, Room, hlen]; exact hroom)
    rwa [length_newValues, hlen] at hnew
  have htake : ∀ t : List (Frame R), t.length = k.length →
      (t.take prefixLength).length = prefixLength := by
    intro t ht
    rw [List.length_take, ht]
    rcases hroom with h | h <;> omega
  rw [mhaGenLlama]
  simp only [stepMask, Nat.add_sub_cancel, hk, hv]
  rw [if_pos]
  · exact ⟨_, rfl, rfl, rfl, rfl⟩
  · refine ⟨hfits, .inr hrows, trivial, Nat.le_add_left _ _, fun h => hlen ▸ h, ?_, ?_⟩
    · rw [List.length_append, htake k rfl, length_newKeys]
    · rw [List.length_append, htake v hlen, length_newValues]

def pastRow (w : LlamaBlock R) (b prefixLength : ℕ)
    (past : Option (List (Frame R) × List (Frame R))) : List (KeyValue R) :=
  match past with
  | none => []
  | some (k, v) => (kvRow w.numAttentionHeads b k v).take prefixLength

/-- What a step can be given: at position 0 anything, and else cached keys and values. -/
def Usable (prefixLength tokens : ℕ) (past : Option (List (Frame R) × List (Frame R))) : Prop :=
  prefixLength = 0 ∨ ∃ k v, past = some (k, v) ∧ v.length = k.length ∧ Room k prefixLength tokens

theorem mhaLlama_eq {w : AttentionWeights R} {nHead : ℕ} (hfits : w.Fits nHead)
    (hrows : hidden.length ≤ maxRotaryPositions) :
    mhaLlama E w nHead none (stepMask 0 hidden.length) hidden =
      some ⟨attend E w nHead none 0 (stepMask 0 hidden.length) hidden
        (newKeys E w nHead none 0 hidden) (newValues E w nHead hidden),
        newKeys E w nHead none 0 hidden, newValues E w nHead hidden⟩ := by
  rw [mhaLlama, if_pos ⟨hfits, .inr hrows, rfl, Nat.zero_add _⟩]

/-- What a step of a block gives back: new keys and values, and what the MLP makes of what the
tokens attend to. -/
theorem forward_eq (hfits : w.attn.Fits w.numAttentionHeads)
    {past : Option (List (Frame R) × List (Frame R))}
    (husable : Usable prefixLength hidden.length past)
    (hrows : prefixLength + hidden.length ≤ maxRotaryPositions) :
    ∃ k v, v.length = k.length ∧ k.length = prefixLength ∧
      (∀ b, pastRow w b prefixLength past = kvRow w.numAttentionHeads b k v) ∧
      w.forward E none (stepMask prefixLength hidden.length) prefixLength past hidden =
        some ⟨(attend E w.attn w.numAttentionHeads none prefixLength
            (stepMask prefixLength hidden.length) hidden
            (k ++ newKeys E w.attn w.numAttentionHeads none prefixLength hidden)
            (v ++ newValues E w.attn w.numAttentionHeads hidden)).map
              fun x b => mlpLlama E w.mlp (x b),
          newKeys E w.attn w.numAttentionHeads none prefixLength hidden,
          newValues E w.attn w.numAttentionHeads hidden⟩ := by
  by_cases hzero : prefixLength = 0
  · subst hzero
    refine ⟨[], [], rfl, rfl, fun b => ?_, ?_⟩
    · rcases past with - | ⟨k, v⟩ <;> rfl
    · have hprefill := mhaLlama_eq (E := E) hfits (Nat.zero_add _ ▸ hrows)
      simp only [LlamaBlock.forward, if_pos, hprefill, Option.map_some, List.nil_append]
  · obtain hz | ⟨k, v, rfl, hlen, hroom⟩ := husable
    · exact absurd hz hzero
    obtain ⟨a, ha, hk, hv, hvalue⟩ := mhaGenLlama_eq (E := E) hfits hlen hroom hrows
    have hle : prefixLength ≤ k.length := by
      rcases hroom with h | h <;> omega
    refine ⟨k.take prefixLength, v.take prefixLength, ?_, ?_, fun b => take_kvRow _, ?_⟩
    · rw [List.length_take, List.length_take, hlen]
    · rw [List.length_take, Nat.min_eq_left hle]
    · simp only [LlamaBlock.forward, if_neg hzero, ha, Option.map_some, hvalue, hk, hv]

/-- The cache of a block holds the keys and values of its inputs, on every batch row. -/
structure BlockCache.Holds (E : Elementary R) (w : LlamaBlock R) (inputs : ℕ → List (ℕ → R))
    (cache : BlockCache R) : Prop where
  length : cache.v.length = cache.k.length
  rows : ∀ b, kvRow w.numAttentionHeads b cache.k cache.v = (w.layer E).keyValues 0 (inputs b)

/-- The inputs of block `b` when the chain is given `toks`. -/
def blockInputs (E : Elementary R) (blocks : ℕ → LlamaBlock R) (b : ℕ) (toks : List (ℕ → R)) :
    List (ℕ → R) :=
  InferenceSession.hidden (fun b => ((blocks b).layer E).causal) b toks

/-- The caches of the blocks from number `b` on hold what these were given for `toks`. -/
def ChainHolds (E : Elementary R) (blocks : ℕ → LlamaBlock R) (toks : ℕ → List (ℕ → R)) :
    ℕ → List (BlockCache R) → Prop
  | _, [] => True
  | b, cache :: caches =>
    cache.Holds E (blocks b) (fun row => blockInputs E blocks b (toks row)) ∧
      ChainHolds E blocks toks (b + 1) caches

/-- A session can be given these requests after `old`: each has a token and is a single chunk to
the `n` blocks, none starts behind the tokens seen or goes on behind the rows of `freq_cis`, and the
scores in the blocks stay near. -/
def Admitted (E : Elementary R) (blocks : ℕ → LlamaBlock R) (chunks : ℕ → ChunkConfig)
    (batchSize n : ℕ) : (ℕ → List (ℕ → R)) → List (Request R) → Prop
  | _, [] => True
  | old, r :: rs =>
    let toks row := (old row).take r.startFromPosition ++ rowOf row r.hidden
    r.hidden ≠ [] ∧
      (∀ b < n, OneChunk (chunks b) batchSize r.hidden.length r.startFromPosition) ∧
      (∀ row, r.startFromPosition ≤ (old row).length) ∧
      r.startFromPosition + r.hidden.length ≤ maxRotaryPositions ∧
      (∀ b < n, ∀ row, (blocks b).RowNear E [] (blockInputs E blocks b (toks row))) ∧
      Admitted E blocks chunks batchSize n toks rs

/-- The answers to the requests after `old` if `n` blocks run over the whole sequence each time. -/
def wholeAnswers (E : Elementary R) (blocks : ℕ → LlamaBlock R) (n row : ℕ) :
    List (ℕ → R) → List (Request R) → List (List (ℕ → R))
  | _, [] => []
  | old, r :: rs =>
    let toks := old.take r.startFromPosition ++ rowOf row r.hidden
    (blockInputs E blocks n toks).drop r.startFromPosition :: wholeAnswers E blocks n row toks rs

theorem chainHolds_nil (b n : ℕ) :
    ChainHolds E blocks (fun _ => []) b (List.replicate n ⟨[], []⟩) := by
  induction n generalizing b with
  | zero => trivial
  | succ n ih =>
    refine ⟨⟨rfl, fun row => ?_⟩, ih (b + 1)⟩
    have hnone : blockInputs E blocks b [] = [] :=
      List.eq_nil_of_length_eq_zero (InferenceSession.length_hidden _ b [])
    rw [hnone]
    rfl

@[simp] theorem length_blockInputs (b : ℕ) (toks : List (ℕ → R)) :
    (blockInputs E blocks b toks).length = toks.length :=
  InferenceSession.length_hidden _ b toks

theorem blockInputs_succ (b : ℕ) (toks : List (ℕ → R)) : blockInputs E blocks (b + 1) toks =
    ((blocks b).layer E).causal.run (blockInputs E blocks b toks) := rfl

/-- What comes before a step stays what every block was given. -/
theorem blockInputs_append (b : ℕ) (old new : List (ℕ → R)) {start : ℕ} (h : start ≤ old.length) :
    (blockInputs E blocks b old).take start ++
        (blockInputs E blocks b (old.take start ++ new)).drop start =
      blockInputs E blocks b (old.take start ++ new) := by
  have hlength : (old.take start).length = start := by rw [List.length_take, Nat.min_eq_left h]
  have hold : (blockInputs E blocks b old).take start = blockInputs E blocks b (old.take start) :=
    (InferenceSession.stage _ b).take_run old start
  have hnew := (InferenceSession.stage (fun b => ((blocks b).layer E).causal) b).run_append
    (old.take start) new
  rw [hlength] at hnew
  rw [hold]
  exact hnew.symm

variable [IsStrictOrderedRing R]

theorem attended_row (hexp : ∀ x ≤ (-104 : R), E.exp x = 0)
    (hfits : w.attn.Fits w.numAttentionHeads) {k v : List (Frame R)} (hlen : v.length = k.length)
    (hk : k.length = prefixLength) {b : ℕ}
    (hnear : w.RowNear E (kvRow w.numAttentionHeads b k v) (rowOf b hidden)) :
    (rowOf b (attend E w.attn w.numAttentionHeads none prefixLength
      (stepMask prefixLength hidden.length) hidden
      (k ++ newKeys E w.attn w.numAttentionHeads none prefixLength hidden)
      (v ++ newValues E w.attn w.numAttentionHeads hidden))).map (mlpLlama E w.mlp) =
      (w.layer E).outputs (kvRow w.numAttentionHeads b k v) (rowOf b hidden) := by
  have hpast : (kvRow w.numAttentionHeads b k v).length = prefixLength := by
    rw [length_kvRow hlen.symm, hk]
  have hall : kvRow w.numAttentionHeads b
      (k ++ newKeys E w.attn w.numAttentionHeads none prefixLength hidden)
      (v ++ newValues E w.attn w.numAttentionHeads hidden) =
      kvRow w.numAttentionHeads b k v ++
        (w.layer E).keyValues prefixLength (rowOf b hidden) := by
    rw [kvRow_append hlen.symm, kvRow_new]
  rw [attend_row hexp hfits (by rw [List.length_append, hk, length_newKeys])
    (by rw [List.length_append, hlen, hk, length_newValues]) (stepMask_causal _ _)]
  · rw [CausalLayer.outputs, hall, hpast]
    refine List.ext_getElem? fun i => ?_
    rw [List.getElem?_map, List.getElem?_mapIdx, List.getElem?_mapIdx, Option.map_map]
    have htake : ∀ new, (kvRow w.numAttentionHeads b k v ++ new).take (prefixLength + (i + 1)) =
        kvRow w.numAttentionHeads b k v ++ new.take (i + 1) := by
      intro new
      rw [List.take_append, hpast, List.take_of_length_le (by omega), Nat.add_sub_cancel_left]
    rw [htake]
    rfl
  · intro i x hx
    have hscores := hnear i x hx
    rw [hpast] at hscores
    rw [hall]
    exact hscores

/-- A step of a block, in one piece or over a cache that ends at the prefix or has room behind it,
does on every batch row what causal attention does. -/
theorem forward_rows (hidden : List (Frame R)) (hexp : ∀ x ≤ (-104 : R), E.exp x = 0)
    (hfits : w.attn.Fits w.numAttentionHeads)
    {past : Option (List (Frame R) × List (Frame R))}
    (husable : Usable prefixLength hidden.length past)
    (hrows : prefixLength + hidden.length ≤ maxRotaryPositions) :
    ∃ a, w.forward E none (stepMask prefixLength hidden.length) prefixLength past hidden = some a ∧
      a.kNew = newKeys E w.attn w.numAttentionHeads none prefixLength hidden ∧
      a.vNew = newValues E w.attn w.numAttentionHeads hidden ∧
      a.value.length = hidden.length ∧
      ∀ b, w.RowNear E (pastRow w b prefixLength past) (rowOf b hidden) →
        rowOf b a.value = (w.layer E).outputs (pastRow w b prefixLength past) (rowOf b hidden) := by
  obtain ⟨k, v, hlen, hk, hpast, hforward⟩ := forward_eq (E := E) hfits husable hrows
  refine ⟨_, hforward, rfl, rfl, ?_, fun b hnear => ?_⟩
  · rw [List.length_map, attend, List.length_mapIdx]
  · rw [hpast b] at hnear ⊢
    rw [← attended_row hexp hfits hlen hk hnear, rowOf, rowOf, List.map_map, List.map_map]
    rfl

/-- One prefill of a sequence gives what a prefill of its beginning and decoding of the rest give,
also if the cache goes on behind the prefix. -/
theorem prefill_eq_decode (old new : List (Frame R)) (hexp : ∀ x ≤ (-104 : R), E.exp x = 0)
    (hfits : w.attn.Fits w.numAttentionHeads) {kRest vRest : List (Frame R)}
    (hrows : old.length + new.length ≤ maxRotaryPositions)
    (hnear : ∀ b, w.RowNear E [] (rowOf b (old ++ new))) (hlen : vRest.length = kRest.length)
    (hroom : kRest = [] ∨ new.length ≤ kRest.length) :
    ∃ whole first rest,
      w.forward E none (stepMask 0 (old ++ new).length) 0 none (old ++ new) = some whole ∧
      w.forward E none (stepMask 0 old.length) 0 none old = some first ∧
      w.forward E none (stepMask old.length new.length) old.length
        (some (first.kNew ++ kRest, first.vNew ++ vRest)) new = some rest ∧
      whole.value = first.value ++ rest.value ∧ whole.kNew = first.kNew ++ rest.kNew ∧
      whole.vNew = first.vNew ++ rest.vNew := by
  have hnone : ∀ n, Usable 0 n (none : Option (List (Frame R) × List (Frame R))) :=
    fun n => .inl rfl
  obtain ⟨whole, hwhole, hwk, hwv, -, hwrow⟩ := forward_rows (old ++ new) hexp hfits (hnone _)
    (by rw [List.length_append]; omega)
  obtain ⟨first, hfirst, hfk, hfv, -, hfrow⟩ := forward_rows old hexp hfits (hnone _) (by omega)
  have hklen : first.kNew.length = old.length := by rw [hfk, length_newKeys]
  have hvlen : first.vNew.length = old.length := by rw [hfv, length_newValues]
  have husable : Usable old.length new.length
      (some (first.kNew ++ kRest, first.vNew ++ vRest)) := by
    refine .inr ⟨_, _, rfl, by rw [List.length_append, List.length_append, hklen, hvlen, hlen], ?_⟩
    rw [Room, List.length_append, hklen]
    rcases hroom with rfl | h
    · exact .inl rfl
    · exact .inr (by omega)
  obtain ⟨rest, hrest, hrk, hrv, -, hrrow⟩ := forward_rows (E := E) (w := w) new hexp
    hfits husable hrows
  refine ⟨whole, first, rest, hwhole, hfirst, hrest, ?_, ?_, ?_⟩
  · refine ext_rowOf fun b => ?_
    have hsplit := hnear b
    rw [rowOf, List.map_append] at hsplit
    obtain ⟨hnearOld, hnearNew⟩ := hsplit.split
    have hpast : pastRow w b old.length (some (first.kNew ++ kRest, first.vNew ++ vRest)) =
        (w.layer E).keyValues 0 (rowOf b old) := by
      rw [pastRow, take_kvRow, List.take_left' hklen, List.take_left' hvlen, hfk, hfv, kvRow_new]
    have hrest := hrrow b
    rw [hpast] at hrest
    have hmap : ∀ s t : List (Frame R), rowOf b (s ++ t) = rowOf b s ++ rowOf b t :=
      fun _ _ => List.map_append
    rw [hmap, hwrow b (hnear b), hfrow b hnearOld, hrest hnearNew, hmap]
    exact (w.layer E).outputs_append [] _ _
  · rw [hwk, hfk, hrk]
    rw [newKeys_append, Nat.zero_add]
  · rw [hwv, hfv, hrv]
    exact List.map_append

def sampleBlock : LlamaBlock ℚ where
  attn :=
    { hiddenSize := 2
      qkvHiddenSize := 2
      kvHiddenSize := 2
      wQ := fun _ _ => 0
      wK := fun o j => if o = j then 1 else 0
      wV := fun o j => if o = j then 1 else 0
      wOut := fun o j => if o = j then 1 else 0
      inputLayernorm := fun _ => 1
      invFreqSize := 1
      rotaryEmbInvFreq := fun _ => 0 }
  mlp :=
    { hiddenSize := 2
      intermediateSize := 1
      gate := fun _ _ => 0
      down := fun _ _ => 0
      up := fun _ _ => 0
      postAttentionLayernorm := fun _ => 1 }
  numAttentionHeads := 1

theorem sampleBlock_fits : sampleBlock.attn.Fits sampleBlock.numAttentionHeads := by
  decide

theorem sampleBlock_near (past : List (KeyValue ℚ)) (xs : List (ℕ → ℚ)) :
    sampleBlock.RowNear sampleElementary past xs := by
  intro i x _ head _ kv _ kv' _
  have hscore : ∀ kv, sampleBlock.score sampleElementary (past.length + i) x head kv = 0 := by
    intro kv
    simp [LlamaBlock.score, AttentionWeights.queryHead, AttentionWeights.rotate, applyRotaryEmb,
      AttentionWeights.project, linear, sampleBlock]
  rw [hscore, hscore]
  norm_num [maskedScore]

/-- Two tokens, and a third that is decoded in a cache with room for it. -/
theorem prefill_eq_decode_oneHead :
    ∃ whole first rest,
      sampleBlock.forward sampleElementary none (stepMask 0 3) 0 none
        [sampleFrame 1, sampleFrame 2, sampleFrame 3] = some whole ∧
      sampleBlock.forward sampleElementary none (stepMask 0 2) 0 none
        [sampleFrame 1, sampleFrame 2] = some first ∧
      sampleBlock.forward sampleElementary none (stepMask 2 1) 2
        (some (first.kNew ++ [sampleFrame 0], first.vNew ++ [sampleFrame 0])) [sampleFrame 3] =
          some rest ∧
      whole.value = first.value ++ rest.value ∧ whole.kNew = first.kNew ++ rest.kNew ∧
      whole.vNew = first.vNew ++ rest.vNew :=
  prefill_eq_decode [sampleFrame 1, sampleFrame 2] [sampleFrame 3]
    (fun x hx => if_pos hx) sampleBlock_fits (by decide) (fun b => sampleBlock_near _ _) rfl
    (.inr (by decide))

/-- A step of a block over its cache: the cache then holds the inputs up to the step and the new
ones, and the answer is the end of what the block makes of these. -/
theorem BlockCache.Holds.forward (hexp : ∀ x ≤ (-104 : R), E.exp x = 0)
    (hfits : w.attn.Fits w.numAttentionHeads) {inputs : ℕ → List (ℕ → R)} {cache : BlockCache R}
    (h : cache.Holds E w inputs) (hstart : ∀ b, prefixLength ≤ (inputs b).length)
    (hrows : prefixLength + hidden.length ≤ maxRotaryPositions)
    (hnear : ∀ b, w.RowNear E [] ((inputs b).take prefixLength ++ rowOf b hidden)) :
    ∃ a, w.forward E none (stepMask prefixLength hidden.length) prefixLength
        (cache.select prefixLength) hidden = some a ∧
      (cache.update prefixLength a.kNew a.vNew).Holds E w
        (fun b => (inputs b).take prefixLength ++ rowOf b hidden) ∧
      a.value.length = hidden.length ∧
      ∀ b, rowOf b a.value =
        ((w.layer E).causal.run ((inputs b).take prefixLength ++ rowOf b hidden)).drop
          prefixLength := by
  have hlength : ∀ b, cache.k.length = (inputs b).length := by
    intro b
    rw [← length_kvRow h.length.symm, h.rows b, CausalLayer.length_keyValues]
  have htake : ∀ b, ((inputs b).take prefixLength).length = prefixLength := by
    intro b
    rw [List.length_take, Nat.min_eq_left (hstart b)]
  have hk : (cache.k.take prefixLength).length = prefixLength := by
    rw [List.length_take, Nat.min_eq_left (by rw [hlength 0]; exact hstart 0)]
  have hv : (cache.v.take prefixLength).length = prefixLength := by
    rw [List.length_take, h.length, ← List.length_take, hk]
  have hpastRow : ∀ b, kvRow w.numAttentionHeads b (cache.k.take prefixLength)
      (cache.v.take prefixLength) = (w.layer E).keyValues 0 ((inputs b).take prefixLength) := by
    intro b
    rw [← take_kvRow, h.rows b, CausalLayer.take_keyValues]
  have husable : Usable prefixLength hidden.length (cache.select prefixLength) := by
    by_cases hzero : prefixLength = 0
    · exact .inl hzero
    · exact .inr ⟨_, _, if_neg hzero, hv.trans hk.symm, .inl hk⟩
  have hpast : ∀ b, pastRow w b prefixLength (cache.select prefixLength) =
      (w.layer E).keyValues 0 ((inputs b).take prefixLength) := by
    intro b
    by_cases hzero : prefixLength = 0
    · subst hzero
      rfl
    · rw [BlockCache.select, if_neg hzero, pastRow, take_kvRow, List.take_take, List.take_take,
        Nat.min_self, hpastRow]
  obtain ⟨a, ha, hkNew, hvNew, hvalue, hrow⟩ := forward_rows (w := w) hidden hexp hfits husable hrows
  refine ⟨a, ha, ⟨?_, fun b => ?_⟩, hvalue, fun b => ?_⟩
  · rw [BlockCache.update, hkNew, hvNew, List.length_append, List.length_append, hk, hv,
      length_newKeys, length_newValues]
  · rw [BlockCache.update, hkNew, hvNew, kvRow_append (hk.trans hv.symm), hpastRow, kvRow_new,
      CausalLayer.keyValues_append, htake, Nat.zero_add]
  · have hnew := hrow b
    rw [hpast b] at hnew
    rw [hnew (hnear b).split.2, CausalLayer.outputs_keyValues, htake]

omit [IsStrictOrderedRing R] in
/-- A step of one chunk is the forward pass and the update of the cache. -/
theorem inferenceStep_single {config : ChunkConfig} {batchSize : ℕ} {cache : BlockCache R}
    (hone : OneChunk config batchSize hidden.length prefixLength) (hne : hidden ≠ []) :
    w.inferenceStep E config batchSize prefixLength cache hidden =
      (w.forward E none (stepMask prefixLength hidden.length) prefixLength
        (cache.select prefixLength) hidden).map
          fun a => (cache.update prefixLength a.kNew a.vNew, a.value) := by
  obtain ⟨m, hm, hle⟩ := hone
  unfold LlamaBlock.inferenceStep
  simp only [Option.mem_def.mp hm]
  rw [runChunks_single (List.length_pos_iff.mpr hne) hle, List.drop_zero,
    List.take_of_length_le hle, Option.map_map]
  rfl

section Session

variable {chunks : ℕ → ChunkConfig} {batchSize : ℕ}

/-- A step of a chain of blocks, given the hidden states from `start` on. -/
theorem serveFrames_hidden (new : ℕ → List (ℕ → R)) (hexp : ∀ x ≤ (-104 : R), E.exp x = 0)
    (hfits : ∀ b, (blocks b).attn.Fits (blocks b).numAttentionHeads) {start : ℕ}
    {old : ℕ → List (ℕ → R)} (hstart : ∀ row, start ≤ (old row).length)
    {toks : ℕ → List (ℕ → R)} (htoks : ∀ row, toks row = (old row).take start ++ new row) :
    ∀ (caches : List (BlockCache R)) (b : ℕ) (hidden : List (Frame R)), hidden ≠ [] →
      (∀ i, b ≤ i → i < b + caches.length →
        OneChunk (chunks i) batchSize hidden.length start) →
      start + hidden.length ≤ maxRotaryPositions →
      (∀ row, rowOf row hidden = (blockInputs E blocks b (toks row)).drop start) →
      ChainHolds E blocks old b caches →
      (∀ i, b ≤ i → i < b + caches.length → ∀ row,
        (blocks i).RowNear E [] (blockInputs E blocks i (toks row))) →
      ∃ caches' out,
        serveFrames E blocks chunks batchSize start b caches hidden = some (caches', out) ∧
        caches'.length = caches.length ∧ ChainHolds E blocks toks b caches' ∧
        ∀ row, rowOf row out = (blockInputs E blocks (b + caches.length) (toks row)).drop start := by
  intro caches
  induction caches with
  | nil =>
    intro b hidden _ _ _ hhidden _ _
    exact ⟨[], hidden, rfl, rfl, trivial, hhidden⟩
  | cons cache caches ih =>
    intro b hidden hne hone hrows hhidden hholds hnear
    obtain ⟨hcache, hcaches⟩ := hholds
    have hinputs : ∀ row, (blockInputs E blocks b (old row)).take start ++ rowOf row hidden =
        blockInputs E blocks b (toks row) := by
      intro row
      rw [hhidden, htoks, blockInputs_append _ _ _ (hstart row)]
    obtain ⟨a, ha, hcache', hlength, hvalue⟩ := hcache.forward hexp (hfits b)
      (fun row => by rw [length_blockInputs]; exact hstart row) hrows
      (fun row => by
        rw [hinputs]
        exact hnear b (Nat.le_refl b) (by rw [List.length_cons]; omega) row)
    simp only [hinputs, ← blockInputs_succ] at hcache' hvalue
    have hvalueNe : a.value ≠ [] := by
      rw [← List.length_pos_iff, hlength]
      exact List.length_pos_iff.mpr hne
    obtain ⟨caches', out, hserve, hlen, hchain, hout⟩ := ih (b + 1) a.value hvalueNe
      (fun i hi hlt => hlength ▸ hone i (by omega) (by rw [List.length_cons]; omega))
      (by omega) hvalue hcaches
      fun i hi hlt => hnear i (by omega) (by rw [List.length_cons]; omega)
    refine ⟨_ :: caches', out, ?_, ?_, ⟨hcache', hchain⟩, fun row => ?_⟩
    · rw [serveFrames, inferenceStep_single
        (hone b (Nat.le_refl b) (by rw [List.length_cons]; omega)) hne, ha]
      dsimp only [Option.map_some]
      rw [hserve]
    · rw [List.length_cons, List.length_cons, hlen]
    · rw [hout, List.length_cons, Nat.add_assoc, Nat.add_comm 1]

theorem serveRequests_hidden (hexp : ∀ x ≤ (-104 : R), E.exp x = 0)
    (hfits : ∀ b, (blocks b).attn.Fits (blocks b).numAttentionHeads) {n : ℕ}
    (rs : List (Request R)) : ∀ {old : ℕ → List (ℕ → R)} {caches : List (BlockCache R)},
      caches.length = n → ChainHolds E blocks old 0 caches →
      Admitted E blocks chunks batchSize n old rs →
      ∃ answers, serveRequests E blocks chunks batchSize 0 caches rs = some answers ∧
        ∀ row, answers.map (rowOf row) = wholeAnswers E blocks n row (old row) rs := by
  induction rs with
  | nil => exact fun _ _ _ => ⟨[], rfl, fun _ => rfl⟩
  | cons r rs ih =>
    intro old caches hlen hholds hadmitted
    obtain ⟨hne, hone, hstart, hrows, hnear, hrest⟩ := hadmitted
    obtain ⟨caches', out, hserve, hlen', hholds', hout⟩ := serveFrames_hidden
      (fun row => rowOf row r.hidden) hexp hfits hstart (fun _ => rfl) caches 0 r.hidden hne
      (fun i _ hi => hone i (by omega)) hrows
      (fun row => (List.drop_left' (by rw [List.length_take, Nat.min_eq_left (hstart row)])).symm)
      hholds (fun i _ hi => hnear i (by omega))
    obtain ⟨answers, hanswers, hrow⟩ := ih (hlen'.trans hlen) hholds' hrest
    refine ⟨out :: answers, ?_, fun row => ?_⟩
    · rw [serveRequests, if_neg hne, hserve]
      dsimp only
      rw [hanswers]
      rfl
    · rw [List.map_cons, hrow, hout, hlen, Nat.zero_add]
      rfl

end Session

end BloomBee.FlexgenAttention
