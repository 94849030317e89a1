import BloomBee.Lib.Causal
import BloomBee.Proofs.KVSlab
import BloomBee.Spec.WrappedBlocks
import Mathlib.Tactic.NormNum

/-! Wrapped blocks over the slab: however the steps of the rows of a batch follow each other, a block
answers each as its layer does on the whole sequence with all that came before. On whole sequences a
sliding layer sees its window only, so that the answers differ where a sequence outgrows it. -/

set_option autoImplicit false

namespace BloomBee.WrappedBlocks

open FlexgenAttention (stepMask maskedScore)
open BackendStep (ChunkConfig OneChunk estimateMaxChunkLength runChunks_single)
open KVSlab (Cache Cell Pkv SameShape Staging firstRow newCell offloadWritten selectCache tensors
  writeAndOffload writeKvs)
open PagedKV (BlockConfig NewKvs)

variable {τ α : Type}

/-! ### Masks -/

theorem filter_zipIdx {κ : Type} (lo hi : ℕ) (xs : List κ) (n : ℕ) :
    ((xs.zipIdx n).filter fun kv => decide (lo ≤ kv.2 ∧ kv.2 < hi)).map Prod.fst =
      (xs.take (hi - n)).drop (lo - n) := by
  induction xs generalizing n with
  | nil => simp
  | cons x xs ih =>
    rw [List.zipIdx_cons, List.filter_cons]
    by_cases hhi : n < hi
    · rw [show hi - n = hi - (n + 1) + 1 by omega, List.take_succ_cons]
      by_cases hlo : lo ≤ n
      · rw [if_pos (by simp [hlo, hhi]), List.map_cons, ih, show lo - (n + 1) = 0 by omega,
          show lo - n = 0 by omega, List.drop_zero, List.drop_zero]
      · rw [if_neg (by simp [hlo]), ih, show lo - n = lo - (n + 1) + 1 by omega, List.drop_succ_cons]
    · rw [if_neg (by simp [hhi]), ih, show hi - n = 0 by omega, show hi - (n + 1) = 0 by omega,
        List.take_zero, List.take_zero, List.drop_nil, List.drop_nil]

/-- The end of what a token sees, as long as its window. -/
def inWindow {κ : Type} (window : Option ℕ) (kvs : List κ) : List κ :=
  window.elim kvs fun n => kvs.drop (kvs.length - n)

theorem inWindow_of_le {κ : Type} {window : Option ℕ} {kvs : List κ}
    (h : ∀ n ∈ window, kvs.length ≤ n) : inWindow window kvs = kvs := by
  rcases window with - | n
  · rfl
  · have hle := h n rfl
    rw [inWindow, Option.elim_some, Nat.sub_eq_zero_of_le hle, List.drop_zero]

/-- Each of the new queries sees the keys up to its own that are in the window. -/
structure Sees (mask : AttentionMask) (window : Option ℕ) (past tokens : ℕ) : Prop where
  tgt : mask.tgt = tokens
  src : mask.src = past + tokens
  keeps : ∀ b i k, i < tokens → k < past + tokens →
    (mask.keeps b i k = true ↔ k ≤ past + i ∧ ∀ n ∈ window, past + i < k + n)

theorem attended_eq {κ : Type} {mask : AttentionMask} {window : Option ℕ} {past tokens : ℕ}
    (h : Sees mask window past tokens) (b : ℕ) {i : ℕ} (hi : i < tokens) {kvs : List κ}
    (hlen : kvs.length = past + tokens) :
    attended mask b i kvs = inWindow window (kvs.take (past + i + 1)) := by
  have hfilter : (kvs.zipIdx.filter fun kv => mask.keeps b i kv.2) = kvs.zipIdx.filter fun kv =>
      decide ((window.elim 0 fun n => past + i + 1 - n) ≤ kv.2 ∧ kv.2 < past + i + 1) := by
    refine List.filter_congr fun kv hkv => ?_
    have hlt : kv.2 < past + tokens := by
      have := List.snd_lt_of_mem_zipIdx hkv
      omega
    rw [Bool.eq_iff_iff, h.keeps b i kv.2 hi hlt, decide_eq_true_iff]
    rcases window with - | n
    · simp only [Option.not_mem_none, false_implies, implies_true, and_true, Option.elim_none]
      omega
    · simp only [Option.mem_def, Option.some.injEq, forall_eq', Option.elim_some]
      omega
  rw [attended, hfilter, filter_zipIdx]
  rcases window with - | n
  · rfl
  · rw [inWindow, Option.elim_some, Option.elim_some, List.length_take, hlen, Nat.sub_zero,
      Nat.sub_zero, Nat.min_eq_left (by omega)]

theorem sees_stepMask (past tokens : ℕ) : Sees (.ofScores (stepMask past tokens)) none past tokens := by
  refine ⟨rfl, rfl, fun b i k hi hk => ?_⟩
  have hmasked : (maskedScore : ℚ) ≠ 0 := by
    rw [maskedScore]
    norm_num
  have hkeeps : (AttentionMask.ofScores (stepMask past tokens)).keeps b i k = true ↔
      (if tokens = 1 then (0 : ℚ) else if k ≤ past + i then 0 else maskedScore) = 0 :=
    decide_eq_true_iff
  rw [hkeeps]
  split_ifs with hone hle
  · have hle : k ≤ past + i := by omega
    simp [hle]
  · simp [hle]
  · simp [hmasked, hle]

def Wrapper.window : Wrapper → Option ℕ
  | .gemma4 .slidingAttention (some (n + 1)) => some (n + 1)
  | _ => none

theorem sees_causalMask (past tokens : ℕ) : Sees (causalMask tokens past) none past tokens := by
  refine ⟨rfl, rfl, fun b i k _ _ => ?_⟩
  simp only [causalMask, Bool.not_eq_true', decide_eq_false_iff_not, Option.not_mem_none,
    false_implies, implies_true, and_true]
  omega

theorem sees_buildLayerTypeMask {layerType : LayerType} {slidingWindow : Option ℕ}
    (past tokens : ℕ) (h : ¬(layerType = .slidingAttention ∧ 0 < slidingWindow.getD 0)) :
    Sees (buildLayerTypeMask layerType slidingWindow tokens past) none past tokens := by
  refine ⟨rfl, rfl, fun b i k _ _ => ?_⟩
  simp only [buildLayerTypeMask, if_neg h, Bool.not_eq_true', decide_eq_false_iff_not,
    Option.not_mem_none, false_implies, implies_true, and_true]
  omega

theorem sees_sliding (past tokens n : ℕ) :
    Sees (buildLayerTypeMask .slidingAttention (some (n + 1)) tokens past) (some (n + 1)) past
      tokens := by
  refine ⟨rfl, rfl, fun b i k _ _ => ?_⟩
  simp only [buildLayerTypeMask, Option.getD_some, true_and, if_pos (Nat.succ_pos n),
    Bool.not_eq_true', Bool.or_eq_false_iff, decide_eq_false_iff_not, Option.mem_def,
    Option.some.injEq, forall_eq']
  omega

/-- The mask that a block builds has the window of its layer. -/
theorem sees_buildMask (wrapper : Wrapper) (past tokens : ℕ) :
    Sees (wrapper.buildMask tokens past) wrapper.window past tokens := by
  cases wrapper with
  | qwen3 => exact sees_causalMask past tokens
  | qwen3Moe => exact sees_causalMask past tokens
  | miniMaxM2 => exact sees_causalMask past tokens
  | gemma4 layerType slidingWindow =>
    cases layerType with
    | fullAttention => exact sees_buildLayerTypeMask past tokens (by simp)
    | slidingAttention =>
      rcases slidingWindow with - | - | n
      · exact sees_buildLayerTypeMask past tokens (by simp)
      · exact sees_buildLayerTypeMask past tokens (by simp)
      · exact sees_sliding past tokens n

/-! ### Layers -/

section Hidden

variable {x : Hidden τ}

@[simp] theorem length_row (b : ℕ) : (x.row b).length = x.seqLength := by
  rw [Hidden.row, List.length_map, List.length_range]

theorem getElem?_row (b : ℕ) {i : ℕ} (hi : i < x.seqLength) : (x.row b)[i]? = some (x.token b i) := by
  rw [Hidden.row, List.getElem?_map, List.getElem?_range hi, Option.map_some]

theorem row_ofRow [Inhabited τ] (xs : List τ) : (Hidden.ofRow xs).row 0 = xs := by
  refine List.ext_getElem? fun i => ?_
  by_cases hi : i < xs.length
  · rw [getElem?_row 0 hi, List.getElem?_eq_getElem hi]
    simp [Hidden.ofRow, hi]
  · rw [List.getElem?_eq_none (by simpa [Hidden.ofRow] using hi),
      List.getElem?_eq_none (Nat.le_of_not_lt hi)]

theorem chunk_whole {n : ℕ} (h : x.seqLength ≤ n) : x.chunk 0 n = x := by
  unfold Hidden.chunk
  simp only [Nat.sub_zero, Nat.min_eq_right h, Nat.zero_add]

theorem length_reorderCacheFromBloom (nkv : ℕ) (layerPast : Option (Pkv (Cell α))) (b : ℕ) :
    (reorderCacheFromBloom nkv layerPast b).length = layerPast.elim 0 Pkv.len := by
  cases layerPast with
  | none => rfl
  | some pkv => simp [reorderCacheFromBloom]

end Hidden

/-- Cached keys and values of a batch, of `heads` heads a row. -/
def Cached (heads headDim batch past : ℕ) : Option (Pkv (Cell α)) → Prop
  | none => past = 0
  | some pkv => 0 < past ∧ pkv.len = past ∧ pkv.batch = batch ∧ pkv.heads = heads ∧ pkv.d = headDim

theorem Cached.len {heads headDim batch past : ℕ} {layerPast : Option (Pkv (Cell α))}
    (h : Cached heads headDim batch past layerPast) : layerPast.elim 0 Pkv.len = past := by
  cases layerPast with
  | none => exact h.symm
  | some pkv => exact h.2.1

structure Gives {nkv : ℕ} (layer : CausalLayer τ (Fin nkv → Cell α)) (headDim past : ℕ)
    (layerPast : Option (Pkv (Cell α))) (x out : Hidden τ) (new : NewKvs α) : Prop where
  batch : out.batch = x.batch
  row : ∀ b < x.batch,
    out.row b = layer.outputs (reorderCacheFromBloom nkv layerPast b) (x.row b)
  bh : new.bh = x.batch * nkv
  headDim : new.d = headDim
  sNew : new.sNew = x.seqLength
  cell : ∀ b < x.batch, ∀ h : Fin nkv, ∀ t < x.seqLength,
    newCell new nkv b h t = layer.keyValue (x.token b t) (past + t) h

/-- A block that runs as `layer` in a step over a slab of `heads` heads a row. -/
def Serves {nkv : ℕ} (forward : Forward τ α) (heads headDim : ℕ)
    (layer : CausalLayer τ (Fin nkv → Cell α)) (past : ℕ) (x : Hidden τ) : Prop :=
  ∀ layerPast : Option (Pkv (Cell α)), Cached heads headDim x.batch past layerPast →
    ∃ out new, forward (some (.ofScores (stepMask past x.seqLength))) layerPast
        (some fun _ i => past + i) x = some (out, new) ∧
      Gives layer headDim past layerPast x out new

section Layer

variable (w : WrappedBlock τ α) {x : Hidden τ}

/-- The layer with a cache of the keys and values of one batch row. -/
def WrappedBlock.rowLayer (window : Option ℕ) :
    CausalLayer τ (Fin w.layer.numKeyValueHeads → Cell α) where
  keyValue token position head := w.layer.keyValue token position head
  output kvs := w.layer.output (inWindow window kvs)

theorem keyValues_row {nkv : ℕ} (layer : CausalLayer τ (Fin nkv → Cell α)) (past b : ℕ) :
    layer.keyValues past (x.row b) =
      (List.range x.seqLength).map fun t => layer.keyValue (x.token b t) (past + t) := by
  refine List.ext_getElem? fun i => ?_
  rw [CausalLayer.keyValues, List.getElem?_mapIdx, List.getElem?_map]
  by_cases hi : i < x.seqLength
  · rw [getElem?_row b hi, List.getElem?_range hi]
    rfl
  · rw [List.getElem?_eq_none (by simpa using hi), List.getElem?_eq_none (by simpa using hi)]
    rfl

/-- Each token attends in the window to what is cached and to the new tokens up to it. -/
theorem outputs_row {nkv : ℕ} {layer : CausalLayer τ (Fin nkv → Cell α)}
    {kvs : List (Fin nkv → Cell α)} {past b : ℕ} (hlen : kvs.length = past) {y : Hidden τ}
    (hlength : y.seqLength = x.seqLength)
    (hy : ∀ i < x.seqLength, y.token b i = layer.output
      ((kvs ++ layer.keyValues past (x.row b)).take (past + i + 1)) (x.token b i) (past + i)) :
    y.row b = layer.outputs kvs (x.row b) := by
  refine List.ext_getElem? fun i => ?_
  rw [CausalLayer.outputs, List.getElem?_mapIdx, hlen]
  by_cases hi : i < x.seqLength
  · rw [getElem?_row b (hlength ▸ hi), getElem?_row b hi, Option.map_some, hy i hi, List.take_append,
      hlen, List.take_of_length_le (by omega), Nat.add_assoc, Nat.add_sub_cancel_left]
  · rw [List.getElem?_eq_none (by simpa [hlength] using hi),
      List.getElem?_eq_none (by simpa using hi)]
    rfl

/-- A step attends with the window of its mask, and gives the new keys and values of each head. -/
theorem forward_eq (attentionMask : Option AttentionMask) {layerPast : Option (Pkv (Cell α))}
    (positionIds : Option (ℕ → ℕ → ℕ)) {window : Option ℕ} {past heads : ℕ}
    (hcached : Cached heads w.layer.headDim x.batch past layerPast)
    (hheads : w.layer.numKeyValueHeads ≤ heads)
    (hmask : Sees (attentionMask.getD (w.wrapper.buildMask x.seqLength past)) window past x.seqLength)
    (hpositions : (positionIds.getD fun _ i => past + i) = fun _ i => past + i) :
    ∃ out new, w.forward attentionMask layerPast positionIds x = some (out, new) ∧
      Gives (w.rowLayer window) w.layer.headDim past layerPast x out new := by
  have hfits : Fits w.layer x.batch layerPast := by
    rintro pkv rfl
    obtain ⟨-, -, hbatch, hpkvHeads, hd⟩ := hcached
    exact ⟨hbatch, hpkvHeads ▸ hheads, hd⟩
  obtain rfl := hcached.len
  unfold WrappedBlock.forward
  simp only [hpositions]
  rw [if_pos ⟨hfits, hmask.tgt, hmask.src⟩]
  refine ⟨_, _, rfl, rfl, fun b _ => ?_, rfl, rfl, rfl, fun b _ h t _ => ?_⟩
  · refine outputs_row (length_reorderCacheFromBloom _ _ _) ?_ fun i hi => ?_
    · rfl
    dsimp only
    rw [attended_eq hmask b hi (by
      rw [List.length_append, length_reorderCacheFromBloom, List.length_map, List.length_range]),
      keyValues_row]
    rfl
  · have hpos : 0 < w.layer.numKeyValueHeads := Nat.zero_lt_of_lt h.isLt
    have hdiv : (b * w.layer.numKeyValueHeads + h) / w.layer.numKeyValueHeads = b := by
      rw [Nat.mul_comm, Nat.mul_add_div hpos, Nat.div_eq_of_lt h.isLt, Nat.add_zero]
    have hmod : (b * w.layer.numKeyValueHeads + h) % w.layer.numKeyValueHeads = h := by
      rw [Nat.mul_comm, Nat.mul_add_mod, Nat.mod_eq_of_lt h.isLt]
    simp only [newCell, hdiv, hmod]
    rfl

theorem serves_wrapped {heads : ℕ} (hheads : w.layer.numKeyValueHeads ≤ heads) (past : ℕ) :
    Serves w.forward heads w.layer.headDim (w.rowLayer none) past x :=
  fun _ hcached => forward_eq w _ _ hcached hheads (sees_stepMask _ _) rfl

/-- On a whole sequence a block uses the mask it builds. -/
theorem whole_eq [Inhabited τ] (xs : List τ) :
    whole w.forward xs = (w.rowLayer w.wrapper.window).causal.run xs := by
  have hcached : Cached w.layer.numKeyValueHeads w.layer.headDim 1 0
      (none : Option (Pkv (Cell α))) := rfl
  obtain ⟨out, new, hforward, hgives⟩ := forward_eq w (x := .ofRow xs) none none hcached
    (Nat.le_refl _) (sees_buildMask w.wrapper 0 _) rfl
  rw [whole, hforward, Option.elim_some, hgives.row 0 Nat.one_pos, row_ofRow]
  rfl

end Layer

/-! ### Steps -/

/-- The rows of the slab have room for the heads of a layer. -/
structure SlabFor (nkv headDim : ℕ) (cfg : BlockConfig) (heads : ℕ) (c : Cache (Cell α)) :
    Prop where
  numAttentionHeads : cfg.numAttentionHeads = some heads
  pos : 0 < heads
  divides : nkv ∣ heads
  headDim : headDim = c.d

/-- A step of a single chunk, of rows of a batch that the slab holds as a whole, from a position
among those seen. -/
structure Step.Follows (s : Step τ) (chunks : ChunkConfig) (batch seqLen : ℕ)
    (old : ℕ → List τ) : Prop where
  oneChunk : OneChunk chunks s.hidden.batch s.hidden.seqLength s.prefixLength
  full : 0 < s.microBatch.fullBatchSize ∧ s.microBatch.fullBatchSize ≤ batch
  micro : s.microBatch.microBatchSize = s.hidden.batch
  nonempty : 0 < s.hidden.batch ∧ 0 < s.hidden.seqLength
  rows : s.microBatch.batchOffset + s.hidden.batch ≤ s.microBatch.fullBatchSize
  room : s.prefixLength + s.hidden.seqLength ≤ seqLen
  seen : ∀ b < s.hidden.batch, s.prefixLength ≤ (old (s.microBatch.batchOffset + b)).length

def Step.after (s : Step τ) (old : ℕ → List τ) (r : ℕ) : List τ :=
  if s.microBatch.batchOffset ≤ r ∧ r < s.microBatch.batchOffset + s.hidden.batch then
    (old r).take s.prefixLength ++ s.hidden.row (r - s.microBatch.batchOffset)
  else old r

/-- The slab has the keys and values of the tokens of each row. -/
def Holds {nkv : ℕ} (layer : CausalLayer τ (Fin nkv → Cell α)) (heads : ℕ) (old : ℕ → List τ)
    (c : Cache (Cell α)) : Prop :=
  ∀ r < c.batch heads, ∀ s token, (old r)[s]? = some token → ∀ h : Fin nkv,
    c.cell? s (r * heads + h) = some (layer.keyValue token s h)

theorem holds_nil {nkv : ℕ} (layer : CausalLayer τ (Fin nkv → Cell α)) (heads : ℕ)
    (c : Cache (Cell α)) : Holds layer heads (fun _ => []) c := by
  intro r _ s token htoken
  cases htoken

section Step

variable {forward : Forward τ α} {nkv headDim : ℕ} {layer : CausalLayer τ (Fin nkv → Cell α)}
  {cfg : BlockConfig} {p : KVMultiplex.Policy} {chunks : ChunkConfig} {heads : ℕ}
  {st : Staging (Cell α)} {c : Cache (Cell α)} {s : Step τ} {old : ℕ → List τ}

theorem Step.Follows.firstRow_eq (hslab : SlabFor nkv headDim cfg heads c)
    (h : s.Follows chunks (c.batch heads) c.seqLen old) :
    firstRow cfg p c s.microBatch = s.microBatch.batchOffset := by
  unfold firstRow KVMultiplex.writeBatchStart
  rw [KVSlab.attentionHeads_eq hslab.numAttentionHeads, if_neg (Nat.ne_of_gt h.full.1),
    if_neg (Nat.not_lt.mpr h.full.2)]

variable (st) in
/-- What is selected are the keys and values of the prefix. -/
theorem selectCache_holds (hslab : SlabFor nkv headDim cfg heads c)
    (h : s.Follows chunks (c.batch heads) c.seqLen old) (hholds : Holds layer heads old c) :
    ∃ past, selectCache cfg p st c s.prefixLength s.microBatch = ((st, c), .ok past) ∧
      Cached heads headDim s.hidden.batch s.prefixLength past ∧
      ∀ b < s.hidden.batch, reorderCacheFromBloom nkv past b =
        layer.keyValues 0 ((old (s.microBatch.batchOffset + b)).take s.prefixLength) := by
  have hmux : ¬c.Multiplexing heads s.microBatch := Nat.not_lt.mpr h.full.2
  rw [KVSlab.selectCache_held hslab.numAttentionHeads fun h => absurd h hmux]
  rcases Nat.eq_zero_or_pos s.prefixLength with hzero | hpos
  · refine ⟨none, by rw [Cache.select, if_pos hzero], hzero, fun b _ => ?_⟩
    rw [hzero, List.take_zero]
    rfl
  · have hfirst := h.firstRow_eq (p := p) hslab
    have hselect := KVSlab.select_rows (p := p) hslab.numAttentionHeads hslab.pos h.full.1
      h.micro h.nonempty.1 (hfirst ▸ Nat.le_trans h.rows h.full.2) (.refl c) hpos
      (Nat.le_of_add_right_le h.room)
    rw [if_neg hmux, hfirst] at hselect
    obtain ⟨-, pkv, hselect, hbatch, hheads, hlen, hd, hrows⟩ := hselect
    rw [hselect]
    have hnkv : nkv ≤ heads := Nat.le_of_dvd hslab.pos hslab.divides
    refine ⟨some pkv, rfl, ⟨hpos, hlen, hbatch, hheads, hd.trans hslab.headDim.symm⟩,
      fun b hb => List.ext_getElem? fun i => ?_⟩
    have hseen := h.seen b hb
    rw [reorderCacheFromBloom, Option.elim_some, hlen, CausalLayer.keyValues,
      List.getElem?_mapIdx, List.getElem?_map]
    by_cases hi : i < s.prefixLength
    · have htoken := List.getElem?_eq_getElem (Nat.lt_of_lt_of_le hi hseen)
      rw [List.getElem?_range hi, List.getElem?_take_of_lt hi, htoken, Option.map_some,
        Option.map_some, Nat.zero_add]
      refine congrArg some (funext fun head => ?_)
      have hcell := hrows b (hbatch ▸ hb) head.val (hheads ▸ Nat.lt_of_lt_of_le head.isLt hnkv) i
        (hlen ▸ hi)
      have hrow : s.microBatch.batchOffset + b < c.batch heads :=
        Nat.lt_of_lt_of_le (Nat.add_lt_add_left hb _) (Nat.le_trans h.rows h.full.2)
      rw [hholds _ hrow i _ htoken head] at hcell
      exact (Option.some.inj hcell).symm
    · rw [List.getElem?_eq_none (by simpa using hi),
        List.getElem?_eq_none (by rw [List.length_take]; omega)]
      rfl

theorem writeAndOffload_eq (hslab : SlabFor nkv headDim cfg heads c)
    (h : s.Follows chunks (c.batch heads) c.seqLen old) {new : NewKvs α} {c' : Cache (Cell α)}
    (hshape : SameShape c c')
    (hwrite : writeKvs cfg p c s.prefixLength s.microBatch (tensors new) = (c', .ok ())) :
    writeAndOffload cfg p st c s.prefixLength s.microBatch new = ⟨st, c', [], .ok ()⟩ := by
  have hmux : ¬c'.Multiplexing cfg.attentionHeads s.microBatch := by
    rw [KVSlab.attentionHeads_eq hslab.numAttentionHeads, Cache.Multiplexing, Cache.batch,
      hshape.bh]
    exact Nat.not_lt.mpr h.full.2
  unfold writeAndOffload
  simp only [hwrite]
  rw [offloadWritten, if_neg hmux]

/-- A step of one chunk is the forward pass and the write. -/
theorem inferenceStep_chunk {past : Option (Pkv (Cell α))}
    (h : s.Follows chunks (c.batch heads) c.seqLen old)
    (hselect : selectCache cfg p st c s.prefixLength s.microBatch = ((st, c), .ok past))
    (hcached : Cached heads headDim s.hidden.batch s.prefixLength past) :
    inferenceStep forward cfg p chunks st c s =
      match forward (some (.ofScores (stepMask s.prefixLength s.hidden.seqLength))) past
          (some fun _ i => s.prefixLength + i) s.hidden with
      | none => none
      | some (out, new) =>
        let written := writeAndOffload cfg p st c s.prefixLength s.microBatch new
        match written.outcome with
        | .error _ => none
        | .ok () => some ((written.staging, written.cache), out) := by
  obtain ⟨m, hm, hle⟩ := h.oneChunk
  unfold inferenceStep
  simp only [Option.mem_def.mp hm, hselect, hcached.len]
  rw [runChunks_single h.nonempty.2 hle]
  simp only [Nat.add_zero, chunk_whole hle]
  rcases forward _ past _ s.hidden with - | ⟨out, new⟩
  · rfl
  · rfl

variable (st) in
theorem inferenceStep_eq (hserves : Serves forward heads headDim layer s.prefixLength s.hidden)
    (hslab : SlabFor nkv headDim cfg heads c)
    (h : s.Follows chunks (c.batch heads) c.seqLen old) (hholds : Holds layer heads old c) :
    ∃ c' out, inferenceStep forward cfg p chunks st c s = some ((st, c'), out) ∧ SameShape c c' ∧
      Holds layer heads (s.after old) c' ∧
      out.rows = (List.range s.hidden.batch).map fun b =>
        (layer.causal.run (s.after old (s.microBatch.batchOffset + b))).drop s.prefixLength := by
  obtain ⟨past, hselect, hcached, hpast⟩ := selectCache_holds (p := p) st hslab h hholds
  obtain ⟨out, new, hforward, hbatch, hrow, hbh, hd, hsNew, hcell⟩ :=
    hserves past hcached
  have hfirst := h.firstRow_eq (p := p) hslab
  obtain ⟨c', hwrite, hstores⟩ := KVSlab.writeKvs_rows (p := p) hslab.numAttentionHeads hslab.pos
    hslab.divides hbh (hd.trans hslab.headDim) h.full.1 h.micro h.nonempty.1
    (hfirst ▸ Nat.le_trans h.rows h.full.2)
    (Nat.lt_of_lt_of_le (Nat.lt_add_of_pos_right h.nonempty.2) h.room) (hsNew ▸ h.room)
  rw [hfirst] at hstores
  refine ⟨c', out, ?_, hstores.shape, ?_, ?_⟩
  · rw [inferenceStep_chunk h hselect hcached]
    simp only [hforward, writeAndOffload_eq hslab h hstores.shape hwrite]
  · intro r hr i token htoken head
    have hnkv := Nat.lt_of_lt_of_le head.isLt (Nat.le_of_dvd hslab.pos hslab.divides)
    rw [Cache.batch, hstores.shape.bh] at hr
    unfold Step.after at htoken
    split_ifs at htoken with hin
    · obtain ⟨b, rfl⟩ := Nat.exists_eq_add_of_le hin.1
      have hb : b < s.hidden.batch := by omega
      have hprefix : ((old (s.microBatch.batchOffset + b)).take s.prefixLength).length =
          s.prefixLength := by
        rw [List.length_take, Nat.min_eq_left (h.seen b hb)]
      rw [Nat.add_sub_cancel_left] at htoken
      rcases Nat.lt_or_ge i s.prefixLength with hold | hnew
      · rw [List.getElem?_append_left (by omega), List.getElem?_take_of_lt hold] at htoken
        rw [hstores.kept i _ fun r _ h' _ t _ heq => by omega]
        exact hholds _ hr i token htoken head
      · obtain ⟨t, rfl⟩ := Nat.exists_eq_add_of_le hnew
        rw [List.getElem?_append_right (by omega), hprefix, Nat.add_sub_cancel_left] at htoken
        have ht : t < s.hidden.seqLength := by
          rw [← length_row (x := s.hidden) b]
          exact (List.getElem?_eq_some_iff.mp htoken).1
        rw [getElem?_row b ht] at htoken
        obtain rfl := Option.some.inj htoken
        rw [hstores.stored b hb head head.isLt t (hsNew ▸ ht), hcell b hb head t ht]
    · rw [hstores.kept i _ fun r' hr' h' hh' t _ heq => ?_]
      · exact hholds r hr i token htoken head
      · have hrows := KVSlab.col_inj hnkv
          (Nat.lt_of_lt_of_le hh' (Nat.le_of_dvd hslab.pos hslab.divides)) heq.2
        omega
  · rw [Hidden.rows, hbatch]
    refine List.map_congr_left fun b hb => ?_
    have hb : b < s.hidden.batch := List.mem_range.mp hb
    have hprefix : ((old (s.microBatch.batchOffset + b)).take s.prefixLength).length =
        s.prefixLength := by
      rw [List.length_take, Nat.min_eq_left (h.seen b hb)]
    rw [hrow b hb, hpast b hb, CausalLayer.outputs_keyValues, hprefix, Step.after,
      if_pos ⟨Nat.le_add_right _ _, Nat.add_lt_add_left hb _⟩, Nat.add_sub_cancel_left]

end Step

/-! ### Runs -/

/-- Each step follows what those before it left, and no sequence gets longer than `n`. -/
def Admitted (chunks : ChunkConfig) (batch seqLen n : ℕ) : (ℕ → List τ) → List (Step τ) → Prop
  | _, [] => True
  | old, s :: ss =>
    s.Follows chunks batch seqLen old ∧ s.prefixLength + s.hidden.seqLength ≤ n ∧
      Admitted chunks batch seqLen n (s.after old) ss

/-- The answers of each step, for its rows, if `run` is applied to their whole sequences. -/
def answers (run : List τ → List τ) : (ℕ → List τ) → List (Step τ) → List (List (List τ))
  | _, [] => []
  | old, s :: ss =>
    ((List.range s.hidden.batch).map fun b =>
        (run (s.after old (s.microBatch.batchOffset + b))).drop s.prefixLength) ::
      answers run (s.after old) ss

section Run

variable {n : ℕ} {chunks : ChunkConfig}

theorem SlabFor.of_shape {nkv headDim heads : ℕ} {cfg : BlockConfig} {c c' : Cache (Cell α)}
    (h : SlabFor nkv headDim cfg heads c) (hshape : SameShape c c') :
    SlabFor nkv headDim cfg heads c' :=
  ⟨h.numAttentionHeads, h.pos, h.divides, h.headDim.trans hshape.d.symm⟩

theorem Admitted.of_shape {heads : ℕ} {c c' : Cache (Cell α)} {old : ℕ → List τ}
    {steps : List (Step τ)} (h : Admitted chunks (c.batch heads) c.seqLen n old steps)
    (hshape : SameShape c c') : Admitted chunks (c'.batch heads) c'.seqLen n old steps := by
  have hbatch : c'.batch heads = c.batch heads := congrArg (· / heads) hshape.bh
  rwa [hbatch, hshape.seqLen]

theorem serve_eq {forward : Forward τ α} {nkv headDim heads : ℕ}
    {layer : CausalLayer τ (Fin nkv → Cell α)} {cfg : BlockConfig} {p : KVMultiplex.Policy}
    {st : Staging (Cell α)} {c : Cache (Cell α)} {old : ℕ → List τ} {steps : List (Step τ)}
    (hserves : ∀ s ∈ steps, Serves forward heads headDim layer s.prefixLength s.hidden)
    (hslab : SlabFor nkv headDim cfg heads c)
    (h : Admitted chunks (c.batch heads) c.seqLen n old steps) (hholds : Holds layer heads old c) :
    (serve forward cfg p chunks st c steps).map (·.map Hidden.rows) =
      some (answers layer.causal.run old steps) := by
  induction steps generalizing c old with
  | nil => rfl
  | cons s steps ih =>
    obtain ⟨hfollows, -, hrest⟩ := h
    obtain ⟨c', out, hstep, hshape, hholds, hrows⟩ :=
      inferenceStep_eq (p := p) st (hserves s List.mem_cons_self) hslab hfollows hholds
    have hserve := ih (fun s hs => hserves s (List.mem_cons_of_mem _ hs)) (hslab.of_shape hshape)
      (hrest.of_shape hshape) hholds
    obtain ⟨outs, houts, hanswers⟩ := Option.map_eq_some_iff.mp hserve
    unfold serve
    simp only [hstep, houts, Option.map_some, List.map_cons, hrows, hanswers, answers]

theorem answers_congr {run run' : List τ → List τ} {batch seqLen : ℕ} {old : ℕ → List τ}
    {steps : List (Step τ)} (h : Admitted chunks batch seqLen n old steps)
    (hrun : ∀ xs : List τ, xs.length ≤ n → run xs = run' xs) :
    answers run old steps = answers run' old steps := by
  induction steps generalizing old with
  | nil => rfl
  | cons s steps ih =>
    obtain ⟨hfollows, hn, hrest⟩ := h
    unfold answers
    rw [ih hrest]
    congr 1
    refine List.map_congr_left fun b hb => ?_
    have hb : b < s.hidden.batch := List.mem_range.mp hb
    have hseen := hfollows.seen b hb
    rw [hrun]
    rw [Step.after, if_pos ⟨Nat.le_add_right _ _, Nat.add_lt_add_left hb _⟩, List.length_append,
      List.length_take, length_row]
    omega

variable {w : WrappedBlock τ α}

theorem getElem?_run (window : Option ℕ) (xs : List τ) (i : ℕ) :
    ((w.rowLayer window).causal.run xs)[i]? = xs[i]?.map fun token =>
      w.layer.output (inWindow window (((w.rowLayer none).keyValues 0 xs).take (i + 1))) token i := by
  change ((w.rowLayer window).outputs [] xs)[i]? = _
  rw [CausalLayer.outputs, List.getElem?_mapIdx]
  simp only [List.length_nil, Nat.zero_add, List.nil_append]
  rfl

/-- A sequence that is not longer than the window is seen as a whole. -/
theorem run_inWindow {window : Option ℕ} {xs : List τ} (h : ∀ m ∈ window, xs.length ≤ m) :
    (w.rowLayer none).causal.run xs = (w.rowLayer window).causal.run xs := by
  refine List.ext_getElem? fun i => ?_
  have hkvs : inWindow window (((w.rowLayer none).keyValues 0 xs).take (i + 1)) =
      ((w.rowLayer none).keyValues 0 xs).take (i + 1) := by
    refine inWindow_of_le fun m hm => ?_
    rw [List.length_take, CausalLayer.length_keyValues]
    exact Nat.le_trans (Nat.min_le_right _ _) (h m hm)
  rw [getElem?_run, getElem?_run, hkvs]
  rfl

end Run

def countingLayer : DecoderLayer ℕ Unit where
  numKeyValueHeads := 1
  headDim := 1
  keyValue _ _ _ := ⟨fun _ => (), fun _ => ()⟩
  output kvs _ _ := kvs.length

theorem counting_run (wrapper : Wrapper) (window : Option ℕ) {n : ℕ} (hn : 0 < n) :
    (((⟨wrapper, countingLayer⟩ : WrappedBlock ℕ Unit).rowLayer window).causal.run
      (List.replicate n 0))[n - 1]? = some (window.elim n (min n)) := by
  rw [getElem?_run, List.getElem?_replicate, if_pos (by omega), Option.map_some]
  refine congrArg some ?_
  have hlength : ((((⟨wrapper, countingLayer⟩ : WrappedBlock ℕ Unit).rowLayer none).keyValues 0
      (List.replicate n 0)).take (n - 1 + 1)).length = n := by
    rw [List.length_take, CausalLayer.length_keyValues, List.length_replicate]
    omega
  generalize (((⟨wrapper, countingLayer⟩ : WrappedBlock ℕ Unit).rowLayer none).keyValues 0
    (List.replicate n 0)).take (n - 1 + 1) = kvs at hlength
  rcases window with - | m
  · exact hlength
  · have hdrop : (kvs.drop (kvs.length - m)).length = n - (n - m) := by
      rw [List.length_drop, hlength]
    exact hdrop.trans (show n - (n - m) = min n m by omega)

def firstStep (n : ℕ) : Step ℕ := ⟨⟨0, 1, 1⟩, 0, ⟨1, n, fun _ _ => 0⟩⟩

theorem oneChunk_firstStep {n : ℕ} (hn : 0 < n) : OneChunk ⟨1, 1, n * n⟩ 1 n 0 := by
  refine ⟨n, ?_, Nat.le_refl n⟩
  simp only [estimateMaxChunkLength, Option.mem_def, Nat.one_mul, Nat.zero_add]
  rw [if_neg hn.ne', Nat.mul_div_cancel _ hn, Nat.max_eq_right hn]

theorem answers_firstStep (run : List ℕ → List ℕ) (n : ℕ) :
    answers run (fun _ => []) [firstStep n] = [[run (List.replicate n 0)]] := by
  simp [answers, Step.after, firstStep, Hidden.row]

/-- In every run over a slab that has all rows of a batch, whatever rows its steps of one chunk take
one after another, a wrapped block answers as it does on whole sequences, if and only if no sequence
gets longer than the window of its layer. The mask of `inference_step` has no window. -/
theorem serve_whole_iff (wrapper : Wrapper) (n : ℕ) :
    (∀ (τ α : Type) [Inhabited τ] (layer : DecoderLayer τ α) (cfg : BlockConfig)
        (p : KVMultiplex.Policy) (chunks : ChunkConfig) (heads : ℕ) (st : Staging (Cell α))
        (c : Cache (Cell α)) (steps : List (Step τ)),
      SlabFor layer.numKeyValueHeads layer.headDim cfg heads c →
      Admitted chunks (c.batch heads) c.seqLen n (fun _ => []) steps →
      (serve (WrappedBlock.forward ⟨wrapper, layer⟩) cfg p chunks st c steps).map
          (·.map Hidden.rows) =
        some (answers (whole (WrappedBlock.forward ⟨wrapper, layer⟩)) (fun _ => []) steps)) ↔
      ∀ window ∈ wrapper.window, n ≤ window := by
  constructor
  · intro hserve window hwindow
    by_contra hlt
    have hn : 0 < n := by omega
    let c : Cache (Cell Unit) := ⟨n, 1, .whole ⟨1, fun _ _ => ⟨fun _ => (), fun _ => ()⟩⟩⟩
    have hslab : SlabFor 1 1 ⟨some 1, none, none⟩ 1 c :=
      ⟨rfl, Nat.one_pos, Nat.dvd_refl 1, rfl⟩
    have hadmitted : Admitted ⟨1, 1, n * n⟩ (c.batch 1) c.seqLen n (fun _ => []) [firstStep n] := by
      have hbatch : c.batch 1 = 1 := Nat.div_one _
      refine ⟨⟨oneChunk_firstStep hn, ⟨Nat.one_pos, hbatch.ge⟩, rfl, ⟨Nat.one_pos, hn⟩,
        Nat.le_refl 1, ?_, ?_⟩, ?_, trivial⟩
      · exact Nat.le_of_eq (Nat.zero_add n)
      · exact fun _ _ => Nat.le_refl 0
      · exact Nat.le_of_eq (Nat.zero_add n)
    have hwhole := hserve ℕ Unit countingLayer _ ⟨1, 1⟩ ⟨1, 1, n * n⟩ 1
      ⟨false, fun _ => none, fun _ => none⟩ c [firstStep n] hslab hadmitted
    rw [serve_eq (fun s _ => serves_wrapped ⟨wrapper, countingLayer⟩ (Nat.le_refl 1) s.prefixLength)
      hslab hadmitted (holds_nil _ _ _), answers_firstStep, answers_firstStep, whole_eq] at hwhole
    have hruns := List.singleton_inj.mp (List.singleton_inj.mp (Option.some.inj hwhole))
    have hlast := congrArg (fun ys : List ℕ => ys[n - 1]?) hruns
    dsimp only at hlast
    rw [counting_run wrapper none hn, counting_run wrapper wrapper.window hn, hwindow] at hlast
    have hmin : n = min n window := Option.some.inj hlast
    omega
  · intro hwindow τ α _ layer cfg p chunks heads st c steps hslab hadmitted
    have hheads : layer.numKeyValueHeads ≤ heads := Nat.le_of_dvd hslab.pos hslab.divides
    rw [serve_eq (fun s _ => serves_wrapped ⟨wrapper, layer⟩ hheads s.prefixLength) hslab hadmitted
      (holds_nil _ _ _),
      answers_congr hadmitted]
    intro xs hxs
    rw [whole_eq]
    exact run_inWindow fun m hm => Nat.le_trans hxs (hwindow m hm)

end BloomBee.WrappedBlocks
