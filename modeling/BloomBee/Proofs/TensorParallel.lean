import BloomBee.Proofs.RemoteShardCache
import BloomBee.Sanity.TensorParallel

/-! Tensor parallelism computes the block: whatever the mask, the rotary positions and the number of
shards, if every shard is given its part of the cache then the reductions and the merged cache are
what one device computes (`forward_eq_block`). What a shard reads from a merged cache is what went
into it just when the layouts cannot be confused (`unpackLayerPast_merged_iff`). -/

set_option autoImplicit false

namespace BloomBee.TensorParallel

open BackendStep (ChunkConfig estimateMaxChunkLength runChunks_raises runChunks_single
  runChunksIn_raises runChunksIn_single)
open FlexgenAttention

variable {R : Type}

structure ShardsOf (config : Config) (w : LlamaBlock R) (n : ℕ) (shards : List (Shard R)) : Prop where
  length : shards.length = n
  layout : ∀ {rank : ℕ} {s : Shard R}, shards[rank]? = some s → s.layout = layoutAt config n rank
  heads : ∀ {rank : ℕ} {s : Shard R}, shards[rank]? = some s →
    s.numAttentionHeads = w.numAttentionHeads
  attn : ∀ {rank : ℕ} {s : Shard R}, shards[rank]? = some s → s.attn = shardAttn config w n rank
  mlp : ∀ {rank : ℕ} {s : Shard R}, shards[rank]? = some s → s.mlp = shardMlp config w n rank

namespace ShardsOf

variable {config : Config} {w : LlamaBlock R} {n : ℕ} {shards : List (Shard R)}

theorem map_eq {β : Type} (h : ShardsOf config w n shards) {f : Shard R → β} {g : ℕ → β}
    (hfg : ∀ rank s, shards[rank]? = some s → f s = g rank) :
    shards.map f = (List.range n).map g := by
  refine List.ext_getElem? fun rank => ?_
  rw [List.getElem?_map, List.getElem?_map]
  cases hs : shards[rank]? with
  | none =>
    have hle := h.length ▸ List.getElem?_eq_none_iff.mp hs
    rw [List.getElem?_eq_none (by rw [List.length_range]; exact hle)]
    rfl
  | some s =>
    have hlt := h.length ▸ (List.getElem?_eq_some_iff.mp hs).1
    rw [List.getElem?_range hlt, Option.map_some, Option.map_some, hfg rank s hs]

/-- What a call changes is not the shard's place or weights. -/
theorem map (h : ShardsOf config w n shards) {f : Shard R → Shard R}
    (hf : ∀ s, (f s).layout = s.layout ∧ (f s).numAttentionHeads = s.numAttentionHeads ∧
      (f s).attn = s.attn ∧ (f s).mlp = s.mlp) : ShardsOf config w n (shards.map f) := by
  have hget : ∀ {rank : ℕ} {s' : Shard R}, (shards.map f)[rank]? = some s' →
      ∃ s, shards[rank]? = some s ∧ f s = s' := by
    intro rank s' hs'
    rw [List.getElem?_map] at hs'
    exact Option.map_eq_some_iff.mp hs'
  constructor
  · rw [List.length_map, h.length]
  · intro rank s' hs'
    obtain ⟨s, hs, rfl⟩ := hget hs'
    rw [(hf s).1, h.layout hs]
  · intro rank s' hs'
    obtain ⟨s, hs, rfl⟩ := hget hs'
    rw [(hf s).2.1, h.heads hs]
  · intro rank s' hs'
    obtain ⟨s, hs, rfl⟩ := hget hs'
    rw [(hf s).2.2.1, h.attn hs]
  · intro rank s' hs'
    obtain ⟨s, hs, rfl⟩ := hget hs'
    rw [(hf s).2.2.2, h.mlp hs]

theorem localHeads (h : ShardsOf config w n shards) :
    (shards.map fun s => s.layout.localHeads) = List.replicate n (config.local n) := by
  rw [h.map_eq (g := fun _ => config.local n) fun rank s hs => by
    rw [h.layout hs, layoutAt_localHeads], List.map_const', List.length_range]

end ShardsOf

theorem init_spec {config : Config} {w : LlamaBlock R} {isOutput : List Bool}
    {shards : List (Shard R)} (hdescribes : config.Describes w)
    (hfits : w.attn.Fits w.numAttentionHeads) (h : init config w isOutput = some shards) :
    Split config w isOutput.length ∧ ShardsOf config w isOutput.length shards ∧
      ∀ s ∈ shards, s.remoteCacheState = none := by
  rw [init, shardLayouts] at h
  split_ifs at h with hdevices hkv hheads hintermediate
  · cases h
  · cases h
  · cases h
  · cases h
  obtain rfl := Option.some.inj h
  have hget : ∀ {rank : ℕ} {s : Shard R},
      (List.zipWith (initShard config w) isOutput ((List.range isOutput.length).map
        (layoutAt config isOutput.length)))[rank]? = some s →
      ∃ out, s = initShard config w out (layoutAt config isOutput.length rank) := by
    intro rank s hs
    obtain ⟨out, l, -, hl, rfl⟩ := List.getElem?_zipWith_eq_some.mp hs
    rw [List.getElem?_map, Option.map_eq_some_iff] at hl
    obtain ⟨r, hr, rfl⟩ := hl
    obtain ⟨hlt, hr⟩ := List.getElem?_eq_some_iff.mp hr
    rw [List.getElem_range] at hr
    exact ⟨out, by rw [hr]⟩
  refine ⟨⟨hdescribes, hfits, by omega, by omega, by omega, by omega⟩, ⟨?_, ?_, ?_, ?_, ?_⟩, ?_⟩
  · rw [List.length_zipWith, List.length_map, List.length_range, Nat.min_self]
  · intro rank s hs
    obtain ⟨out, rfl⟩ := hget hs
    rfl
  · intro rank s hs
    obtain ⟨out, rfl⟩ := hget hs
    exact hdescribes.heads.symm
  · intro rank s hs
    obtain ⟨out, rfl⟩ := hget hs
    rfl
  · intro rank s hs
    obtain ⟨out, rfl⟩ := hget hs
    rfl
  · intro s hs
    obtain ⟨rank, hlt, hs⟩ := List.mem_iff_getElem.mp hs
    obtain ⟨out, rfl⟩ := hget (List.getElem?_eq_some_iff.mpr ⟨hlt, hs⟩)
    rfl

/-! ### Attention -/

theorem withNew_map (φ : Frame R → Frame R) (capacity : ℕ) (t new : List (Frame R)) (src : ℕ) :
    (withNew capacity (t.map φ) (new.map φ) src).2 = (withNew capacity t new src).2.map φ := by
  rw [withNew, withNew, List.length_map]
  split_ifs
  · simp only [assignAt, List.length_map, List.map_take, List.map_append, List.map_drop]
  · rw [List.map_append]

section

variable [Field R] [LinearOrder R] {E : Elementary R} {config : Config} {w : LlamaBlock R} {n : ℕ}
  {hidden : List (Frame R)} {mask : Mask R} {rotaryPositionIds : Option (ℕ → ℕ → ℕ)}

def attentionOf (E : Elementary R) (w : AttentionWeights R) (nHead : ℕ)
    (rotaryPositionIds : Option (ℕ → ℕ → ℕ)) (mask : Mask R) (hidden : List (Frame R)) :
    Option (List (Frame R) × List (Frame R)) → Option (Attended R)
  | none => mhaLlama E w nHead rotaryPositionIds mask hidden
  | some (k, v) =>
    (mhaGenLlama E w nHead rotaryPositionIds mask k v hidden).map CachedAttended.toAttended

/-- What it gives if the heads attend to `k` and `v`. -/
def attendedOver (E : Elementary R) (w : AttentionWeights R) (nHead : ℕ)
    (rotaryPositionIds : Option (ℕ → ℕ → ℕ)) (start : ℕ) (mask : Mask R)
    (hidden k v : List (Frame R)) : Attended R :=
  ⟨attend E w nHead rotaryPositionIds start mask hidden k v,
    newKeys E w nHead rotaryPositionIds start hidden, newValues E w nHead hidden⟩

/-- The attention of the block and that of every shard are over the same keys and values, or raise
together. -/
theorem attentionOf_shards (E : Elementary R) (rotaryPositionIds : Option (ℕ → ℕ → ℕ))
    (mask : Mask R) (hidden : List (Frame R)) (h : Split config w n)
    (past : Option (List (Frame R) × List (Frame R))) :
    (attentionOf E w.attn w.numAttentionHeads rotaryPositionIds mask hidden past = none ∧
      ∀ rank < n, attentionOf E (shardAttn config w n rank) (config.local n) rotaryPositionIds mask
        hidden (past.map fun p => (shardFrames config w n rank p.1,
          shardFrames config w n rank p.2)) = none) ∨
    ∃ start k v, attentionOf E w.attn w.numAttentionHeads rotaryPositionIds mask hidden past =
        some (attendedOver E w.attn w.numAttentionHeads rotaryPositionIds start mask hidden k v) ∧
      ∀ rank < n, attentionOf E (shardAttn config w n rank) (config.local n) rotaryPositionIds mask
        hidden (past.map fun p => (shardFrames config w n rank p.1,
          shardFrames config w n rank p.2)) =
        some (attendedOver E (shardAttn config w n rank) (config.local n) rotaryPositionIds start
          mask hidden (shardFrames config w n rank k) (shardFrames config w n rank v)) := by
  rcases past with - | ⟨k, v⟩
  · by_cases hc : RotaryRows rotaryPositionIds hidden.length ∧ mask.tgt = hidden.length ∧
        mask.src = hidden.length
    · refine .inr ⟨0, _, _, if_pos ⟨h.fits, hc⟩, fun rank hrank => ?_⟩
      rw [← newKeys_shard h _ _ _ hrank, ← newValues_shard h _ hrank]
      exact if_pos ⟨shardAttn_fits h rank, hc⟩
    · exact .inl ⟨if_neg fun hall => hc hall.2, fun rank _ => if_neg fun hall => hc hall.2⟩
  · have hlength : ∀ rank t, (shardFrames config w n rank t).length = t.length := by
      intro rank t
      rw [shardFrames_eq, List.length_map]
    have hnew : ∀ rank t new, (withNew (shardFrames config w n rank k).length
        (shardFrames config w n rank t) (shardFrames config w n rank new) mask.src).2 =
          shardFrames config w n rank (withNew k.length t new mask.src).2 := by
      intro rank t new
      rw [hlength, shardFrames_eq, shardFrames_eq, shardFrames_eq, withNew_map]
    by_cases hc : RotaryRows rotaryPositionIds mask.src ∧ mask.tgt = hidden.length ∧
        hidden.length ≤ mask.src ∧ (mask.src ≤ k.length → mask.src ≤ v.length) ∧
        (withNew k.length k (newKeys E w.attn w.numAttentionHeads rotaryPositionIds
          (mask.src - hidden.length) hidden) mask.src).2.length = mask.src ∧
        (withNew k.length v (newValues E w.attn w.numAttentionHeads hidden) mask.src).2.length =
          mask.src
    · refine .inr ⟨mask.src - hidden.length,
        (withNew k.length k (newKeys E w.attn w.numAttentionHeads rotaryPositionIds
          (mask.src - hidden.length) hidden) mask.src).2,
        (withNew k.length v (newValues E w.attn w.numAttentionHeads hidden) mask.src).2, ?_,
        fun rank hrank => ?_⟩
      · simp only [attentionOf, mhaGenLlama]
        rw [if_pos ⟨h.fits, hc⟩]
        rfl
      · simp only [Option.map_some, attentionOf, mhaGenLlama]
        rw [newKeys_shard h _ _ _ hrank, newValues_shard h _ hrank, hnew, hnew, hlength, hlength,
          hlength, hlength, if_pos ⟨shardAttn_fits h rank, hc⟩, Option.map_some, attendedOver,
          newKeys_shard h _ _ _ hrank, newValues_shard h _ hrank]
    · refine .inl ⟨?_, fun rank hrank => ?_⟩
      · simp only [attentionOf, mhaGenLlama]
        rw [if_neg fun hall => hc hall.2]
        rfl
      · simp only [Option.map_some, attentionOf, mhaGenLlama]
        rw [newKeys_shard h _ _ _ hrank, newValues_shard h _ hrank, hnew, hnew, hlength, hlength,
          hlength, hlength, if_neg fun hall => hc hall.2]
        rfl

/-- The partial results of the attention are reduced to that of the block. -/
theorem reducePartials_attend (h : Split config w n) (start : ℕ) (k v : List (Frame R)) :
    reducePartials ((List.range n).map fun rank =>
        attend E (shardAttn config w n rank) (config.local n) rotaryPositionIds start mask hidden
          (shardFrames config w n rank k) (shardFrames config w n rank v)) hidden =
      some (attend E w.attn w.numAttentionHeads rotaryPositionIds start mask hidden k v) := by
  have hn : 0 < n := Nat.lt_of_lt_of_le Nat.two_pos h.devices
  refine (reducePartials_eq hn hidden fun rank i x b c =>
    linear (shardAttn config w n rank).qkvHiddenSize (shardAttn config w n rank).wOut
      (attendedChannel E (shardAttn config w n rank) (config.local n) rotaryPositionIds start mask
        (shardFrames config w n rank k) (shardFrames config w n rank v) i x b) c).trans ?_
  congr 1
  rw [attend]
  congr 1
  funext i x b c
  congr 1
  change _ = linear w.attn.qkvHiddenSize w.attn.wOut
    (attendedChannel E w.attn w.numAttentionHeads rotaryPositionIds start mask k v i x b) c
  rw [h.qkv_eq, linear_pieces]
  congr 1
  refine List.map_congr_left fun rank _ => ?_
  rw [shardAttn_qkvHiddenSize]
  exact linear_congr fun o ho => attendedChannel_shard h rank rotaryPositionIds start mask k v i x b ho

omit [LinearOrder R] in
theorem reducePartials_mlp (h : Split config w n) (attnOutput : List (Frame R)) :
    reducePartials ((List.range n).map fun rank =>
        attnOutput.map fun x b => mlpLlama E (shardMlp config w n rank) (x b)) attnOutput =
      some (attnOutput.map fun x b => mlpLlama E w.mlp (x b)) := by
  have hn : 0 < n := Nat.lt_of_lt_of_le Nat.two_pos h.devices
  let mid (w : MlpWeights R) (x : ℕ → R) (m : ℕ) : R :=
    let srcOut := rmsNorm E w.hiddenSize w.postAttentionLayernorm x
    E.act (linear w.hiddenSize w.gate srcOut m) * linear w.hiddenSize w.up srcOut m
  have hmap : ∀ w : MlpWeights R, (attnOutput.map fun x b => mlpLlama E w (x b)) =
      attnOutput.mapIdx fun _ x b c => linear w.intermediateSize w.down (mid w (x b)) c + x b c := by
    intro w
    refine List.ext_getElem? fun i => ?_
    rw [List.getElem?_map, List.getElem?_mapIdx]
    rfl
  simp only [hmap]
  refine (reducePartials_eq hn attnOutput fun rank _ x b c =>
    linear (shardMlp config w n rank).intermediateSize (shardMlp config w n rank).down
      (mid (shardMlp config w n rank) (x b)) c).trans ?_
  congr 1
  congr 1
  funext _ x b c
  congr 1
  rw [h.intermediate_eq, linear_pieces]
  congr 1
  refine List.map_congr_left fun rank _ => ?_
  rw [shardMlp_intermediateSize]
  refine linear_congr fun m _ => ?_
  simp only [mid, h.describes.mlpHidden]
  rfl

def blockOutput (E : Elementary R) (w : LlamaBlock R) (a : Attended R) : Attended R :=
  { a with value := a.value.map fun x b => mlpLlama E w.mlp (x b) }

theorem finish_shards (h : Split config w n) {shards : List (Shard R)}
    (hs : ShardsOf config w n shards) (start : ℕ) (k v : List (Frame R)) :
    finish E shards hidden ((List.range n).map fun rank =>
        attendedOver E (shardAttn config w n rank) (config.local n) rotaryPositionIds start mask
          hidden (shardFrames config w n rank k) (shardFrames config w n rank v)) =
      some (blockOutput E w (attendedOver E w.attn w.numAttentionHeads rotaryPositionIds start mask
        hidden k v)) := by
  have hkeys : ((List.range n).map fun rank => newKeys E (shardAttn config w n rank)
      (config.local n) rotaryPositionIds start hidden) = (List.range n).map fun rank =>
        shardFrames config w n rank
          (newKeys E w.attn w.numAttentionHeads rotaryPositionIds start hidden) :=
    List.map_congr_left fun rank hrank => newKeys_shard h _ _ _ (List.mem_range.mp hrank)
  have hvalues : ((List.range n).map fun rank => newValues E (shardAttn config w n rank)
      (config.local n) hidden) = (List.range n).map fun rank =>
        shardFrames config w n rank (newValues E w.attn w.numAttentionHeads hidden) :=
    List.map_congr_left fun rank hrank => newValues_shard h _ (List.mem_range.mp hrank)
  have hmlp : ∀ attnOutput : List (Frame R),
      (shards.map fun s => attnOutput.map fun x b => mlpLlama E s.mlp (x b)) =
        (List.range n).map fun rank =>
          attnOutput.map fun x b => mlpLlama E (shardMlp config w n rank) (x b) :=
    fun attnOutput => hs.map_eq fun rank s hrank => by rw [hs.mlp hrank]
  rw [finish, List.map_map, List.map_map, List.map_map]
  simp only [Function.comp_def, attendedOver, reducePartials_attend h, Option.bind_eq_bind,
    Option.bind_some, hmlp, reducePartials_mlp h, hs.localHeads, hkeys, hvalues,
    mergeCacheParts_shards h]
  rfl

/-! ### The forward pass -/

variable {empty : Frame R} {layerPast : Option (LayerPast R)} {shards : List (Shard R)}

omit [Field R] [LinearOrder R] in
theorem localLayerPast_static (empty : Frame R) (s : Shard R) (layerPast : Option (LayerPast R)) :
    (s.localLayerPast empty layerPast).2.layout = s.layout ∧
      (s.localLayerPast empty layerPast).2.numAttentionHeads = s.numAttentionHeads ∧
      (s.localLayerPast empty layerPast).2.attn = s.attn ∧
      (s.localLayerPast empty layerPast).2.mlp = s.mlp := by
  cases layerPast with
  | none => exact ⟨rfl, rfl, rfl, rfl⟩
  | some past =>
    rw [Shard.localLayerPast]
    split_ifs <;> exact ⟨rfl, rfl, rfl, rfl⟩

theorem attentionForward_eq (s : Shard R) :
    s.attentionForward E empty hidden mask rotaryPositionIds layerPast =
      (attentionOf E s.attn s.layout.localHeads rotaryPositionIds mask hidden
        (s.localLayerPast empty layerPast).1, (s.localLayerPast empty layerPast).2) := by
  have hstatic := localLayerPast_static empty s layerPast
  rw [Shard.attentionForward]
  generalize s.localLayerPast empty layerPast = r at hstatic ⊢
  obtain ⟨past, s'⟩ := r
  obtain ⟨hlayout, -, hattn, -⟩ := hstatic
  dsimp only at hlayout hattn
  rcases past with - | ⟨k, v⟩
  · dsimp only [attentionOf]
    rw [hlayout, hattn]
  · dsimp only [attentionOf]
    rw [hlayout, hattn]

def PartsExact (empty : Frame R) (layerPast : Option (LayerPast R)) (shards : List (Shard R)) :
    Prop :=
  ∀ s ∈ shards, (s.localLayerPast empty layerPast).1 = layerPast.map s.part

theorem attentionForwards_some {f : Shard R → Attended R} :
    ∀ shards : List (Shard R), (∀ s ∈ shards, attentionOf E s.attn s.layout.localHeads
        rotaryPositionIds mask hidden (s.localLayerPast empty layerPast).1 = some (f s)) →
      attentionForwards E empty hidden mask rotaryPositionIds layerPast shards =
        (some (shards.map f), shards.map fun s => (s.localLayerPast empty layerPast).2) := by
  intro shards
  induction shards with
  | nil => exact fun _ => rfl
  | cons s shards ih =>
    intro h
    rw [attentionForwards, attentionForward_eq, h s List.mem_cons_self]
    dsimp only
    rw [ih fun s hs => h s (List.mem_cons_of_mem _ hs)]
    rfl

/-- A call of all shards: its result is that of the block, and without an error every shard has
looked at its cache. -/
theorem forward_shards (E : Elementary R) (rotaryPositionIds : Option (ℕ → ℕ → ℕ))
    (hidden : List (Frame R)) (h : Split config w n) (hs : ShardsOf config w n shards)
    (hparts : PartsExact empty layerPast shards) (attentionMask : Option (Mask R)) {mask : Mask R}
    (hmask : mask = attentionMask.getD (buildScoreAttentionMask hidden.length
      ((layerPast.map fun past => past.k.length).getD 0))) :
    (forward E empty shards hidden layerPast attentionMask rotaryPositionIds).1 =
        (attentionOf E w.attn w.numAttentionHeads rotaryPositionIds mask hidden
          (layerPast.map fun past => (past.k, past.v))).map (blockOutput E w) ∧
      ∀ a, (forward E empty shards hidden layerPast attentionMask rotaryPositionIds).1 = some a →
        (forward E empty shards hidden layerPast attentionMask rotaryPositionIds).2 =
          shards.map fun s => (s.localLayerPast empty layerPast).2 := by
  have hshard : ∀ rank s, shards[rank]? = some s →
      attentionOf E s.attn s.layout.localHeads rotaryPositionIds mask hidden
        (s.localLayerPast empty layerPast).1 =
      attentionOf E (shardAttn config w n rank) (config.local n) rotaryPositionIds mask hidden
        ((layerPast.map fun past => (past.k, past.v)).map fun p =>
          (shardFrames config w n rank p.1, shardFrames config w n rank p.2)) := by
    intro rank s hrank
    rw [hparts s (List.mem_of_getElem? hrank), hs.attn hrank, hs.layout hrank, layoutAt_localHeads,
      Option.map_map]
    congr 2
    funext past
    rw [Shard.part, Shard.build, Shard.build, hs.layout hrank, hs.heads hrank]
    rfl
  rw [forward]
  dsimp only
  rw [← hmask]
  rcases attentionOf_shards E rotaryPositionIds mask hidden h
    (layerPast.map fun past => (past.k, past.v)) with
    ⟨hblock, hnone⟩ | ⟨start, k, v, hblock, hsome⟩
  · have hn : 0 < shards.length := by
      rw [hs.length]
      exact Nat.lt_of_lt_of_le Nat.two_pos h.devices
    obtain ⟨s, rest, rfl⟩ := List.exists_cons_of_length_pos hn
    have hfirst := hshard 0 s rfl
    rw [hnone 0 (hs.length ▸ hn)] at hfirst
    rw [attentionForwards, attentionForward_eq, hfirst, hblock]
    dsimp only
    exact ⟨rfl, fun a ha => by cases ha⟩
  · have hall : ∀ s ∈ shards, attentionOf E s.attn s.layout.localHeads rotaryPositionIds mask hidden
        (s.localLayerPast empty layerPast).1 = some (attendedOver E s.attn s.layout.localHeads
          rotaryPositionIds start mask hidden (s.build 0 k) (s.build 0 v)) := by
      intro s hmem
      obtain ⟨rank, hlt, hget⟩ := List.mem_iff_getElem.mp hmem
      have hrank : shards[rank]? = some s := by rw [List.getElem?_eq_getElem hlt, hget]
      rw [hshard rank s hrank, hsome rank (hs.length ▸ hlt), hs.attn hrank, Shard.build, Shard.build,
        hs.layout hrank, hs.heads hrank, layoutAt_localHeads]
      rfl
    rw [attentionForwards_some shards hall, hblock]
    dsimp only
    refine ⟨?_, fun _ _ => rfl⟩
    have hmap := hs.map_eq (f := fun s => attendedOver E s.attn s.layout.localHeads
        rotaryPositionIds start mask hidden (s.build 0 k) (s.build 0 v))
      (g := fun rank => attendedOver E (shardAttn config w n rank) (config.local n)
        rotaryPositionIds start mask hidden (shardFrames config w n rank k)
        (shardFrames config w n rank v)) fun rank s hrank => by
          rw [hs.attn hrank, Shard.build, Shard.build, hs.layout hrank, hs.heads hrank,
            layoutAt_localHeads]
          rfl
    rw [hmap, Option.bind_some, finish_shards h (hs.map fun s => localLayerPast_static empty s layerPast)]
    rfl

theorem forward_eq_attentionOf {startPosition : ℕ}
    {past : Option (List (Frame R) × List (Frame R))} (hstart : startPosition = 0 ↔ past = none) :
    w.forward E rotaryPositionIds mask startPosition past hidden =
      (attentionOf E w.attn w.numAttentionHeads rotaryPositionIds mask hidden past).map
        (blockOutput E w) := by
  cases past with
  | none =>
    have hzero := hstart.mpr rfl
    subst hzero
    rfl
  | some p =>
    have hne : startPosition ≠ 0 := fun hzero => by cases hstart.mp hzero
    simp only [LlamaBlock.forward, if_neg hne]
    rfl

omit [Field R] [LinearOrder R] in
theorem partsExact_init (hnone : ∀ s ∈ shards, s.remoteCacheState = none)
    (heven : ∀ past, layerPast = some past → past.v.length = past.k.length) :
    PartsExact empty layerPast shards := by
  intro s hs
  cases layerPast with
  | none => rfl
  | some past =>
    have hfresh := Shard.nextState_fresh empty (s := s) (heven past rfl)
      (by rw [hnone s hs]; exact fun state h => by cases h)
    rw [Shard.localLayerPast]
    split_ifs
    · rfl
    · rfl
    · exact congrArg some hfresh.wrap

/-- The first forward pass of a module that the constructor accepts is that of the block, whatever
the number of devices, the mask and the rotary positions. -/
theorem forward_eq_block (hdescribes : config.Describes w)
    (hfits : w.attn.Fits w.numAttentionHeads) {isOutput : List Bool}
    (hinit : init config w isOutput = some shards)
    (heven : ∀ past, layerPast = some past → past.v.length = past.k.length)
    (attentionMask : Option (Mask R)) {startPosition : ℕ}
    (hstart : startPosition = 0 ↔ layerPast = none) :
    (forward E empty shards hidden layerPast attentionMask rotaryPositionIds).1 =
      w.forward E rotaryPositionIds (attentionMask.getD (buildScoreAttentionMask hidden.length
          ((layerPast.map fun past => past.k.length).getD 0)))
        startPosition (layerPast.map fun past => (past.k, past.v)) hidden := by
  obtain ⟨hsplit, hshards, hnone⟩ := init_spec hdescribes hfits hinit
  rw [(forward_shards E rotaryPositionIds hidden hsplit hshards (partsExact_init hnone heven)
    attentionMask rfl).1, forward_eq_attentionOf]
  rw [hstart, Option.map_eq_none_iff]

end

/-- A token is decoded over a cached one. -/
theorem forward_eq_block_twoShards :
    (forward sampleElementary (sampleFrame 0) sampleShards [sampleFrame 3]
        (some (samplePast [sampleFrame 1] [sampleFrame 2])) none none).1 =
      sampleHeads.forward sampleElementary none (buildScoreAttentionMask 1 1) 1
        (some ([sampleFrame 1], [sampleFrame 2])) [sampleFrame 3] :=
  forward_eq_block sampleHeads_described (by decide) sampleShards_init
    (fun past h => by obtain rfl := Option.some.inj h; rfl) none (by decide)

/-! ### The layout of a merged cache -/

section Layout

variable [Field R] {k v : List (Frame R)}

theorem frameAt_frames (t : Tensor3 R) {n j : ℕ} (hj : j < n) (bh d : ℕ) :
    frameAt (t.frames n) j bh d = t.entry bh j d := by
  rw [frameAt, List.getD_eq_getElem?_getD, Tensor3.frames, List.getElem?_map,
    List.getElem?_range hj]
  rfl

/-- A tensor with `head_dim` second is permuted, unless it is square. -/
theorem toBhsd_keyLayout (batchHeads headDim : ℕ) :
    (keyLayout batchHeads headDim k).toBhsd headDim =
      some ⟨(batchHeads, k.length, headDim), fun bh j d =>
        if k.length = headDim then frameAt k d bh j else frameAt k j bh d⟩ := by
  by_cases hsquare : k.length = headDim
  · simp only [Tensor3.toBhsd, keyLayout, hsquare, if_true]
  · simp only [Tensor3.toBhsd, keyLayout, Tensor3.permute021, hsquare, if_false, if_true]

/-- Keys and values in the layout of a merged cache are read back right unless there are as many
positions as channels of a head: then the keys of every head are transposed. -/
theorem unpackLayerPast_merged_iff (config : Config) (hheads : 0 < config.numAttentionHeads)
    (batchSize : ℕ) (hlen : v.length = k.length) :
    ∃ k' v', unpackLayerPast config
        (keyLayout (batchSize * config.numAttentionHeads) config.headDim k)
        (valueLayout (batchSize * config.numAttentionHeads) config.headDim v) =
          some (batchSize, k', v') ∧ k'.length = k.length ∧ v'.length = v.length ∧
      ((∀ j < k.length, ∀ bh < batchSize * config.numAttentionHeads, ∀ d < config.headDim,
          frameAt k' j bh d = frameAt k j bh d ∧ frameAt v' j bh d = frameAt v j bh d) ↔
        k.length ≠ config.headDim ∨ ∀ j < config.headDim,
          ∀ bh < batchSize * config.numAttentionHeads, ∀ d < config.headDim,
            frameAt k d bh j = frameAt k j bh d) := by
  have hbatch : batchSize * config.numAttentionHeads / config.numAttentionHeads = batchSize :=
    Nat.mul_div_cancel _ hheads
  have hguard : ¬(config.numAttentionHeads = 0 ∨
      batchSize * config.numAttentionHeads % config.numAttentionHeads ≠ 0) := by
    rw [Nat.mul_mod_left]
    omega
  have hvalue : (valueLayout (batchSize * config.numAttentionHeads) config.headDim v).toBhsd
      config.headDim = some (valueLayout (batchSize * config.numAttentionHeads) config.headDim v) :=
    if_pos rfl
  have hdim : config.hiddenSize / config.numAttentionHeads = config.headDim := rfl
  let keys : Tensor3 R :=
    ⟨(batchSize * config.numAttentionHeads, k.length, config.headDim), fun bh j d =>
      if k.length = config.headDim then frameAt k d bh j else frameAt k j bh d⟩
  let values : Tensor3 R := valueLayout (batchSize * config.numAttentionHeads) config.headDim v
  refine ⟨keys.frames k.length, values.frames k.length, ?_, ?_, ?_, ?_⟩
  · rw [unpackLayerPast]
    refine (if_neg hguard).trans ?_
    simp only [hdim, toBhsd_keyLayout, hvalue]
    have hfirst : (keyLayout (batchSize * config.numAttentionHeads) config.headDim k).shape.1 /
        config.numAttentionHeads = batchSize := hbatch
    rw [hfirst, if_pos]
    exact ⟨rfl, by simp only [valueLayout, hlen]⟩
  · rw [Tensor3.frames, List.length_map, List.length_range]
  · rw [Tensor3.frames, List.length_map, List.length_range, hlen]
  · have hread : ∀ j < k.length, ∀ bh d, frameAt (keys.frames k.length) j bh d =
        (if k.length = config.headDim then frameAt k d bh j else frameAt k j bh d) ∧
          frameAt (values.frames k.length) j bh d = frameAt v j bh d :=
      fun j hj bh d => ⟨frameAt_frames keys hj bh d, frameAt_frames values hj bh d⟩
    constructor
    · intro h
      by_cases hsquare : k.length = config.headDim
      · refine .inr fun j hj bh hbh d hd => ?_
        have hkey := (h j (hsquare ▸ hj) bh hbh d hd).1
        rw [(hread j (hsquare ▸ hj) bh d).1, if_pos hsquare] at hkey
        exact hkey
      · exact .inl hsquare
    · intro h j hj bh hbh d hd
      refine ⟨?_, (hread j hj bh d).2⟩
      rw [(hread j hj bh d).1]
      split_ifs with hsquare
      · rcases h with hne | hsymm
        · exact absurd hsquare hne
        · exact hsymm j (hsquare ▸ hj) bh hbh d hd
      · rfl

end Layout

/-- Two positions and heads of two channels: the keys come back transposed. -/
theorem unpackLayerPast_merged_square :
    ∃ k' v', unpackLayerPast sampleConfig (keyLayout 2 2 [sampleFrame 1, sampleFrame 3])
        (valueLayout 2 2 [sampleFrame 1, sampleFrame 3]) = some (1, k', v') ∧
      ¬∀ j < 2, ∀ bh < 2, ∀ d < 2,
        frameAt k' j bh d = frameAt [sampleFrame 1, sampleFrame 3] j bh d ∧
          frameAt v' j bh d = frameAt [sampleFrame 1, sampleFrame 3] j bh d := by
  obtain ⟨k', v', hunpack, -, -, hiff⟩ := unpackLayerPast_merged_iff sampleConfig
    (k := [sampleFrame 1, sampleFrame 3])
    (v := [sampleFrame 1, sampleFrame 3]) (by decide) 1 rfl
  refine ⟨k', v', hunpack, fun hall => ?_⟩
  rcases hiff.mp hall with hne | hsymm
  · exact hne rfl
  · have hentry := hsymm 0 (by decide) 0 (by decide) 1 (by decide)
    revert hentry
    norm_num [frameAt, sampleFrame]

/-! ### Sessions

A session over tensor parallel blocks is answered as one over single devices, from shards that
keep no cache on, if no request starts again at position 0 after one that did not
(`serveShardedRequests_eq`). -/

section Session

variable [Field R] [LinearOrder R] {E : Elementary R} {config : Config} {w : LlamaBlock R} {n : ℕ}

/-- A cache whose keys and values are the first of `cache`. -/
def PrefixOf (old : LayerPast R) (cache : BlockCache R) : Prop :=
  old.k = cache.k.take old.k.length ∧ old.v = cache.v.take old.k.length

/-- A block of shards that has done what one device has: the caches are the same, and what its
remote shards keep is a prefix of it, or nothing as long as nothing was looked up. -/
structure Follows (config : Config) (w : LlamaBlock R) (n : ℕ) (t : ShardedBlock R)
    (cache : BlockCache R) (lookedUp : Prop) : Prop where
  split : Split config w n
  same : t.cache = cache
  even : cache.v.length = cache.k.length
  shards : ShardsOf config w n t.shards
  keeping : ∀ s ∈ t.shards, s.isOutputShard = false →
    ∃ last, s.Keeping last ∧ ∀ old, last = some old → lookedUp ∧ PrefixOf old cache

theorem attentionOf_lengths {w : AttentionWeights R} {nHead : ℕ}
    {rotaryPositionIds : Option (ℕ → ℕ → ℕ)} {mask : Mask R} {hidden : List (Frame R)}
    {past : Option (List (Frame R) × List (Frame R))} {a : Attended R}
    (h : attentionOf E w nHead rotaryPositionIds mask hidden past = some a) :
    a.kNew.length = a.vNew.length := by
  rcases past with - | ⟨k, v⟩
  · simp only [attentionOf, mhaLlama] at h
    split_ifs at h
    obtain rfl := Option.some.inj h
    rw [newKeys, newValues, List.length_mapIdx, List.length_map]
  · simp only [attentionOf, mhaGenLlama, Option.map_eq_some_iff] at h
    obtain ⟨c, hc, rfl⟩ := h
    split_ifs at hc
    obtain rfl := Option.some.inj hc
    dsimp only
    rw [newKeys, newValues, List.length_mapIdx, List.length_map]

omit [Field R] [LinearOrder R] in
/-- What the backend selects from a cache extends every prefix of it that is not longer. -/
theorem PrefixOf.agrees {cache : BlockCache R} {old past : LayerPast R} (h : PrefixOf old cache)
    {start : ℕ} (hk : past.k = cache.k.take start) (hv : past.v = cache.v.take start)
    (hext : Shard.Extends past old) (s : Shard R) : s.Agrees past old := by
  obtain ⟨hoddk, holdv⟩ := h
  have hle := hext.2.2.2.2.2
  rw [hk, List.length_take] at hle
  rw [Shard.Agrees, hk, hv, List.take_take, List.take_take, Nat.min_eq_left (by omega), ← hoddk,
    ← holdv]
  exact ⟨rfl, rfl⟩

omit [Field R] [LinearOrder R] in
/-- A call of a shard that keeps a prefix of the cache, for what the backend selects. -/
theorem call_follows (empty : Frame R) {t : ShardedBlock R} {cache : BlockCache R} {lookedUp : Prop}
    (h : Follows config w n t cache lookedUp) (reuse : Bool) {start : ℕ}
    (hstart : lookedUp → start ≠ 0) {s : Shard R} (hs : s ∈ t.shards) :
    (((s.setReuse reuse).localLayerPast empty (t.layerPast start)).1 =
        (t.layerPast start).map s.part) ∧
      (s.isOutputShard = false → ∃ last,
        ((s.setReuse reuse).localLayerPast empty (t.layerPast start)).2.Keeping last ∧
        ∀ old, last = some old → (lookedUp ∨ start ≠ 0) ∧
          PrefixOf old ⟨cache.k.take start, cache.v.take start⟩) := by
  have hpast : ∀ past, t.layerPast start = some past →
      start ≠ 0 ∧ past.k = cache.k.take start ∧ past.v = cache.v.take start := by
    intro past hpast
    rw [ShardedBlock.layerPast, h.same, BlockCache.select] at hpast
    split_ifs at hpast with hzero
    · cases hpast
    · obtain rfl := Option.some.inj hpast
      exact ⟨hzero, rfl, rfl⟩
  cases hout : s.isOutputShard with
  | true =>
    obtain ⟨hlayout, hheads, houtput⟩ := Shard.setReuse_same s reuse
    refine ⟨?_, fun hfalse => by cases hfalse⟩
    cases t.layerPast start with
    | none => rfl
    | some past =>
      rw [Shard.localLayerPast, if_pos (houtput.trans hout), Shard.build, Shard.build, hlayout,
        hheads]
      rfl
  | false =>
    obtain ⟨last, hkeep, hlast⟩ := h.keeping s hs hout
    obtain ⟨-, hiff, hkeeping⟩ := Shard.call_exact_iff empty hkeep hout
      (c := ⟨reuse, t.layerPast start⟩) fun past hp => by
        obtain ⟨-, hk, hv⟩ := hpast past hp
        rw [hk, hv, List.length_take, List.length_take, h.even]
    have hexact := hiff.mpr fun past old _ hp hold hext => by
      obtain ⟨-, hk, hv⟩ := hpast past hp
      exact (hlast old hold).2.agrees hk hv hext s
    refine ⟨hexact, fun _ => ⟨_, hkeeping hexact, fun old hold => ?_⟩⟩
    rw [Shard.lastOf] at hold
    split_ifs at hold
    cases hp : t.layerPast start with
    | none =>
      have hzero : start = 0 := by
        by_contra hne
        rw [ShardedBlock.layerPast, BlockCache.select, if_neg hne] at hp
        cases hp
      rw [hp, Option.none_or] at hold
      exact absurd hzero (hstart (hlast old hold).1)
    | some past =>
      rw [hp, Option.some_or] at hold
      obtain rfl := Option.some.inj hold
      obtain ⟨hne, hk, hv⟩ := hpast past hp
      refine ⟨.inr hne, ?_, ?_⟩
      · rw [← hk, List.take_length]
      · rw [← hv, List.take_of_length_le]
        rw [hk, hv, List.length_take, List.length_take, h.even]

omit [Field R] [LinearOrder R] in
theorem PrefixOf.append {old : LayerPast R} {cache : BlockCache R} (h : PrefixOf old cache)
    (heven : cache.v.length = cache.k.length) (k v : List (Frame R)) :
    PrefixOf old ⟨cache.k ++ k, cache.v ++ v⟩ := by
  obtain ⟨hk, hv⟩ := h
  have hlength := congrArg List.length hk
  rw [List.length_take] at hlength
  constructor
  · rw [List.take_append_of_le_length (by omega), ← hk]
  · rw [List.take_append_of_le_length (by omega), ← hv]

variable {t : ShardedBlock R} {cache : BlockCache R} {lookedUp : Prop} {hidden : List (Frame R)}

/-- What a block of shards computes under a mask is what one device computes. -/
theorem Follows.step (E : Elementary R) (empty : Frame R) (hidden : List (Frame R))
    (mask : Mask R) (h : Follows config w n t cache lookedUp) (reuse : Bool) {start : ℕ}
    (hstart : lookedUp → start ≠ 0) :
    (forward E empty (setRemoteCacheReuseEnabled reuse t.shards) hidden (t.layerPast start)
        (some mask) none).1 = w.forward E none mask start (cache.select start) hidden ∧
    ∀ a shards, forward E empty (setRemoteCacheReuseEnabled reuse t.shards) hidden
        (t.layerPast start) (some mask) none = (some a, shards) →
      Follows config w n { t with
          shards := shards
          cache := t.cache.update start a.kNew a.vNew } (cache.update start a.kNew a.vNew)
        (lookedUp ∨ start ≠ 0) := by
  have hpart : ∀ s : Shard R, (s.setReuse reuse).part = s.part := by
    intro s
    funext past
    rw [Shard.part, Shard.part, (Shard.setReuse_same s reuse).build_eq]
  have hshards : ShardsOf config w n (setRemoteCacheReuseEnabled reuse t.shards) :=
    h.shards.map fun s => by
      rw [Shard.setReuse]
      split_ifs <;> exact ⟨rfl, rfl, rfl, rfl⟩
  have hparts : PartsExact empty (t.layerPast start) (setRemoteCacheReuseEnabled reuse t.shards) := by
    intro s' hs'
    obtain ⟨s, hs, rfl⟩ := List.mem_map.mp hs'
    rw [hpart, (call_follows empty h reuse hstart hs).1]
  have hselect : (t.layerPast start).map (fun past => (past.k, past.v)) = cache.select start := by
    rw [ShardedBlock.layerPast, h.same, Option.map_map]
    exact Option.map_id'
  have hzero : start = 0 ↔ cache.select start = none := by
    rw [BlockCache.select]
    split_ifs with hz <;> simp [hz]
  obtain ⟨hresult, hafter⟩ := forward_shards E none hidden h.split hshards hparts (some mask) rfl
  rw [hselect, Option.getD_some] at hresult
  refine ⟨by rw [hresult, forward_eq_attentionOf hzero], fun a shards ha => ?_⟩
  rw [ha] at hresult hafter
  have hshardsEq := hafter a rfl
  dsimp only at hshardsEq hresult
  obtain ⟨a', ha', rfl⟩ := Option.map_eq_some_iff.mp hresult.symm
  have hlength := attentionOf_lengths ha'
  have heven : (cache.v.take start).length = (cache.k.take start).length := by
    rw [List.length_take, List.length_take, h.even]
  refine ⟨h.split, by rw [h.same], ?_, ?_, fun s' hs' hout => ?_⟩
  · rw [BlockCache.update, List.length_append, List.length_append, heven]
    exact congrArg _ hlength.symm
  · rw [hshardsEq]
    exact hshards.map fun s => localLayerPast_static empty s _
  · rw [hshardsEq, setRemoteCacheReuseEnabled, List.map_map] at hs'
    obtain ⟨s, hs, rfl⟩ := List.mem_map.mp hs'
    have hsame := Shard.localLayerPast_same empty (s.setReuse reuse) (t.layerPast start)
    have hout' : s.isOutputShard = false :=
      (hsame.output.trans (Shard.setReuse_same s reuse).output).symm.trans hout
    obtain ⟨last, hkeep, hlast⟩ := (call_follows empty h reuse hstart hs).2 hout'
    exact ⟨last, hkeep, fun old hold =>
      ⟨(hlast old hold).1, (hlast old hold).2.append heven _ _⟩⟩

theorem forward_uncut {rotaryPositionIds : Option (ℕ → ℕ → ℕ)} {mask : Mask R}
    {start : ℕ} {past : Option (List (Frame R) × List (Frame R))}
    (hne : mask.tgt ≠ hidden.length) :
    w.forward E rotaryPositionIds mask start past hidden = none := by
  have hprefill : mhaLlama E w.attn w.numAttentionHeads rotaryPositionIds mask hidden = none :=
    if_neg fun h => hne h.2.2.1
  have hdecode (k v : List (Frame R)) :
      mhaGenLlama E w.attn w.numAttentionHeads rotaryPositionIds mask k v hidden = none :=
    if_neg fun h => hne h.2.2.1
  unfold LlamaBlock.forward
  rcases past with - | ⟨k, v⟩
  · simp [hprefill]
  · simp [hprefill, hdecode]

/-- A step of a block of shards, in one chunk or several, is that of one device. -/
theorem Follows.inferenceStep (E : Elementary R) (empty : Frame R) (hidden : List (Frame R))
    (chunks : ChunkConfig) (batchSize : ℕ) (h : Follows config w n t cache lookedUp) (reuse : Bool)
    {start : ℕ} (hstart : lookedUp → start ≠ 0) :
    (t.inferenceStep E empty chunks batchSize reuse start hidden = none ∧
      w.inferenceStep E chunks batchSize start cache hidden = none) ∨
    ∃ t' cache' out, t.inferenceStep E empty chunks batchSize reuse start hidden = some (t', out) ∧
      w.inferenceStep E chunks batchSize start cache hidden = some (cache', out) ∧
      Follows config w n t' cache' (lookedUp ∨ start ≠ 0) := by
  unfold ShardedBlock.inferenceStep LlamaBlock.inferenceStep
  rcases hm : estimateMaxChunkLength chunks batchSize hidden.length start with - | m
  · exact .inl ⟨rfl, rfl⟩
  have hmpos := (BackendStep.estimateMaxChunkLength_pos hm).1
  dsimp only
  rcases Nat.eq_zero_or_pos hidden.length with hzero | hpos
  · rw [hzero]
    exact .inl ⟨rfl, rfl⟩
  rcases Nat.lt_or_ge m hidden.length with hlt | hle
  · -- the first chunk raises on both
    have huncut : w.forward E none (stepMask start hidden.length) start (cache.select start)
        (hidden.take m) = none := by
      refine forward_uncut fun htgt => ?_
      rw [List.length_take, Nat.min_eq_left (Nat.le_of_lt hlt)] at htgt
      exact absurd htgt (Nat.ne_of_gt hlt)
    have hfirst := (h.step E empty (hidden.take m) (stepMask start hidden.length) reuse hstart).1
    rw [huncut] at hfirst
    rw [runChunks_raises hmpos hlt (by rw [List.drop_zero, Nat.add_zero, huncut]; rfl)]
    refine .inl ⟨?_, rfl⟩
    split
    · rfl
    · next _ out last shards hrun =>
      have hraises := (congrArg Prod.fst hrun).symm.trans (runChunksIn_raises hmpos hlt (by
        dsimp only
        rw [List.drop_zero, hfirst]
        rfl))
      cases hraises
  · obtain ⟨hresult, hafter⟩ := h.step E empty hidden (stepMask start hidden.length) reuse hstart
    rw [runChunks_single hpos hle, runChunksIn_single hpos hle, List.drop_zero,
      List.take_of_length_le hle, Nat.add_zero, ← hresult]
    generalize forward E empty (setRemoteCacheReuseEnabled reuse t.shards) hidden
      (t.layerPast start) (some (stepMask start hidden.length)) none = r at hafter ⊢
    obtain ⟨- | a, shards⟩ := r
    · exact .inl ⟨rfl, rfl⟩
    · exact .inr ⟨_, _, a.value, rfl, rfl, hafter a shards rfl⟩

variable {blocks : ℕ → LlamaBlock R}

def ChainFollows (config : Config) (blocks : ℕ → LlamaBlock R) (n : ℕ) (lookedUp : Prop) :
    ℕ → List (ShardedBlock R) → List (BlockCache R) → Prop
  | _, [], caches => caches = []
  | _, _ :: _, [] => False
  | b, t :: ts, cache :: caches =>
    Follows config (blocks b) n t cache lookedUp ∧
      ChainFollows config blocks n lookedUp (b + 1) ts caches

variable {chunks : ℕ → ChunkConfig} {batchSize : ℕ}

theorem serveShards_eq (empty : Frame R) (reuse : Bool) {start : ℕ}
    (hstart : lookedUp → start ≠ 0) (ts : List (ShardedBlock R)) :
    ∀ (b : ℕ) (caches : List (BlockCache R)) (hidden : List (Frame R)),
      ChainFollows config blocks n lookedUp b ts caches →
      (serveShards E empty chunks batchSize reuse start b ts hidden = none ∧
        serveFrames E blocks chunks batchSize start b caches hidden = none) ∨
      ∃ ts' caches' out,
        serveShards E empty chunks batchSize reuse start b ts hidden = some (ts', out) ∧
        serveFrames E blocks chunks batchSize start b caches hidden = some (caches', out) ∧
        ChainFollows config blocks n (lookedUp ∨ start ≠ 0) b ts' caches' := by
  induction ts with
  | nil =>
    intro b caches hidden hfollows
    obtain rfl : caches = [] := hfollows
    exact .inr ⟨[], [], hidden, rfl, rfl, rfl⟩
  | cons t ts ih =>
    intro b caches hidden hfollows
    rcases caches with - | ⟨cache, caches⟩
    · cases hfollows
    obtain ⟨hblock, hrest⟩ := hfollows
    rw [serveShards, serveFrames]
    rcases hblock.inferenceStep E empty hidden (chunks b) batchSize reuse hstart with
      ⟨h₁, h₂⟩ | ⟨t', cache', value, h₁, h₂, hblock'⟩
    · rw [h₁, h₂]
      exact .inl ⟨rfl, rfl⟩
    · rw [h₁, h₂]
      dsimp only
      rcases ih (b + 1) caches value hrest with ⟨h₁, h₂⟩ | ⟨ts', caches', out, h₁, h₂, h₃⟩
      · rw [h₁, h₂]
        exact .inl ⟨rfl, rfl⟩
      · rw [h₁, h₂]
        exact .inr ⟨_, _, out, rfl, rfl, hblock', h₃⟩

theorem serveShardedRequests_follows (empty : Frame R) (rs : List (Bool × Request R)) :
    ∀ {lookedUp : Prop} {ts : List (ShardedBlock R)} {caches : List (BlockCache R)},
      ChainFollows config blocks n lookedUp 0 ts caches →
      (lookedUp → ∀ r ∈ rs, r.2.startFromPosition ≠ 0) →
      rs.Pairwise (fun r r' => r.2.startFromPosition ≠ 0 → r'.2.startFromPosition ≠ 0) →
      serveShardedRequests E empty chunks batchSize ts rs =
        serveRequests E blocks chunks batchSize 0 caches (rs.map Prod.snd) := by
  induction rs with
  | nil => exact fun _ _ _ => rfl
  | cons r rs ih =>
    intro lookedUp ts caches hfollows hlooked hpairs
    obtain ⟨reuse, r⟩ := r
    obtain ⟨hlater, hpairs⟩ := List.pairwise_cons.mp hpairs
    rw [serveShardedRequests, List.map_cons, serveRequests]
    split_ifs with hnone
    · rw [ih hfollows (fun h r' hr' => hlooked h r' (List.mem_cons_of_mem _ hr')) hpairs]
    rcases serveShards_eq (E := E) empty reuse
      (fun h => hlooked h (reuse, r) List.mem_cons_self) ts 0 caches r.hidden hfollows with
      ⟨h₁, h₂⟩ | ⟨ts', caches', out, h₁, h₂, h₃⟩
    · rw [h₁, h₂]
    · rw [h₁, h₂]
      dsimp only
      rw [ih h₃ (fun h r' hr' => ?_) hpairs]
      rcases h with h | h
      · exact hlooked h r' (List.mem_cons_of_mem _ hr')
      · exact hlater r' hr' h

/-- The blocks of a session before its first request, as the constructor makes their shards. -/
def Fresh (config : Config) (blocks : ℕ → LlamaBlock R) (isOutput : List Bool) :
    ℕ → List (ShardedBlock R) → Prop
  | _, [] => True
  | b, t :: ts =>
    (t.cache = ⟨[], []⟩ ∧ init config (blocks b) isOutput = some t.shards) ∧
      Fresh config blocks isOutput (b + 1) ts

omit [Field R] [LinearOrder R] in
theorem Fresh.follows {isOutput : List Bool} (hdescribes : ∀ b, config.Describes (blocks b))
    (hfits : ∀ b, (blocks b).attn.Fits (blocks b).numAttentionHeads) :
    ∀ {ts : List (ShardedBlock R)} {b : ℕ}, Fresh config blocks isOutput b ts →
      ChainFollows config blocks isOutput.length False b ts
        (List.replicate ts.length ⟨[], []⟩) := by
  intro ts
  induction ts with
  | nil => exact fun _ => rfl
  | cons t ts ih =>
    intro b h
    obtain ⟨⟨hcache, hinit⟩, hrest⟩ := h
    obtain ⟨hsplit, hshards, hnone⟩ := init_spec (hdescribes b) (hfits b) hinit
    exact ⟨⟨hsplit, hcache, rfl, hshards,
      fun s hs _ => ⟨none, hnone s hs, fun old hold => by cases hold⟩⟩, ih hrest⟩

/-- A session over tensor parallel blocks has the answers of one over single devices, whatever the
number of shards, the chunks of a request and whenever reuse is allowed, if no request starts again
at position 0 after one that did not. -/
theorem serveShardedRequests_eq (empty : Frame R) (hdescribes : ∀ b, config.Describes (blocks b))
    (hfits : ∀ b, (blocks b).attn.Fits (blocks b).numAttentionHeads) {isOutput : List Bool}
    {ts : List (ShardedBlock R)} (hfresh : Fresh config blocks isOutput 0 ts)
    {rs : List (Bool × Request R)}
    (hrestart : rs.Pairwise fun r r' =>
      r.2.startFromPosition ≠ 0 → r'.2.startFromPosition ≠ 0) :
    serveShardedRequests E empty chunks batchSize ts rs =
      serveRequests E blocks chunks batchSize 0 (List.replicate ts.length ⟨[], []⟩)
        (rs.map Prod.snd) :=
  serveShardedRequests_follows empty rs (hfresh.follows hdescribes hfits) (fun h => h.elim) hrestart

/-- Two shards: a prompt, two tokens, and then one that goes back to the second position. -/
theorem serveShardedRequests_eq_twoShards :
    serveShardedRequests sampleElementary (sampleFrame 0) (fun _ => ⟨2, 2, 64⟩) 1
        [⟨sampleShards, ⟨[], []⟩, 1, 2, 0, 0, 1⟩]
        [(true, ⟨0, [sampleFrame 1, sampleFrame 2]⟩), (true, ⟨2, [sampleFrame 3]⟩),
          (true, ⟨3, [sampleFrame 4]⟩), (true, ⟨1, [sampleFrame 5]⟩)] =
      serveRequests sampleElementary (fun _ => sampleHeads) (fun _ => ⟨2, 2, 64⟩) 1 0
        (List.replicate 1 ⟨[], []⟩)
        [⟨0, [sampleFrame 1, sampleFrame 2]⟩, ⟨2, [sampleFrame 3]⟩, ⟨3, [sampleFrame 4]⟩,
          ⟨1, [sampleFrame 5]⟩] := by
  have hfresh : Fresh sampleConfig (fun _ => sampleHeads) [true, false] 0
      [⟨sampleShards, ⟨[], []⟩, 1, 2, 0, 0, 1⟩] := ⟨⟨rfl, sampleShards_init⟩, trivial⟩
  exact serveShardedRequests_eq (sampleFrame 0) (fun _ => sampleHeads_described)
    (fun _ => by decide) hfresh (by decide)

end Session

end BloomBee.TensorParallel
