import BloomBee.Proofs.WrappedBlocks

/-! Falcon blocks over the slab. The cache of a batch row has a column for each query head, and what
is read of it is expanded as if it had one for each key: with fewer keys than query heads, the past
has too many rows for the new keys to be put behind it. -/

set_option autoImplicit false

namespace BloomBee.WrappedBlocks

open BackendStep (ChunkConfig OneChunk)
open KVSlab (Cache Cell Pkv Staging newCell)
open PagedKV (BlockConfig NewKvs)

variable {τ α : Type} {config : FalconConfig}

/-! ### Heads -/

namespace FalconConfig

variable (config)

theorem numKvHeads_pos : 0 < config.numKvHeads := Nat.pos_of_dvd_of_pos config.divides config.pos

theorem groups_mul (hnew : config.newDecoderArchitecture = true) :
    config.numKvHeads * config.numKeyValueGroups = config.numAttentionHeads := by
  rw [numKeyValueGroups, if_pos hnew, Nat.mul_div_cancel' config.divides]

theorem groups_pos : 0 < config.numKeyValueGroups := by
  unfold numKeyValueGroups
  split_ifs
  · exact Nat.div_pos (Nat.le_of_dvd config.pos config.divides) config.numKvHeads_pos
  · exact config.pos
  · exact Nat.one_pos

theorem cachedHeads_new (hnew : config.newDecoderArchitecture = true) :
    config.cachedHeads = config.numKvHeads := by simp [cachedHeads, hnew]

theorem stateHeads_new (hnew : config.newDecoderArchitecture = true) :
    config.stateHeads = config.numAttentionHeads := by simp [stateHeads, hnew]

theorem stateHeads_old (hold : config.newDecoderArchitecture = false) :
    config.stateHeads = config.cachedHeads := by simp [stateHeads, hold]

theorem cachedHeads_dvd : config.cachedHeads ∣ config.numAttentionHeads := by
  unfold cachedHeads
  split_ifs
  · exact config.divides
  · exact Nat.one_dvd _

variable {config}

theorem headOf_lt {h : ℕ} (hlt : h < config.stateHeads) : config.headOf h < config.cachedHeads := by
  unfold headOf
  split_ifs with hnew
  · rw [stateHeads_new config hnew, ← groups_mul config hnew] at hlt
    rw [cachedHeads_new config hnew]
    exact Nat.div_lt_of_lt_mul (Nat.mul_comm _ _ ▸ hlt)
  · rwa [← stateHeads_old config (Bool.not_eq_true _ ▸ hnew)]

end FalconConfig

def spread (kv : Fin config.cachedHeads → Cell α) (h : Fin config.stateHeads) : Cell α :=
  kv ⟨config.headOf h, config.headOf_lt h.isLt⟩

/-- States that have the keys and values `kvs` of each batch row. -/
structure StatesOf (headDim batch len : ℕ) (kvs : ℕ → List (Fin config.cachedHeads → Cell α))
    (states : States (Cell α)) : Prop where
  rows : states.rows = batch * config.stateHeads
  tokens : states.len = len
  d : states.d = headDim
  length : ∀ b < batch, (kvs b).length = len
  cell : ∀ b < batch, ∀ (h : Fin config.stateHeads) (s : ℕ) (kv : Fin config.cachedHeads → Cell α),
    (kvs b)[s]? = some kv → states.cell (b * config.stateHeads + h) s = spread kv h

section States

variable {headDim batch len : ℕ} {kvs : ℕ → List (Fin config.cachedHeads → Cell α)}
  {states : States (Cell α)}

theorem StatesOf.map_eq (h : StatesOf headDim batch len kvs states) {b : ℕ} (hb : b < batch) :
    ((List.range states.len).map fun s (head : Fin config.stateHeads) =>
      states.cell (b * config.stateHeads + head.val) s) = (kvs b).map spread := by
  refine List.ext_getElem? fun s => ?_
  rw [List.getElem?_map, List.getElem?_map, h.tokens]
  by_cases hs : s < len
  · have hkv := List.getElem?_eq_getElem (h.length b hb ▸ hs)
    rw [List.getElem?_range hs, hkv]
    exact congrArg some (funext fun head => h.cell b hb head s _ hkv)
  · rw [List.getElem?_eq_none (by simpa using hs),
      List.getElem?_eq_none (by rw [h.length b hb]; omega)]
    rfl

theorem StatesOf.cat {len' : ℕ} {kvs' : ℕ → List (Fin config.cachedHeads → Cell α)}
    {states' : States (Cell α)} (h : StatesOf headDim batch len kvs states)
    (h' : StatesOf headDim batch len' kvs' states') :
    ∃ all, states.cat states' = some all ∧
      StatesOf headDim batch (len + len') (fun b => kvs b ++ kvs' b) all := by
  refine ⟨_, if_pos ⟨h.rows.trans h'.rows.symm, h.d.trans h'.d.symm⟩, h'.rows, ?_,
    h'.d, ?_, ?_⟩
  · dsimp only
    rw [h.tokens, h'.tokens]
  · intro b hb
    rw [List.length_append, h.length b hb, h'.length b hb]
  · intro b hb head s kv hkv
    dsimp only
    rw [h.tokens]
    split_ifs with hs
    · rw [List.getElem?_append_left (by rw [h.length b hb]; exact hs)] at hkv
      exact h.cell b hb head s kv hkv
    · rw [List.getElem?_append_right (by rw [h.length b hb]; omega), h.length b hb] at hkv
      exact h'.cell b hb head _ kv hkv

theorem StatesOf.drop (h : StatesOf headDim batch len kvs states) (n : ℕ) :
    StatesOf headDim batch (len - n) (fun b => (kvs b).drop n) (states.drop n) := by
  refine ⟨h.rows, ?_, h.d, ?_, ?_⟩
  · rw [States.drop, h.tokens]
  · intro b hb
    rw [List.length_drop, h.length b hb]
  · intro b hb head s kv hkv
    rw [List.getElem?_drop] at hkv
    exact h.cell b hb head _ kv hkv

theorem StatesOf.reorder (h : StatesOf headDim batch len kvs states) :
    ∃ present, reorderCacheFromFalconToBloom config states = some present ∧
      present.rows = batch * config.cachedHeads ∧ present.d = headDim ∧ present.len = len ∧
      ∀ b < batch, ∀ (k : Fin config.cachedHeads) (s : ℕ) (kv : Fin config.cachedHeads → Cell α),
        (kvs b)[s]? = some kv → present.cell (b * config.cachedHeads + k) s = kv k := by
  unfold reorderCacheFromFalconToBloom
  split_ifs with hnew
  · have hgroups := config.groups_mul hnew
    have hrows := h.rows
    rw [config.stateHeads_new hnew] at hrows
    have hbatch : states.rows / config.numAttentionHeads = batch := by
      rw [hrows, Nat.mul_div_cancel _ config.pos]
    have hcollapse : batch * config.numKvHeads * config.numKeyValueGroups = states.rows := by
      rw [Nat.mul_assoc, hgroups, hrows]
    unfold collapseStates
    simp only [hbatch]
    rw [if_pos hcollapse]
    refine ⟨_, rfl, ?_, h.d, h.tokens, fun b hb k s kv hkv => ?_⟩
    · rw [config.cachedHeads_new hnew]
    · have hk := k.isLt
      simp only [config.cachedHeads_new hnew] at hk
      have hhead : k.val * config.numKeyValueGroups < config.stateHeads := by
        rw [config.stateHeads_new hnew, ← hgroups]
        exact Nat.mul_lt_mul_of_pos_right hk config.groups_pos
      have hplace (k : ℕ) : (b * config.cachedHeads + k) * config.numKeyValueGroups =
          b * config.stateHeads + k * config.numKeyValueGroups := by
        rw [config.cachedHeads_new hnew, config.stateHeads_new hnew, Nat.add_mul, Nat.mul_assoc,
          hgroups]
      have hcell := h.cell b hb ⟨_, hhead⟩ s kv hkv
      dsimp only at hcell ⊢
      rw [hplace, hcell]
      unfold spread
      congr 1
      apply Fin.ext
      simp only [FalconConfig.headOf, if_pos hnew]
      exact Nat.mul_div_cancel _ config.groups_pos
  · have hold : config.newDecoderArchitecture = false := Bool.not_eq_true _ ▸ hnew
    have hheads := config.stateHeads_old hold
    refine ⟨states, rfl, hheads ▸ h.rows, h.d, h.tokens, fun b hb k s kv hkv => ?_⟩
    have hplace (k : ℕ) : b * config.cachedHeads + k = b * config.stateHeads + k := by rw [hheads]
    have hcell := h.cell b hb ⟨k.val, by rw [hheads]; exact k.isLt⟩ s kv hkv
    dsimp only at hcell
    rw [hplace, hcell]
    unfold spread
    congr 1
    apply Fin.ext
    simp [FalconConfig.headOf, hold]

end States

/-! ### Steps -/

section Layer

variable (layer : FalconLayer config τ α) {x : Hidden τ}

/-- The layer with a cache of the keys and values of one batch row. -/
def FalconLayer.rowLayer : CausalLayer τ (Fin config.cachedHeads → Cell α) where
  keyValue token position head := layer.keyValue token position head
  output kvs := layer.output (kvs.map spread)

theorem newStates_eq (past : ℕ) : StatesOf layer.headDim x.batch x.seqLength
    (fun b => layer.rowLayer.keyValues past (x.row b)) (layer.newStates x past) := by
  refine ⟨rfl, rfl, rfl, fun b _ => ?_, fun b _ h s kv hkv => ?_⟩
  · rw [CausalLayer.length_keyValues, length_row]
  · have hs : s < x.seqLength := by
      have := (List.getElem?_eq_some_iff.mp hkv).1
      rwa [CausalLayer.length_keyValues, length_row] at this
    have hpos : 0 < config.stateHeads := Nat.zero_lt_of_lt h.isLt
    rw [keyValues_row, List.getElem?_map, List.getElem?_range hs, Option.map_some] at hkv
    obtain rfl := Option.some.inj hkv
    simp only [FalconLayer.newStates]
    rw [Nat.mul_comm b, Nat.mul_add_div hpos, Nat.div_eq_of_lt h.isLt, Nat.add_zero,
      Nat.mul_add_mod, Nat.mod_eq_of_lt h.isLt]
    rfl

/-- Rows of the heads of a cache, where each head of the attention has its own. -/
theorem statesOf_pkv {pkv : Pkv (Cell α)} {states : States (Cell α)}
    (hrows : states.rows = pkv.batch * config.stateHeads) (hlen : states.len = pkv.len)
    (hd : states.d = pkv.d)
    (hcell : ∀ b h s, h < config.stateHeads →
      states.cell (b * config.stateHeads + h) s = pkv.cell b (config.headOf h) s) :
    StatesOf pkv.d pkv.batch pkv.len
      (fun b => reorderCacheFromBloom config.cachedHeads (some pkv) b) states := by
  refine ⟨hrows, hlen, hd, fun b _ => length_reorderCacheFromBloom _ _ _, ?_⟩
  intro b _ h s kv hkv
  have hs : s < pkv.len := by
    have := (List.getElem?_eq_some_iff.mp hkv).1
    rwa [length_reorderCacheFromBloom] at this
  rw [reorderCacheFromBloom, Option.elim_some, List.getElem?_map, List.getElem?_range hs,
    Option.map_some] at hkv
  obtain rfl := Option.some.inj hkv
  exact hcell b h s h.isLt

/-- With a key for each query head, or keys that are not expanded, the past has its rows. -/
theorem reorderPast_eq (hshared : config.newDecoderArchitecture = false ∨
      config.numKvHeads = config.numAttentionHeads) {pkv : Pkv (Cell α)}
    (hheads : pkv.heads = config.numAttentionHeads) :
    ∃ past, reorderCacheFromBloomToFalcon config pkv = some past ∧
      StatesOf pkv.d pkv.batch pkv.len
        (fun b => reorderCacheFromBloom config.cachedHeads (some pkv) b) past := by
  have hplace {heads h : ℕ} (b : ℕ) (hlt : h < heads) :
      (b * heads + h) / heads = b ∧ (b * heads + h) % heads = h := by
    rw [Nat.mul_comm, Nat.mul_add_div (Nat.zero_lt_of_lt hlt), Nat.div_eq_of_lt hlt, Nat.mul_add_mod,
      Nat.mod_eq_of_lt hlt]
    exact ⟨rfl, rfl⟩
  unfold reorderCacheFromBloomToFalcon
  by_cases hnew : config.newDecoderArchitecture = true
  · have hkv : config.numKvHeads = config.numAttentionHeads := by
      rcases hshared with hold | hkv
      · rw [hold] at hnew
        cases hnew
      · exact hkv
    have hgroups : config.numKeyValueGroups = 1 := by
      rw [FalconConfig.numKeyValueGroups, if_pos hnew, hkv, Nat.div_self config.pos]
    have hbatch : pkv.batch * pkv.heads / config.numKvHeads = pkv.batch := by
      rw [hheads, hkv, Nat.mul_div_cancel _ config.pos]
    have hheadOf (h : ℕ) : config.headOf h = h := by
      rw [FalconConfig.headOf, if_pos hnew, hgroups, Nat.div_one]
    simp only [hnew, Bool.not_true, Bool.false_and, Bool.false_eq_true, if_false, if_true,
      expandStates, hbatch, hgroups, Nat.mul_one, Nat.div_one]
    rw [if_pos ⟨Nat.ne_of_gt config.numKvHeads_pos, by rw [hheads, hkv], by rw [hkv]⟩]
    refine ⟨_, rfl, statesOf_pkv ?_ rfl rfl fun b h s hlt => ?_⟩
    · rw [config.stateHeads_new hnew]
    · rw [config.stateHeads_new hnew] at hlt ⊢
      obtain ⟨hdiv, hmod⟩ := hplace b hlt
      dsimp only
      rw [hheads, hdiv, hmod, hheadOf]
  · have hold : config.newDecoderArchitecture = false := Bool.not_eq_true _ ▸ hnew
    have hheadOf (h : ℕ) : config.headOf h = h := by rw [FalconConfig.headOf, if_neg hnew]
    have hstate : (if (!config.newDecoderArchitecture && config.multiQuery) = true
        then min 1 pkv.heads else pkv.heads) = config.stateHeads := by
      have hpos := config.pos
      rw [config.stateHeads_old hold, FalconConfig.cachedHeads, hold]
      by_cases hmulti : config.multiQuery = true
      · simp only [hmulti, Bool.not_false, Bool.and_self, if_true, Bool.not_true, Bool.or_self,
          Bool.false_eq_true, if_false]
        omega
      · have hown := config.own hold (Bool.not_eq_true _ ▸ hmulti)
        simp only [hmulti, Bool.not_false, Bool.and_false, Bool.false_eq_true, if_false,
          Bool.or_true, if_true]
        rw [hheads, hown]
    rw [if_neg hnew]
    refine ⟨_, rfl, statesOf_pkv ?_ rfl rfl fun b h s hlt => ?_⟩
    · dsimp only
      rw [hstate]
    · obtain ⟨hdiv, hmod⟩ := hplace b hlt
      dsimp only
      rw [hstate, hdiv, hmod, hheadOf]

theorem outputs_eq {layerPast : Option (Pkv (Cell α))} {past : ℕ} {states : States (Cell α)}
    (hpast : layerPast.elim 0 Pkv.len = past)
    (h : StatesOf layer.headDim x.batch (past + x.seqLength)
      (fun b => reorderCacheFromBloom config.cachedHeads layerPast b ++
        layer.rowLayer.keyValues past (x.row b)) states) :
    ∃ out new, layer.outputs x past states = some (out, new) ∧
      Gives layer.rowLayer layer.headDim past layerPast x out new := by
  have hlength (b : ℕ) : (reorderCacheFromBloom config.cachedHeads layerPast b).length = past :=
    (length_reorderCacheFromBloom _ _ _).trans hpast
  obtain ⟨present, hpresent, hrows, hd, hlen, hcell⟩ := (h.drop past).reorder
  unfold FalconLayer.outputs
  rw [hpresent]
  refine ⟨_, _, rfl, rfl, fun b hb => ?_, hrows, hd, ?_, fun b hb k t ht => ?_⟩
  · refine outputs_row (hlength b) ?_ fun i hi => ?_
    · rfl
    dsimp only
    rw [h.map_eq hb, attended_eq (sees_causalMask past x.seqLength) b hi (by
      rw [List.length_map, h.length b hb]), inWindow, Option.elim_none, ← List.map_take]
    rfl
  · dsimp only
    rw [hlen, Nat.add_sub_cancel_left]
  · have hkv : ((reorderCacheFromBloom config.cachedHeads layerPast b ++
        layer.rowLayer.keyValues past (x.row b)).drop past)[t]? =
          some (layer.rowLayer.keyValue (x.token b t) (past + t)) := by
      rw [List.drop_left' (hlength b), keyValues_row, List.getElem?_map, List.getElem?_range ht,
        Option.map_some]
    exact hcell b hb k t _ hkv

theorem falconForward_eq (attentionMask : Option AttentionMask) {layerPast : Option (Pkv (Cell α))}
    (positionIds : Option (ℕ → ℕ → ℕ)) {past : ℕ}
    (hcached : Cached config.numAttentionHeads layer.headDim x.batch past layerPast)
    (hshared : layerPast = none ∨ config.newDecoderArchitecture = false ∨
      config.numKvHeads = config.numAttentionHeads) :
    ∃ out new, layer.forward attentionMask layerPast positionIds x = some (out, new) ∧
      Gives layer.rowLayer layer.headDim past layerPast x out new := by
  have hnew := newStates_eq layer (x := x) past
  rcases layerPast with - | pkv
  · obtain rfl : past = 0 := hcached
    exact outputs_eq layer rfl (by simpa [reorderCacheFromBloom] using hnew)
  · obtain ⟨-, rfl, hbatch, hheads, hd⟩ := hcached
    obtain ⟨states, hreorder, hstates⟩ := reorderPast_eq (hshared.resolve_left (by simp)) hheads
    rw [hd, hbatch] at hstates
    obtain ⟨all, hall, hallStates⟩ := hstates.cat hnew
    simp only [FalconLayer.forward, hreorder, hstates.tokens, hall]
    exact outputs_eq layer rfl hallStates

theorem whole_falcon [Inhabited τ] (xs : List τ) :
    whole layer.forward xs = layer.rowLayer.causal.run xs := by
  have hcached : Cached config.numAttentionHeads layer.headDim 1 0
      (none : Option (Pkv (Cell α))) := rfl
  obtain ⟨out, new, hforward, hgives⟩ := falconForward_eq layer (x := .ofRow xs) none none hcached
    (.inl rfl)
  rw [whole, hforward, Option.elim_some, hgives.row 0 Nat.one_pos, row_ofRow]
  rfl

/-- With fewer keys than query heads the expanded past has too many rows. -/
theorem falconForward_none (hnew : config.newDecoderArchitecture = true)
    (hshared : config.numKvHeads ≠ config.numAttentionHeads) (attentionMask : Option AttentionMask)
    (positionIds : Option (ℕ → ℕ → ℕ)) {pkv : Pkv (Cell α)} (hbatch : pkv.batch = x.batch)
    (hpos : 0 < x.batch) (hheads : pkv.heads = config.numAttentionHeads) :
    layer.forward attentionMask (some pkv) positionIds x = none := by
  have hgroups := config.groups_mul hnew
  have hgroupsNe : config.numKeyValueGroups ≠ 1 := by
    intro hone
    rw [hone, Nat.mul_one] at hgroups
    exact hshared hgroups
  have hrows (past : States (Cell α)) (hpast : reorderCacheFromBloomToFalcon config pkv = some past) :
      past.rows = x.batch * config.numAttentionHeads * config.numKeyValueGroups := by
    have hdiv : pkv.batch * pkv.heads / config.numKvHeads = x.batch * config.numKeyValueGroups := by
      rw [hbatch, hheads, ← hgroups, Nat.mul_left_comm,
        Nat.mul_div_cancel_left _ config.numKvHeads_pos]
    unfold reorderCacheFromBloomToFalcon expandStates at hpast
    simp only [hnew, Bool.not_true, Bool.false_and, Bool.false_eq_true, if_false, if_true,
      hdiv] at hpast
    split_ifs at hpast
    obtain rfl := Option.some.inj hpast
    exact Nat.mul_right_comm _ _ _
  unfold FalconLayer.forward
  rcases hpast : reorderCacheFromBloomToFalcon config pkv with - | past
  · simp only [hpast]
  · have hcat : past.cat (layer.newStates x past.len) = none := by
      refine if_neg fun h => ?_
      have heq := h.1
      rw [hrows past hpast, FalconLayer.newStates, config.stateHeads_new hnew] at heq
      exact hgroupsNe (Nat.eq_of_mul_eq_mul_left (Nat.mul_pos hpos config.pos)
        (heq.trans (Nat.mul_one _).symm))
    simp only [hpast, hcat]

end Layer

/-! ### Runs -/

section Run

variable {layer : FalconLayer config τ α} {cfg : BlockConfig} {p : KVMultiplex.Policy}
  {chunks : ChunkConfig} {st : Staging (Cell α)} {c : Cache (Cell α)} {n : ℕ} {old : ℕ → List τ}
  {s : Step τ} {steps : List (Step τ)}

theorem serves_falcon (h : s.prefixLength = 0 ∨ config.newDecoderArchitecture = false ∨
      config.numKvHeads = config.numAttentionHeads) :
    Serves layer.forward config.numAttentionHeads layer.headDim layer.rowLayer s.prefixLength
      s.hidden := by
  intro layerPast hcached
  refine falconForward_eq layer _ _ hcached (h.imp_left fun hzero => ?_)
  rcases layerPast with - | pkv
  · rfl
  · exact absurd hcached.1 (hzero ▸ Nat.lt_irrefl 0)

/-- Steps at position zero are answered, and the step after them that reads the cache raises. -/
theorem serve_reads (hnew : config.newDecoderArchitecture = true)
    (hshared : config.numKvHeads ≠ config.numAttentionHeads)
    (hslab : SlabFor config.cachedHeads layer.headDim cfg config.numAttentionHeads c)
    (h : Admitted chunks (c.batch config.numAttentionHeads) c.seqLen n old (steps ++ [s]))
    (hholds : Holds layer.rowLayer config.numAttentionHeads old c)
    (hfirst : ∀ t ∈ steps, t.prefixLength = 0) (hreads : 0 < s.prefixLength) :
    serve layer.forward cfg p chunks st c (steps ++ [s]) = none := by
  induction steps generalizing c old with
  | nil =>
    obtain ⟨hfollows, -⟩ := h
    obtain ⟨past, hselect, hcached, -⟩ :=
      selectCache_holds (p := p) st hslab hfollows hholds
    rw [List.nil_append, serve, inferenceStep_chunk hfollows hselect hcached]
    rcases past with - | pkv
    · exact absurd (show s.prefixLength = 0 from hcached) hreads.ne'
    · obtain ⟨-, -, hbatch, hheads, -⟩ := hcached
      simp only [falconForward_none layer hnew hshared _ _ hbatch hfollows.nonempty.1 hheads]
  | cons t steps ih =>
    obtain ⟨hfollows, -, hrest⟩ := h
    obtain ⟨c', out, hstep, hshape, hholds, -⟩ := inferenceStep_eq (p := p) st
      (serves_falcon (.inl (hfirst t List.mem_cons_self))) hslab hfollows hholds
    rw [List.cons_append, serve, hstep]
    simp only [ih (hslab.of_shape hshape) (hrest.of_shape hshape) hholds
      (fun t ht => hfirst t (List.mem_cons_of_mem _ ht)), Option.map_none]

/-- The steps whose blocks serve them are answered as whole sequences are. -/
theorem serve_falcon [Inhabited τ]
    (hserves : ∀ t ∈ steps, t.prefixLength = 0 ∨ config.newDecoderArchitecture = false ∨
      config.numKvHeads = config.numAttentionHeads)
    (hslab : SlabFor config.cachedHeads layer.headDim cfg config.numAttentionHeads c)
    (h : Admitted chunks (c.batch config.numAttentionHeads) c.seqLen n (fun _ => []) steps) :
    (serve layer.forward cfg p chunks st c steps).map (·.map Hidden.rows) =
      some (answers (whole layer.forward) (fun _ => []) steps) := by
  rw [serve_eq (fun t ht => serves_falcon (hserves t ht)) hslab h (holds_nil _ _ _),
    answers_congr h]
  intro xs _
  exact (whole_falcon layer xs).symm

theorem Admitted.of_append {batch seqLen : ℕ} {rest : List (Step τ)}
    (h : Admitted chunks batch seqLen n old (steps ++ rest)) :
    Admitted chunks batch seqLen n old steps := by
  induction steps generalizing old with
  | nil => trivial
  | cons t steps ih => exact ⟨h.1, h.2.1, ih h.2.2⟩

end Run

def unitLayer (config : FalconConfig) : FalconLayer config Unit Unit where
  headDim := 1
  keyValue _ _ _ := ⟨fun _ => (), fun _ => ()⟩
  output _ _ _ := ()

def tokenAt (position : ℕ) : Step Unit := ⟨⟨0, 1, 1⟩, position, ⟨1, 1, fun _ _ => ()⟩⟩

def twoPositions (config : FalconConfig) : Cache (Cell Unit) :=
  ⟨2, 1, .whole ⟨config.numAttentionHeads, fun _ _ => ⟨fun _ => (), fun _ => ()⟩⟩⟩

theorem twoPositions_slabFor : SlabFor config.cachedHeads (unitLayer config).headDim
    ⟨some config.numAttentionHeads, none, none⟩ config.numAttentionHeads (twoPositions config) :=
  ⟨rfl, config.pos, config.cachedHeads_dvd, rfl⟩

theorem twoPositions_admitted : Admitted ⟨1, 1, 2⟩
    ((twoPositions config).batch config.numAttentionHeads) 2 2 (fun _ => [])
    ([tokenAt 0] ++ [tokenAt 1]) := by
  have hbatch : (twoPositions config).batch config.numAttentionHeads = 1 := Nat.div_self config.pos
  have hfollows {position : ℕ} {old : ℕ → List Unit} (hroom : position + 1 ≤ 2)
      (hone : OneChunk ⟨1, 1, 2⟩ 1 1 position) (hseen : position ≤ (old 0).length) :
      (tokenAt position).Follows ⟨1, 1, 2⟩ 1 2 old := by
    refine ⟨hone, ⟨Nat.one_pos, Nat.le_refl 1⟩, rfl, ⟨Nat.one_pos, Nat.one_pos⟩, Nat.le_refl 1,
      hroom, fun b hb => ?_⟩
    obtain rfl : b = 0 := Nat.lt_one_iff.mp hb
    exact hseen
  rw [hbatch]
  exact ⟨hfollows (by decide) (by decide) (Nat.le_refl 0), by decide,
    hfollows (by decide) (by decide) (by decide), by decide, trivial⟩

end BloomBee.WrappedBlocks
