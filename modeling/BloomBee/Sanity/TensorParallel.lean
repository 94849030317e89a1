import Mathlib.Tactic.Ring
import BloomBee.Sanity.FlexgenAttention
import BloomBee.Spec.TensorParallel

/-! What one shard does: its kernels compute with the heads of its rank what those of the whole
block compute with all heads, and its partial results add up to theirs. -/

set_option autoImplicit false

namespace BloomBee.TensorParallel

open FlexgenAttention

variable {R : Type}

def Config.local (config : Config) (n : ℕ) : ℕ := config.numAttentionHeads / n

def Config.headDim (config : Config) : ℕ := config.hiddenSize / config.numAttentionHeads

structure Config.Describes (config : Config) (w : LlamaBlock R) : Prop where
  hidden : w.attn.hiddenSize = config.hiddenSize
  q : w.attn.qkvHiddenSize = config.hiddenSize
  kv : w.attn.kvHiddenSize = config.numKeyValueHeads * config.headDim
  invFreq : w.attn.invFreqSize = config.headDim / 2
  heads : w.numAttentionHeads = config.numAttentionHeads
  mlpHidden : w.mlp.hiddenSize = config.hiddenSize
  intermediate : w.mlp.intermediateSize = config.intermediateSize

def layoutAt (config : Config) (devices rank : ℕ) : ShardLayout :=
  let localHeads := config.numAttentionHeads / devices
  let localHidden := localHeads * (config.hiddenSize / config.numAttentionHeads)
  let localIntermediate := config.intermediateSize / devices
  { rank := rank
    qHeadStart := rank * localHeads
    qHeadEnd := rank * localHeads + localHeads
    qHiddenStart := rank * localHidden
    qHiddenEnd := rank * localHidden + localHidden
    ffnStart := rank * localIntermediate
    ffnEnd := rank * localIntermediate + localIntermediate }

/-- A block that the constructor takes for `n` devices. -/
structure Split (config : Config) (w : LlamaBlock R) (n : ℕ) : Prop where
  describes : config.Describes w
  fits : w.attn.Fits w.numAttentionHeads
  devices : 2 ≤ n
  kv : config.numKeyValueHeads = config.numAttentionHeads
  heads : config.numAttentionHeads % n = 0
  intermediate : config.intermediateSize % n = 0

namespace Split

variable {config : Config} {w : LlamaBlock R} {n : ℕ}

theorem heads_eq (h : Split config w n) : w.numAttentionHeads = n * config.local n := by
  rw [h.describes.heads, Config.local, Nat.mul_div_cancel' (Nat.dvd_of_mod_eq_zero h.heads)]

theorem intermediate_eq (h : Split config w n) :
    w.mlp.intermediateSize = n * (config.intermediateSize / n) := by
  rw [h.describes.intermediate, Nat.mul_div_cancel' (Nat.dvd_of_mod_eq_zero h.intermediate)]

theorem local_pos (h : Split config w n) : 0 < config.local n := by
  have hpos := h.fits.1
  rw [h.heads_eq] at hpos
  exact Nat.pos_of_mul_pos_left hpos

theorem headDim_eq (h : Split config w n) :
    w.attn.headDim w.numAttentionHeads = config.headDim := by
  rw [AttentionWeights.headDim, h.describes.q, h.describes.heads, Config.headDim]

theorem headDim_pos (h : Split config w n) : 0 < config.headDim := by
  obtain ⟨hpos, -, -, hgroups, -⟩ := h.fits
  rcases Nat.eq_zero_or_pos config.headDim with hzero | hd
  · rw [AttentionWeights.numKvHeads, h.headDim_eq, hzero, Nat.div_zero, Nat.zero_mul] at hgroups
    omega
  · exact hd

theorem qkv_eq (h : Split config w n) :
    w.attn.qkvHiddenSize = n * (config.local n * config.headDim) := by
  rw [h.fits.qkv_eq, h.headDim_eq, h.heads_eq, Nat.mul_assoc]

theorem groups_eq (h : Split config w n) : w.attn.groups w.numAttentionHeads = 1 := by
  have hkv : w.attn.numKvHeads w.numAttentionHeads = w.numAttentionHeads := by
    rw [AttentionWeights.numKvHeads, h.headDim_eq, h.describes.kv, h.kv, ← h.describes.heads]
    exact Nat.mul_div_cancel _ h.headDim_pos
  rw [AttentionWeights.groups, hkv, Nat.div_self h.fits.1]

end Split

/-! ### The weights of a shard -/

def shardAttn (config : Config) (w : LlamaBlock R) (n rank : ℕ) : AttentionWeights R :=
  (initShard config w false (layoutAt config n rank)).attn

def shardMlp (config : Config) (w : LlamaBlock R) (n rank : ℕ) : MlpWeights R :=
  (initShard config w false (layoutAt config n rank)).mlp

section Layout

variable (config : Config) (w : LlamaBlock R) (n rank : ℕ)

@[simp] theorem layoutAt_localHeads : (layoutAt config n rank).localHeads = config.local n :=
  Nat.add_sub_cancel_left _ _

@[simp] theorem shardAttn_qkvHiddenSize :
    (shardAttn config w n rank).qkvHiddenSize = config.local n * config.headDim :=
  Nat.add_sub_cancel_left _ _

@[simp] theorem shardAttn_kvHiddenSize :
    (shardAttn config w n rank).kvHiddenSize = config.local n * config.headDim :=
  Nat.add_sub_cancel_left _ _

@[simp] theorem shardMlp_intermediateSize :
    (shardMlp config w n rank).intermediateSize = config.intermediateSize / n :=
  Nat.add_sub_cancel_left _ _

end Layout

def shardFrames (config : Config) (w : LlamaBlock R) (n rank : ℕ) (t : List (Frame R)) :
    List (Frame R) :=
  localFrames (layoutAt config n rank) w.numAttentionHeads 0 t

theorem shardFrames_eq (config : Config) (w : LlamaBlock R) (n rank : ℕ) (t : List (Frame R)) :
    shardFrames config w n rank t =
      t.map fun x bh => x (bh / config.local n * w.numAttentionHeads +
        (rank * config.local n + bh % config.local n)) := by
  rw [shardFrames, localFrames, layoutAt_localHeads, List.drop_zero]
  rfl

section Shard

variable {config : Config} {w : LlamaBlock R} {n : ℕ} (h : Split config w n) (rank : ℕ)

include h

theorem shardAttn_headDim : (shardAttn config w n rank).headDim (config.local n) =
    config.headDim := by
  rw [AttentionWeights.headDim, shardAttn_qkvHiddenSize, Nat.mul_div_cancel_left _ h.local_pos]

theorem shardAttn_groups : (shardAttn config w n rank).groups (config.local n) = 1 := by
  rw [AttentionWeights.groups, AttentionWeights.numKvHeads, shardAttn_headDim h,
    shardAttn_kvHiddenSize, Nat.mul_div_cancel _ h.headDim_pos, Nat.div_self h.local_pos]

theorem shardAttn_fits : (shardAttn config w n rank).Fits (config.local n) := by
  have heven := h.fits.2.2.2.2
  rw [h.headDim_eq, h.describes.invFreq] at heven
  refine ⟨h.local_pos, ?_, ?_, ?_, ?_⟩
  · rw [shardAttn_qkvHiddenSize, Nat.mul_mod_right]
  · rw [AttentionWeights.numKvHeads, shardAttn_headDim h, shardAttn_kvHiddenSize,
      Nat.mul_div_cancel _ h.headDim_pos]
  · rw [shardAttn_groups h, AttentionWeights.numKvHeads, shardAttn_headDim h,
      shardAttn_kvHiddenSize, Nat.mul_div_cancel _ h.headDim_pos, Nat.mul_one]
  · rw [shardAttn_headDim h]
    exact heven

/-- Where head `head` of a shard lies among all heads. -/
theorem rank_head_lt {rank head : ℕ} (hrank : rank < n) (hhead : head < config.local n) :
    rank * config.local n + head < w.numAttentionHeads := by
  have hle : (rank + 1) * config.local n ≤ n * config.local n := Nat.mul_le_mul_right _ hrank
  rw [Nat.succ_mul] at hle
  rw [h.heads_eq]
  omega

variable [Field R] {E : Elementary R} {position head : ℕ} {x : ℕ → R}

/-- Head `head` of a shard is head `rank * local + head` of the block. -/
theorem shardAttn_project (proj : ℕ → ℕ → R) (d : ℕ) :
    (shardAttn config w n rank).project E (config.local n)
      (fun o j => proj (rank * (config.local n * config.headDim) + o) j) x head d =
      w.attn.project E w.numAttentionHeads proj x (rank * config.local n + head) d := by
  rw [AttentionWeights.project, AttentionWeights.project, shardAttn_headDim h, h.headDim_eq,
    h.describes.hidden, Nat.add_mul, Nat.mul_assoc, Nat.add_assoc]
  rfl

theorem shardAttn_rotate : (shardAttn config w n rank).rotate E (config.local n) position x =
    w.attn.rotate E w.numAttentionHeads position x := by
  rw [AttentionWeights.rotate, AttentionWeights.rotate, shardAttn_headDim h, h.headDim_eq]
  rfl

theorem shardAttn_queryHead :
    (shardAttn config w n rank).queryHead E (config.local n) position x head =
      w.attn.queryHead E w.numAttentionHeads position x (rank * config.local n + head) := by
  rw [AttentionWeights.queryHead, AttentionWeights.queryHead, shardAttn_rotate h]
  congr 1
  funext d
  exact shardAttn_project h rank w.attn.wQ d

theorem shardAttn_keyHead :
    (shardAttn config w n rank).keyHead E (config.local n) position x head =
      w.attn.keyHead E w.numAttentionHeads position x (rank * config.local n + head) := by
  rw [AttentionWeights.keyHead, AttentionWeights.keyHead, shardAttn_rotate h, shardAttn_groups h,
    h.groups_eq, Nat.div_one, Nat.div_one]
  congr 1
  funext d
  exact shardAttn_project h rank w.attn.wK d

theorem shardAttn_valueHead :
    (shardAttn config w n rank).valueHead E (config.local n) x head =
      w.attn.valueHead E w.numAttentionHeads x (rank * config.local n + head) := by
  rw [AttentionWeights.valueHead, AttentionWeights.valueHead, shardAttn_groups h, h.groups_eq,
    Nat.div_one, Nat.div_one]
  funext d
  exact shardAttn_project h rank w.attn.wV d

/-! ### The kernels of a shard -/

theorem newKeys_shard (rotaryPositionIds : Option (ℕ → ℕ → ℕ)) (start : ℕ)
    (hidden : List (Frame R)) {rank : ℕ} (hrank : rank < n) :
    newKeys E (shardAttn config w n rank) (config.local n) rotaryPositionIds start hidden =
      shardFrames config w n rank
        (newKeys E w.attn w.numAttentionHeads rotaryPositionIds start hidden) := by
  rw [shardFrames_eq]
  refine List.ext_getElem? fun i => ?_
  rw [newKeys, newKeys, List.getElem?_mapIdx, List.getElem?_map, List.getElem?_mapIdx,
    Option.map_map]
  congr 1
  funext x bh
  obtain ⟨hdiv, hmod⟩ := bh_div_mod (b := bh / config.local n)
    (rank_head_lt h hrank (Nat.mod_lt bh h.local_pos))
  dsimp only [Function.comp_apply]
  rw [shardAttn_keyHead h, hdiv, hmod]

theorem newValues_shard (hidden : List (Frame R)) {rank : ℕ} (hrank : rank < n) :
    newValues E (shardAttn config w n rank) (config.local n) hidden =
      shardFrames config w n rank (newValues E w.attn w.numAttentionHeads hidden) := by
  rw [shardFrames_eq, newValues, newValues, List.map_map]
  refine List.map_congr_left fun x _ => ?_
  funext bh
  obtain ⟨hdiv, hmod⟩ := bh_div_mod (b := bh / config.local n)
    (rank_head_lt h hrank (Nat.mod_lt bh h.local_pos))
  dsimp only [Function.comp_apply]
  rw [shardAttn_valueHead h, hdiv, hmod]

omit h in
theorem frameAt_shard (config : Config) (w : LlamaBlock R) (n : ℕ) (t : List (Frame R)) (j b rank : ℕ) {head : ℕ}
    (hhead : head < config.local n) (d : ℕ) : frameAt (shardFrames config w n rank t) j (b * config.local n + head) d =
      frameAt t j (b * w.numAttentionHeads + (rank * config.local n + head)) d := by
  rw [shardFrames_eq, frameAt, frameAt, List.getD_eq_getElem?_getD, List.getD_eq_getElem?_getD,
    List.getElem?_map]
  cases t[j]? with
  | none => rfl
  | some x =>
    rw [Option.map_some, Option.getD_some, Option.getD_some, (bh_div_mod hhead).1,
      (bh_div_mod hhead).2]

variable [LinearOrder R]

/-- Channel `o` of what the heads of batch row `b` attend to, before `w_out`. -/
def attendedChannel (E : Elementary R) (w : AttentionWeights R) (nHead : ℕ)
    (rotaryPositionIds : Option (ℕ → ℕ → ℕ)) (start : ℕ) (mask : Mask R) (k v : List (Frame R))
    (i : ℕ) (x : Frame R) (b o : ℕ) : R :=
  attentionValue E (w.headDim nHead) k.length (mask.score b i)
    (w.queryHead E nHead (rotaryPosition rotaryPositionIds start b i) (x b) (o / w.headDim nHead))
    (fun j => frameAt k j (b * nHead + o / w.headDim nHead))
    (fun j => frameAt v j (b * nHead + o / w.headDim nHead)) (o % w.headDim nHead)

theorem attendedChannel_shard (rotaryPositionIds : Option (ℕ → ℕ → ℕ)) (start : ℕ) (mask : Mask R)
    (k v : List (Frame R)) (i : ℕ) (x : Frame R) (b : ℕ) {o : ℕ}
    (ho : o < config.local n * config.headDim) :
    attendedChannel E (shardAttn config w n rank) (config.local n) rotaryPositionIds start mask
      (shardFrames config w n rank k) (shardFrames config w n rank v) i x b o =
      attendedChannel E w.attn w.numAttentionHeads rotaryPositionIds start mask k v i x b
        (rank * (config.local n * config.headDim) + o) := by
  have hhead : o / config.headDim < config.local n :=
    Nat.div_lt_of_lt_mul (by rw [Nat.mul_comm]; exact ho)
  have hdiv : (rank * (config.local n * config.headDim) + o) / config.headDim =
      rank * config.local n + o / config.headDim := by
    rw [← Nat.mul_assoc, Nat.mul_comm, Nat.mul_add_div h.headDim_pos]
  have hmod : (rank * (config.local n * config.headDim) + o) % config.headDim =
      o % config.headDim := by
    rw [← Nat.mul_assoc, Nat.mul_comm, Nat.mul_add_mod]
  have hlength : (shardFrames config w n rank k).length = k.length := by
    rw [shardFrames_eq, List.length_map]
  rw [attendedChannel, attendedChannel, shardAttn_headDim h, h.headDim_eq, hdiv, hmod, hlength,
    shardAttn_queryHead h, attentionValue, attentionValue]
  refine Softmax.weighted_congr (fun j _ => ?_) fun j _ => frameAt_shard _ _ _ v j b rank hhead _
  congr 2
  exact Finset.sum_congr rfl fun e _ => by rw [frameAt_shard _ _ _ k j b rank hhead]

end Shard

/-! ### Sums over shards -/

section Sums

variable [Field R]

/-- `F.linear` in `n` pieces of `m` inputs. -/
theorem linear_pieces (n m : ℕ) (w : ℕ → ℕ → R) (x : ℕ → R) (c : ℕ) :
    linear (n * m) w x c = ((List.range n).map fun r =>
      linear m (fun c o => w c (r * m + o)) (fun o => x (r * m + o)) c).sum := by
  induction n with
  | zero => rw [Nat.zero_mul]; rfl
  | succ n ih =>
    rw [List.range_succ, List.map_append, List.sum_append, ← ih, Nat.succ_mul, linear,
      Finset.sum_range_add]
    simp [linear]

/-- Partial results that have the residual in them are reduced to their sum, with one residual. -/
theorem reducePartials_eq {n : ℕ} (hn : 0 < n) (residual : List (Frame R))
    (part : ℕ → ℕ → Frame R → Frame R) :
    reducePartials ((List.range n).map fun r =>
        residual.mapIdx fun i x b c => part r i x b c + x b c) residual =
      some (residual.mapIdx fun i x b c =>
        ((List.range n).map fun r => part r i x b c).sum + x b c) := by
  rw [reducePartials, if_neg (by simpa using Nat.pos_iff_ne_zero.mp hn)]
  congr 1
  refine List.ext_getElem? fun i => ?_
  rw [List.getElem?_mapIdx, List.getElem?_mapIdx]
  cases hx : residual[i]? with
  | none => rfl
  | some x =>
    rw [Option.map_some, Option.map_some]
    congr 1
    funext b c
    have hpart : ∀ r, frameAt (residual.mapIdx fun i x b c => part r i x b c + x b c) i b c =
        part r i x b c + x b c := by
      intro r
      rw [frameAt, List.getD_eq_getElem?_getD, List.getElem?_mapIdx, hx]
      rfl
    have hmap : ((fun p => frameAt p i b c) ∘ fun r =>
        residual.mapIdx fun i x b c => part r i x b c + x b c) = fun r => part r i x b c + x b c :=
      funext hpart
    rw [List.map_map, hmap, List.length_map, List.length_range, List.sum_map_add, List.map_const',
      List.sum_replicate, List.length_range, nsmul_eq_mul, Nat.cast_pred hn]
    ring

end Sums

/-! ### The merged cache -/

theorem mergedHead_shards [Field R] {localHeads : ℕ} (t : Frame R) (b c : ℕ) :
    ∀ (k rank : ℕ) {head : ℕ}, head < k * localHeads →
      mergedHead b ((List.range' rank k).map fun r =>
        (localHeads, fun bh => t (bh / localHeads * c + (r * localHeads + bh % localHeads)))) head =
          t (b * c + (rank * localHeads + head)) := by
  intro k
  induction k with
  | zero =>
    intro rank head hhead
    rw [Nat.zero_mul] at hhead
    exact absurd hhead (Nat.not_lt_zero head)
  | succ k ih =>
    intro rank head hhead
    rw [List.range'_succ, List.map_cons, mergedHead]
    split_ifs with hlt
    · rw [(bh_div_mod hlt).1, (bh_div_mod hlt).2]
    · rw [ih (rank + 1) (by rw [Nat.succ_mul] at hhead; omega), Nat.succ_mul]
      congr 2
      omega


/-- The parts of all shards are merged to what they are parts of. -/
theorem mergeCacheParts_shards [Field R] {config : Config} {w : LlamaBlock R} {n : ℕ}
    (h : Split config w n) (t : List (Frame R)) :
    mergeCacheParts (List.replicate n (config.local n))
      ((List.range n).map fun rank => shardFrames config w n rank t) = some t := by
  have hlength : ∀ part ∈ (List.range n).map fun rank => shardFrames config w n rank t,
      part.length = t.length := by
    intro part hpart
    obtain ⟨rank, -, rfl⟩ := List.mem_map.mp hpart
    rw [shardFrames_eq, List.length_map]
  have hheads : ∀ m ∈ List.replicate n (config.local n), 0 < m := by
    intro m hm
    rw [(List.mem_replicate.mp hm).2]
    exact h.local_pos
  have hsum : (List.replicate n (config.local n)).sum = w.numAttentionHeads := by
    rw [List.sum_replicate_nat, h.heads_eq]
  have hzip : ∀ j, (List.replicate n (config.local n)).zip
      (((List.range n).map fun rank => shardFrames config w n rank t).map fun part =>
        frameAt part j) = (List.range' 0 n).map fun r => (config.local n, fun bh =>
          frameAt t j (bh / config.local n * w.numAttentionHeads +
            (r * config.local n + bh % config.local n))) := by
    intro j
    rw [List.map_map, ← List.range_eq_range']
    have hreplicate : List.replicate n (config.local n) =
        (List.range n).map fun _ => config.local n := by
      rw [List.map_const', List.length_range]
    rw [hreplicate, List.zip_map']
    refine List.map_congr_left fun r _ => ?_
    congr 1
    funext bh d
    have hentry := frameAt_shard config w n t j (bh / config.local n) r (Nat.mod_lt bh h.local_pos) d
    rw [Nat.div_add_mod'] at hentry
    exact hentry
  have hhead : ∀ j bh, mergedHead (bh / w.numAttentionHeads) ((List.range' 0 n).map fun r =>
      (config.local n, fun bh => frameAt t j (bh / config.local n * w.numAttentionHeads +
        (r * config.local n + bh % config.local n)))) (bh % w.numAttentionHeads) =
        frameAt t j bh := by
    intro j bh
    rw [mergedHead_shards (frameAt t j) _ _ n 0 (by
      rw [← h.heads_eq]
      exact Nat.mod_lt _ h.fits.1), Nat.zero_mul, Nat.zero_add, Nat.div_add_mod']
  cases hparts : (List.range n).map fun rank => shardFrames config w n rank t with
  | nil =>
    have hn := congrArg List.length hparts
    rw [List.length_map, List.length_range, List.length_nil] at hn
    have := h.devices
    omega
  | cons first rest =>
    have hfirst : first.length = t.length := hlength first (by rw [hparts]; exact List.mem_cons_self)
    have hall : ∀ part ∈ first :: rest, part.length = first.length := by
      intro part hpart
      rw [hfirst]
      exact hlength part (by rw [hparts]; exact hpart)
    rw [mergeCacheParts, if_pos ⟨hall, hheads⟩]
    congr 1
    rw [← hparts, hfirst, hsum]
    simp only [hzip, hhead]
    refine List.ext_getElem? fun j => ?_
    rw [List.getElem?_map]
    by_cases hj : j < t.length
    · rw [List.getElem?_range hj, List.getElem?_eq_getElem hj, Option.map_some]
      congr 1
      funext bh d
      rw [frameAt, List.getD_eq_getElem _ _ hj]
    · rw [List.getElem?_eq_none (by rw [List.length_range]; omega), List.getElem?_eq_none (by omega),
        Option.map_none]

/-! ### Sample values -/

def sampleConfig : Config where
  hiddenSize := 4
  numAttentionHeads := 2
  numKeyValueHeads := 2
  intermediateSize := 2

def sampleHeads : LlamaBlock ℚ where
  attn :=
    { hiddenSize := 4
      qkvHiddenSize := 4
      kvHiddenSize := 4
      wQ := fun o j => o + j
      wK := fun o j => o - j
      wV := fun o j => if o = j then 1 else 0
      wOut := fun o j => o + 2 * j
      inputLayernorm := fun _ => 1
      invFreqSize := 1
      rotaryEmbInvFreq := fun _ => 0 }
  mlp :=
    { hiddenSize := 4
      intermediateSize := 2
      gate := fun m j => m + j
      down := fun c m => c + m
      up := fun m _ => m
      postAttentionLayernorm := fun _ => 1 }
  numAttentionHeads := 2

def sampleShards : List (Shard ℚ) :=
  [initShard sampleConfig sampleHeads true (layoutAt sampleConfig 2 0),
    initShard sampleConfig sampleHeads false (layoutAt sampleConfig 2 1)]

theorem sampleHeads_described : sampleConfig.Describes sampleHeads :=
  ⟨rfl, rfl, rfl, rfl, rfl, rfl, rfl⟩

theorem sampleShards_init :
    init sampleConfig sampleHeads [true, false] = some sampleShards := rfl

def samplePast (k v : List (Frame ℚ)) : LayerPast ℚ where
  keyPtr := 1
  valuePtr := 2
  keyOffset := 0
  valueOffset := 0
  batchSize := 1
  k := k
  v := v

end BloomBee.TensorParallel
