import BloomBee.Spec.TensorParallel
import BloomBee.Sanity.TensorParallel

/-! What a remote shard keeps of the cache is looked up by the address of the tensors, and only the
positions that are new are copied, into buffers with room for them. Over any calls it is given its
part of every cache if and only if no call finds other keys and values at the positions of the one
before (`calls_exact_iff`). -/

set_option autoImplicit false

namespace BloomBee.TensorParallel

open FlexgenAttention

variable {R : Type}

/-! ### Buffers -/

theorem le_nextCapacityLoop (required : ℕ) : ∀ (fuel capacity : ℕ),
    required ≤ capacity * 2 ^ fuel → required ≤ nextCapacityLoop required fuel capacity := by
  intro fuel
  induction fuel with
  | zero =>
    intro capacity h
    rwa [Nat.pow_zero, Nat.mul_one] at h
  | succ fuel ih =>
    intro capacity h
    rw [nextCapacityLoop]
    split_ifs with hlt
    · refine ih _ ?_
      rw [Nat.shiftLeft_eq, Nat.pow_one, Nat.mul_assoc, ← Nat.pow_succ']
      exact h
    · omega

theorem le_nextCapacity (required : ℕ) : required ≤ nextCapacity required := by
  have hpow : required < 2 ^ required := Nat.lt_two_pow_self
  have hloop := le_nextCapacityLoop required required 1 (by omega)
  rw [nextCapacity]
  omega

theorem length_assignAt {t new : List (Frame R)} {start : ℕ} (h : start + new.length ≤ t.length) :
    (assignAt t start new).length = t.length := by
  rw [assignAt, List.length_append, List.length_append, List.length_take, List.length_drop]
  omega

theorem take_assignAt {t new : List (Frame R)} {start n : ℕ} (h : start ≤ t.length)
    (hn : start + new.length = n) : (assignAt t start new).take n = t.take start ++ new := by
  refine List.take_left' ?_
  rw [List.length_append, List.length_take]
  omega

theorem length_localFrames (l : ShardLayout) (totalHeads seqStart : ℕ) (t : List (Frame R)) :
    (localFrames l totalHeads seqStart t).length = t.length - seqStart := by
  rw [localFrames, List.length_map, List.length_drop]

theorem localFrames_split (l : ShardLayout) (totalHeads n : ℕ) (t : List (Frame R)) :
    localFrames l totalHeads 0 t =
      localFrames l totalHeads 0 (t.take n) ++ localFrames l totalHeads n t := by
  rw [localFrames, localFrames, localFrames, ← List.map_append, List.drop_zero, List.drop_zero,
    List.take_append_drop]

namespace RemoteShardCacheState

/-- The filled positions are within the capacity, and the capacity is that of the buffers. -/
structure Filled (state : RemoteShardCacheState R) : Prop where
  le : state.seqLen ≤ state.capacity
  key : state.keyBuffer.length = state.capacity
  value : state.valueBuffer.length = state.capacity

variable (empty : Frame R)

theorem fresh_spec (past : LayerPast R) {k v : List (Frame R)} (hk : k.length = past.k.length)
    (hv : v.length = past.k.length) :
    (fresh empty past k v).Filled ∧ (fresh empty past k v).wrap = (k, v) := by
  have hroom : past.k.length ≤ nextCapacity (max past.k.length (past.k.length + 32)) :=
    Nat.le_trans (Nat.le_max_left _ _) (le_nextCapacity _)
  refine ⟨⟨hroom, ?_, ?_⟩, ?_⟩
  · rw [fresh, length_assignAt (by rw [List.length_replicate]; omega), List.length_replicate]
  · rw [fresh, length_assignAt (by rw [List.length_replicate]; omega), List.length_replicate]
  · rw [fresh, wrap]
    dsimp only
    rw [take_assignAt (Nat.zero_le _) (by omega), take_assignAt (Nat.zero_le _) (by omega)]
    rfl

theorem Filled.grow {state : RemoteShardCacheState R} (h : state.Filled) (seqLen : ℕ) :
    (state.grow empty seqLen).Filled ∧ (state.grow empty seqLen).seqLen = state.seqLen ∧
      (state.grow empty seqLen).wrap = state.wrap ∧
      (seqLen ≤ (state.grow empty seqLen).capacity) := by
  rw [RemoteShardCacheState.grow]
  split_ifs with hlt
  · have hroom : seqLen ≤ nextCapacity (max seqLen (seqLen + 32)) :=
      Nat.le_trans (Nat.le_max_left _ _) (le_nextCapacity _)
    have hle := h.le
    have hk : (state.keyBuffer.take state.seqLen).length = state.seqLen := by
      rw [List.length_take, h.key, Nat.min_eq_left h.le]
    have hv : (state.valueBuffer.take state.seqLen).length = state.seqLen := by
      rw [List.length_take, h.value, Nat.min_eq_left h.le]
    refine ⟨⟨?_, ?_, ?_⟩, rfl, ?_, hroom⟩
    · dsimp only
      omega
    · dsimp only
      rw [length_assignAt (by rw [List.length_replicate]; omega), List.length_replicate]
    · dsimp only
      rw [length_assignAt (by rw [List.length_replicate]; omega), List.length_replicate]
    · rw [wrap, wrap]
      dsimp only
      rw [take_assignAt (Nat.zero_le _) (by omega), take_assignAt (Nat.zero_le _) (by omega)]
      rfl
  · exact ⟨h, rfl, rfl, by omega⟩

theorem Filled.extend {state : RemoteShardCacheState R} (h : state.Filled) {seqLen : ℕ}
    (hle : state.seqLen ≤ seqLen) (tailKey tailValue : List (Frame R))
    (hk : tailKey.length = seqLen - state.seqLen) (hv : tailValue.length = seqLen - state.seqLen) :
    (state.extend empty seqLen tailKey tailValue).Filled ∧
      (state.extend empty seqLen tailKey tailValue).wrap =
        (state.wrap.1 ++ tailKey, state.wrap.2 ++ tailValue) := by
  obtain ⟨hfilled, hseqLen, hwrap, hroom⟩ := h.grow empty seqLen
  have hkey := hfilled.key
  have hvalue := hfilled.value
  simp only [wrap, hseqLen, Prod.mk.injEq] at hwrap
  refine ⟨⟨hroom, ?_, ?_⟩, ?_⟩
  · rw [RemoteShardCacheState.extend]
    dsimp only
    rw [length_assignAt (by omega), hkey]
  · rw [RemoteShardCacheState.extend]
    dsimp only
    rw [length_assignAt (by omega), hvalue]
  · rw [RemoteShardCacheState.extend, wrap, wrap]
    dsimp only
    rw [take_assignAt (by omega) (by omega), take_assignAt (by omega) (by omega), hwrap.1, hwrap.2]

end RemoteShardCacheState

/-! ### A call -/

namespace Shard

def part (s : Shard R) (past : LayerPast R) : List (Frame R) × List (Frame R) :=
  (s.build 0 past.k, s.build 0 past.v)

def Keeps (s : Shard R) : Prop := s.isOutputShard = false ∧ s.remoteCacheReuseEnabled = true

/-- The state is what a call with `past` leaves if the shard was given its part of it. -/
structure Holds (s : Shard R) (past : LayerPast R) (state : RemoteShardCacheState R) : Prop where
  filled : state.Filled
  tensors : state.Matches past
  seqLen : state.seqLen = past.k.length
  wrap : state.wrap = s.part past

/-- `past` is a longer cache, or as long, at the same place as `old`. -/
def Extends (past old : LayerPast R) : Prop :=
  old.keyPtr = past.keyPtr ∧ old.valuePtr = past.valuePtr ∧ old.keyOffset = past.keyOffset ∧
    old.valueOffset = past.valueOffset ∧ old.batchSize = past.batchSize ∧
    old.k.length ≤ past.k.length

/-- The first positions of `past` are those of `old`, as far as the shard is concerned. -/
def Agrees (s : Shard R) (past old : LayerPast R) : Prop :=
  s.build 0 (past.k.take old.k.length) = s.build 0 old.k ∧
    s.build 0 (past.v.take old.k.length) = s.build 0 old.v

variable {s : Shard R} (empty : Frame R) {past : LayerPast R}

theorem length_build (seqStart : ℕ) (t : List (Frame R)) :
    (s.build seqStart t).length = t.length - seqStart := length_localFrames _ _ _ _

theorem nextState_fresh (hv : past.v.length = past.k.length)
    (hstate : ∀ state, s.remoteCacheState = some state →
      ¬(state.Matches past ∧ state.seqLen ≤ past.k.length)) :
    s.Holds past (s.nextState empty past) := by
  obtain ⟨hfilled, hwrap⟩ := RemoteShardCacheState.fresh_spec empty past
    (k := s.build 0 past.k) (v := s.build 0 past.v) (length_build 0 _)
    (by rw [length_build, hv, Nat.sub_zero])
  have hfresh : s.nextState empty past =
      RemoteShardCacheState.fresh empty past (s.build 0 past.k) (s.build 0 past.v) := by
    rw [nextState]
    cases hs : s.remoteCacheState with
    | none => rfl
    | some state =>
      have hnot := hstate state hs
      dsimp only
      split_ifs with hmatches heq hlt
      · exact absurd ⟨hmatches, by omega⟩ hnot
      · exact absurd ⟨hmatches, by omega⟩ hnot
      · rfl
      · rfl
  rw [hfresh]
  exact ⟨hfilled, ⟨rfl, rfl, rfl, rfl, rfl⟩, rfl, hwrap⟩

/-- The state is kept and the rest of `past` is put behind it. -/
theorem nextState_extends {old : LayerPast R} {state : RemoteShardCacheState R}
    (hs : s.remoteCacheState = some state) (hholds : s.Holds old state)
    (hv : past.v.length = past.k.length) (hext : Extends past old) :
    (s.nextState empty past).Filled ∧ (s.nextState empty past).Matches past ∧
      (s.nextState empty past).seqLen = past.k.length ∧
      (s.nextState empty past).wrap = (s.build 0 old.k ++ s.build old.k.length past.k,
        s.build 0 old.v ++ s.build old.k.length past.v) := by
  obtain ⟨hfilled, hmatches, hseqLen, hwrap⟩ := hholds
  obtain ⟨h₁, h₂, h₃, h₄, h₅, hle⟩ := hext
  have hmatches : state.Matches past :=
    ⟨hmatches.1.trans h₁, hmatches.2.1.trans h₂, hmatches.2.2.1.trans h₃,
      hmatches.2.2.2.1.trans h₄, hmatches.2.2.2.2.trans h₅⟩
  rw [nextState, hs]
  dsimp only
  rw [if_pos hmatches]
  split_ifs with heq hlt
  · refine ⟨hfilled, hmatches, heq.symm, ?_⟩
    have hnone : ∀ t : List (Frame R), t.length = past.k.length → s.build old.k.length t = [] := by
      intro t ht
      exact List.eq_nil_of_length_eq_zero (by rw [length_build, ht]; omega)
    rw [hwrap, hnone _ rfl, hnone _ hv, List.append_nil, List.append_nil]
    rfl
  · obtain ⟨hfilled', hwrap'⟩ := hfilled.extend empty (Nat.le_of_lt hlt)
      (s.build state.seqLen past.k) (s.build state.seqLen past.v) (length_build _ _)
      (by rw [length_build, hv])
    refine ⟨hfilled', ?_, rfl, ?_⟩
    · rw [RemoteShardCacheState.extend, RemoteShardCacheState.grow]
      split_ifs <;> exact hmatches
    · rw [hwrap', hwrap, hseqLen]
      rfl
  · exact absurd hle (by omega)

/-- A call that extends the last one is answered right if the earlier positions are those of the last
one, and only then. -/
theorem nextState_holds_iff {old : LayerPast R} {state : RemoteShardCacheState R}
    (hs : s.remoteCacheState = some state) (hholds : s.Holds old state)
    (hv : past.v.length = past.k.length) (hext : Extends past old) :
    (s.nextState empty past).wrap = s.part past ↔ s.Agrees past old := by
  obtain ⟨-, -, -, hwrap⟩ := nextState_extends empty hs hholds hv hext
  have hsplit : ∀ t : List (Frame R), s.build 0 t =
      s.build 0 (t.take old.k.length) ++ s.build old.k.length t :=
    fun t => localFrames_split _ _ _ t
  rw [hwrap, part, hsplit past.k, hsplit past.v, Prod.mk.injEq, List.append_left_inj,
    List.append_left_inj]
  exact ⟨fun h => ⟨h.1.symm, h.2.symm⟩, fun h => ⟨h.1.symm, h.2.symm⟩⟩

end Shard

/-! ### Calls one after another -/

/-- A call of `_local_layer_past`, after `set_remote_cache_reuse_enabled`. -/
structure Call (R : Type) where
  reuse : Bool
  layerPast : Option (LayerPast R)

namespace Shard

/-- The caches that a shard is given in calls one after another. -/
def calls (empty : Frame R) : Shard R → List (Call R) → List (Option (List (Frame R) × List (Frame R)))
  | _, [] => []
  | s, c :: cs =>
    let (past, s) := (s.setReuse c.reuse).localLayerPast empty c.layerPast
    past :: calls empty s cs

/-- What a call with `layerPast` leaves to be reused. -/
def lastOf (last : Option (LayerPast R)) (c : Call R) : Option (LayerPast R) :=
  if c.reuse then c.layerPast.or last else none

/-- Whenever a call extends the last one, the earlier positions have not changed. -/
def EarlierKept (s : Shard R) : Option (LayerPast R) → List (Call R) → Prop
  | _, [] => True
  | last, c :: cs =>
    (∀ past old, c.reuse = true → c.layerPast = some past → last = some old → Extends past old →
      s.Agrees past old) ∧ s.EarlierKept (lastOf last c) cs

/-- What a remote shard keeps is its part of `last`, if reuse is on. -/
def Keeping (s : Shard R) (last : Option (LayerPast R)) : Prop :=
  match last with
  | none => s.remoteCacheState = none
  | some old => s.remoteCacheReuseEnabled = true ∧
    ∃ state, s.remoteCacheState = some state ∧ s.Holds old state

variable {s : Shard R} {last : Option (LayerPast R)}

structure Same (s s' : Shard R) : Prop where
  layout : s'.layout = s.layout
  heads : s'.numAttentionHeads = s.numAttentionHeads
  output : s'.isOutputShard = s.isOutputShard

theorem Same.build_eq {s' : Shard R} (h : Same s s') : s'.build = s.build := by
  funext seqStart t
  rw [build, build, h.layout, h.heads]

theorem setReuse_same (s : Shard R) (enabled : Bool) : Same s (s.setReuse enabled) := by
  rw [Shard.setReuse]
  split_ifs <;> exact ⟨rfl, rfl, rfl⟩

theorem localLayerPast_same (empty : Frame R) (s : Shard R) (layerPast : Option (LayerPast R)) :
    Same s (s.localLayerPast empty layerPast).2 := by
  cases layerPast with
  | none => exact ⟨rfl, rfl, rfl⟩
  | some past =>
    rw [localLayerPast]
    split_ifs <;> exact ⟨rfl, rfl, rfl⟩

theorem Keeping.setReuse (h : s.Keeping last) (enabled : Bool) :
    (s.setReuse enabled).Keeping (if enabled then last else none) ∧
      (s.setReuse enabled).remoteCacheReuseEnabled = enabled := by
  rw [Shard.setReuse]
  split_ifs with heq hon hon
  · exact ⟨h, heq⟩
  · refine ⟨?_, heq⟩
    cases last with
    | none => exact h
    | some old => exact absurd (heq.symm.trans h.1) hon
  · refine ⟨?_, rfl⟩
    cases last with
    | none => exact h
    | some old => exact absurd (h.1.trans hon.symm) heq
  · exact ⟨rfl, rfl⟩

/-- With reuse on, what is kept is wrapped for the call. -/
theorem localLayerPast_reuse (empty : Frame R) (hout : s.isOutputShard = false)
    (hon : s.remoteCacheReuseEnabled = true) (past : LayerPast R) :
    s.localLayerPast empty (some past) = (some (s.nextState empty past).wrap,
      { s with remoteCacheState := some (s.nextState empty past) }) := by
  rw [localLayerPast, if_neg (by rw [hout]; decide), if_neg (by rw [hon]; decide)]

/-- A call with reuse: the shard is given its part if the earlier positions have not changed, and
only then, and keeps it. -/
theorem nextState_keeping (empty : Frame R) (h : s.Keeping last) {past : LayerPast R}
    (hv : past.v.length = past.k.length) :
    ((s.nextState empty past).wrap = s.part past ↔
        ∀ old, last = some old → Extends past old → s.Agrees past old) ∧
      ((s.nextState empty past).wrap = s.part past → s.Holds past (s.nextState empty past)) := by
  cases last with
  | none =>
    have hholds := nextState_fresh empty hv (s := s) (by rw [h]; exact fun state hs => by cases hs)
    exact ⟨iff_of_true hholds.wrap (fun old hold => by cases hold), fun _ => hholds⟩
  | some old =>
    obtain ⟨-, state, hstate, hholds⟩ := h
    by_cases hext : Extends past old
    · refine ⟨?_, fun hwrap => ?_⟩
      · rw [nextState_holds_iff empty hstate hholds hv hext]
        exact ⟨fun hagrees old' hold _ => Option.some.inj hold ▸ hagrees, fun hall => hall old rfl hext⟩
      · obtain ⟨hfilled, hmatches, hseqLen, -⟩ := nextState_extends empty hstate hholds hv hext
        exact ⟨hfilled, hmatches, hseqLen, hwrap⟩
    · have hfresh := nextState_fresh empty hv (s := s) fun state' hs' hboth => hext (by
        obtain rfl := Option.some.inj (hstate.symm.trans hs')
        obtain ⟨⟨h₁, h₂, h₃, h₄, h₅⟩, hle⟩ := hboth
        obtain ⟨g₁, g₂, g₃, g₄, g₅⟩ := hholds.tensors
        exact ⟨g₁.symm.trans h₁, g₂.symm.trans h₂, g₃.symm.trans h₃, g₄.symm.trans h₄,
          g₅.symm.trans h₅, hholds.seqLen ▸ hle⟩)
      exact ⟨iff_of_true hfresh.wrap fun old' hold hext' =>
        absurd hext' (Option.some.inj hold ▸ hext), fun _ => hfresh⟩

theorem call_exact_iff (empty : Frame R) (h : s.Keeping last) (hout : s.isOutputShard = false)
    {c : Call R} (hv : ∀ past, c.layerPast = some past → past.v.length = past.k.length) :
    Same s ((s.setReuse c.reuse).localLayerPast empty c.layerPast).2 ∧
      (((s.setReuse c.reuse).localLayerPast empty c.layerPast).1 = c.layerPast.map s.part ↔
        ∀ past old, c.reuse = true → c.layerPast = some past → last = some old →
          Extends past old → s.Agrees past old) ∧
      (((s.setReuse c.reuse).localLayerPast empty c.layerPast).1 = c.layerPast.map s.part →
        ((s.setReuse c.reuse).localLayerPast empty c.layerPast).2.Keeping (lastOf last c)) := by
  obtain ⟨hkeep, hflag⟩ := h.setReuse c.reuse
  have hsame := setReuse_same s c.reuse
  generalize s.setReuse c.reuse = s₁ at hkeep hflag hsame ⊢
  have hpart : s₁.part = s.part := by
    funext past
    rw [part, part, hsame.build_eq]
  have hagrees : s₁.Agrees = s.Agrees := by
    funext past old
    rw [Agrees, Agrees, hsame.build_eq]
  cases hpast : c.layerPast with
  | none =>
    refine ⟨hsame, iff_of_true rfl (fun past old _ hp => by cases hp), fun _ => ?_⟩
    rw [lastOf, hpast, Option.none_or]
    exact hkeep
  | some past =>
    have hout₁ : s₁.isOutputShard = false := hsame.output.trans hout
    cases hreuse : c.reuse with
    | false =>
      rw [localLayerPast, if_neg (by rw [hout₁]; decide), if_pos (by rw [hflag, hreuse]; rfl)]
      refine ⟨⟨hsame.layout, hsame.heads, hsame.output⟩, iff_of_true ?_ (fun _ _ hr => by cases hr),
        fun _ => ?_⟩
      · rw [Option.map_some, ← hpart]
        rfl
      · rw [lastOf, hreuse]
        rfl
    | true =>
      rw [hreuse, if_pos rfl] at hkeep
      rw [localLayerPast_reuse empty hout₁ (hflag.trans hreuse), Option.map_some, ← hpart, ← hagrees,
        Option.some.injEq]
      obtain ⟨hiff, hholds⟩ := nextState_keeping empty hkeep (hv past hpast)
      refine ⟨⟨hsame.layout, hsame.heads, hsame.output⟩, hiff.trans ?_, fun hwrap => ?_⟩
      · exact ⟨fun hall past' old _ hp hold hext => by
            obtain rfl := Option.some.inj hp
            exact hall old hold hext,
          fun hall old hold hext => hall past old rfl rfl hold hext⟩
      · rw [lastOf, hreuse, hpast, if_pos rfl, Option.some_or]
        obtain ⟨hfilled, hmatches, hseqLen, hwrap'⟩ := hholds hwrap
        exact ⟨hflag.trans hreuse, _, rfl, hfilled, hmatches, hseqLen, hwrap'⟩

theorem Same.earlierKept {s' : Shard R} (h : Same s s') :
    ∀ {last : Option (LayerPast R)} (cs : List (Call R)),
      s'.EarlierKept last cs ↔ s.EarlierKept last cs := by
  intro last cs
  induction cs generalizing last with
  | nil => exact Iff.rfl
  | cons c cs ih => simp only [EarlierKept, ih, Agrees, h.build_eq]

theorem keeping_exact_iff (empty : Frame R) (cs : List (Call R)) :
    ∀ {s : Shard R} {last : Option (LayerPast R)}, s.Keeping last → s.isOutputShard = false →
      (∀ c ∈ cs, ∀ past, c.layerPast = some past → past.v.length = past.k.length) →
      (s.calls empty cs = cs.map (fun c => c.layerPast.map s.part) ↔ s.EarlierKept last cs) := by
  induction cs with
  | nil => exact fun _ _ _ => iff_of_true rfl trivial
  | cons c cs ih =>
    intro s last hkeep hout heven
    obtain ⟨hsame, hiff, hkeeping⟩ := call_exact_iff empty hkeep hout (heven c List.mem_cons_self)
    have hpart : ((s.setReuse c.reuse).localLayerPast empty c.layerPast).2.part = s.part := by
      funext past
      rw [part, part, hsame.build_eq]
    rw [calls, EarlierKept]
    dsimp only
    rw [List.map_cons, List.cons.injEq, ← hiff]
    refine and_congr_right fun hexact => ?_
    have hrest := ih (hkeeping hexact) (hsame.output.trans hout)
      fun c' hc' => heven c' (List.mem_cons_of_mem _ hc')
    rw [hpart, hsame.earlierKept] at hrest
    exact hrest

/-- Over any calls, a shard that starts without a kept cache is given its part of every cache if and
only if no call that extends the last one finds other keys and values at the positions of that. -/
theorem calls_exact_iff (empty : Frame R) {s : Shard R} (hout : s.isOutputShard = false)
    (hstart : s.remoteCacheState = none) {cs : List (Call R)}
    (heven : ∀ c ∈ cs, ∀ past, c.layerPast = some past → past.v.length = past.k.length) :
    s.calls empty cs = cs.map (fun c => c.layerPast.map s.part) ↔ s.EarlierKept none cs :=
  keeping_exact_iff empty cs hstart hout heven

end Shard

/-- A prompt and a token more, and then another prompt at the same address, for which the shard
still gets the first. -/
theorem calls_exact_iff_restarted :
    let s : Shard ℚ := initShard sampleConfig sampleHeads false (layoutAt sampleConfig 2 1)
    let first := samplePast [sampleFrame 1, sampleFrame 2] [sampleFrame 1, sampleFrame 2]
    let longer := samplePast [sampleFrame 1, sampleFrame 2, sampleFrame 3]
      [sampleFrame 1, sampleFrame 2, sampleFrame 3]
    let other := samplePast [sampleFrame 4, sampleFrame 5] [sampleFrame 4, sampleFrame 5]
    s.calls (sampleFrame 0) [⟨true, some first⟩, ⟨true, some longer⟩] =
        [some (s.part first), some (s.part longer)] ∧
      s.calls (sampleFrame 0) [⟨true, some first⟩, ⟨true, some other⟩] ≠
        [some (s.part first), some (s.part other)] := by
  have heven : ∀ (a b : LayerPast ℚ), a.v.length = a.k.length → b.v.length = b.k.length →
      ∀ c ∈ [(⟨true, some a⟩ : Call ℚ), ⟨true, some b⟩], ∀ past, c.layerPast = some past →
        past.v.length = past.k.length := by
    intro a b ha hb c hc past hpast
    simp only [List.mem_cons, List.not_mem_nil, or_false] at hc
    rcases hc with rfl | rfl <;> obtain rfl := Option.some.inj hpast
    · exact ha
    · exact hb
  intro s first longer other
  constructor
  · refine (Shard.calls_exact_iff (sampleFrame 0) rfl rfl (heven first longer rfl rfl)).mpr
      ⟨fun past old _ _ hold => (by cases hold), fun past old _ hp hold _ => ?_, trivial⟩
    obtain rfl := Option.some.inj hp
    obtain rfl := Option.some.inj hold
    exact ⟨rfl, rfl⟩
  · intro h
    have hkept := (Shard.calls_exact_iff (sampleFrame 0) rfl rfl (heven first other rfl rfl)).mp h
    have hagrees := hkept.2.1 other first rfl rfl rfl ⟨rfl, rfl, rfl, rfl, rfl, Nat.le_refl 2⟩
    have hentry := congrArg (fun t => frameAt t 0 0 0) hagrees.1
    revert hentry
    norm_num [s, first, other, samplePast, Shard.build, localFrames, frameAt, sampleFrame, initShard,
      layoutAt, sampleConfig, ShardLayout.localHeads]

end BloomBee.TensorParallel
