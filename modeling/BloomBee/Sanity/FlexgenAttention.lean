import BloomBee.Lib.Causal
import BloomBee.Spec.FlexgenAttention
import Mathlib.Data.List.GetD
import Mathlib.Tactic.Linarith
import Mathlib.Tactic.NormNum

/-! What the kernels of a FlexGen block do to one batch row: a token attends to the keys and values
up to its own, wherever these come from. -/

set_option autoImplicit false

namespace BloomBee.FlexgenAttention

variable {R : Type}

structure KeyValue (R : Type) where
  key : ℕ → ℕ → R
  value : ℕ → ℕ → R

def rowOf (b : ℕ) (hidden : List (Frame R)) : List (ℕ → R) := hidden.map fun x => x b

def headsOf [Zero R] (nHead b : ℕ) (t : Frame R) (head : ℕ) : ℕ → R :=
  if head < nHead then t (b * nHead + head) else fun _ => 0

def kvRow [Zero R] (nHead b : ℕ) (k v : List (Frame R)) : List (KeyValue R) :=
  List.zipWith (fun k v => ⟨headsOf nHead b k, headsOf nHead b v⟩) k v

def kvAt [Zero R] (ctx : List (KeyValue R)) (j : ℕ) : KeyValue R :=
  ctx.getD j ⟨fun _ _ => 0, fun _ _ => 0⟩

namespace LlamaBlock

variable [Field R] [LinearOrder R] (E : Elementary R) (w : LlamaBlock R)

def score (position : ℕ) (x : ℕ → R) (head : ℕ) (kv : KeyValue R) : R :=
  (∑ e ∈ Finset.range (w.attn.headDim w.numAttentionHeads),
    w.attn.queryHead E w.numAttentionHeads position x head e * kv.key head e) /
      E.sqrt (w.attn.headDim w.numAttentionHeads)

/-- The attention of a token that sees all of `ctx`. -/
def attendTo (ctx : List (KeyValue R)) (x : ℕ → R) (position c : ℕ) : R :=
  linear w.attn.qkvHiddenSize w.attn.wOut (fun o =>
    let head := o / w.attn.headDim w.numAttentionHeads
    Softmax.weighted E.exp ctx.length (fun j => w.score E position x head (kvAt ctx j))
      fun j => (kvAt ctx j).value head (o % w.attn.headDim w.numAttentionHeads)) c + x c

def layer : CausalLayer (ℕ → R) (KeyValue R) where
  keyValue x position :=
    ⟨fun head => if head < w.numAttentionHeads then
        w.attn.keyHead E w.numAttentionHeads position x head else fun _ => 0,
      fun head => if head < w.numAttentionHeads then
        w.attn.valueHead E w.numAttentionHeads x head else fun _ => 0⟩
  output ctx x position := mlpLlama E w.mlp (w.attendTo E ctx x position)

/-- The scores of a token are not so far apart that one of them, lowered by a mask, counts. In
single precision `exp` underflows from `-104` on. -/
def ScoresNear (ctx : List (KeyValue R)) (x : ℕ → R) (position : ℕ) : Prop :=
  ∀ head < w.numAttentionHeads, ∀ kv ∈ ctx, ∀ kv' ∈ ctx,
    w.score E position x head kv ≤ w.score E position x head kv' + (-maskedScore - 104)

/-- That holds of each of the new tokens `xs`, over all there is. -/
def RowNear (past : List (KeyValue R)) (xs : List (ℕ → R)) : Prop :=
  ∀ i x, xs[i]? = some x →
    w.ScoresNear E (past ++ (w.layer E).keyValues past.length xs) x (past.length + i)

end LlamaBlock

/-! ### Rows -/

theorem ext_rowOf {s t : List (Frame R)} (h : ∀ b, rowOf b s = rowOf b t) : s = t := by
  refine List.ext_getElem? fun i => ?_
  have hrow : ∀ b, (s[i]?).map (fun x => x b) = (t[i]?).map fun x => x b := fun b => by
    rw [← List.getElem?_map, ← List.getElem?_map]
    exact congrArg (·[i]?) (h b)
  cases hs : s[i]? with
  | none =>
    cases ht : t[i]? with
    | none => rfl
    | some y => simp [hs, ht] at hrow
  | some x =>
    cases ht : t[i]? with
    | none => simp [hs, ht] at hrow
    | some y =>
      congr 1
      funext b
      simpa [hs, ht] using hrow b

section Rows

variable [Zero R] {nHead b : ℕ} {k v : List (Frame R)}

theorem length_kvRow (h : k.length = v.length) : (kvRow nHead b k v).length = k.length := by
  rw [kvRow, List.length_zipWith, h, Nat.min_self]

theorem kvRow_append {k' v' : List (Frame R)} (h : k.length = v.length) :
    kvRow nHead b (k ++ k') (v ++ v') = kvRow nHead b k v ++ kvRow nHead b k' v' :=
  List.zipWith_append h

theorem take_kvRow (n : ℕ) : (kvRow nHead b k v).take n = kvRow nHead b (k.take n) (v.take n) :=
  List.take_zipWith

theorem kvAt_kvRow {j : ℕ} (hk : j < k.length) (hv : j < v.length) {head : ℕ} (hhead : head < nHead)
    (d : ℕ) : (kvAt (kvRow nHead b k v) j).key head d = frameAt k j (b * nHead + head) d ∧
      (kvAt (kvRow nHead b k v) j).value head d = frameAt v j (b * nHead + head) d := by
  have hj : j < (kvRow nHead b k v).length := by
    rw [kvRow, List.length_zipWith]
    omega
  rw [kvAt, List.getD_eq_getElem _ _ hj, frameAt, frameAt, List.getD_eq_getElem _ _ hk,
    List.getD_eq_getElem _ _ hv]
  simp only [kvRow, List.getElem_zipWith, headsOf, if_pos hhead, and_self]

theorem kvAt_mem {ctx : List (KeyValue R)} {j : ℕ} (hj : j < ctx.length) : kvAt ctx j ∈ ctx := by
  rw [kvAt, List.getD_eq_getElem _ _ hj]
  exact List.getElem_mem hj

theorem kvAt_take {ctx : List (KeyValue R)} {j n : ℕ} (hj : j < n) :
    kvAt (ctx.take n) j = kvAt ctx j := by
  rw [kvAt, kvAt, List.getD_eq_getElem?_getD, List.getD_eq_getElem?_getD, List.getElem?_take,
    if_pos hj]

end Rows

/-- Batch row `b` and head `head` of `nHead` heads. -/
theorem bh_div_mod {b nHead head : ℕ} (h : head < nHead) :
    (b * nHead + head) / nHead = b ∧ (b * nHead + head) % nHead = head := by
  constructor
  · rw [Nat.mul_comm, Nat.mul_add_div (Nat.zero_lt_of_lt h), Nat.div_eq_of_lt h, Nat.add_zero]
  · rw [Nat.mul_comm, Nat.mul_add_mod, Nat.mod_eq_of_lt h]

/-! ### A token and its mask -/

theorem AttentionWeights.Fits.qkv_eq {w : AttentionWeights R} {nHead : ℕ} (h : w.Fits nHead) :
    w.qkvHiddenSize = nHead * w.headDim nHead := by
  rw [headDim, Nat.mul_div_cancel' (Nat.dvd_of_mod_eq_zero h.2.1)]

theorem AttentionWeights.Fits.head_lt {w : AttentionWeights R} {nHead o : ℕ} (h : w.Fits nHead)
    (ho : o < w.qkvHiddenSize) : o / w.headDim nHead < nHead :=
  Nat.div_lt_of_lt_mul (by rw [Nat.mul_comm, ← h.qkv_eq]; exact ho)

theorem linear_congr [Field R] {inputs o : ℕ} {w : ℕ → ℕ → R} {x y : ℕ → R}
    (h : ∀ j < inputs, x j = y j) : linear inputs w x o = linear inputs w y o :=
  Finset.sum_congr rfl fun j hj => by rw [h j (Finset.mem_range.mp hj)]

section

variable [Field R] [LinearOrder R] {E : Elementary R} {w : LlamaBlock R}

/-- The keys and values that the kernels compute are those of the row's layer. -/
theorem kvRow_new (E : Elementary R) (w : LlamaBlock R) (start b : ℕ) (hidden : List (Frame R)) :
    kvRow w.numAttentionHeads b (newKeys E w.attn w.numAttentionHeads none start hidden)
      (newValues E w.attn w.numAttentionHeads hidden) =
      (w.layer E).keyValues start (rowOf b hidden) := by
  refine List.ext_getElem? fun i => ?_
  simp only [kvRow, newKeys, newValues, rowOf, CausalLayer.keyValues, List.getElem?_zipWith,
    List.getElem?_mapIdx, List.getElem?_map]
  cases hidden[i]? with
  | none => rfl
  | some x =>
    simp only [Option.map_some, Option.some.injEq]
    rw [LlamaBlock.layer]
    congr 1
    · funext head
      rw [headsOf]
      split_ifs with hlt
      · rw [(bh_div_mod hlt).1, (bh_div_mod hlt).2, rotaryPosition]
      · rfl
    · funext head
      rw [headsOf]
      split_ifs with hlt
      · rw [(bh_div_mod hlt).1, (bh_div_mod hlt).2]
      · rfl

/-- Two pieces of a sequence are near if the whole is. -/
theorem LlamaBlock.RowNear.split {old new : List (ℕ → R)} (h : w.RowNear E [] (old ++ new)) :
    w.RowNear E [] old ∧ w.RowNear E ((w.layer E).keyValues 0 old) new := by
  constructor
  · intro i x hx head hhead kv hkv kv' hkv'
    have hmem : ∀ kv ∈ (w.layer E).keyValues 0 old, kv ∈ (w.layer E).keyValues 0 (old ++ new) :=
      fun kv hkv => by
        rw [CausalLayer.keyValues_append]
        exact List.mem_append_left _ hkv
    exact h i x (by rw [List.getElem?_append_left (List.getElem?_eq_some_iff.mp hx).1, hx]) head
      hhead kv (hmem kv hkv) kv' (hmem kv' hkv')
  · intro i x hx
    have hnear := h (old.length + i) x
      (by rw [List.getElem?_append_right (Nat.le_add_right _ _), Nat.add_sub_cancel_left, hx])
    rw [CausalLayer.length_keyValues]
    rwa [List.nil_append, List.length_nil, CausalLayer.keyValues_append, Nat.zero_add,
      Nat.zero_add] at hnear

variable [IsStrictOrderedRing R]

/-- A token whose mask leaves the first `n` keys attends to these. -/
theorem attentionValue_masked (hexp : ∀ x ≤ (-104 : R), E.exp x = 0)
    {k v : List (Frame R)} (hlen : k.length = v.length) {b n position head : ℕ} {x : ℕ → R}
    (hhead : head < w.numAttentionHeads) (hn : 0 < n) (hle : n ≤ k.length)
    (hnear : w.ScoresNear E (kvRow w.numAttentionHeads b k v) x position) {mask : ℕ → R}
    (hopen : ∀ j < n, mask j = 0) (hmasked : ∀ j, n ≤ j → j < k.length → mask j = maskedScore) (d : ℕ) :
    attentionValue E (w.attn.headDim w.numAttentionHeads) k.length mask
      (w.attn.queryHead E w.numAttentionHeads position x head)
      (fun j => frameAt k j (b * w.numAttentionHeads + head))
      (fun j => frameAt v j (b * w.numAttentionHeads + head)) d =
      Softmax.weighted E.exp n
        (fun j => w.score E position x head (kvAt (kvRow w.numAttentionHeads b k v) j))
        fun j => (kvAt (kvRow w.numAttentionHeads b k v) j).value head d := by
  have hctx : (kvRow w.numAttentionHeads b k v).length = k.length := length_kvRow hlen
  have hscore : ∀ j < k.length,
      (∑ e ∈ Finset.range (w.attn.headDim w.numAttentionHeads),
        w.attn.queryHead E w.numAttentionHeads position x head e *
          frameAt k j (b * w.numAttentionHeads + head) e) /
        E.sqrt (w.attn.headDim w.numAttentionHeads) =
        w.score E position x head (kvAt (kvRow w.numAttentionHeads b k v) j) := by
    intro j hj
    rw [LlamaBlock.score]
    congr 1
    exact Finset.sum_congr rfl fun e _ => by rw [(kvAt_kvRow hj (hlen ▸ hj) hhead e).1]
  rw [attentionValue, Softmax.weighted_congr (t := fun j =>
      w.score E position x head (kvAt (kvRow w.numAttentionHeads b k v) j) + mask j)
    (u := fun j => (kvAt (kvRow w.numAttentionHeads b k v) j).value head d)
    (fun j hj => by rw [hscore j hj])
    (fun j hj => (kvAt_kvRow hj (hlen ▸ hj) hhead d).2.symm)]
  rw [Softmax.weighted_masked (by norm_num) hexp hn hle]
  · exact Softmax.weighted_congr (fun j hj => by rw [hopen j hj, add_zero]) fun _ _ => rfl
  · intro j hj hjk
    -- a masked score is compared with that of the first key
    have hfirst := Softmax.le_maxUpTo (fun j =>
      w.score E position x head (kvAt (kvRow w.numAttentionHeads b k v) j) + mask j)
      (Nat.zero_le (n - 1))
    have hapart := hnear head hhead _ (kvAt_mem (j := j) (by omega)) _ (kvAt_mem (j := 0) (by omega))
    simp only [hopen 0 hn, hmasked j hj hjk] at hfirst ⊢
    linarith

/-- Token `i` of a step that starts at `start` attends to what comes before it and to itself. -/
def CausalFrom (mask : Mask R) (start tokens : ℕ) : Prop :=
  ∀ b, ∀ i < tokens, (∀ j < start + i + 1, mask.score b i j = 0) ∧
    ∀ j, start + i + 1 ≤ j → j < start + tokens → mask.score b i j = maskedScore

theorem attend_row (hexp : ∀ x ≤ (-104 : R), E.exp x = 0) (hfits : w.attn.Fits w.numAttentionHeads)
    {k v hidden : List (Frame R)} {start b : ℕ} (hk : k.length = start + hidden.length)
    (hv : v.length = start + hidden.length) {mask : Mask R}
    (hmask : CausalFrom mask start hidden.length)
    (hnear : ∀ i x, (rowOf b hidden)[i]? = some x →
      w.ScoresNear E (kvRow w.numAttentionHeads b k v) x (start + i)) :
    rowOf b (attend E w.attn w.numAttentionHeads none start mask hidden k v) =
      (rowOf b hidden).mapIdx fun i x =>
        w.attendTo E ((kvRow w.numAttentionHeads b k v).take (start + (i + 1))) x (start + i) := by
  refine List.ext_getElem? fun i => ?_
  simp only [rowOf, attend, List.getElem?_map, List.getElem?_mapIdx]
  cases hx : hidden[i]? with
  | none => rfl
  | some x =>
    have hi := (List.getElem?_eq_some_iff.mp hx).1
    obtain ⟨hopen, hmasked⟩ := hmask b i hi
    simp only [Option.map_some, Option.some.injEq]
    funext c
    rw [LlamaBlock.attendTo]
    congr 1
    refine linear_congr fun o ho => ?_
    dsimp only
    have hhead := hfits.head_lt ho
    have hlength : ((kvRow w.numAttentionHeads b k v).take (start + (i + 1))).length =
        start + (i + 1) := by
      rw [List.length_take, length_kvRow (hk.trans hv.symm), hk]
      omega
    rw [rotaryPosition, attentionValue_masked hexp (hk.trans hv.symm) hhead
      (Nat.succ_pos (start + i)) (by omega) (hnear i (x b) (by simp only [rowOf, List.getElem?_map,
        hx, Option.map_some])) (fun j hj => hopen j (by omega))
      (fun j hj hlt => hmasked j (by omega) (by omega)), hlength]
    refine Softmax.weighted_congr (fun j hj => ?_) fun j hj => ?_
    · rw [kvAt_take (by omega)]
    · rw [kvAt_take (by omega)]

end

/-! ### Sample values -/

def sampleElementary : Elementary ℚ where
  exp x := if x ≤ -104 then 0 else 1
  rsqrt _ := 1
  cos _ := 1
  sin _ := 0
  act x := x
  sqrt _ := 1

def sampleFrame (n : ℚ) : Frame ℚ := fun b c => n + b + c

end BloomBee.FlexgenAttention
