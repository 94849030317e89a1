import BloomBee.Spec.GroupCompression
import Mathlib.Algebra.Order.Field.Basic
import Mathlib.Data.Nat.ModEq
import Mathlib.Tactic.FieldSimp
import Mathlib.Tactic.NormNum
import Mathlib.Tactic.Ring

/-! Compression by groups rounds each number to one of sixteen levels between the least and the
greatest of its group, and what was decompressed compresses to itself. A copy of a range of
compressed numbers is the copy of the range, unless it ends within a group. -/

set_option autoImplicit false

namespace BloomBee.GroupCompression

open Grouped Rounding

/-! ### Levels -/

def level (mn mx x : ℚ) : ℚ :=
  if mx - mn = 0 then mn else roundHalfEven ((x - mn) * (15 / (mx - mn))) / (15 / (mx - mn)) + mn

section

variable {mn mx x : ℚ}

theorem scaled_mem (hlt : mn < mx) (hlo : mn ≤ x) (hhi : x ≤ mx) :
    (0 : ℚ) ≤ (x - mn) * (15 / (mx - mn)) ∧ (x - mn) * (15 / (mx - mn)) ≤ 15 := by
  have hpos : 0 < mx - mn := sub_pos.mpr hlt
  constructor
  · exact mul_nonneg (sub_nonneg.mpr hlo) (div_nonneg (by norm_num) hpos.le)
  · rw [mul_div_assoc', div_le_iff₀ hpos]
    nlinarith

theorem round_mem (hlt : mn < mx) (hlo : mn ≤ x) (hhi : x ≤ mx) :
    0 ≤ roundHalfEven ((x - mn) * (15 / (mx - mn))) ∧
      roundHalfEven ((x - mn) * (15 / (mx - mn))) ≤ 15 := by
  obtain ⟨h0, h15⟩ := scaled_mem hlt hlo hhi
  exact roundHalfEven_mem (m := 0) (n := 15) (by exact_mod_cast h0) (by exact_mod_cast h15)

theorem abs_level_sub_le (hle : mn ≤ mx) (hlo : mn ≤ x) (hhi : x ≤ mx) :
    |level mn mx x - x| ≤ (mx - mn) / 30 := by
  unfold level
  split_ifs with heq
  · obtain rfl : x = mn := by linarith
    simp [heq]
  · have hpos : 0 < mx - mn := lt_of_le_of_ne (sub_nonneg.mpr hle) (Ne.symm heq)
    have hs : 0 < 15 / (mx - mn) := div_pos (by norm_num) hpos
    have hround := @abs_sub_roundHalfEven_le ((x - mn) * (15 / (mx - mn)))
    have hvalue : roundHalfEven ((x - mn) * (15 / (mx - mn))) / (15 / (mx - mn)) + mn - x =
        -((x - mn) * (15 / (mx - mn)) - roundHalfEven ((x - mn) * (15 / (mx - mn)))) /
          (15 / (mx - mn)) := by
      field_simp
      ring
    rw [hvalue, abs_div, abs_neg, abs_of_pos hs, div_le_iff₀ hs]
    refine hround.trans (le_of_eq ?_)
    field_simp
    norm_num

theorem level_mem (hle : mn ≤ mx) (hlo : mn ≤ x) (hhi : x ≤ mx) :
    mn ≤ level mn mx x ∧ level mn mx x ≤ mx := by
  unfold level
  split_ifs with heq
  · exact ⟨le_refl mn, hle⟩
  · have hpos : 0 < mx - mn := lt_of_le_of_ne (sub_nonneg.mpr hle) (Ne.symm heq)
    have hs : 0 < 15 / (mx - mn) := div_pos (by norm_num) hpos
    obtain ⟨h0, h15⟩ := round_mem (sub_pos.mp hpos) hlo hhi
    have h0' : (0 : ℚ) ≤ roundHalfEven ((x - mn) * (15 / (mx - mn))) := by exact_mod_cast h0
    have h15' : (roundHalfEven ((x - mn) * (15 / (mx - mn))) : ℚ) ≤ 15 := by exact_mod_cast h15
    constructor
    · have := div_nonneg h0' hs.le
      linarith
    · have hdiv : (roundHalfEven ((x - mn) * (15 / (mx - mn))) : ℚ) / (15 / (mx - mn)) ≤ mx - mn := by
        rw [div_le_iff₀ hs]
        refine h15'.trans (le_of_eq ?_)
        field_simp
      linarith

theorem level_of_scaled {k : ℤ} (hx : (x - mn) * (15 / (mx - mn)) = k) (hne : mx - mn ≠ 0) :
    level mn mx x = x := by
  have hround : roundHalfEven ((x - mn) * (15 / (mx - mn))) = k := by
    have hmem := roundHalfEven_mem (m := k) (n := k) (le_of_eq hx.symm) (le_of_eq hx)
    omega
  rw [level, if_neg hne, hround, ← hx]
  field_simp
  ring

theorem level_min : level mn mx mn = mn := by
  by_cases hne : mx - mn = 0
  · rw [level, if_pos hne]
  · exact level_of_scaled (k := 0) (by simp) hne

theorem level_max : level mn mx mx = mx := by
  by_cases hne : mx - mn = 0
  · rw [level, if_pos hne]
    linarith
  · refine level_of_scaled (k := 15) ?_ hne
    field_simp
    norm_num

theorem level_level : level mn mx (level mn mx x) = level mn mx x := by
  by_cases hne : mx - mn = 0
  · simp [level, hne]
  · refine level_of_scaled (k := roundHalfEven ((x - mn) * (15 / (mx - mn)))) ?_ hne
    rw [level, if_neg hne]
    field_simp
    ring

end

/-! ### Least and greatest -/

section

variable {group group' : List ℚ} {x : ℚ}

theorem foldr_min_le (init : ℚ) (hx : x ∈ group ∨ x = init) : group.foldr min init ≤ x := by
  induction group with
  | nil =>
    obtain rfl := hx.resolve_left List.not_mem_nil
    exact le_refl _
  | cons y group ih =>
    rw [List.foldr_cons]
    rcases hx with hx | hx
    · rcases List.mem_cons.mp hx with rfl | hx
      · exact min_le_left _ _
      · exact (min_le_right _ _).trans (ih (.inl hx))
    · exact (min_le_right _ _).trans (ih (.inr hx))

theorem foldr_min_mem (init : ℚ) : group.foldr min init ∈ init :: group := by
  induction group with
  | nil => exact List.mem_cons_self
  | cons y group ih =>
    rw [List.foldr_cons]
    rcases min_choice y (group.foldr min init) with h | h
    · rw [h]
      simp
    · rw [h]
      rcases List.mem_cons.mp ih with h' | h' <;> simp [h']

theorem foldr_max_ge (init : ℚ) (hx : x ∈ group ∨ x = init) : x ≤ group.foldr max init := by
  induction group with
  | nil =>
    obtain rfl := hx.resolve_left List.not_mem_nil
    exact le_refl _
  | cons y group ih =>
    rw [List.foldr_cons]
    rcases hx with hx | hx
    · rcases List.mem_cons.mp hx with rfl | hx
      · exact le_max_left _ _
      · exact (ih (.inl hx)).trans (le_max_right _ _)
    · exact (ih (.inr hx)).trans (le_max_right _ _)

theorem foldr_max_mem (init : ℚ) : group.foldr max init ∈ init :: group := by
  induction group with
  | nil => exact List.mem_cons_self
  | cons y group ih =>
    rw [List.foldr_cons]
    rcases max_choice y (group.foldr max init) with h | h
    · rw [h]
      simp
    · rw [h]
      rcases List.mem_cons.mp ih with h' | h' <;> simp [h']

theorem groupMin_le (hx : x ∈ group) : groupMin group ≤ x := foldr_min_le _ (.inl hx)

theorem le_groupMax (hx : x ∈ group) : x ≤ groupMax group := foldr_max_ge _ (.inl hx)

theorem groupMin_mem (hne : group ≠ []) : groupMin group ∈ group := by
  obtain ⟨y, ys, rfl⟩ := List.exists_cons_of_ne_nil hne
  have hmem := @foldr_min_mem (y :: ys) y
  rw [List.mem_cons] at hmem
  exact hmem.elim (fun h => by rw [groupMin, List.headD_cons, h]; exact List.mem_cons_self) id

theorem groupMax_mem (hne : group ≠ []) : groupMax group ∈ group := by
  obtain ⟨y, ys, rfl⟩ := List.exists_cons_of_ne_nil hne
  have hmem := @foldr_max_mem (y :: ys) y
  rw [List.mem_cons] at hmem
  exact hmem.elim (fun h => by rw [groupMax, List.headD_cons, h]; exact List.mem_cons_self) id

/-- A group whose numbers are rounded, or stay, has the same bounds. -/
theorem bounds_of_rounded (hne : group ≠ [])
    (hsub : ∀ y ∈ group', ∃ x ∈ group, y = level (groupMin group) (groupMax group) x ∨ y = x)
    (hsup : ∀ x ∈ group, level (groupMin group) (groupMax group) x ∈ group' ∨ x ∈ group') :
    groupMin group' = groupMin group ∧ groupMax group' = groupMax group := by
  have hle : groupMin group ≤ groupMax group := le_groupMax (groupMin_mem hne)
  have hmem : ∀ y ∈ group', groupMin group ≤ y ∧ y ≤ groupMax group := by
    intro y hy
    obtain ⟨x, hx, rfl | rfl⟩ := hsub y hy
    · exact level_mem hle (groupMin_le hx) (le_groupMax hx)
    · exact ⟨groupMin_le hx, le_groupMax hx⟩
  have hmin : groupMin group ∈ group' := by
    have := hsup _ (groupMin_mem hne)
    rw [level_min, or_self] at this
    exact this
  have hmax : groupMax group ∈ group' := by
    have := hsup _ (groupMax_mem hne)
    rw [level_max, or_self] at this
    exact this
  have hne' : group' ≠ [] := List.ne_nil_of_mem hmin
  exact ⟨le_antisymm (groupMin_le hmin) (hmem _ (groupMin_mem hne')).1,
    le_antisymm (hmem _ (groupMax_mem hne')).2 (le_groupMax hmax)⟩

end

/-! ### Bytes -/

def nibble (i : ℕ) (byte : BitVec 8) : BitVec 8 := if i % 2 = 0 then byte >>> 4 else byte &&& 0xF#8

theorem nibbles_of_or (l r : Fin 16) :
    (BitVec.ofNat 8 l <<< 4 ||| BitVec.ofNat 8 r) >>> 4 = BitVec.ofNat 8 l ∧
      (BitVec.ofNat 8 l <<< 4 ||| BitVec.ofNat 8 r) &&& 0xF#8 = BitVec.ofNat 8 r := by
  revert l r
  decide +kernel

theorem nibble_or (i : ℕ) {l r : BitVec 8} (hl : l.toNat < 16) (hr : r.toNat < 16) :
    nibble i (l <<< 4 ||| r) = if i % 2 = 0 then l else r := by
  obtain ⟨hleft, hright⟩ := nibbles_of_or ⟨_, hl⟩ ⟨_, hr⟩
  simp only [BitVec.ofNat_toNat, BitVec.setWidth_eq] at hleft hright
  rw [nibble, hleft, hright]

theorem getElem?_unpackGroup (packed : List (BitVec 8)) (i : ℕ) :
    (unpackGroup packed)[i]? = packed[i / 2]?.map (nibble i) := by
  have hlen : ∀ byte ∈ packed, [byte >>> 4, byte &&& 0xF#8].length = 2 := fun _ _ => rfl
  unfold unpackGroup
  rw [getElem?_flatMap Nat.two_pos packed hlen, Option.map_eq_bind]
  refine congrArg (packed[i / 2]?.bind) (funext fun byte => ?_)
  rcases Nat.mod_two_eq_zero_or_one i with h | h <;> simp [nibble, h]

theorem length_unpackGroup (packed : List (BitVec 8)) :
    (unpackGroup packed).length = 2 * packed.length := by
  have hlen : ∀ byte ∈ packed, [byte >>> 4, byte &&& 0xF#8].length = 2 := fun _ _ => rfl
  unfold unpackGroup
  rw [length_flatMap packed hlen, Nat.mul_comm]

theorem length_packGroup : ∀ codes : List (BitVec 8), (packGroup codes).length = codes.length / 2
  | [] => by simp [packGroup]
  | [_] => by simp [packGroup]
  | l :: r :: codes => by
    rw [packGroup, List.length_cons, length_packGroup codes]
    simp only [List.length_cons]
    omega

theorem getElem?_packGroup : ∀ {codes : List (BitVec 8)}, (∀ c ∈ codes, c.toNat < 16) →
    codes.length % 2 = 0 → ∀ i, (packGroup codes)[i / 2]?.map (nibble i) = codes[i]?
  | [], _, _, i => by simp [packGroup]
  | [_], _, heven, _ => by cases heven
  | l :: r :: codes, hcodes, heven, i => by
    have hl : l.toNat < 16 := hcodes l List.mem_cons_self
    have hr : r.toNat < 16 := hcodes r (List.mem_cons_of_mem _ List.mem_cons_self)
    have ih := getElem?_packGroup
      (fun c hc => hcodes c (List.mem_cons_of_mem _ (List.mem_cons_of_mem _ hc)))
      (by simp only [List.length_cons] at heven; omega)
    rw [packGroup]
    rcases i with - | - | i
    · simp [nibble_or _ hl hr]
    · simp [nibble_or _ hl hr]
    · have hdiv : (i + 1 + 1) / 2 = i / 2 + 1 := by omega
      have hnibble : nibble (i + 1 + 1) = nibble i := by
        funext byte
        rw [nibble, nibble, show (i + 1 + 1) % 2 = i % 2 by omega]
      rw [hdiv, hnibble, List.getElem?_cons_succ, List.getElem?_cons_succ, List.getElem?_cons_succ]
      exact ih i

/-! ### Groups -/

section

variable {groupSize : ℕ}

theorem numGroups_mul (hs : 0 < groupSize) (length : ℕ) :
    numGroups groupSize length * groupSize = length + padLen groupSize length := by
  unfold numGroups padLen
  have hdiv := Nat.div_add_mod length groupSize
  have hlt := Nat.mod_lt length hs
  rw [Nat.mul_comm] at hdiv
  generalize length / groupSize = q at hdiv
  generalize length % groupSize = r at hdiv hlt ⊢
  rcases Nat.eq_zero_or_pos r with rfl | hr
  · have hq : (length + groupSize - 1) / groupSize = q := by
      rw [Nat.div_eq_iff hs]
      omega
    rw [hq, Nat.sub_zero, Nat.mod_self]
    omega
  · have hq : (length + groupSize - 1) / groupSize = q + 1 := by
      rw [Nat.div_eq_iff hs, Nat.succ_mul]
      omega
    rw [hq, Nat.mod_eq_of_lt (by omega), Nat.succ_mul]
    omega

theorem numGroups_self (hs : 0 < groupSize) (n : ℕ) : numGroups groupSize (n * groupSize) = n := by
  unfold numGroups
  rw [Nat.div_eq_iff hs]
  omega

theorem padLen_self (n : ℕ) : padLen groupSize (n * groupSize) = 0 := by
  rw [padLen, Nat.mul_mod_left, Nat.sub_zero, Nat.mod_self]

theorem perGroup_length {α : Type} (xs : List α) : perGroup xs.length xs = some xs := by
  unfold perGroup
  split
  · rfl
  · exact if_pos rfl

end

/-- A compressed tensor as `allocate` and `compress` make them. -/
structure CompressedTensor.WellFormed (t : CompressedTensor) : Prop where
  numBits : t.config.numBits = 4
  even : t.config.groupSize % 2 = 0
  pos : 0 < t.config.groupSize
  data : t.data.length = numGroups t.config.groupSize t.length * (t.config.groupSize / 2)
  scale : t.scale.length = numGroups t.config.groupSize t.length

def CompressedTensor.value (t : CompressedTensor) (i : ℕ) : ℚ :=
  dequantize (t.scale.getD (i / t.config.groupSize) (none, 0)) (nibble i (t.data.getD (i / 2) 0))

theorem decompress_eq {t : CompressedTensor} (h : t.WellFormed) :
    decompress t = some ((List.range t.length).map t.value) := by
  obtain ⟨-, heven, hs, hdata, hscale⟩ := h
  unfold CompressedTensor.value
  generalize hgs : t.config.groupSize = groupSize at heven hs hdata hscale
  obtain ⟨c, rfl⟩ : ∃ c, groupSize = 2 * c := ⟨groupSize / 2, by omega⟩
  have hc : 0 < c := by omega
  rw [Nat.mul_div_cancel_left c Nat.two_pos] at hdata
  have hmul := numGroups_mul hs t.length
  generalize hN : numGroups (2 * c) t.length = N at hdata hscale hmul
  have hgroups : ∀ g ∈ (groups c N t.data).map unpackGroup, g.length = 2 * c := by
    intro g hg
    obtain ⟨packed, hpacked, rfl⟩ := List.mem_map.mp hg
    rw [length_unpackGroup, length_of_mem_groups (Nat.le_of_eq hdata.symm) hpacked]
  have hflat : ∀ xs ∈ List.zipWith (fun s group => List.map (dequantize s) group) t.scale
      ((groups c N t.data).map unpackGroup), xs.length = 2 * c := by
    intro xs hxs
    obtain ⟨k, hk, rfl⟩ := List.getElem_of_mem hxs
    rw [List.getElem_zipWith, List.length_map]
    exact hgroups _ (List.getElem_mem _)
  have hlen := length_flatten hflat
  rw [List.length_zipWith, List.length_map, length_groups, hscale, Nat.min_self, hmul] at hlen
  have hperGroup : perGroup N t.scale = some t.scale := hscale ▸ perGroup_length t.scale
  unfold decompress
  simp only [hgs, Nat.mul_div_cancel_left c Nat.two_pos]
  rw [hdata, padLen_self, numGroups_self hc, hperGroup, if_neg (by omega), Option.bind_some, hlen,
    Nat.add_sub_cancel, if_pos (by rw [List.length_take, hlen]; omega)]
  congr 1
  refine List.ext_getElem? fun i => ?_
  by_cases hi : i < t.length
  swap
  · rw [List.getElem?_eq_none (by rw [List.length_take, hlen]; omega),
      List.getElem?_eq_none (by simpa using hi)]
  have hgroup : i / (2 * c) < N := by
    rw [Nat.div_lt_iff_lt_mul hs]
    omega
  have hbyte : i / (2 * c) * c + i % (2 * c) / 2 = i / 2 := by
    have := Nat.div_add_mod i (2 * c)
    have h2 : 2 * (i / (2 * c) * c) + i % (2 * c) = i := by
      rw [← Nat.mul_assoc, Nat.mul_comm 2, Nat.mul_assoc, Nat.mul_comm]
      exact this
    omega
  have hplace : i % (2 * c) / 2 < c := by
    have := Nat.mod_lt i hs
    omega
  have hnibble : nibble (i % (2 * c)) = nibble i := by
    funext byte
    rw [nibble, nibble, Nat.mod_mul_right_mod]
  rw [List.getElem?_take_of_lt hi, getElem?_flatten hs hflat, List.getElem?_zipWith,
    List.getElem?_map, getElem?_groups hgroup, List.getElem?_eq_getElem (hscale ▸ hgroup)]
  simp only [Option.map_some, Option.bind_some]
  rw [List.getElem?_map, getElem?_unpackGroup, List.getElem?_take_of_lt hplace, List.getElem?_drop,
    hbyte, hnibble]
  have hi2 : i / 2 < t.data.length := by
    rw [hdata, ← hbyte]
    have := Nat.mul_le_mul_right c (Nat.succ_le_of_lt hgroup)
    rw [Nat.succ_mul] at this
    omega
  rw [List.getElem?_eq_getElem hi2]
  simp [hi, List.getD_eq_getElem?_getD, hi2, hscale ▸ hgroup]

/-! ### Compressed and back -/

/-- What `compress` asserts of a configuration. -/
structure CompressionConfig.Supported (config : CompressionConfig) : Prop where
  numBits : config.numBits = 4
  even : config.groupSize % 2 = 0
  symmetric : config.symmetric = false
  pos : 0 < config.groupSize

/-- The group of place `i`, padded with zeros if it is the last one. -/
def groupAt (groupSize : ℕ) (tensor : List ℚ) (i : ℕ) : List ℚ :=
  ((tensor ++ List.replicate (padLen groupSize tensor.length) 0).drop
    (i / groupSize * groupSize)).take groupSize

section

variable {nan : BitVec 8} {config : CompressionConfig} {tensor : List ℚ}

/-- The groups of `compress`. -/
theorem getElem?_dataGroups (hs : 0 < config.groupSize) {i : ℕ} (hi : i < tensor.length) :
    (groups config.groupSize (numGroups config.groupSize tensor.length)
      (tensor ++ List.replicate (padLen config.groupSize tensor.length) 0))[i / config.groupSize]? =
        some (groupAt config.groupSize tensor i) := by
  have hmul := numGroups_mul hs tensor.length
  rw [getElem?_groups, groupAt]
  rw [Nat.div_lt_iff_lt_mul hs]
  omega

theorem length_dataGroups (hs : 0 < config.groupSize) {group : List ℚ}
    (hgroup : group ∈ groups config.groupSize (numGroups config.groupSize tensor.length)
      (tensor ++ List.replicate (padLen config.groupSize tensor.length) 0)) :
    group.length = config.groupSize := by
  apply length_of_mem_groups _ hgroup
  rw [numGroups_mul hs, List.length_append, List.length_replicate]

theorem compress_wellFormed (h : config.Supported) {t : CompressedTensor}
    (ht : compress nan config tensor = some t) :
    t.WellFormed ∧ t.config = config ∧ t.length = tensor.length := by
  obtain ⟨h4, heven, hsym, hs⟩ := h
  rw [compress, if_pos ⟨h4, heven, hsym, Nat.ne_of_gt hs⟩] at ht
  obtain rfl := Option.some.inj ht
  refine ⟨⟨h4, heven, hs, ?_, ?_⟩, rfl, rfl⟩
  · dsimp only
    rw [length_flatMap, length_groups]
    intro group hgroup
    rw [length_packGroup, List.length_map, length_dataGroups hs hgroup]
  · dsimp only
    rw [List.length_map, length_groups]

/-- A code is four bits long, unless the group has one number only. -/
theorem code_lt {group : List ℚ} {x scale : ℚ} (hscale : groupScale group = some scale)
    (hx : x ∈ group) : (code nan group x).toNat < 16 ∧
      dequantize (groupScale group, groupMin group) (code nan group x) =
        level (groupMin group) (groupMax group) x := by
  have hne : groupMax group - groupMin group ≠ 0 := by
    intro heq
    rw [groupScale, if_pos heq] at hscale
    cases hscale
  have hlt : groupMin group < groupMax group :=
    lt_of_le_of_ne ((groupMin_le hx).trans (le_groupMax hx)) fun h => hne (by rw [h, sub_self])
  have hvalue : scale = 15 / (groupMax group - groupMin group) := by
    rw [groupScale, if_neg hne] at hscale
    rw [← Option.some.inj hscale]
    norm_num
  obtain ⟨h0, h15⟩ := scaled_mem hlt (groupMin_le hx) (le_groupMax hx)
  obtain ⟨hr0, hr15⟩ := round_mem hlt (groupMin_le hx) (le_groupMax hx)
  have hcode : code nan group x = BitVec.ofInt 8
      (roundHalfEven ((x - groupMin group) * (15 / (groupMax group - groupMin group)))) := by
    rw [code, hscale]
    dsimp only
    rw [hvalue, min_eq_left (h15.trans (by norm_num)), max_eq_right h0]
  generalize hk : roundHalfEven ((x - groupMin group) * (15 / (groupMax group - groupMin group))) = k
    at hr0 hr15 hcode
  have htoNat : (code nan group x).toNat = k.toNat := by
    rw [hcode, BitVec.toNat_ofInt]
    omega
  refine ⟨by omega, ?_⟩
  have hcast : ((k.toNat : ℕ) : ℚ) = k := by
    exact_mod_cast congrArg (fun z : ℤ => (z : ℚ)) (Int.toNat_of_nonneg hr0)
  rw [dequantize, hscale, htoNat, level, if_neg hne, hk, hvalue]
  dsimp only
  rw [hcast]

theorem getElem?_groupAt {groupSize : ℕ} (hs : 0 < groupSize) {i : ℕ} (hi : i < tensor.length) :
    (groupAt groupSize tensor i)[i % groupSize]? = some tensor[i] := by
  have hplace : i / groupSize * groupSize + i % groupSize = i := by
    rw [Nat.mul_comm]
    exact Nat.div_add_mod i groupSize
  rw [groupAt, List.getElem?_take_of_lt (Nat.mod_lt i hs), List.getElem?_drop, hplace,
    List.getElem?_append_left hi, List.getElem?_eq_getElem hi]

theorem mem_groupAt {groupSize : ℕ} (hs : 0 < groupSize) {i : ℕ} (hi : i < tensor.length) :
    tensor[i] ∈ groupAt groupSize tensor i :=
  List.mem_of_getElem? (getElem?_groupAt hs hi)

/-- The number that comes back is the level in the group. -/
theorem value_compress (h : config.Supported) {t : CompressedTensor}
    (ht : compress nan config tensor = some t) {i : ℕ} (hi : i < tensor.length) :
    t.value i = level (groupMin (groupAt config.groupSize tensor i))
      (groupMax (groupAt config.groupSize tensor i)) tensor[i] := by
  obtain ⟨h4, heven, hsym, hs⟩ := h
  have hgroup := getElem?_dataGroups hs hi
  have hlength : ∀ group ∈ groups config.groupSize (numGroups config.groupSize tensor.length)
      (tensor ++ List.replicate (padLen config.groupSize tensor.length) 0),
      group.length = config.groupSize := fun group => length_dataGroups hs
  have hmem := mem_groupAt hs hi
  have hplace := getElem?_groupAt hs hi
  rw [compress, if_pos ⟨h4, heven, hsym, Nat.ne_of_gt hs⟩] at ht
  obtain rfl := Option.some.inj ht
  generalize groups config.groupSize (numGroups config.groupSize tensor.length)
    (tensor ++ List.replicate (padLen config.groupSize tensor.length) 0) = data at hgroup hlength ⊢
  generalize hg : groupAt config.groupSize tensor i = group at hgroup hmem hplace ⊢
  have hscale : (data.map fun group => (groupScale group, groupMin group)).getD
      (i / config.groupSize) (none, 0) = (groupScale group, groupMin group) := by
    rw [List.getD_eq_getElem?_getD, List.getElem?_map, hgroup]
    rfl
  rw [CompressedTensor.value]
  dsimp only
  rw [hscale]
  rcases hfinite : groupScale group with - | scale
  · -- all numbers of the group are the same
    have heq : groupMax group - groupMin group = 0 := by
      by_contra hne
      rw [groupScale, if_neg hne] at hfinite
      cases hfinite
    rw [dequantize, level, if_pos heq]
  · have hcodes : ∀ c ∈ group.map (code nan group), c.toNat < 16 := by
      intro c hc
      obtain ⟨x, hx, rfl⟩ := List.mem_map.mp hc
      exact (code_lt hfinite hx).1
    have hbytes : ∀ group ∈ data, (packGroup (group.map (code nan group))).length =
        config.groupSize / 2 := by
      intro group hgroup
      rw [length_packGroup, List.length_map, hlength group hgroup]
    have hgroupLength := hlength group (List.mem_of_getElem? hgroup)
    obtain ⟨c, hc⟩ : ∃ c, config.groupSize = 2 * c := ⟨config.groupSize / 2, by omega⟩
    rw [hc] at hgroup hplace hgroupLength
    rw [hc, Nat.mul_div_cancel_left c Nat.two_pos] at hbytes
    have hbyte : ((data.flatMap fun group => packGroup (group.map (code nan group)))[i / 2]?).map
        (nibble i) = some (code nan group tensor[i]) := by
      rw [getElem?_flatMap (by omega) data hbytes, Nat.div_div_eq_div_mul, hgroup, Option.bind_some,
        ← Nat.mod_mul_right_div_self]
      have hnibble : nibble i = nibble (i % (2 * c)) := by
        funext byte
        rw [nibble, nibble, Nat.mod_mul_right_mod]
      rw [hnibble, getElem?_packGroup hcodes (by rw [List.length_map, hgroupLength]; omega),
        List.getElem?_map, hplace]
      rfl
    obtain ⟨byte, hat, hcode⟩ := Option.map_eq_some_iff.mp hbyte
    rw [List.getD_eq_getElem?_getD, hat, Option.getD_some, hcode, ← hfinite]
    exact (code_lt hfinite hmem).2

theorem mem_groupAt_iff {groupSize : ℕ} (hs : 0 < groupSize) {i : ℕ} {x : ℚ} :
    x ∈ groupAt groupSize tensor i ↔ ∃ j, j / groupSize = i / groupSize ∧
      (tensor ++ List.replicate (padLen groupSize tensor.length) 0)[j]? = some x := by
  rw [List.mem_iff_getElem?]
  unfold groupAt
  constructor
  · rintro ⟨m, hm⟩
    have hlt : m < groupSize := by
      by_contra hnot
      rw [List.getElem?_take_eq_none (Nat.le_of_not_lt hnot)] at hm
      cases hm
    rw [List.getElem?_take_of_lt hlt, List.getElem?_drop] at hm
    refine ⟨_, ?_, hm⟩
    rw [Nat.mul_comm, Nat.mul_add_div hs, Nat.div_eq_of_lt hlt, Nat.add_zero]
  · rintro ⟨j, hj, hx⟩
    refine ⟨j % groupSize, ?_⟩
    rw [List.getElem?_take_of_lt (Nat.mod_lt j hs), List.getElem?_drop, ← hj, Nat.mul_comm,
      Nat.div_add_mod, hx]

/-- Rounding each number in its group keeps the bounds of the groups. -/
theorem bounds_groupAt {groupSize : ℕ} (hs : 0 < groupSize) {back : List ℚ}
    (hlen : back.length = tensor.length)
    (hback : ∀ j (hj : j < tensor.length), back[j]? = some (level
      (groupMin (groupAt groupSize tensor j)) (groupMax (groupAt groupSize tensor j)) tensor[j]))
    {i : ℕ} (hi : i < tensor.length) :
    groupMin (groupAt groupSize back i) = groupMin (groupAt groupSize tensor i) ∧
      groupMax (groupAt groupSize back i) = groupMax (groupAt groupSize tensor i) := by
  have hsame (j : ℕ) (hj : j / groupSize = i / groupSize) :
      groupAt groupSize tensor j = groupAt groupSize tensor i := by
    rw [groupAt, groupAt, hj]
  -- place by place: a number of the tensor, or a zero behind its end
  have hplaces (j : ℕ) (hj : j / groupSize = i / groupSize) {x y : ℚ}
      (hx : (tensor ++ List.replicate (padLen groupSize tensor.length) 0)[j]? = some x)
      (hy : (back ++ List.replicate (padLen groupSize back.length) 0)[j]? = some y) :
      y = level (groupMin (groupAt groupSize tensor i)) (groupMax (groupAt groupSize tensor i)) x ∨
        y = x := by
    by_cases hlt : j < tensor.length
    · rw [List.getElem?_append_left hlt, List.getElem?_eq_getElem hlt] at hx
      rw [List.getElem?_append_left (hlen ▸ hlt), hback j hlt, hsame j hj] at hy
      obtain rfl := Option.some.inj hx
      exact .inl (Option.some.inj hy).symm
    · rw [List.getElem?_append_right (by omega)] at hx hy
      have hx0 := List.mem_of_getElem? hx
      have hy0 := List.mem_of_getElem? hy
      rw [List.mem_replicate] at hx0 hy0
      exact .inr (hy0.2.trans hx0.2.symm)
  have hlengths : (back ++ List.replicate (padLen groupSize back.length) (0 : ℚ)).length =
      (tensor ++ List.replicate (padLen groupSize tensor.length) 0).length := by
    simp [hlen]
  apply bounds_of_rounded
  · exact List.ne_nil_of_mem (mem_groupAt hs hi)
  · intro y hy
    obtain ⟨j, hj, hy⟩ := (mem_groupAt_iff hs).mp hy
    have hlt := (List.getElem?_eq_some_iff.mp hy).1
    have hx := List.getElem?_eq_getElem (hlengths ▸ hlt)
    exact ⟨_, (mem_groupAt_iff hs).mpr ⟨j, hj, hx⟩, hplaces j hj hx hy⟩
  · intro x hx
    obtain ⟨j, hj, hx⟩ := (mem_groupAt_iff hs).mp hx
    have hlt := (List.getElem?_eq_some_iff.mp hx).1
    have hy := List.getElem?_eq_getElem (hlengths.symm ▸ hlt)
    have hmem := (mem_groupAt_iff hs).mpr ⟨j, hj, hy⟩
    rcases hplaces j hj hx hy with h | h
    · exact .inl (h ▸ hmem)
    · exact .inr (h ▸ hmem)

end

/-- What comes back for a number `x` of a group. -/
structure Near (group : List ℚ) (x y : ℚ) : Prop where
  error : |y - x| ≤ (groupMax group - groupMin group) / 30
  /-- Nothing is lost of the least and of the greatest, and so of groups of one number. -/
  bounds : x = groupMin group ∨ x = groupMax group → y = x

theorem getElem?_splice {α : Type} {dst src : List α} {d s l : ℕ} (hd : d + l ≤ dst.length)
    (hs : s + l ≤ src.length) (i : ℕ) :
    (dst.take d ++ (src.take (s + l)).drop s ++ dst.drop (d + l))[i]? =
      if d ≤ i ∧ i < d + l then src[s + (i - d)]? else dst[i]? := by
  have htake : (dst.take d).length = d := by
    rw [List.length_take]
    omega
  have hlen : (dst.take d ++ (src.take (s + l)).drop s).length = d + l := by
    rw [List.length_append, htake, List.length_drop, List.length_take]
    omega
  split_ifs with hi
  · rw [List.getElem?_append_left (by omega), List.getElem?_append_right (by omega), htake,
      List.getElem?_drop, List.getElem?_take_of_lt (by omega)]
  · by_cases hlt : i < d
    · rw [List.getElem?_append_left (by omega), List.getElem?_append_left (by omega),
        List.getElem?_take_of_lt hlt]
    · rw [List.getElem?_append_right (by omega), hlen, List.getElem?_drop]
      congr 1
      omega

theorem copyRange_eq {α : Type} {dst src : List α} {d s l : ℕ} (hd : d + l ≤ dst.length)
    (hs : s + l ≤ src.length) :
    ∃ out, copyRange dst (d, d + l) src (s, s + l) = some out ∧ out.length = dst.length ∧
      ∀ i, out[i]? = if d ≤ i ∧ i < d + l then src[s + (i - d)]? else dst[i]? := by
  have hroom : min (d + l) dst.length - d = l := by omega
  have hpart : ((src.take (s + l)).drop s).length = l := by
    rw [List.length_drop, List.length_take]
    omega
  refine ⟨dst.take d ++ (src.take (s + l)).drop s ++ dst.drop (d + l), ?_, ?_, getElem?_splice hd hs⟩
  · unfold copyRange
    simp only [hroom]
    split
    · rename_i x hx
      rw [hx, List.length_singleton] at hpart
      rw [hx, ← hpart]
      rfl
    · rw [if_pos hpart]
      rfl
  · rw [List.length_append, List.length_append, hpart, List.length_take, List.length_drop]
    omega

section

variable {config : CompressionConfig} {n m c a len : ℕ}

theorem numGroups_add (hs : 0 < config.groupSize) (hc : config.groupSize ∣ c) (len : ℕ) :
    (c + len + config.groupSize - 1) / config.groupSize =
      c / config.groupSize + numGroups config.groupSize len := by
  obtain ⟨k, rfl⟩ := hc
  rw [Nat.mul_div_cancel_left k hs, numGroups, Nat.add_assoc, Nat.add_sub_assoc (by omega),
    Nat.mul_add_div hs]

theorem numGroups_mono (groupSize : ℕ) {l l' : ℕ} (h : l ≤ l') :
    numGroups groupSize l ≤ numGroups groupSize l' := by
  unfold numGroups
  exact Nat.div_le_div_right (by omega)

theorem numGroups_mul_half {n : ℕ} (hs : 0 < config.groupSize) (heven : config.groupSize % 2 = 0)
    (hlen : len ≤ n) : (len + 1) / 2 ≤ numGroups config.groupSize n * (config.groupSize / 2) := by
  have hmul := numGroups_mul hs n
  have hhalf : config.groupSize = 2 * (config.groupSize / 2) := by omega
  rw [hhalf, Nat.mul_left_comm, ← hhalf] at hmul
  omega

/-- The copy takes the bytes and the scales of all groups that the range touches. -/
theorem generalCopyCompressed_eq {dst src : CompressedTensor} (hdst : dst.WellFormed)
    (hsrc : src.WellFormed) (hdc : dst.config = config) (hsc : src.config = config)
    (hc : config.groupSize ∣ c) (ha : config.groupSize ∣ a) (hd : c + len ≤ dst.length)
    (hs : a + len ≤ src.length) :
    ∃ dst', generalCopyCompressed dst (some (c, c + len)) src (some (a, a + len)) = some dst' ∧
      dst'.WellFormed ∧ dst'.config = config ∧ dst'.length = dst.length ∧
      (∀ i, dst'.data[i]? = if c / 2 ≤ i ∧ i < c / 2 + (len + 1) / 2 then
        src.data[a / 2 + (i - c / 2)]? else dst.data[i]?) ∧
      ∀ i, dst'.scale[i]? = if c / config.groupSize ≤ i ∧
          i < c / config.groupSize + numGroups config.groupSize len then
        src.scale[a / config.groupSize + (i - c / config.groupSize)]? else dst.scale[i]? := by
  obtain ⟨hd4, heven, hpos, hdData, hdScale⟩ := hdst
  obtain ⟨hs4, -, -, hsData, hsScale⟩ := hsrc
  rw [hdc] at heven hpos hdData hdScale
  rw [hsc] at hsData hsScale
  have hcEven : c % 2 = 0 := by
    obtain ⟨k, rfl⟩ := hc
    rw [Nat.mul_mod, heven, Nat.zero_mul]
  have haEven : a % 2 = 0 := by
    obtain ⟨k, rfl⟩ := ha
    rw [Nat.mul_mod, heven, Nat.zero_mul]
  have hdHalf := numGroups_mul_half hpos heven hd
  have hsHalf := numGroups_mul_half hpos heven hs
  have hdGroups := numGroups_mono config.groupSize hd
  have hsGroups := numGroups_mono config.groupSize hs
  rw [numGroups, numGroups_add hpos hc] at hdGroups
  rw [numGroups, numGroups_add hpos ha] at hsGroups
  obtain ⟨data, hdata, hdataLen, hdataAt⟩ := @copyRange_eq _ dst.data src.data (c / 2) (a / 2)
    ((len + 1) / 2) (by omega) (by omega)
  obtain ⟨scale, hscale, hscaleLen, hscaleAt⟩ := @copyRange_eq _ dst.scale src.scale
    (c / config.groupSize) (a / config.groupSize) (numGroups config.groupSize len)
    (by omega) (by omega)
  have hindices (t : CompressedTensor) (h4 : t.config.numBits = 4) (ht : t.config = config) (p : ℕ)
      (hp : config.groupSize ∣ p) (heven : p % 2 = 0) :
      getCompressedIndices t (some (p, p + len)) = some ((p / 2, p / 2 + (len + 1) / 2),
        (p / config.groupSize, p / config.groupSize + numGroups config.groupSize len)) := by
    unfold getCompressedIndices
    simp only [Option.getD_some]
    rw [if_pos ⟨h4, ht ▸ Nat.ne_of_gt hpos, ht ▸ Nat.mod_eq_zero_of_dvd hp⟩, ht,
      numGroups_add hpos hp, show (p + len + 1) / 2 = p / 2 + (len + 1) / 2 by omega]
  refine ⟨{ dst with data, scale }, ?_, ⟨hd4, hdc ▸ heven, hdc ▸ hpos, ?_, ?_⟩, hdc, rfl, hdataAt,
    hscaleAt⟩
  · unfold generalCopyCompressed
    rw [hindices src hs4 hsc a ha haEven, hindices dst hd4 hdc c hc hcEven]
    simp only [Option.bind_eq_bind, Option.bind_some]
    rw [hdata, hscale]
    rfl
  · dsimp only
    rw [hdataLen, hdc, hdData]
  · dsimp only
    rw [hscaleLen, hdc, hdScale]

/-- `dst[c:c + len].copy_(src[a:a + len])`, read from what the tensors hold. -/
def CopiesRange (config : CompressionConfig) (n c m a len : ℕ) : Prop :=
  ∀ dst src : CompressedTensor, dst.WellFormed → src.WellFormed → dst.config = config →
    src.config = config → dst.length = n → src.length = m →
    ∀ x y, decompress dst = some x → decompress src = some y →
      (generalCopyCompressed dst (some (c, c + len)) src (some (a, a + len))).bind decompress =
        some (x.take c ++ (y.take (a + len)).drop a ++ x.drop (c + len))

/-- Inside the range a number and its group come from the source. -/
theorem value_generalCopyCompressed {dst src dst' : CompressedTensor}
    (hdc : dst.config = config) (hsc : src.config = config) (hdc' : dst'.config = config)
    (hpos : 0 < config.groupSize) (heven : config.groupSize % 2 = 0)
    (hc : config.groupSize ∣ c) (ha : config.groupSize ∣ a)
    (hend : config.groupSize ∣ len ∨ c + len = dst.length)
    (hdata : ∀ i, dst'.data[i]? = if c / 2 ≤ i ∧ i < c / 2 + (len + 1) / 2 then
      src.data[a / 2 + (i - c / 2)]? else dst.data[i]?)
    (hscale : ∀ i, dst'.scale[i]? = if c / config.groupSize ≤ i ∧
        i < c / config.groupSize + numGroups config.groupSize len then
      src.scale[a / config.groupSize + (i - c / config.groupSize)]? else dst.scale[i]?)
    {i : ℕ} (hi : i < dst.length) :
    dst'.value i = if c ≤ i ∧ i < c + len then src.value (a + (i - c)) else dst.value i := by
  have hcEven : c % 2 = 0 := by
    obtain ⟨k, rfl⟩ := hc
    rw [Nat.mul_mod, heven, Nat.zero_mul]
  have haEven : a % 2 = 0 := by
    obtain ⟨k, rfl⟩ := ha
    rw [Nat.mul_mod, heven, Nat.zero_mul]
  have hgroups := numGroups_mul hpos len
  simp only [CompressedTensor.value, List.getD_eq_getElem?_getD, hdc, hsc, hdc', hdata, hscale]
  rcases Nat.lt_or_ge i c with hlt | hge
  · -- before the range
    have hgroup : i / config.groupSize < c / config.groupSize :=
      Nat.div_lt_div_of_lt_of_dvd hc hlt
    rw [if_neg (by omega), if_neg (by omega), if_neg (by omega)]
  · obtain ⟨r, rfl⟩ := Nat.exists_eq_add_of_le hge
    have hi2 : (c + r) / 2 = c / 2 + r / 2 := by omega
    rw [Nat.add_div_of_dvd_right hc, hi2]
    by_cases hin : r < len
    · -- in the range
      have hgroup : r / config.groupSize < numGroups config.groupSize len := by
        rw [Nat.div_lt_iff_lt_mul hpos]
        omega
      have hnibble : nibble (c + r) = nibble (a + (c + r - c)) := by
        funext byte
        rw [nibble, nibble, show (c + r) % 2 = (a + (c + r - c)) % 2 by omega]
      rw [if_pos ⟨Nat.le_add_right _ _, by omega⟩, if_pos (by omega), if_pos (by omega), hnibble, Nat.add_sub_cancel_left,
        Nat.add_sub_cancel_left, Nat.add_sub_cancel_left, Nat.add_div_of_dvd_right ha,
        show (a + r) / 2 = a / 2 + r / 2 by omega]
    · -- behind it, and so in another group
      have hdvd : config.groupSize ∣ len := hend.resolve_right (by omega)
      have hlenEven : len % 2 = 0 := by
        obtain ⟨k, rfl⟩ := hdvd
        rw [Nat.mul_mod, heven, Nat.zero_mul]
      have hgroup : numGroups config.groupSize len ≤ r / config.groupSize := by
        rw [Nat.le_div_iff_mul_le hpos, hgroups, padLen, Nat.mod_eq_zero_of_dvd hdvd, Nat.sub_zero,
          Nat.mod_self]
        omega
      rw [if_neg (by omega), if_neg (by omega), if_neg (by omega)]

def constant (config : CompressionConfig) (length : ℕ) (x : ℚ) : CompressedTensor where
  config
  length
  data := List.replicate (numGroups config.groupSize length * (config.groupSize / 2)) 0
  scale := List.replicate (numGroups config.groupSize length) (none, x)

@[simp]
theorem length_constant (x : ℚ) : (constant config n x).length = n := rfl

theorem constant_wellFormed (h : config.Supported) (n : ℕ) (x : ℚ) :
    (constant config n x).WellFormed :=
  ⟨h.numBits, h.even, h.pos, List.length_replicate, List.length_replicate⟩

theorem value_constant (hpos : 0 < config.groupSize) {i : ℕ} (hi : i < n) (x : ℚ) :
    (constant config n x).value i = x := by
  have hgroup : i / config.groupSize < numGroups config.groupSize n := by
    rw [Nat.div_lt_iff_lt_mul hpos, numGroups_mul hpos]
    omega
  simp [CompressedTensor.value, constant, List.getD_eq_getElem?_getD, hgroup, dequantize]

/-- A range that begins with a group is copied as it should be if and only if it ends with one, or
with the tensor it is copied to: the numbers behind it in its last group would get a scale and a
minimum that are not theirs. -/
theorem generalCopyCompressed_iff (h : config.Supported) (hc : config.groupSize ∣ c)
    (ha : config.groupSize ∣ a) (hd : c + len ≤ n) (hs : a + len ≤ m) :
    CopiesRange config n c m a len ↔ config.groupSize ∣ len ∨ c + len = n := by
  constructor
  · intro hcopies
    by_contra hnot
    rw [not_or] at hnot
    obtain ⟨hdvd, hend⟩ := hnot
    -- ones are copied over zeros
    have hdst := constant_wellFormed h n 0
    have hsrc := constant_wellFormed h m 1
    obtain ⟨dst', hcopy, hwf, hconfig, hlen, -, hscale⟩ :=
      generalCopyCompressed_eq hdst hsrc (show (constant config n 0).config = config from rfl) rfl
        hc ha hd hs
    have hout := hcopies _ _ hdst hsrc rfl rfl rfl rfl _ _ (decompress_eq hdst) (decompress_eq hsrc)
    rw [hcopy, Option.bind_some, decompress_eq hwf, hlen, length_constant, length_constant] at hout
    have hlt : c + len < n := by omega
    have hgroup : len / config.groupSize < numGroups config.groupSize len := by
      have hmod : len % config.groupSize ≠ 0 := fun h0 => hdvd (Nat.dvd_of_mod_eq_zero h0)
      have hmodlt := Nat.mod_lt len h.pos
      rw [Nat.div_lt_iff_lt_mul h.pos, numGroups_mul h.pos, padLen, Nat.mod_eq_of_lt (by omega)]
      omega
    have hgroupSrc : a / config.groupSize + len / config.groupSize < numGroups config.groupSize m := by
      have hmono := numGroups_mono config.groupSize hs
      rw [numGroups, numGroups_add h.pos ha] at hmono
      omega
    have hone : dst'.value (c + len) = 1 := by
      rw [CompressedTensor.value, hconfig, List.getD_eq_getElem?_getD, hscale,
        Nat.add_div_of_dvd_right hc, if_pos ⟨Nat.le_add_right _ _, by omega⟩,
        Nat.add_sub_cancel_left]
      simp [constant, hgroupSrc, dequantize]
    have hat : ((List.range n).map dst'.value)[c + len]? = _ :=
      congrArg (fun out : List ℚ => out[c + len]?) (Option.some.inj hout)
    rw [getElem?_splice (by simpa using hd) (by simpa using hs), if_neg (by omega),
      List.getElem?_map, List.getElem?_map, List.getElem?_range hlt] at hat
    simp [hone, value_constant h.pos hlt] at hat
  · intro hend dst src hdst hsrc hdc hsc hdl hsl x y hx hy
    subst hdl hsl
    obtain ⟨dst', hcopy, hwf, hconfig, hlen, hdata, hscale⟩ :=
      generalCopyCompressed_eq hdst hsrc hdc hsc hc ha hd hs
    rw [decompress_eq hdst] at hx
    rw [decompress_eq hsrc] at hy
    obtain rfl := Option.some.inj hx
    obtain rfl := Option.some.inj hy
    rw [hcopy, Option.bind_some, decompress_eq hwf, hlen]
    congr 1
    refine List.ext_getElem? fun i => ?_
    rw [getElem?_splice (by simpa using hd) (by simpa using hs)]
    by_cases hi : i < dst.length
    · have hvalue := value_generalCopyCompressed hdc hsc hconfig h.pos h.even hc ha hend hdata hscale
        hi
      rw [List.getElem?_map, List.getElem?_map, List.getElem?_map, List.getElem?_range hi,
        Option.map_some, hvalue]
      split_ifs with hin
      · rw [List.getElem?_range (by omega), Option.map_some]
      · rfl
    · rw [List.getElem?_eq_none (by simpa using hi), if_neg (by omega),
        List.getElem?_eq_none (by simpa using hi)]

/-- Five numbers are copied to the end of a tensor of nine, in groups of four. -/
theorem generalCopyCompressed_iff_five :
    CopiesRange ⟨4, 4, false⟩ 9 4 8 0 5 ∧ ¬ CopiesRange ⟨4, 4, false⟩ 10 4 8 0 5 :=
  ⟨(generalCopyCompressed_iff ⟨rfl, rfl, rfl, by decide⟩ (by decide) (by decide) (by decide)
      (by decide)).mpr (by decide),
    fun h => absurd ((generalCopyCompressed_iff ⟨rfl, rfl, rfl, by decide⟩ (by decide) (by decide)
      (by decide) (by decide)).mp h) (by decide)⟩

end

end BloomBee.GroupCompression
