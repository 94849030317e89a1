import Mathlib.Data.List.MinMax
import Mathlib.Tactic.FieldSimp
import Mathlib.Tactic.Positivity
import Mathlib.Tactic.Ring
import BloomBee.Spec.ExpertQuant

/-! What comes back of a row that was quantized to four bits. -/

set_option autoImplicit false

namespace BloomBee.ExpertQuant

open Grouped Rounding Strided

/-! ### Groups and scales -/

section Groups

variable {inDim groupSize : ℕ}

/-- The groups cover the row, and the last one is not idle. -/
theorem nGroups_bounds (hs : 0 < groupSize) :
    inDim ≤ nGroups inDim groupSize * groupSize ∧
      nGroups inDim groupSize * groupSize < inDim + groupSize := by
  have hpos : (0 : ℤ) < groupSize := Int.natCast_pos.mpr hs
  have hdiv : (-(inDim : ℤ)).fdiv groupSize = -(inDim : ℤ) / groupSize :=
    Int.fdiv_eq_ediv_of_nonneg _ hpos.le
  have hlo := Int.ediv_mul_le (-(inDim : ℤ)) hpos.ne'
  have hhi := Int.lt_ediv_add_one_mul_self (-(inDim : ℤ)) hpos
  have hneg : -(inDim : ℤ) / groupSize ≤ 0 := by
    apply Int.ediv_nonpos_of_nonpos_of_neg
    · omega
    · exact hpos
  have hn : (nGroups inDim groupSize : ℤ) = -(-(inDim : ℤ) / groupSize) := by
    rw [nGroups, hdiv, Int.toNat_of_nonneg (by omega)]
  rw [Int.add_mul, Int.one_mul] at hhi
  constructor
  · apply Int.ofNat_le.mp
    rw [Int.natCast_mul, hn, Int.neg_mul]
    omega
  · apply Int.ofNat_lt.mp
    rw [Int.natCast_mul, hn, Int.neg_mul, Int.natCast_add]
    omega

/-- Nothing is padded exactly when the group size divides the dimension. -/
theorem padded_eq_iff (hs : 0 < groupSize) :
    nGroups inDim groupSize * groupSize = inDim ↔ groupSize ∣ inDim := by
  obtain ⟨hlo, hhi⟩ := @nGroups_bounds inDim _ hs
  constructor
  · intro h
    exact ⟨_, (Nat.mul_comm _ _ ▸ h).symm⟩
  · rintro ⟨k, rfl⟩
    rw [Nat.mul_comm groupSize k] at hlo hhi ⊢
    have hle := Nat.le_of_mul_le_mul_right hlo hs
    rw [← Nat.succ_mul] at hhi
    have hlt := Nat.lt_of_mul_lt_mul_right hhi
    exact congrArg (· * groupSize) (Nat.le_antisymm (Nat.le_of_lt_succ hlt) hle)

end Groups

section Scale

variable {group : List ℚ} {w : ℚ}

theorem groupScale_pos : 0 < groupScale group := by
  have : (0 : ℚ) < max ((group.map abs).foldr max 0) (1 / 10 ^ 8) :=
    lt_max_of_lt_right (by norm_num)
  unfold groupScale
  linarith

theorem abs_le_groupScale (hw : w ∈ group) : |w| ≤ 7 * groupScale group := by
  have hmax : |w| ≤ (group.map abs).foldr max 0 :=
    List.le_max_of_le' 0 (List.mem_map_of_mem hw) le_rfl
  have hle := hmax.trans (le_max_left _ (1 / 10 ^ 8))
  unfold groupScale
  linarith

theorem groupScale_append_zeros (k : ℕ) :
    groupScale (group ++ List.replicate k 0) = groupScale group := by
  have hzeros : (List.replicate k (|0| : ℚ)).foldr max 0 = 0 := by
    induction k with
    | zero => rfl
    | succ k ih => rw [List.replicate_succ, List.foldr_cons, ih, abs_zero, max_self]
  unfold groupScale
  rw [List.map_append, List.foldr_append, List.map_replicate, hzeros]

theorem code_eq (hw : w ∈ group) :
    code (groupScale group) w = roundHalfEven (w / groupScale group) ∧
      -7 ≤ code (groupScale group) w ∧ code (groupScale group) w ≤ 7 := by
  have hpos := @groupScale_pos group
  obtain ⟨hlo, hhi⟩ := abs_le.mp (abs_le_groupScale hw)
  have hmem : -7 ≤ roundHalfEven (w / groupScale group) ∧
      roundHalfEven (w / groupScale group) ≤ 7 := by
    apply roundHalfEven_mem
    · rw [le_div_iff₀ hpos]
      push_cast
      linarith
    · rw [div_le_iff₀ hpos]
      push_cast
      linarith
  unfold code
  omega

theorem abs_sub_code_mul_le (hw : w ∈ group) :
    |w - code (groupScale group) w * groupScale group| ≤ groupScale group / 2 := by
  have hpos := @groupScale_pos group
  have herr := @abs_sub_roundHalfEven_le (w / groupScale group)
  rw [(code_eq hw).1]
  have hw' : w - roundHalfEven (w / groupScale group) * groupScale group =
      (w / groupScale group - roundHalfEven (w / groupScale group)) * groupScale group := by
    field_simp
  rw [hw', abs_mul, abs_of_pos hpos]
  calc |w / groupScale group - roundHalfEven (w / groupScale group)| * groupScale group
      ≤ 1 / 2 * groupScale group := mul_le_mul_of_nonneg_right herr hpos.le
    _ = groupScale group / 2 := by ring

end Scale

/-! ### Nibbles -/

def IsCode (b : BitVec 8) : Prop := (b + 8#8).toNat < 16

/-- What `packed` has for two neighbours. -/
def packByte (l h : BitVec 8) : BitVec 8 := (l + 8#8) ||| (h + 8#8) <<< 4

def unpackByte (i : ℕ) (b : BitVec 8) : BitVec 8 :=
  if i % 2 = 0 then (b &&& 0xF#8) - 8#8 else (b >>> 4) - 8#8

theorem nibbles_of_or (l h : Fin 16) :
    (BitVec.ofNat 8 l ||| BitVec.ofNat 8 h <<< 4) &&& 0xF#8 = BitVec.ofNat 8 l ∧
      (BitVec.ofNat 8 l ||| BitVec.ofNat 8 h <<< 4) >>> 4 = BitVec.ofNat 8 h := by
  revert l h
  decide +kernel

theorem unpackByte_packByte (i : ℕ) {l h : BitVec 8} (hl : IsCode l) (hh : IsCode h) :
    unpackByte i (packByte l h) = if i % 2 = 0 then l else h := by
  obtain ⟨hlow, hhigh⟩ := nibbles_of_or ⟨_, hl⟩ ⟨_, hh⟩
  simp only [BitVec.ofNat_toNat, BitVec.setWidth_eq] at hlow hhigh
  unfold unpackByte packByte
  rw [hlow, hhigh, BitVec.add_sub_cancel, BitVec.add_sub_cancel]

theorem toInt_ofInt_code {c : ℤ} (hlo : -7 ≤ c) (hhi : c ≤ 7) : (BitVec.ofInt 8 c).toInt = c := by
  rw [BitVec.toInt_ofInt, Int.bmod_eq_of_le]
  all_goals omega

theorem isCode_ofInt {c : ℤ} (hlo : -7 ≤ c) (hhi : c ≤ 7) : IsCode (BitVec.ofInt 8 c) := by
  have hadd : BitVec.ofInt 8 c + 8#8 = BitVec.ofInt 8 (c + 8) := by
    rw [BitVec.ofInt_add]
    rfl
  rw [IsCode, hadd, BitVec.toNat_ofInt]
  omega

/-! ### Packing and unpacking -/

section Pack

variable {q : List (BitVec 8)}

theorem broadcast_of_length_eq {α β γ : Type} {f : α → β → γ} {xs : List α} {ys : List β}
    (h : xs.length = ys.length) : broadcast f xs ys = some (List.zipWith f xs ys) := by
  unfold broadcast
  split
  · obtain ⟨y, rfl⟩ := List.length_eq_one_iff.mp h.symm
    rfl
  · obtain ⟨x, rfl⟩ := List.length_eq_one_iff.mp h
    rfl
  · rw [if_pos h]

theorem broadcast_eq_none {α β γ : Type} {f : α → β → γ} {xs : List α} {ys : List β}
    (h : xs.length ≠ ys.length) (hx : xs.length ≠ 1) (hy : ys.length ≠ 1) :
    broadcast f xs ys = none := by
  unfold broadcast
  split
  · exact absurd rfl hx
  · exact absurd rfl hy
  · rw [if_neg h]

theorem length_lane_two {start : ℕ} (hstart : start < 2) :
    (lane q start 2).length = (q.length + 1 - start) / 2 := by
  have h : ∀ i, i < (lane q start 2).length ↔ start + i * 2 < q.length := fun i =>
    lt_lane_length Nat.two_pos
  have hlast := h ((q.length + 1 - start) / 2 - 1)
  have hnext := h ((q.length + 1 - start) / 2)
  omega

def pack (q : List (BitVec 8)) : Option (List (BitVec 8)) :=
  broadcast (fun (l h : BitVec 8) => l ||| h <<< 4) ((lane q 0 2).map (· + 8#8))
    ((lane q 1 2).map (· + 8#8))

def Holds (packed q : List (BitVec 8)) : Prop :=
  packed.length = (q.length + 1) / 2 ∧
    ∀ i < q.length, packed[i / 2]?.map (unpackByte i) = q[i]?

theorem pack_even (heven : q.length % 2 = 0) (hq : ∀ b ∈ q, IsCode b) :
    ∃ packed, pack q = some packed ∧ Holds packed q := by
  have hlow : (lane q 0 2).length = q.length / 2 := by
    rw [length_lane_two Nat.two_pos]
    omega
  have hhigh : (lane q 1 2).length = q.length / 2 := by
    rw [length_lane_two Nat.one_lt_two]
    omega
  refine ⟨_, broadcast_of_length_eq ?_, ?_, ?_⟩
  · rw [List.length_map, List.length_map, hlow, hhigh]
  · rw [List.length_zipWith, List.length_map, List.length_map, hlow, hhigh]
    omega
  · intro i hi
    -- the two codes of the byte, one of them for place `i`
    have hl : 0 + i / 2 * 2 < q.length := by omega
    have hh : 1 + i / 2 * 2 < q.length := by omega
    have hbyte : (List.zipWith (fun (l h : BitVec 8) => l ||| h <<< 4)
        ((lane q 0 2).map (· + 8#8)) ((lane q 1 2).map (· + 8#8)))[i / 2]? =
        some (packByte q[0 + i / 2 * 2] q[1 + i / 2 * 2]) := by
      rw [List.getElem?_zipWith, List.getElem?_map, List.getElem?_map, getElem?_lane Nat.two_pos,
        getElem?_lane Nat.two_pos, List.getElem?_eq_getElem hl, List.getElem?_eq_getElem hh]
      rfl
    rw [hbyte, Option.map_some,
      unpackByte_packByte i (hq _ (List.getElem_mem hl)) (hq _ (List.getElem_mem hh))]
    split_ifs with hi2
    · rw [← List.getElem?_eq_getElem hl]
      congr 1
      omega
    · rw [← List.getElem?_eq_getElem hh]
      congr 1
      omega

/-- The high nibble of three codes is stretched over both bytes, which does no harm. -/
theorem pack_three (h3 : q.length = 3) (hq : ∀ b ∈ q, IsCode b) :
    ∃ packed, pack q = some packed ∧ Holds packed q := by
  obtain ⟨a, b, c, rfl⟩ := List.length_eq_three.mp h3
  have ha : IsCode a := hq a (by simp)
  have hb : IsCode b := hq b (by simp)
  have hc : IsCode c := hq c (by simp)
  refine ⟨[packByte a b, packByte c b], rfl, by simp, ?_⟩
  intro i hi
  have hi : i = 0 ∨ i = 1 ∨ i = 2 := by
    simp only [List.length_cons, List.length_nil] at hi
    omega
  rcases hi with rfl | rfl | rfl
  · exact congrArg some (unpackByte_packByte 0 ha hb)
  · exact congrArg some (unpackByte_packByte 1 ha hb)
  · exact congrArg some (unpackByte_packByte 2 hc hb)

theorem pack_odd (hodd : q.length % 2 = 1) (h3 : q.length ≠ 3) :
    pack q = none ∨ pack q = some [] ∧ q.length = 1 := by
  have hlow : (lane q 0 2).length = q.length / 2 + 1 := by
    rw [length_lane_two Nat.two_pos]
    omega
  have hhigh : (lane q 1 2).length = q.length / 2 := by
    rw [length_lane_two Nat.one_lt_two]
    omega
  by_cases h1 : q.length = 1
  · obtain ⟨a, rfl⟩ := List.length_eq_one_iff.mp h1
    exact .inr ⟨rfl, h1⟩
  · left
    apply broadcast_eq_none
    all_goals
      simp only [List.length_map, hlow, hhigh]
      omega

theorem getElem?_unpacked (packed : List (BitVec 8)) (i : ℕ) :
    (((packed.map fun b : BitVec 8 => (b &&& 0xF#8) - 8#8).zip
      (packed.map fun b : BitVec 8 => (b >>> 4) - 8#8)).flatMap fun lh => [lh.1, lh.2])[i]? =
      packed[i / 2]?.map (unpackByte i) := by
  rw [getElem?_flatMap Nat.two_pos _ (fun _ _ => rfl), List.zip_map', List.getElem?_map]
  cases packed[i / 2]? with
  | none => rfl
  | some b =>
    rw [Option.map_some, Option.map_some, Option.bind_some, unpackByte]
    rcases Nat.mod_two_eq_zero_or_one i with hi | hi
    · rw [hi]
      rfl
    · rw [hi]
      rfl

theorem dequant_spec {packed : List (BitVec 8)} {scale : List ℚ} {groupSize : ℕ}
    (hs : 0 < groupSize) (hholds : Holds packed q) {inDim : ℕ} (hq : inDim ≤ q.length)
    (hscale : inDim ≤ scale.length * groupSize) :
    ∃ result, dequantGroupInt4 packed scale inDim groupSize = some result ∧
      result.length = inDim ∧ ∀ i < inDim, result[i]? =
        q[i]?.bind fun c => scale[i / groupSize]?.map fun s => (c.toInt : ℚ) * s := by
  obtain ⟨hlen, hat⟩ := hholds
  have hrep : ∀ s ∈ scale, (List.replicate groupSize s).length = groupSize := fun s _ =>
    List.length_replicate
  have hql : ((((packed.map fun b : BitVec 8 => (b &&& 0xF#8) - 8#8).zip
      (packed.map fun b : BitVec 8 => (b >>> 4) - 8#8)).flatMap fun lh =>
        [lh.1, lh.2]).take inDim).length = inDim := by
    rw [List.length_take, @length_flatMap _ _ 2 _ _ (fun _ _ => rfl), List.zip_map',
      List.length_map]
    omega
  have hel : ((scale.flatMap (List.replicate groupSize)).take inDim).length = inDim := by
    rw [List.length_take, length_flatMap _ hrep]
    omega
  refine ⟨_, broadcast_of_length_eq (hql.trans hel.symm), ?_, ?_⟩
  · rw [List.length_zipWith, hql, hel, Nat.min_self]
  · intro i hi
    rw [List.getElem?_zipWith, List.getElem?_take_of_lt hi, List.getElem?_take_of_lt hi,
      getElem?_unpacked, hat i (by omega), getElem?_flatMap hs _ hrep]
    cases q[i]? with
    | none => rfl
    | some c =>
      cases scale[i / groupSize]? with
      | none => rfl
      | some s =>
        rw [Option.bind_some, List.getElem?_replicate_of_lt (Nat.mod_lt i hs)]
        rfl

end Pack

/-! ### The row -/

section Row

variable (w : List ℚ) {groupSize : ℕ}

def rowGroup (groupSize : ℕ) (g : ℕ) : List ℚ := (w.drop (g * groupSize)).take groupSize

def wGroups (groupSize : ℕ) : List (List ℚ) :=
  groups groupSize (nGroups w.length groupSize)
    (w ++ List.replicate (nGroups w.length groupSize * groupSize - w.length) 0)

def codes (groupSize : ℕ) : List (BitVec 8) := (wGroups w groupSize).flatMap groupCodes

theorem quantizeGroupInt4_eq : quantizeGroupInt4 w groupSize =
    (pack ((codes w groupSize).take (w.length + w.length % 2))).map fun packed =>
      (packed, (wGroups w groupSize).map groupScale) := by
  unfold quantizeGroupInt4
  exact Option.map_eq_bind.symm

variable {w}

theorem length_of_mem_wGroups (hs : 0 < groupSize) {group : List ℚ}
    (hg : group ∈ wGroups w groupSize) : group.length = groupSize := by
  apply length_of_mem_groups _ hg
  have := (@nGroups_bounds w.length _ hs).1
  rw [List.length_append, List.length_replicate]
  omega

theorem length_codes (hs : 0 < groupSize) :
    (codes w groupSize).length = nGroups w.length groupSize * groupSize := by
  have hlen : ∀ group ∈ wGroups w groupSize, (groupCodes group).length = groupSize := by
    intro group hg
    rw [groupCodes, List.length_map, length_of_mem_wGroups hs hg]
  rw [codes, length_flatMap _ hlen, wGroups, length_groups]

theorem isCode_of_mem_codes {b : BitVec 8} (hb : b ∈ codes w groupSize) : IsCode b := by
  obtain ⟨group, -, hb⟩ := List.mem_flatMap.mp hb
  obtain ⟨v, hv, rfl⟩ := List.mem_map.mp hb
  obtain ⟨-, hlo, hhi⟩ := code_eq hv
  exact isCode_ofInt hlo hhi

/-- The group of a place of the row, with its zeros. -/
theorem getElem?_wGroups (hs : 0 < groupSize) {i : ℕ} (hi : i < w.length) :
    ∃ k, (wGroups w groupSize)[i / groupSize]? =
        some (rowGroup w groupSize (i / groupSize) ++ List.replicate k 0) ∧
      (rowGroup w groupSize (i / groupSize) ++ List.replicate k 0)[i % groupSize]? =
        some w[i] := by
  have hpad : i < nGroups w.length groupSize * groupSize :=
    Nat.lt_of_lt_of_le hi (nGroups_bounds hs).1
  have hdrop : i / groupSize * groupSize ≤ w.length :=
    (Nat.div_mul_le_self i groupSize).trans hi.le
  have hgroup : (wGroups w groupSize)[i / groupSize]? = _ :=
    getElem?_groups ((Nat.div_lt_iff_lt_mul hs).mpr hpad) _
  have hat := @getElem?_group _ _ _ _ hs (w ++ List.replicate
    (nGroups w.length groupSize * groupSize - w.length) 0) hpad
  rw [← wGroups, hgroup, Option.bind_some, List.getElem?_append_left hi,
    List.getElem?_eq_getElem hi] at hat
  rw [List.drop_append_of_le_length hdrop, List.take_append, List.take_replicate] at hgroup hat
  exact ⟨_, hgroup, hat⟩

theorem mem_rowGroup (hs : 0 < groupSize) {i : ℕ} (hi : i < w.length) :
    w[i] ∈ rowGroup w groupSize (i / groupSize) := by
  apply List.mem_of_getElem? (i := i % groupSize)
  rw [rowGroup, List.getElem?_take_of_lt (Nat.mod_lt i hs), List.getElem?_drop, Nat.mul_comm,
    Nat.div_add_mod, List.getElem?_eq_getElem hi]

theorem getElem?_scales (hs : 0 < groupSize) {i : ℕ} (hi : i < w.length) :
    ((wGroups w groupSize).map groupScale)[i / groupSize]? =
      some (groupScale (rowGroup w groupSize (i / groupSize))) := by
  obtain ⟨k, hgroup, -⟩ := getElem?_wGroups hs hi
  rw [List.getElem?_map, hgroup, Option.map_some, groupScale_append_zeros]

theorem getElem?_codes (hs : 0 < groupSize) {i : ℕ} (hi : i < w.length) :
    (codes w groupSize)[i]? = some (BitVec.ofInt 8
      (code (groupScale (rowGroup w groupSize (i / groupSize))) w[i])) := by
  obtain ⟨k, hgroup, hat⟩ := getElem?_wGroups hs hi
  have hlen : ∀ group ∈ wGroups w groupSize, (groupCodes group).length = groupSize := by
    intro group hg
    rw [groupCodes, List.length_map, length_of_mem_wGroups hs hg]
  rw [codes, getElem?_flatMap hs _ hlen, hgroup, Option.bind_some, groupCodes, List.getElem?_map,
    hat, Option.map_some, groupScale_append_zeros]

/-- The row comes back: as many entries, each the rounded multiple of the scale of its group, from
one byte for two of them. -/
def RoundTrip (w : List ℚ) (groupSize : ℕ) : Prop :=
  ∃ packed scale result,
    quantizeGroupInt4 w groupSize = some (packed, scale) ∧
      dequantGroupInt4 packed scale w.length groupSize = some result ∧
      packed.length = (w.length + 1) / 2 ∧ result.length = w.length ∧
      ∀ (i : ℕ) (hi : i < w.length), ∃ (c : ℤ) (s : ℚ), scale[i / groupSize]? = some s ∧
        s = groupScale (rowGroup w groupSize (i / groupSize)) ∧ c = roundHalfEven (w[i] / s) ∧
        -7 ≤ c ∧ c ≤ 7 ∧ result[i]? = some (c * s) ∧ |w[i] - c * s| ≤ s / 2

theorem roundTrip_of_holds (hs : 0 < groupSize) {q packed : List (BitVec 8)}
    (hq : q = (codes w groupSize).take (w.length + w.length % 2)) (hpack : pack q = some packed)
    (hholds : Holds packed q) : RoundTrip w groupSize := by
  have hpad := (@nGroups_bounds w.length _ hs).1
  have hlen : w.length ≤ q.length ∧ (q.length + 1) / 2 = (w.length + 1) / 2 := by
    rw [hq, List.length_take, length_codes hs]
    omega
  have hscale : w.length ≤ ((wGroups w groupSize).map groupScale).length * groupSize := by
    rw [List.length_map, wGroups, length_groups]
    exact hpad
  obtain ⟨result, hresult, hreslen, hat⟩ := dequant_spec hs hholds hlen.1 hscale
  refine ⟨packed, _, result, ?_, hresult, hholds.1.trans hlen.2, hreslen, ?_⟩
  · rw [quantizeGroupInt4_eq, ← hq, hpack]
    rfl
  · intro i hi
    have hmem := mem_rowGroup hs hi
    obtain ⟨hround, hlo, hhi⟩ := code_eq hmem
    refine ⟨_, _, getElem?_scales hs hi, rfl, hround, hlo, hhi, ?_, abs_sub_code_mul_le hmem⟩
    rw [hat i hi, hq, List.getElem?_take_of_lt (by omega), getElem?_codes hs hi, Option.bind_some,
      getElem?_scales hs hi, Option.map_some, toInt_ofInt_code hlo hhi]

/-- A row comes back unless its length is odd and a multiple of the group size, where the slice to
an even length finds no padding. Three entries do come back. -/
theorem int4_roundTrip_iff (hw : 0 < w.length) (hs : 0 < groupSize) :
    RoundTrip w groupSize ↔
      w.length % 2 = 0 ∨ ¬ groupSize ∣ w.length ∨ w.length = 3 := by
  have hcode : ∀ b ∈ (codes w groupSize).take (w.length + w.length % 2), IsCode b := fun b hb =>
    isCode_of_mem_codes (List.mem_of_mem_take hb)
  have hpad := (@nGroups_bounds w.length _ hs).1
  have hdvd := @padded_eq_iff w.length _ hs
  have hlen : ((codes w groupSize).take (w.length + w.length % 2)).length =
      min (w.length + w.length % 2) (nGroups w.length groupSize * groupSize) := by
    rw [List.length_take, length_codes hs]
  constructor
  · rintro ⟨packed, scale, result, hquant, -, hbytes, -⟩
    by_contra hnot
    have hpadded : nGroups w.length groupSize * groupSize = w.length := hdvd.mpr (by tauto)
    rw [quantizeGroupInt4_eq] at hquant
    rcases pack_odd (q := (codes w groupSize).take (w.length + w.length % 2)) (by omega)
      (by omega) with hnone | ⟨hempty, -⟩
    · rw [hnone] at hquant
      cases hquant
    · rw [hempty] at hquant
      obtain ⟨rfl, -⟩ := Prod.mk.inj (Option.some.inj hquant)
      rw [List.length_nil] at hbytes
      omega
  · intro hcond
    by_cases h3 : nGroups w.length groupSize * groupSize = 3 ∧ w.length = 3
    · obtain ⟨packed, hpack, hholds⟩ := pack_three (by omega) hcode
      exact roundTrip_of_holds hs rfl hpack hholds
    · have heven : ((codes w groupSize).take (w.length + w.length % 2)).length % 2 = 0 := by
        rcases hcond with heven | hndvd | hthree
        · omega
        · have := hdvd.not.mpr hndvd
          omega
        · omega
      obtain ⟨packed, hpack, hholds⟩ := pack_even heven hcode
      exact roundTrip_of_holds hs rfl hpack hholds

theorem int4_roundTrip_three : RoundTrip [1, -3, 5, 2, 7] 3 :=
  (int4_roundTrip_iff (w := [1, -3, 5, 2, 7]) (by decide) (by decide)).mpr (by decide)

/-- Five weights in one group of five. -/
theorem int4_five_raises : ¬ ∀ (w : List ℚ) (groupSize : ℕ), 0 < w.length → 0 < groupSize →
    RoundTrip w groupSize := by
  intro h
  obtain ⟨packed, scale, result, hquant, -⟩ := h [1, -3, 5, 2, 7] 5 (by decide) (by decide)
  have hnone : quantizeGroupInt4 [1, -3, 5, 2, 7] 5 = none := by decide +kernel
  rw [hnone] at hquant
  cases hquant

end Row

end BloomBee.ExpertQuant
