import BloomBee.Lib.Grouped
import BloomBee.Lib.Rounding
import BloomBee.Lib.Strided

/-! `quantize_group_int4` and `dequant_group_int4` (`utils/moe_expert_quant.py`) on a row of the
weights. Scales are exact here; a byte of torch is a vector of eight bits. -/

set_option autoImplicit false

namespace BloomBee.ExpertQuant

open Grouped Rounding Strided

def int4GroupSize : ℕ := 128

/-- An operation of torch on two tensors of one dimension: a length of 1 is stretched. -/
def broadcast {α β γ : Type} (f : α → β → γ) (xs : List α) (ys : List β) : Option (List γ) :=
  match xs, ys with
  | [x], ys => some (ys.map (f x))
  | xs, [y] => some (xs.map (f · y))
  | xs, ys => if xs.length = ys.length then some (List.zipWith f xs ys) else none

/-- `n_groups`: the group size divides the dimension, rounded up. -/
def nGroups (inDim groupSize : ℕ) : ℕ := (-((-(inDim : ℤ)).fdiv groupSize)).toNat

def groupScale (group : List ℚ) : ℚ := max ((group.map abs).foldr max 0) (1 / 10 ^ 8) / 7

/-- `torch.round(w / scale).clamp(-7, 7)` -/
def code (scale w : ℚ) : ℤ := max (-7) (min (roundHalfEven (w / scale)) 7)

def groupCodes (group : List ℚ) : List (BitVec 8) :=
  group.map fun w => BitVec.ofInt 8 (code (groupScale group) w)

def quantizeGroupInt4 (weight : List ℚ) (groupSize : ℕ := int4GroupSize) :
    Option (List (BitVec 8) × List ℚ) := do
  let inDim := weight.length
  let padded := nGroups inDim groupSize * groupSize
  let wGroups := groups groupSize (nGroups inDim groupSize)
    (weight ++ List.replicate (padded - inDim) 0)
  let evenDim := inDim + inDim % 2
  let q := (wGroups.flatMap groupCodes).take evenDim
  let low := (lane q 0 2).map (· + 8#8)
  let high := (lane q 1 2).map (· + 8#8)
  let packed ← broadcast (fun (l h : BitVec 8) => l ||| h <<< 4) low high
  return (packed, wGroups.map groupScale)

def dequantGroupInt4 (packed : List (BitVec 8)) (scale : List ℚ) (inDim : ℕ)
    (groupSize : ℕ := int4GroupSize) : Option (List ℚ) :=
  let low := packed.map fun b : BitVec 8 => (b &&& 0xF#8) - 8#8
  let high := packed.map fun b : BitVec 8 => (b >>> 4) - 8#8
  let q := ((List.zip low high).flatMap fun lh => [lh.1, lh.2]).take inDim
  let expanded := (scale.flatMap (List.replicate groupSize)).take inDim
  broadcast (fun (c : BitVec 8) s => (c.toInt : ℚ) * s) q expanded

end BloomBee.ExpertQuant
