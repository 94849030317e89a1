import BloomBee.Lib.Grouped
import BloomBee.Lib.Rounding

/-! The compressed tensors of FlexGen, `flexgen_utils/compression.py`: `compress` and `decompress` of
`TorchCompressedDevice`, the latter on a GPU, and `general_copy_compressed`. A tensor is one row along
`group_dim`; the rows do not see each other. Numbers are exact, where the code rounds the scale and
the minimum of a group to half precision, and a scale that divides by zero is infinite. -/

set_option autoImplicit false

namespace BloomBee.GroupCompression

open Grouped Rounding

/-- What is read of a `CompressionConfig`. -/
structure CompressionConfig where
  numBits : ℕ
  groupSize : ℕ
  symmetric : Bool
  deriving DecidableEq, Repr

/-- A scale, and `none` for an infinite one. -/
abbrev Scale : Type := Option ℚ

structure CompressedTensor where
  config : CompressionConfig
  /-- `shape[group_dim]` -/
  length : ℕ
  data : List (BitVec 8)
  /-- The scale and the minimum of each group. -/
  scale : List (Scale × ℚ)
  deriving DecidableEq

/-- The groups of a length, the last of them padded. -/
def numGroups (groupSize length : ℕ) : ℕ := (length + groupSize - 1) / groupSize

def padLen (groupSize length : ℕ) : ℕ := (groupSize - length % groupSize) % groupSize

/-! ### `compress` -/

def groupMin (group : List ℚ) : ℚ := group.foldr min (group.headD 0)

def groupMax (group : List ℚ) : ℚ := group.foldr max (group.headD 0)

/-- `B / (mx - mn)` -/
def groupScale (group : List ℚ) : Scale :=
  if groupMax group - groupMin group = 0 then none
  else some ((2 ^ 4 - 1) / (groupMax group - groupMin group))

/-- `data.mul_(scale)`, `clamp_(0, B)`, `round_()` and the conversion to bytes. Zero times infinity is
not a number, which is converted to anything. -/
def code (nan : BitVec 8) (group : List ℚ) (x : ℚ) : BitVec 8 :=
  match groupScale group with
  | none => nan
  | some scale =>
    BitVec.ofInt 8 (roundHalfEven (max 0 (min ((x - groupMin group) * scale) (2 ^ 4 - 1))))

/-- Two codes in a byte, the one at an even place on the left. -/
def packGroup : List (BitVec 8) → List (BitVec 8)
  | left :: right :: codes => (left <<< 4 ||| right) :: packGroup codes
  | _ => []

/-- `none` where an assertion fails or a division by zero raises. -/
def compress (nan : BitVec 8) (config : CompressionConfig) (tensor : List ℚ) :
    Option CompressedTensor :=
  if config.numBits = 4 ∧ config.groupSize % 2 = 0 ∧ config.symmetric = false ∧
      config.groupSize ≠ 0 then
    let data := groups config.groupSize (numGroups config.groupSize tensor.length)
      (tensor ++ List.replicate (padLen config.groupSize tensor.length) 0)
    some
      { config
        length := tensor.length
        data := data.flatMap fun group => packGroup (group.map (code nan group))
        scale := data.map fun group => (groupScale group, groupMin group) }
  else none

/-! ### `decompress` -/

def unpackGroup (packed : List (BitVec 8)) : List (BitVec 8) :=
  packed.flatMap fun byte : BitVec 8 => [byte >>> 4, byte &&& 0xF#8]

/-- `data.div_(scale)` and `data.add_(mn)`. -/
def dequantize (scale : Scale × ℚ) (code : BitVec 8) : ℚ :=
  match scale.1 with
  | none => scale.2
  | some s => code.toNat / s + scale.2

/-- A tensor with one entry for each group, in an operation on `n` groups in place. -/
def perGroup {α : Type} (n : ℕ) : List α → Option (List α)
  | [x] => some (List.replicate n x)
  | xs => if xs.length = n then some xs else none

/-- `none` where it raises: packed data that ends within a group is padded by a `torch.cat` of a
`TorchTensor`, which is not a tensor of torch. -/
def decompress (tensor : CompressedTensor) : Option (List ℚ) :=
  let groupSize := tensor.config.groupSize
  let groupSizeC := groupSize / 2
  if groupSizeC = 0 ∨ padLen groupSizeC tensor.data.length ≠ 0 then none
  else
    let n := numGroups groupSizeC tensor.data.length
    let data := (groups groupSizeC n tensor.data).map unpackGroup
    (perGroup n tensor.scale).bind fun scale =>
      let flat := (List.zipWith (fun s group => group.map (dequantize s)) scale data).flatten
      let result := flat.take (flat.length - padLen groupSize tensor.length)
      if result.length = tensor.length then some result else none

/-! ### `general_copy_compressed` -/

/-- `get_compressed_indices` along `group_dim`: the ranges of bytes and of groups. -/
def getCompressedIndices (tensor : CompressedTensor) (indices : Option (ℕ × ℕ)) :
    Option ((ℕ × ℕ) × (ℕ × ℕ)) :=
  let (start, stop) := indices.getD (0, tensor.length)
  let groupSize := tensor.config.groupSize
  if tensor.config.numBits = 4 ∧ groupSize ≠ 0 ∧ start % groupSize = 0 then
    some ((start / 2, (stop + 1) / 2), (start / groupSize, (stop + groupSize - 1) / groupSize))
  else none

/-- `dst[d.1:d.2].copy_(src[s.1:s.2])` -/
def copyRange {α : Type} (dst : List α) (d : ℕ × ℕ) (src : List α) (s : ℕ × ℕ) :
    Option (List α) :=
  let part := (src.take s.2).drop s.1
  let room := min d.2 dst.length - d.1
  (match part with
    | [x] => some (List.replicate room x)
    | part => if part.length = room then some part else none).map fun part =>
      dst.take d.1 ++ part ++ dst.drop (d.1 + room)

def generalCopyCompressed (dst : CompressedTensor) (dstIndices : Option (ℕ × ℕ))
    (src : CompressedTensor) (srcIndices : Option (ℕ × ℕ)) : Option CompressedTensor := do
  let (srcData, srcScale) ← getCompressedIndices src srcIndices
  let (dstData, dstScale) ← getCompressedIndices dst dstIndices
  let data ← copyRange dst.data dstData src.data srcData
  let scale ← copyRange dst.scale dstScale src.scale srcScale
  return { dst with data, scale }

end BloomBee.GroupCompression
