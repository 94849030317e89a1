import BloomBee.Lib.Scatter

/-! The forward pass of a quantized expert store (`_RoutedExpertsForwardMixin` in
`utils/moe_expert_quant.py`): the experts that are hit take their tokens one expert after the other.
Numbers are exact, and a tensor is a function of its indices. -/

set_option autoImplicit false

namespace BloomBee.RoutedExperts

open Scatter

variable {R : Type} [CommSemiring R] {hidden intermediate tokens slots : ℕ}

/-- What the forward pass reads of a store: the dequantized matrices of each expert. A stack of them
is not empty. -/
structure Experts (R : Type) (hidden intermediate : ℕ) where
  numExperts : ℕ
  gateUpWeight : Fin numExperts → Fin (intermediate + intermediate) → Fin hidden → R
  downWeight : Fin numExperts → Fin hidden → Fin intermediate → R
  actFn : R → R
  numExperts_pos : 0 < numExperts

/-- `nn.functional.linear` of one row. -/
def linear {n m : ℕ} (x : Fin n → R) (weight : Fin m → Fin n → R) : Fin m → R :=
  fun j => ∑ i, x i * weight j i

/-- `nn.functional.one_hot`, and `none` for a class that is not one. -/
def oneHot (index : Fin tokens → Fin slots → ℤ) (numClasses : ℕ) :
    Option (Fin tokens → Fin slots → Fin numClasses → ℤ) :=
  if numClasses = 0 ∨ ∃ t k, index t k < 0 ∨ numClasses ≤ index t k then none
  else some fun t k e => if index t k = e.val then 1 else 0

/-- `expert_mask.permute(2, 1, 0)` -/
def permute {n : ℕ} (mask : Fin tokens → Fin slots → Fin n → ℤ) :
    Fin n → Fin slots → Fin tokens → ℤ := fun e k t => mask t k e

def expertHit {n : ℕ} (mask : Fin n → Fin slots → Fin tokens → ℤ) : List (Fin n) :=
  (List.finRange n).filter fun e => decide (0 < ∑ k, ∑ t, mask e k t)

/-- The body of the loop over the experts that are hit. -/
def addExpert (x : Experts R hidden intermediate) (hiddenStates : Fin tokens → Fin hidden → R)
    (topKWeights : Fin tokens → Fin slots → R) (mask : Fin x.numExperts → Fin slots → Fin tokens → ℤ)
    (final : Fin tokens → Fin hidden → R) (e : Fin x.numExperts) : Fin tokens → Fin hidden → R :=
  if e.val = x.numExperts then final
  else
    let hits := nonzero fun k t => mask e k t ≠ 0
    let currentState := hits.map fun p => hiddenStates p.2
    let gateUp := currentState.map fun row => linear row (x.gateUpWeight e)
    let current := gateUp.map fun row (i : Fin intermediate) =>
      x.actFn (row (Fin.castAdd intermediate i)) * row (Fin.natAdd intermediate i)
    let current := current.map fun row => linear row (x.downWeight e)
    let current := List.zipWith (fun row (p : Fin slots × Fin tokens) j =>
      row j * topKWeights p.2 p.1) current hits
    indexAdd final (List.zip (hits.map Prod.snd) current)

def forward (x : Experts R hidden intermediate) (hiddenStates : Fin tokens → Fin hidden → R)
    (topKIndex : Fin tokens → Fin slots → ℤ) (topKWeights : Fin tokens → Fin slots → R) :
    Option (Fin tokens → Fin hidden → R) :=
  match oneHot topKIndex x.numExperts with
  | none => none
  | some expertMask =>
    let expertMask := permute expertMask
    some ((expertHit expertMask).foldl (addExpert x hiddenStates topKWeights expertMask) fun _ _ => 0)

/-! ### Token by token -/

/-- An expert on the state of one token. -/
def Experts.apply (x : Experts R hidden intermediate) (e : Fin x.numExperts)
    (state : Fin hidden → R) : Fin hidden → R :=
  linear (fun i : Fin intermediate =>
    x.actFn (linear state (x.gateUpWeight e) (Fin.castAdd intermediate i)) *
      linear state (x.gateUpWeight e) (Fin.natAdd intermediate i)) (x.downWeight e)

/-- The plain loop: for each token, its slots one after the other. -/
def perToken (x : Experts R hidden intermediate) (hiddenStates : Fin tokens → Fin hidden → R)
    (expert : Fin tokens → Fin slots → Fin x.numExperts) (topKWeights : Fin tokens → Fin slots → R) :
    Fin tokens → Fin hidden → R :=
  fun t => (List.finRange slots).foldl
    (fun acc k j => acc j + topKWeights t k * x.apply (expert t k) (hiddenStates t) j) fun _ => 0

end BloomBee.RoutedExperts
