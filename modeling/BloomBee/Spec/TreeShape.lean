import BloomBee.Lib.Loop
import Mathlib.Algebra.BigOperators.Group.List.Basic
import Mathlib.Algebra.Order.Field.Rat
import Mathlib.Data.List.DropRight

/-! Tree shapes (`models/llama/spec_decoding_tree_shape.py`): the width plan of Sequoia over exact
rationals. `heapq` is its list of entries, of which the least is popped. -/

set_option autoImplicit false

namespace BloomBee.TreeShape

/-- An entry of the heap: a ratio with its sign changed, and a depth. -/
abbrev HeapEntry := ℚ × ℕ

def entryLt (a b : HeapEntry) : Prop := a.1 < b.1 ∨ (a.1 = b.1 ∧ a.2 < b.2)

instance (a b : HeapEntry) : Decidable (entryLt a b) :=
  inferInstanceAs (Decidable (a.1 < b.1 ∨ (a.1 = b.1 ∧ a.2 < b.2)))

def heappush (heap : List HeapEntry) (e : HeapEntry) : List HeapEntry := heap ++ [e]

/-- The least entry of `e :: rest`. -/
def leastEntry (e : HeapEntry) (rest : List HeapEntry) : HeapEntry :=
  rest.foldl (fun m x => if entryLt x m then x else m) e

def heappop : List HeapEntry → Option (HeapEntry × List HeapEntry)
  | [] => none
  | e :: rest =>
    let least := leastEntry e rest
    some (least, (e :: rest).erase least)

/-! ### `sequoia_optimize_widths` -/

/-- The loop of `_reach_prob`, over the depths before the one that is asked for. -/
def reachLoop (p : ℚ) : List (ℚ × ℕ) → ℚ
  | [] => p
  | (accept, width) :: rest =>
    if width = 0 then 0 else reachLoop (p * (1 - (1 - accept) ^ width)) rest

def reachProb (perDepthAccept : List ℚ) (widths : List ℕ) (depth : ℕ) : ℚ :=
  reachLoop 1 ((perDepthAccept.zip widths).take depth)

/-- The second loop of `_bump_cost`, over the depths below. -/
def subtreeLoop (running subtree : ℕ) : List ℕ → ℕ
  | [] => subtree
  | width :: rest =>
    let running := running * max width 0
    if running = 0 then subtree else subtreeLoop running (subtree + running) rest

def bumpCost (widths : List ℕ) (depth : ℕ) : ℕ :=
  let parentsAtD := (widths.take depth).foldl (fun parents width => parents * max width 1) 1
  parentsAtD * subtreeLoop 1 1 (widths.drop (depth + 1))

def marginalRatio (perDepthAccept : List ℚ) (widths : List ℕ) (depth : ℕ) : ℚ :=
  let a := perDepthAccept.getD depth 0
  if a ≤ 0 then 0
  else
    let gain := a * (1 - a) ^ widths.getD depth 0 * reachProb perDepthAccept widths depth
    gain / (max (bumpCost widths depth) 1 : ℕ)

structure PlanState where
  widths : List ℕ
  remaining : ℕ
  heap : List HeapEntry

/-- The push for a depth whose marginal ratio may have changed. -/
def pushDepth (perDepthAccept : List ℚ) (widths : List ℕ) (heap : List HeapEntry) (depth : ℕ) :
    List HeapEntry :=
  if depth < widths.length then
    let ratio := marginalRatio perDepthAccept widths depth
    if 0 < ratio then heappush heap (-ratio, depth) else heap
  else heap

/-- `widths[depth] += 1` -/
def bump (widths : List ℕ) (depth : ℕ) : List ℕ := widths.modify depth (· + 1)

/-- One turn of the loop, after the entry is popped. -/
def planEntry (perDepthAccept : List ℚ) (s : PlanState) (negRatio : ℚ) (depth : ℕ)
    (heap : List HeapEntry) : Loop.Turn PlanState Empty :=
  let ratio := -negRatio
  if ratio ≤ 0 then .stop { s with heap }
  else
    let fresh := marginalRatio perDepthAccept s.widths depth
    if fresh < ratio - 1 / 10 ^ 12 then
      .next { s with heap := if 0 < fresh then heappush heap (-fresh, depth) else heap }
    else
      let cost := bumpCost s.widths depth
      if s.remaining < cost then .next { s with heap }
      else
        let widths := bump s.widths depth
        .next {
          widths
          remaining := s.remaining - cost
          heap := [depth, depth + 1].foldl (pushDepth perDepthAccept widths) heap }

def planTurn (perDepthAccept : List ℚ) (s : PlanState) : Loop.Turn PlanState Empty :=
  if 0 < s.remaining then
    match heappop s.heap with
    | none => .stop s
    | some ((negRatio, depth), heap) => planEntry perDepthAccept s negRatio depth heap
  else .stop s

def planStart (perDepthAccept : List ℚ) (maxTotalNodes maxDepth : ℕ) : PlanState :=
  let widths := List.replicate maxDepth 0
  { widths
    remaining := maxTotalNodes
    heap := heappush [] (-marginalRatio perDepthAccept widths 0, 0) }

/-- `max_depth`, clipped to the rates. -/
def clippedDepth (perDepthAccept : List ℚ) (maxDepth : Option ℤ) : ℕ :=
  (min (maxDepth.getD perDepthAccept.length) perDepthAccept.length).toNat

/-- `sequoia_optimize_widths`, with `fuel` turns for its loop. -/
def sequoiaOptimizeWidths (fuel : ℕ) (perDepthAccept : List ℚ) (maxTotalNodes : ℕ)
    (maxDepth : Option ℤ) : Option (List ℕ) :=
  let depths := clippedDepth perDepthAccept maxDepth
  if depths = 0 then some []
  else
    match Loop.run (planTurn perDepthAccept) fuel
        (planStart perDepthAccept maxTotalNodes depths) with
    | some (.ok s) => some (s.widths.rdropWhile (· = 0))
    | _ => none

end BloomBee.TreeShape
