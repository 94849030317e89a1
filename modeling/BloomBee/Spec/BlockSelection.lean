import Mathlib.Algebra.Order.Ring.Rat
import Mathlib.Data.Fintype.Basic
import Mathlib.Data.List.Lex
import Mathlib.Data.List.MinMax
import Mathlib.Data.List.Sort
import Mathlib.Data.Prod.Lex
import BloomBee.Lib.OrderedDict

/-! How a server decides whether to load other blocks (`server/block_selection.py`): it moves its own
span to the window with the least throughputs, lets every server do so in turn, in an order that is
shuffled anew for each pass, until nobody moves, and compares the least throughput of a block before
and after. The numbers are exact. -/

set_option autoImplicit false

namespace BloomBee.BlockSelection

/-- A `RemoteSpanInfo` with the throughput of its server. -/
structure RemoteSpanInfo (Peer : Type) where
  peerId : Peer
  start : ℕ
  stop : ℕ
  throughput : ℚ
  deriving DecidableEq

inductive Raised where
  /-- "Span served by this server is not present in the DHT" -/
  | assertion
  /-- `min` of nothing -/
  | valueError
  | keyError
  deriving DecidableEq, Repr

variable {Peer : Type} {n : ℕ}

def RemoteSpanInfo.length (span : RemoteSpanInfo Peer) : ℕ := span.stop - span.start

/-- `_move_span` -/
def RemoteSpanInfo.move (span : RemoteSpanInfo Peer) (newStart : ℕ) : RemoteSpanInfo Peer :=
  { span with start := newStart, stop := newStart + span.length }

/-! ### Throughputs of the blocks -/

/-- An array of `total_blocks` numbers. -/
abbrev Throughputs (n : ℕ) := Fin n → ℚ

/-- `throughputs[start:stop]` -/
def Throughputs.slice (throughputs : Throughputs n) (start stop : ℕ) : List ℚ :=
  ((List.finRange n).filter fun i : Fin n => decide (start ≤ i.val ∧ i.val < stop)).map throughputs

/-- `throughputs[start:stop] += x` -/
def Throughputs.add (throughputs : Throughputs n) (start stop : ℕ) (x : ℚ) : Throughputs n :=
  fun i => if start ≤ i.val ∧ i.val < stop then throughputs i + x else throughputs i

/-- `throughputs.min()` -/
def Throughputs.min? (throughputs : Throughputs n) : Option ℚ := (List.ofFn throughputs).min?

def sorted (xs : List ℚ) : List ℚ := xs.insertionSort (· ≤ ·)

abbrev Spans (Peer : Type) := OrderedDict Peer (RemoteSpanInfo Peer)

def computeThroughputs [LinearOrder Peer] (spans : Spans Peer) (totalBlocks : ℕ) :
    Throughputs totalBlocks :=
  ((spans.entries.map Prod.snd).insertionSort fun a b => a.peerId ≤ b.peerId).foldl
    (fun throughputs span => throughputs.add span.start span.stop span.throughput) fun _ => 0

def chooseBestStart (throughputs : Throughputs n) (numBlocks : ℕ) : Option ℕ :=
  (List.range (n + 1 - numBlocks)).argmin fun i =>
    toLex (sorted (throughputs.slice i (i + numBlocks)), i)

def eps : ℚ := 1 / 1000

/-! ### The simulation -/

structure Swarm (Peer : Type) (n : ℕ) where
  spans : Spans Peer
  throughputs : Throughputs n

variable [LinearOrder Peer]

/-- The body of the loop over the servers, and whether the span was moved. -/
def Swarm.visit (swarm : Swarm Peer n) (peerId : Peer) : Except Raised (Swarm Peer n × Bool) :=
  match swarm.spans.get? peerId with
  | none => .error .keyError
  | some span =>
    let throughputs := swarm.throughputs.add span.start span.stop (-(span.throughput * (1 + eps)))
    match chooseBestStart throughputs span.length with
    | none => .error .valueError
    | some newStart =>
      let throughputs := throughputs.add span.start span.stop (span.throughput * eps)
      let moved := if span.start ≠ newStart then span.move newStart else span
      .ok (⟨swarm.spans.set peerId moved,
        throughputs.add moved.start moved.stop moved.throughput⟩, decide (span.start ≠ newStart))

def Swarm.visitAll : List Peer → Swarm Peer n → Except Raised (Swarm Peer n × Bool)
  | [], swarm => .ok (swarm, false)
  | peerId :: servers, swarm =>
    match swarm.visit peerId with
    | .error e => .error e
    | .ok (swarm, moved) =>
      match swarm.visitAll servers with
      | .error e => .error e
      | .ok (swarm, moved') => .ok (swarm, moved || moved')

/-- What `np.random.shuffle` makes of a list in each pass. -/
structure Shuffles (Peer : Type) where
  shuffle : ℕ → List Peer → List Peer
  perm : ∀ pass servers, (shuffle pass servers).Perm servers

def Swarm.servers (swarm : Swarm Peer n) : List Peer := swarm.spans.entries.map Prod.fst

/-- `while moved`, from a pass on, and `none` if it takes more passes. -/
def Swarm.rebalance (shuffles : Shuffles Peer) :
    ℕ → ℕ → Swarm Peer n → Option (Except Raised (Swarm Peer n))
  | 0, _, _ => none
  | fuel + 1, pass, swarm =>
    match swarm.visitAll (shuffles.shuffle pass swarm.servers) with
    | .error e => some (.error e)
    | .ok (swarm, true) => swarm.rebalance shuffles fuel (pass + 1)
    | .ok (swarm, false) => some (.ok swarm)

/-- What precedes the loop: the initial throughput and the swarm after the move of the local span, and
`none` if it returns. -/
def moveLocalSpan (localPeerId : Peer) (spans : Spans Peer) (totalBlocks : ℕ) :
    Except Raised (Option (ℚ × Swarm Peer totalBlocks)) :=
  let throughputs := computeThroughputs spans totalBlocks
  match throughputs.min? with
  | none => .error .valueError
  | some initialThroughput =>
    match spans.get? localPeerId with
    | none => .error .assertion
    | some localSpan =>
      let throughputs := throughputs.add localSpan.start localSpan.stop
        (-(localSpan.throughput * (1 + eps)))
      match throughputs.min? with
      | none => .error .valueError
      | some least =>
        if eps < initialThroughput ∧ least ≤ 0 then .ok none
        else
          match chooseBestStart throughputs localSpan.length with
          | none => .error .valueError
          | some newStart =>
            if localSpan.start = newStart then .ok none
            else
              let throughputs := throughputs.add localSpan.start localSpan.stop
                (localSpan.throughput * eps)
              let moved := localSpan.move newStart
              .ok (some (initialThroughput, ⟨spans.set localPeerId moved,
                throughputs.add moved.start moved.stop moved.throughput⟩))

/-- `should_choose_other_blocks`, on the spans that `compute_spans` finds. -/
def shouldChooseOtherBlocks (shuffles : Shuffles Peer) (fuel : ℕ) (localPeerId : Peer)
    (spans : Spans Peer) (totalBlocks : ℕ) (balanceQuality : ℚ) : Option (Except Raised Bool) :=
  if 1 < balanceQuality then some (.ok true)
  else
    match moveLocalSpan localPeerId spans totalBlocks with
    | .error e => some (.error e)
    | .ok none => some (.ok false)
    | .ok (some (initialThroughput, swarm)) =>
      match swarm.rebalance shuffles fuel 0 with
      | none => none
      | some (.error e) => some (.error e)
      | some (.ok swarm) =>
        match swarm.throughputs.min? with
        | none => some (.error .valueError)
        | some newThroughput =>
          if newThroughput < initialThroughput ∨ newThroughput < eps then some (.ok false)
          else some (.ok (decide (initialThroughput / newThroughput < balanceQuality - eps)))

end BloomBee.BlockSelection
