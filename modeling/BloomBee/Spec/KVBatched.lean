import BloomBee.Spec.KVSlab

/-! `update_cache_batched` of `server/memory_cache_manager.py`: one `_write_kvs` where all batch rows
begin at the same position, and else a loop over the rows that copies with `general_copy` of
`flexgen_utils/pytorch_backend.py`, the key and then the value. -/

set_option autoImplicit false

namespace BloomBee.KVSlab

open PagedKV (BlockConfig NewKvs)
open PagedKV.PagedKVTable (Broadcasts broadcastIndex)

variable {α κ : Type}

/-- What `update_cache_batched` raises. -/
inductive BatchedRaised where
  | raised (e : Raised)
  /-- `BH_src // None` -/
  | typeError
  deriving DecidableEq, Repr

/-- `x[start:stop]` of a dimension. A `stop` below zero counts from the end. -/
def pySlice (dim start : ℕ) (stop : ℤ) : ℕ × ℕ :=
  (start, if stop < 0 then (stop + dim).toNat else min stop.toNat dim)

/-- What a copy does to a cell: it sets the first `n` numbers of the key, or of the value. -/
abbrev Merge (κ : Type) := ℕ → κ → κ → κ

def Cell.setKey : Merge (Cell α) := fun n old new =>
  { old with key := fun e => if e < n then new.key e else old.key e }

def Cell.setValue : Merge (Cell α) := fun n old new =>
  { old with value := fun e => if e < n then new.value e else old.value e }

/-- `dst.data[dst_indices].copy_(src)` of sources of `dSrc` numbers on a segment of cells of `d`, for
columns that were resolved. -/
def Segment.copyPart (merge : Merge κ) (seqLen d dSrc : ℕ) (x : Segment κ) (start stop lo hi : ℕ)
    (src : Block κ) : Except Raised (Segment κ) :=
  if Broadcasts src.tokens (min stop seqLen - start) ∧ Broadcasts src.width (hi - lo) ∧
      Broadcasts dSrc (min dSrc d) then
    .ok { x with
      data := fun s c =>
        if start ≤ s ∧ s < min stop seqLen ∧ lo ≤ c ∧ c < hi then
          merge dSrc (x.data s c)
            (src.data (broadcastIndex src.tokens (s - start)) (broadcastIndex src.width (c - lo)))
        else x.data s c }
  else .error .runtimeError

/-- `general_copy` over segments, from the one that begins at `segStart` on: `cut_indices` cuts the
columns of the destination and those of the source at the same bounds. -/
def copySegments (merge : Merge κ) (seqLen d dSrc start stop lo hi : ℕ) (src : Block κ) :
    ℕ → List (Segment κ) → List (Segment κ) × Except Raised Unit
  | _, [] => ([], .ok ())
  | segStart, seg :: segs =>
    let segEnd := segStart + seg.width
    if seg.width = 0 then
      let r := copySegments merge seqLen d dSrc start stop lo hi src segEnd segs
      (seg :: r.1, r.2)
    else
      let cols := pySlice seg.width (max lo segStart - segStart) ((min hi segEnd : ℕ) - segStart)
      match seg.copyPart merge seqLen d dSrc start stop cols.1 cols.2
          (src.slice src.tokens segStart (min src.width segEnd)) with
      | .error e => (seg :: segs, .error e)
      | .ok seg =>
        let r := copySegments merge seqLen d dSrc start stop lo hi src segEnd segs
        (seg :: r.1, r.2)

/-- `general_copy(dst, (slice(start, stop), slice(lo, hi), slice(0, dSrc)), src, None)` -/
def generalCopy (merge : Merge κ) (dSrc : ℕ) (c : Cache κ) (start stop lo hi : ℕ)
    (src : Block κ) : Cache κ × Except Raised Unit :=
  match c.storage with
  | .mixed segments =>
    let r := copySegments merge c.seqLen c.d dSrc start stop lo hi src 0 segments
    ({ c with storage := .mixed r.1 }, r.2)
  | .whole segment =>
    let cols := pySlice segment.width lo hi
    match segment.copyPart merge c.seqLen c.d dSrc start stop cols.1 cols.2 src with
    | .error e => (c, .error e)
    | .ok segment => ({ c with storage := .whole segment }, .ok ())

/-- The loop over the batch rows, from row `i` on. -/
def updateRows (heads : ℕ) (kvValidLengths : List ℕ) (new : NewKvs α) :
    ℕ → ℕ → Cache (Cell α) → Cache (Cell α) × Except Raised Unit
  | 0, _, c => (c, .ok ())
  | n + 1, i, c =>
    match kvValidLengths[i]? with
    | none => (c, .error .indexError)
    | some startPos =>
      let endPos := min (startPos + new.sNew) c.seqLen
      if endPos ≤ startPos then updateRows heads kvValidLengths new n (i + 1) c
      else
        let headStart := i * heads
        let headEnd := (i + 1) * heads
        let batch := (block new).slice (endPos - startPos) headStart headEnd
        match generalCopy Cell.setKey new.d c startPos endPos headStart headEnd batch with
        | (c, .error e) => (c, .error e)
        | (c, .ok ()) =>
          match generalCopy Cell.setValue new.d c startPos endPos headStart headEnd batch with
          | (c, .error e) => (c, .error e)
          | (c, .ok ()) => updateRows heads kvValidLengths new n (i + 1) c

def updateCacheBatched (cfg : BlockConfig) (p : KVMultiplex.Policy) (c : Cache (Cell α))
    (new : NewKvs α) (kvValidLengths : List ℕ) : Cache (Cell α) × Except BatchedRaised Unit :=
  match kvValidLengths with
  | [] => (c, .error (.raised .indexError))
  | first :: _ =>
    if ∀ length ∈ kvValidLengths, length = first then
      let r := writeKvs cfg p c first {} (tensors new)
      (r.1, r.2.mapError .raised)
    else
      match cfg.numAttentionHeads with
      | none => (c, .error .typeError)
      | some heads =>
        if heads = 0 then (c, .error (.raised .zeroDivision))
        else
          let r := updateRows heads kvValidLengths new (new.bh / heads) 0 c
          (r.1, r.2.mapError .raised)

end BloomBee.KVSlab
