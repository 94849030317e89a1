import BloomBee.Spec.KVMultiplex
import BloomBee.Spec.PagedShim

/-! The KV slab of `KVCacheManager` (`server/memory_cache_manager.py`) cell by cell: how `_write_kvs`
places the heads of new tokens among its columns, on one device or over several, and what
`select_cache` reads there. A cell is the key and the value of one head at one position: the two
tensors are allocated with the same shape and the same segments, and every copy is made in both.
When the slab holds fewer rows than the batch, its micro-batches share the working slots: a write
leaves a snapshot of its slot on the CPU, and `select_cache` brings it back for a slot that has
another micro-batch. As in `KVMultiplex`, a transfer is complete when its call returns. -/

set_option autoImplicit false

namespace BloomBee.KVSlab

open KVMultiplex (Policy)
open PagedKV (BlockConfig NewKvs Tensor sourceHeadsPerBatch)
open PagedKV.PagedKVTable (Broadcasts broadcastIndex)

/-- What the calls raise: the assertions with the values that their texts print, and the errors of
Python and torch. -/
inductive Raised where
  | newKvsDims (key value : List ℕ)
  | valueShape (value : List ℕ)
  | headDim (src dst : ℕ)
  | sourceHeads (bhSrc heads : ℕ)
  | bhMismatch (span bhDst : ℕ)
  | prefixTooLong (prefixLength seqLen : ℕ)
  | headsRequired
  | notDivisible (bh heads : ℕ)
  | zeroDivision
  | indexError
  | runtimeError
  deriving DecidableEq, Repr

/-- The `D` numbers of a key and those of its value. -/
@[ext]
structure Cell (α : Type) where
  key : ℕ → α
  value : ℕ → α

variable {α κ : Type}

/-! ### Tensors of cells -/

/-- A tensor of shape `(tokens, width, D)`. -/
structure Block (κ : Type) where
  tokens : ℕ
  width : ℕ
  data : ℕ → ℕ → κ

/-- `x[:tokens, lo:hi]` -/
def Block.slice (x : Block κ) (tokens lo hi : ℕ) : Block κ where
  tokens := min tokens x.tokens
  width := min hi x.width - lo
  data := fun t c => x.data t (lo + c)

/-- `x[-n:]`, which is all of `x` for a zero `n`. -/
def Block.last (x : Block κ) (n : ℕ) : Block κ :=
  if n = 0 then x
  else { x with tokens := min n x.tokens, data := fun t => x.data (x.tokens - n + t) }

/-- `torch.cat([x, y], dim=1)` -/
def Block.cat (x y : Block κ) : Block κ where
  tokens := x.tokens
  width := x.width + y.width
  data := fun t c => if c < x.width then x.data t c else y.data t (c - x.width)

/-- The part of a cache tensor that is on one device. -/
structure Segment (κ : Type) where
  width : ℕ
  data : ℕ → ℕ → κ

/-- `x[start:stop, lo:hi].copy_(src)` on a segment of `seqLen` positions. -/
def Segment.copySlice (seqLen : ℕ) (x : Segment κ) (start stop lo hi : ℕ) (src : Block κ) :
    Except Raised (Segment κ) :=
  if Broadcasts src.tokens (min stop seqLen - start) ∧
      Broadcasts src.width (min hi x.width - lo) then
    .ok { x with
      data := fun s c =>
        if start ≤ s ∧ s < min stop seqLen ∧ lo ≤ c ∧ c < min hi x.width then
          src.data (broadcastIndex src.tokens (s - start)) (broadcastIndex src.width (c - lo))
        else x.data s c }
  else .error .runtimeError

/-- A tensor on one device, or a `TorchMixedDevice` one with its segments in order. -/
inductive Storage (κ : Type) where
  | whole (segment : Segment κ)
  | mixed (segments : List (Segment κ))

def Storage.segments : Storage κ → List (Segment κ)
  | .whole segment => [segment]
  | .mixed segments => segments

/-- `seg_points[-1]` of segments that begin at zero. -/
def totalWidth : List (Segment κ) → ℕ
  | [] => 0
  | seg :: segs => seg.width + totalWidth segs

/-- The pair `k_cache, v_cache` of a handle. -/
structure Cache (κ : Type) where
  seqLen : ℕ
  d : ℕ
  storage : Storage κ

/-- `BH_dst` -/
def Cache.bh (c : Cache κ) : ℕ := totalWidth c.storage.segments

/-- The cell at position `s` of the column `col` of segments side by side. -/
def cellOf : List (Segment κ) → ℕ → ℕ → Option κ
  | [], _, _ => none
  | seg :: segs, s, col =>
    if col < seg.width then some (seg.data s col) else cellOf segs s (col - seg.width)

def Cache.cell? (c : Cache κ) (s col : ℕ) : Option κ :=
  if s < c.seqLen then cellOf c.storage.segments s col else none

/-! ### `_write_kvs` -/

/-- The loop of `_write_to_cache` over the segments, from the one that begins at `segStart` on.
A copy that raises keeps what the segments before it took. -/
def writeSegments (seqLen start stop bhStart bhEnd : ℕ) (src : Block κ) :
    ℕ → ℕ → List (Segment κ) → List (Segment κ) × Except Raised Unit
  | _, _, [] => ([], .ok ())
  | segStart, srcOffset, seg :: segs =>
    let segEnd := segStart + seg.width
    let overlapStart := max bhStart segStart
    let overlapEnd := min bhEnd segEnd
    if overlapStart < overlapEnd then
      let overlapLen := overlapEnd - overlapStart
      let dstStart := overlapStart - segStart
      match seg.copySlice seqLen start stop dstStart (dstStart + overlapLen)
          (src.slice src.tokens srcOffset (srcOffset + overlapLen)) with
      | .error e => (seg :: segs, .error e)
      | .ok seg =>
        let r := writeSegments seqLen start stop bhStart bhEnd src segEnd (srcOffset + overlapLen)
          segs
        (seg :: r.1, r.2)
    else
      let r := writeSegments seqLen start stop bhStart bhEnd src segEnd srcOffset segs
      (seg :: r.1, r.2)

/-- The slice `[:tokens, lo:hi]` that `src_idx` takes of the source. -/
structure SourceSlice where
  tokens : ℕ
  lo : ℕ
  hi : ℕ

/-- `_write_to_cache`. Over segments only the start of the source's columns is used, each copy takes
as many as it needs. -/
def writeToCache (c : Cache κ) (start stop bhStart bhEnd : ℕ) (src : Block κ)
    (srcIdx : Option SourceSlice) : Cache κ × Except Raised Unit :=
  match c.storage with
  | .mixed segments =>
    let idx := srcIdx.getD ⟨src.tokens, 0, src.width⟩
    let r := writeSegments c.seqLen start stop bhStart bhEnd
      (src.slice idx.tokens 0 src.width) 0 idx.lo segments
    ({ c with storage := .mixed r.1 }, r.2)
  | .whole segment =>
    let data := srcIdx.elim src fun idx => src.slice idx.tokens idx.lo idx.hi
    match segment.copySlice c.seqLen start stop bhStart bhEnd data with
    | .error e => (c, .error e)
    | .ok segment => ({ c with storage := .whole segment }, .ok ())

/-- The loop over the batch rows of a source with fewer heads than the slab has columns for, from
row `i` on. -/
def writeRows (heads sourceHeads bhStart start sNew : ℕ) (src : Block κ) :
    ℕ → ℕ → Cache κ → Cache κ × Except Raised Unit
  | 0, _, c => (c, .ok ())
  | n + 1, i, c =>
    let dstStart := bhStart + i * heads
    match writeToCache c start (start + sNew) dstStart (dstStart + sourceHeads) src
        (some ⟨sNew, i * sourceHeads, i * sourceHeads + sourceHeads⟩) with
    | (c, .error e) => (c, .error e)
    | (c, .ok ()) => writeRows heads sourceHeads bhStart start sNew src n (i + 1) c

/-- The arguments that place a micro-batch in its batch. Zero is the default of each. -/
structure MicroBatch where
  batchOffset : ℕ := 0
  fullBatchSize : ℕ := 0
  microBatchSize : ℕ := 0

/-- `source_heads` of a write of `bh` rows. -/
def MicroBatch.sourceHeads (mb : MicroBatch) (cfg : BlockConfig) (bh : ℕ) : ℕ :=
  sourceHeadsPerBatch cfg cfg.attentionHeads bh mb.fullBatchSize mb.microBatchSize

/-- `cache_batch_size` -/
def Cache.batch (c : Cache κ) (heads : ℕ) : ℕ := c.bh / heads

/-- `gpu_multiplexing`: a zero `full_batch_size` is below no capacity. -/
def Cache.Multiplexing (c : Cache κ) (heads : ℕ) (mb : MicroBatch) : Prop :=
  c.batch heads < mb.fullBatchSize

instance (c : Cache κ) (heads : ℕ) (mb : MicroBatch) : Decidable (c.Multiplexing heads mb) :=
  inferInstanceAs (Decidable (_ < _))

def Cache.slot (c : Cache κ) (heads : ℕ) (p : Policy) (mb : MicroBatch) :
    KVMultiplex.WorkingSlot :=
  p.resolveWorkingSlot
    (p.computeMicrobatchIndex mb.batchOffset mb.microBatchSize mb.fullBatchSize) (c.batch heads)
    mb.microBatchSize

/-- `BH_offset_start` and `BH_offset_end` of a write of `span` columns. -/
def Cache.writeRange (c : Cache κ) (heads : ℕ) (p : Policy) (mb : MicroBatch) (span : ℕ) :
    Except Raised (ℕ × ℕ) :=
  if 0 < mb.fullBatchSize then
    if c.Multiplexing heads mb then
      let bhStart := (c.slot heads p mb).batchStart * heads
      .ok (bhStart, bhStart + span)
    else .ok (mb.batchOffset * heads, min (mb.batchOffset * heads + span) c.bh)
  else if span ≤ c.bh then .ok (0, span)
  else .error (.bhMismatch span c.bh)

/-- `new_kvs`: the key has its channels before its tokens. -/
def tensors (new : NewKvs α) : Tensor α × Tensor α :=
  (⟨[new.bh, new.d, new.sNew], new.key⟩, ⟨[new.bh, new.sNew, new.d], new.value⟩)

/-- The assertions on the shapes of `new_kvs`. -/
def unpack (d : ℕ) (kvs : Tensor α × Tensor α) : Except Raised (NewKvs α) :=
  match kvs.1.shape, kvs.2.shape with
  | [bh, dSrc, sNew], [bh', sNew', d'] =>
    if [bh', sNew', d'] ≠ [bh, sNew, dSrc] then .error (.valueShape [bh', sNew', d'])
    else if dSrc ≠ d then .error (.headDim dSrc d)
    else .ok { bh := bh, d := dSrc, sNew := sNew, key := kvs.1.data, value := kvs.2.data }
  | key, value => .error (.newKvsDims key value)

/-- `k_write` and `v_write`, in the layout of the slab. -/
def block (new : NewKvs α) : Block (Cell α) where
  tokens := new.sNew
  width := new.bh
  data := fun t c => ⟨fun e => new.key c e t, fun e => new.value c t e⟩

/-- The position and the length of the destination and the tokens for it. Out of range the last
tokens are written over the whole length. -/
def place (seqLen : ℕ) (startPosition : ℤ) (src : Block κ) : ℕ × ℕ × Block κ :=
  if 0 ≤ startPosition ∧ startPosition < seqLen ∧ startPosition + src.tokens ≤ seqLen then
    (startPosition.toNat, src.tokens, src)
  else (0, seqLen, src.last seqLen)

/-- `_write_kvs`, but for the snapshot at its end. -/
def writeKvs (cfg : BlockConfig) (p : Policy) (c : Cache (Cell α)) (startPosition : ℤ)
    (mb : MicroBatch) (kvs : Tensor α × Tensor α) : Cache (Cell α) × Except Raised Unit :=
  let heads := cfg.attentionHeads
  if heads = 0 then (c, .error .zeroDivision)
  else match unpack c.d kvs with
  | .error e => (c, .error e)
  | .ok new =>
    let sourceHeads := mb.sourceHeads cfg new.bh
    if new.bh % sourceHeads ≠ 0 then (c, .error (.sourceHeads new.bh sourceHeads))
    else
      let sourceBatchSize := new.bh / sourceHeads
      let span := if sourceHeads < heads then sourceBatchSize * heads else new.bh
      match c.writeRange heads p mb span with
      | .error e => (c, .error e)
      | .ok (bhStart, bhEnd) =>
        let (start, sNew, src) := place c.seqLen startPosition (block new)
        if sourceHeads < heads then
          writeRows heads sourceHeads bhStart start sNew src sourceBatchSize 0 c
        else writeToCache c start (start + sNew) bhStart bhEnd src none

/-! ### `select_cache` -/

/-- The parts that the segments have of the columns from `bhStart` to `bhEnd`. -/
def readSegments (prefixLength bhStart bhEnd : ℕ) : ℕ → List (Segment κ) → List (Block κ)
  | _, [] => []
  | segStart, seg :: segs =>
    let segEnd := segStart + seg.width
    let overlapStart := max bhStart segStart
    let overlapEnd := min bhEnd segEnd
    if overlapStart < overlapEnd then
      ⟨prefixLength, overlapEnd - overlapStart, fun t c => seg.data t (overlapStart - segStart + c)⟩ ::
        readSegments prefixLength bhStart bhEnd segEnd segs
    else readSegments prefixLength bhStart bhEnd segEnd segs

/-- `k_sbh` and `v_sbh`. There is no concatenation of nothing. -/
def Cache.read (c : Cache κ) (prefixLength bhStart bhEnd : ℕ) : Except Raised (Block κ) :=
  match c.storage with
  | .whole segment =>
    .ok ⟨prefixLength, min bhEnd segment.width - bhStart, fun t col => segment.data t (bhStart + col)⟩
  | .mixed segments =>
    match readSegments prefixLength bhStart bhEnd 0 segments with
    | [] => .error .runtimeError
    | part :: parts => .ok (parts.foldl Block.cat part)

/-- `k_pkv` and `v_pkv`, of shape `(batch, heads, len, D)`. -/
structure Pkv (κ : Type) where
  batch : ℕ
  heads : ℕ
  len : ℕ
  d : ℕ
  cell : ℕ → ℕ → ℕ → κ

/-- `BH_offset_start` and `BH_offset_end` of a read. -/
def Cache.readRange (c : Cache κ) (heads : ℕ) (p : Policy) (mb : MicroBatch) : ℕ × ℕ :=
  if 0 < mb.fullBatchSize ∧ 0 < mb.microBatchSize then
    if c.Multiplexing heads mb then
      let slot := c.slot heads p mb
      let size := if 0 < slot.activeBatchSize then slot.activeBatchSize else c.batch heads
      (slot.batchStart * heads, min (slot.batchStart * heads + size * heads) c.bh)
    else (mb.batchOffset * heads, min (mb.batchOffset * heads + mb.microBatchSize * heads) c.bh)
  else (0, c.bh)

/-- The view of the columns as rows of heads. A slab narrower than the heads is one row. -/
def toPkv (heads d : ℕ) (x : Block κ) : Except Raised (Pkv κ) :=
  let heads := if x.width < heads then x.width else heads
  if heads = 0 then .error .zeroDivision
  else if x.width % heads ≠ 0 then .error (.notDivisible x.width heads)
  else .ok ⟨x.width / heads, heads, x.tokens, d, fun b h s => x.data s (b * heads + h)⟩

/-- What `select_cache` reads when the slot has the micro-batch, and `none` for an empty prefix. -/
def Cache.select (cfg : BlockConfig) (p : Policy) (c : Cache κ) (prefixLength : ℕ)
    (mb : MicroBatch) : Except Raised (Option (Pkv κ)) :=
  if prefixLength = 0 then .ok none
  else if c.seqLen < prefixLength then .error (.prefixTooLong prefixLength c.seqLen)
  else
    let heads := cfg.numAttentionHeads.getD c.bh
    if heads = 0 then .error .zeroDivision
    else
      let range := c.readRange heads p mb
      match c.read prefixLength range.1 range.2 with
      | .error e => .error e
      | .ok x =>
        match cfg.numAttentionHeads with
        | none => .error .headsRequired
        | some heads => (toPkv heads c.d x).map some

/-! ### Staging -/

/-- An entry of `_mb_cpu_staging`: a buffer of `seqLen` positions and the number of those that the
snapshot has. -/
structure Staged (κ : Type) where
  seqLen : ℕ
  prefixLength : ℕ
  segment : Segment κ

/-- What the manager keeps for the micro-batches of a slab: whether the slab is on a GPU, the
entries of `_mb_cpu_staging`, and those of `_current_gpu_mb` by working slot. -/
structure Staging (κ : Type) where
  onGpu : Bool
  staged : ℕ → Option (Staged κ)
  current : ℕ → Option ℕ

def MicroBatch.index (p : Policy) (mb : MicroBatch) : ℕ :=
  p.computeMicrobatchIndex mb.batchOffset mb.microBatchSize mb.fullBatchSize

/-- The slot is recorded to have the micro-batch. -/
def Staging.Holds (st : Staging κ) (slot : KVMultiplex.WorkingSlot) (mbIndex : ℕ) : Prop :=
  st.current slot.index = some mbIndex

instance (st : Staging κ) (slot : KVMultiplex.WorkingSlot) (mbIndex : ℕ) :
    Decidable (st.Holds slot mbIndex) :=
  inferInstanceAs (Decidable (_ = _))

/-- `offload_microbatch_kv`, and what it logs. A new buffer has room for the columns of the slot;
its contents behind the snapshot are never read. -/
def offloadMicrobatchKv (cfg : BlockConfig) (st : Staging κ) (c : Cache κ)
    (mbIndex prefixLength : ℕ) (slot : KVMultiplex.WorkingSlot) : Staging κ × Except Raised Unit :=
  match c.storage with
  | .mixed _ => (st, .ok ())
  | .whole segment =>
    let bhStart := slot.batchStart * cfg.attentionHeads
    let bhEnd := min (bhStart + slot.activeBatchSize * cfg.attentionHeads) segment.width
    if st.onGpu = false ∨ bhEnd ≤ bhStart then (st, .ok ())
    else
      let prefixLength := if prefixLength = 0 then c.seqLen else prefixLength
      let columns : Segment κ := ⟨bhEnd - bhStart, fun s col => segment.data s (bhStart + col)⟩
      let buffer := (st.staged mbIndex).getD ⟨c.seqLen, 0, columns⟩
      match buffer.segment.copySlice buffer.seqLen 0 prefixLength 0 buffer.segment.width
          ⟨min prefixLength c.seqLen, columns.width, columns.data⟩ with
      | .error e => (st, .error e)
      | .ok segment =>
        ({ st with
            staged := Function.update st.staged mbIndex
              (some ⟨buffer.seqLen, prefixLength, segment⟩)
            current := Function.update st.current slot.index (some mbIndex) }, .ok ())

/-- `prefetch_microbatch_kv`. What it raises it logs. -/
def prefetchMicrobatchKv (cfg : BlockConfig) (p : Policy) (st : Staging κ) (c : Cache κ)
    (mbIndex : ℕ) : Staging κ × Cache κ :=
  match c.storage, st.staged mbIndex with
  | .whole segment, some buffer =>
    let slot := p.resolveWorkingSlot mbIndex (c.batch cfg.attentionHeads)
      (buffer.segment.width / cfg.attentionHeads)
    let bhStart := slot.batchStart * cfg.attentionHeads
    let bhEnd := min (bhStart + slot.activeBatchSize * cfg.attentionHeads) segment.width
    if st.onGpu = false ∨ buffer.prefixLength = 0 ∨ bhEnd ≤ bhStart then (st, c)
    else
      match segment.copySlice c.seqLen 0 buffer.prefixLength bhStart bhEnd
          ⟨min buffer.prefixLength buffer.seqLen, min (bhEnd - bhStart) buffer.segment.width,
            buffer.segment.data⟩ with
      | .error _ => (st, c)
      | .ok segment =>
        ({ st with current := Function.update st.current slot.index (some mbIndex) },
          { c with storage := .whole segment })
  | _, _ => (st, c)

/-- What a call of `_write_kvs` leaves, what its offload logs, and how it ends. -/
structure WriteResult (κ : Type) where
  staging : Staging κ
  cache : Cache κ
  logged : List Raised
  outcome : Except Raised Unit

/-- The end of `_write_kvs`: under multiplexing the slot is offloaded up to `end_position`. -/
def offloadWritten (cfg : BlockConfig) (p : Policy) (st : Staging κ) (c : Cache κ)
    (endPosition : ℕ) (mb : MicroBatch) : WriteResult κ :=
  if c.Multiplexing cfg.attentionHeads mb then
    match offloadMicrobatchKv cfg st c (mb.index p) endPosition
        (c.slot cfg.attentionHeads p mb) with
    | (st, .error e) => ⟨st, c, [e], .ok ()⟩
    | (st, .ok ()) => ⟨st, c, [], .ok ()⟩
  else ⟨st, c, [], .ok ()⟩

def endPosition (seqLen : ℕ) (startPosition : ℤ) (sNew : ℕ) : ℕ :=
  if 0 ≤ startPosition ∧ startPosition < seqLen ∧ startPosition + sNew ≤ seqLen then
    (startPosition + sNew).toNat
  else seqLen

/-- `_write_kvs` with its snapshot. -/
def writeAndOffload (cfg : BlockConfig) (p : Policy) (st : Staging (Cell α)) (c : Cache (Cell α))
    (startPosition : ℤ) (mb : MicroBatch) (new : NewKvs α) : WriteResult (Cell α) :=
  match writeKvs cfg p c startPosition mb (tensors new) with
  | (c, .error e) => ⟨st, c, [], .error e⟩
  | (c, .ok ()) => offloadWritten cfg p st c (endPosition c.seqLen startPosition new.sNew) mb

/-- `select_cache` without position ids: a slot that is not recorded to have the micro-batch gets
its snapshot first. -/
def selectCache (cfg : BlockConfig) (p : Policy) (st : Staging κ) (c : Cache κ)
    (prefixLength : ℕ) (mb : MicroBatch) :
    (Staging κ × Cache κ) × Except Raised (Option (Pkv κ)) :=
  let heads := cfg.numAttentionHeads.getD c.bh
  let restored :=
    if 0 < prefixLength ∧ prefixLength ≤ c.seqLen ∧ 0 < heads ∧ 0 < mb.microBatchSize ∧
        c.Multiplexing heads mb ∧ ¬st.Holds (c.slot heads p mb) (mb.index p) then
      prefetchMicrobatchKv cfg p st c (mb.index p)
    else (st, c)
  (restored, restored.2.select cfg p prefixLength mb)

end BloomBee.KVSlab
