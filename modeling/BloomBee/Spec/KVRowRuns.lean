import BloomBee.Spec.KVSlab
import BloomBee.Spec.LiveDecode

/-! The cache update of a regular step, `_finalize_cache_update` of `server/backend.py`, cell by
cell: with an active mask one call of `update_cache` for each run of active rows at one position.
Of `update_cache` this is `_write_kvs`. -/

set_option autoImplicit false

namespace BloomBee.KVSlab

open KVMultiplex (Policy)
open LiveDecode (activeMaskList rowPositionList activePositionRowRuns)
open PagedKV (BlockConfig Tensor)

variable {α : Type}

/-- `tensor[start:stop]` -/
def sliceHeads (x : Tensor α) (start stop : ℕ) : Tensor α where
  shape := match x.shape with
    | [] => []
    | bh :: dims => (min stop bh - start) :: dims
  data := fun i => x.data (start + i)

def sliceKvRows (kvs : Tensor α × Tensor α) (rowStart rowEnd headsPerRow : ℕ) :
    Tensor α × Tensor α :=
  let bhStart := rowStart * headsPerRow
  let bhEnd := rowEnd * headsPerRow
  (sliceHeads kvs.1 bhStart bhEnd, sliceHeads kvs.2 bhStart bhEnd)

/-- The loop over the runs. A call that raises ends it. -/
def writeRowRuns (cfg : BlockConfig) (p : Policy) (batchOffset fullBatchSize headsPerRow : ℕ)
    (kvs : Tensor α × Tensor α) :
    List (ℕ × ℕ × ℕ) → Cache (Cell α) → Cache (Cell α) × Except Raised Unit
  | [], c => (c, .ok ())
  | (rowStart, rowEnd, startPosition) :: runs, c =>
    match writeKvs cfg p c startPosition
        ⟨batchOffset + rowStart, fullBatchSize, rowEnd - rowStart⟩
        (sliceKvRows kvs rowStart rowEnd headsPerRow) with
    | (c, .error e) => (c, .error e)
    | (c, .ok ()) => writeRowRuns cfg p batchOffset fullBatchSize headsPerRow kvs runs c

/-- What the update reads of `inference_info`. `prefillLength` is `none` when it is a plain
number. -/
structure UpdateInfo where
  activeMask : Option (List Bool)
  prefillLength : Option (List ℕ)
  microBatch : MicroBatch

def UpdateInfo.expectedBatch (info : UpdateInfo) : ℕ :=
  if info.microBatch.microBatchSize = 0 then info.microBatch.fullBatchSize
  else info.microBatch.microBatchSize

/-- `full_batch_size` of the calls for the runs. -/
def UpdateInfo.fullBatchSize (info : UpdateInfo) : ℕ :=
  if info.microBatch.fullBatchSize = 0 then info.expectedBatch else info.microBatch.fullBatchSize

def UpdateInfo.positions (info : UpdateInfo) (cacheLen : ℕ) : List ℕ :=
  (rowPositionList info.prefillLength info.expectedBatch).getD
    (List.replicate info.expectedBatch cacheLen)

/-- `_finalize_cache_update` of a block with keys and values, outside of speculative decoding. -/
def finalizeCacheUpdate (cfg : BlockConfig) (p : Policy) (c : Cache (Cell α))
    (kvs : Tensor α × Tensor α) (cacheLen : ℕ) (info : UpdateInfo) :
    Cache (Cell α) × Except Raised Unit :=
  let expectedBatch := info.expectedBatch
  let bh := kvs.1.shape.headD 0
  match activeMaskList info.activeMask expectedBatch with
  | some mask =>
    if 0 < bh ∧ 0 < expectedBatch ∧ bh % expectedBatch = 0 then
      writeRowRuns cfg p info.microBatch.batchOffset info.fullBatchSize (bh / expectedBatch) kvs
        (activePositionRowRuns mask (info.positions cacheLen)) c
    else writeKvs cfg p c cacheLen info.microBatch kvs
  | none => writeKvs cfg p c cacheLen info.microBatch kvs

/-! What the update is for: every active row in its own batch row. -/

/-- One row of the new keys and values alone, into the batch row `home + row` of the slab. -/
def writeRowAlone (cfg : BlockConfig) (p : Policy) (home headsPerRow : ℕ)
    (kvs : Tensor α × Tensor α) (row position : ℕ) (c : Cache (Cell α)) :
    Cache (Cell α) × Except Raised Unit :=
  writeKvs cfg p c position ⟨home + row, c.batch cfg.attentionHeads, 1⟩
    (sliceKvRows kvs row (row + 1) headsPerRow)

def writeRowsAlone (cfg : BlockConfig) (p : Policy) (home headsPerRow : ℕ)
    (kvs : Tensor α × Tensor α) :
    List (ℕ × ℕ) → Cache (Cell α) → Cache (Cell α) × Except Raised Unit
  | [], c => (c, .ok ())
  | (row, position) :: rows, c =>
    match writeRowAlone cfg p home headsPerRow kvs row position c with
    | (c, .error e) => (c, .error e)
    | (c, .ok ()) => writeRowsAlone cfg p home headsPerRow kvs rows c

end BloomBee.KVSlab
