import BloomBee.Spec.RpcInference
import Mathlib.Data.Fintype.Basic

/-! The micro-batch staging of `KVCacheManager` (`server/memory_cache_manager.py`). A cache
tensor with fewer batch rows than the request is shared by its micro-batches: each one works
in a slot of rows, and its snapshot is kept on the CPU while another one has the slot. A cell
is the keys and values of one token in one batch row. The cache is one GPU tensor and a
transfer is complete when its call returns. `_pending_gpu_mb` is then empty between calls: in
asynchronous mode `select_cache` synchronises the prefetch it launches. -/

set_option autoImplicit false

namespace BloomBee.KVMultiplex

open RpcInference

variable {ι κ : Type}

structure Policy where
  gpuBatchSize : ℕ
  numGpuBatches : ℕ

def Policy.workingSlotBatchSize (p : Policy) : ℕ := max 1 p.gpuBatchSize

def Policy.workingSlotCount (p : Policy) (cacheBatchCapacity : ℕ) : ℕ :=
  if cacheBatchCapacity = 0 then 1
  else
    max 1 (min (max 1 p.numGpuBatches)
      (max 1 ((cacheBatchCapacity + p.workingSlotBatchSize - 1) / p.workingSlotBatchSize)))

structure WorkingSlot where
  index : ℕ
  batchStart : ℕ
  activeBatchSize : ℕ

/-- `_resolve_working_slot`. `actualBatchSize` zero stands for an unknown size. -/
def Policy.resolveWorkingSlot (p : Policy) (mbIndex cacheBatchCapacity actualBatchSize : ℕ) :
    WorkingSlot :=
  let slot := mbIndex % p.workingSlotCount cacheBatchCapacity
  let batchStart := slot * p.workingSlotBatchSize
  let batchCapacity := min p.workingSlotBatchSize (cacheBatchCapacity - batchStart)
  { index := slot
    batchStart := batchStart
    activeBatchSize :=
      if actualBatchSize = 0 then batchCapacity else min actualBatchSize batchCapacity }

/-- `_compute_microbatch_index`: the policy's size divides the offset, unless the runtime size
is another one and this is not the tail of the batch. -/
def Policy.computeMicrobatchIndex (p : Policy) (batchOffset microBatchSize fullBatchSize : ℕ) :
    ℕ :=
  let policyMb := max 1 p.gpuBatchSize
  let runtimeMb := if 0 < microBatchSize then microBatchSize else policyMb
  if runtimeMb ≠ policyMb ∧
      ¬ (0 < fullBatchSize ∧ runtimeMb < policyMb ∧ batchOffset + runtimeMb = fullBatchSize) then
    batchOffset / max 1 runtimeMb
  else batchOffset / max 1 policyMb

/-- The index given to micro-batch `k` of a request cut into pieces of `m`. -/
def Policy.microBatchIndex (p : Policy) (batchSize m k : ℕ) : ℕ :=
  p.computeMicrobatchIndex (k * m) (min m (batchSize - k * m)) batchSize

/-- The pair of tensors of one cache handle. `id` is the identity Python gives the tensor. -/
structure CacheTensor (κ : Type) where
  id : ℕ
  seqLen : ℕ
  batch : ℕ
  cell : ℕ → ℕ → κ

/-- `cache[:prefix_length, batch_start:batch_end]` by batch rows. -/
def CacheTensor.readRows (c : CacheTensor κ) (batchStart batchEnd prefixLength : ℕ) :
    List (List κ) :=
  (List.range (batchEnd - batchStart)).map fun i =>
    (List.range prefixLength).map (c.cell (batchStart + i))

/-- Row `batchStart + i` takes the slots of `rows[i]` from their start on. -/
def CacheTensor.putRows (c : CacheTensor κ) (batchStart : ℕ) (rows : List (ℕ × List κ)) :
    CacheTensor κ :=
  { c with
    cell := fun b pos =>
      if batchStart ≤ b then
        match rows[b - batchStart]? with
        | some (start, slots) =>
          if start ≤ pos then slots.getD (pos - start) (c.cell b pos) else c.cell b pos
        | none => c.cell b pos
      else c.cell b pos }

/-- An entry of `_mb_cpu_staging`: a buffer for `seqLen` tokens of `rows.length` batch rows.
Only its first `prefixLength` tokens are ever read, `rows` has these. -/
structure Staged (κ : Type) where
  seqLen : ℕ
  prefixLength : ℕ
  rows : List (List κ)

/-- The maps of `KVCacheManager`. One is keyed by cache id and micro-batch, the other by cache
id and working slot. -/
structure Manager (κ : Type) where
  mbCpuStaging : AList fun _ : ℕ × ℕ => Staged κ
  currentGpuMb : AList fun _ : ℕ × ℕ => ℕ

def Manager.init : Manager κ := ⟨∅, ∅⟩

/-- `_mb_cpu_staging.get((cache_id, mb_index))` -/
def Manager.staged (m : Manager κ) (cacheId mbIndex : ℕ) : Option (Staged κ) :=
  m.mbCpuStaging.lookup (cacheId, mbIndex)

/-- `_current_gpu_mb.get((cache_id, working_slot))` -/
def Manager.current (m : Manager κ) (cacheId workingSlot : ℕ) : Option ℕ :=
  m.currentGpuMb.lookup (cacheId, workingSlot)

/-- The staging buffer can take `rows` batch rows of `prefixLength` tokens. `copy_` raises
otherwise, and `offload_microbatch_kv` logs the exception and goes on. -/
def Staged.Takes (st : Staged κ) (prefixLength rows : ℕ) : Prop :=
  prefixLength ≤ st.seqLen ∧ rows = st.rows.length

instance (st : Staged κ) (prefixLength rows : ℕ) : Decidable (st.Takes prefixLength rows) :=
  inferInstanceAs (Decidable (_ ∧ _))

/-- `offload_microbatch_kv` from a given slot. -/
def offloadMicrobatchKv (m : Manager κ) (c : CacheTensor κ) (mbIndex prefixLength : ℕ)
    (slot : WorkingSlot) : Manager κ :=
  let batchEnd := min (slot.batchStart + slot.activeBatchSize) c.batch
  if batchEnd - slot.batchStart = 0 then m
  else
    let prefixLength := if prefixLength = 0 then c.seqLen else prefixLength
    let seqLen := ((m.staged c.id mbIndex).map Staged.seqLen).getD c.seqLen
    if ∀ st ∈ m.staged c.id mbIndex,
        st.Takes prefixLength (batchEnd - slot.batchStart) then
      { mbCpuStaging := m.mbCpuStaging.insert (c.id, mbIndex)
          ⟨seqLen, prefixLength, c.readRows slot.batchStart batchEnd prefixLength⟩
        currentGpuMb := m.currentGpuMb.insert (c.id, slot.index) mbIndex }
    else m

/-- `prefetch_microbatch_kv`. A snapshot longer than the cache does not fit into it: `copy_`
raises and the exception is logged. -/
def prefetchMicrobatchKv (p : Policy) (m : Manager κ) (c : CacheTensor κ) (mbIndex : ℕ) :
    Manager κ × CacheTensor κ :=
  match m.staged c.id mbIndex with
  | none => (m, c)
  | some st =>
    let slot := p.resolveWorkingSlot mbIndex c.batch st.rows.length
    let batchEnd := min (slot.batchStart + slot.activeBatchSize) c.batch
    if st.prefixLength = 0 ∨ batchEnd - slot.batchStart = 0 ∨ c.seqLen < st.prefixLength then
      (m, c)
    else
      ({ m with currentGpuMb := m.currentGpuMb.insert (c.id, slot.index) mbIndex },
        c.putRows slot.batchStart
          ((st.rows.take (batchEnd - slot.batchStart)).map fun r => (0, r)))

/-- `select_cache`, with the maps and the cache it leaves. -/
def selectCache (p : Policy) (m : Manager κ) (c : CacheTensor κ)
    (prefixLength batchOffset fullBatchSize microBatchSize : ℕ) :
    Except Error (Option (List (List κ)) × Manager κ × CacheTensor κ) :=
  if prefixLength = 0 then .ok (none, m, c)
  else if c.seqLen < prefixLength then .error (.prefixTooLong prefixLength c.seqLen)
  else if 0 < fullBatchSize ∧ 0 < microBatchSize then
    if c.batch < fullBatchSize then
      let mbIndex := p.computeMicrobatchIndex batchOffset microBatchSize fullBatchSize
      let slot := p.resolveWorkingSlot mbIndex c.batch microBatchSize
      let mc :=
        if m.current c.id slot.index = some mbIndex then (m, c)
        else prefetchMicrobatchKv p m c mbIndex
      let size := if 0 < slot.activeBatchSize then slot.activeBatchSize else c.batch
      .ok (some (mc.2.readRows slot.batchStart (min (slot.batchStart + size) c.batch)
        prefixLength), mc.1, mc.2)
    else
      .ok (some (c.readRows batchOffset (min (batchOffset + microBatchSize) c.batch)
        prefixLength), m, c)
  else .ok (some (c.readRows 0 c.batch prefixLength), m, c)

/-- The batch row where `_write_kvs` begins. -/
def writeBatchStart (capacity batchOffset fullBatchSize : ℕ) (slot : WorkingSlot) : ℕ :=
  if fullBatchSize = 0 then 0
  else if capacity < fullBatchSize then slot.batchStart
  else batchOffset

/-- `end_position` of `_write_kvs`. An out of range write covers the whole row. -/
def writeEndPosition (seqLen startPosition width : ℕ) : ℕ :=
  if startPosition < seqLen ∧ startPosition + width ≤ seqLen then startPosition + width
  else seqLen

/-- `_write_kvs`: rows that do not fit the destination slice make `copy_` raise. Out of range
positions follow `placement`. -/
def writeKvs (p : Policy) (m : Manager κ) (c : CacheTensor κ)
    (startPosition batchOffset fullBatchSize microBatchSize : ℕ) (new : Batch κ) :
    Except Error (Manager κ × CacheTensor κ) :=
  let mbIndex := p.computeMicrobatchIndex batchOffset microBatchSize fullBatchSize
  let slot := p.resolveWorkingSlot mbIndex c.batch microBatchSize
  let batchStart := writeBatchStart c.batch batchOffset fullBatchSize slot
  if c.batch < batchStart + new.rows.length then .error .shapeMismatch
  else match new.rows.mapM (placement c.seqLen startPosition) with
    | none => .error .shapeMismatch
    | some placed =>
      let c' := c.putRows batchStart placed
      if c.batch < fullBatchSize then
        .ok (offloadMicrobatchKv m c' mbIndex
          (writeEndPosition c.seqLen startPosition new.width) slot, c')
      else .ok (m, c')

def Manager.clearOffloadState (_ : Manager κ) : Manager κ := .init

/-- One step of a micro-batch: what it reads, and its new tokens written at the end of its
prefix. -/
def microBatchStep (p : Policy) (m : Manager κ) (c : CacheTensor κ)
    (prefixLength batchOffset fullBatchSize : ℕ) (new : Batch κ) :
    Except Error (Option (List (List κ)) × Manager κ × CacheTensor κ) := do
  let (past, m, c) ← selectCache p m c prefixLength batchOffset fullBatchSize new.rows.length
  let (m, c) ← writeKvs p m c prefixLength batchOffset fullBatchSize new.rows.length new
  return (past, m, c)

/-- One step of the micro-batch at rows `microBatch * gpu_batch_size` and on. -/
structure Visit (κ : Type) where
  microBatch : ℕ
  new : Batch κ

/-- The steps of one session in any order. `prefixes` has the tokens each micro-batch has
written so far. -/
def runVisits (p : Policy) (fullBatchSize : ℕ) :
    Manager κ → CacheTensor κ → (ℕ → ℕ) → List (Visit κ) →
      Except Error (List (Option (List (List κ))) × Manager κ × CacheTensor κ)
  | m, c, _, [] => .ok ([], m, c)
  | m, c, prefixes, v :: vs => do
    let (past, m, c) ← microBatchStep p m c (prefixes v.microBatch)
      (v.microBatch * p.workingSlotBatchSize) fullBatchSize v.new
    let (pasts, m, c) ← runVisits p fullBatchSize m c
      (Function.update prefixes v.microBatch (prefixes v.microBatch + v.new.width)) vs
    return (past :: pasts, m, c)

def Policy.microBatchRows (p : Policy) (batchSize i : ℕ) : ℕ :=
  min p.workingSlotBatchSize (batchSize - i * p.workingSlotBatchSize)

/-- The capacity is a positive multiple of the slot size. -/
def Policy.Multiple (p : Policy) (capacity : ℕ) : Prop :=
  0 < capacity ∧ p.workingSlotBatchSize ∣ capacity

/-! What the cache is for: every micro-batch with cache rows of its own. -/

/-- The tokens of `b` followed by those of `b'`, row by row. -/
def extend (b b' : Batch κ) : Batch κ where
  width := b.width + b'.width
  rows := List.zipWith (· ++ ·) b.rows b'.rows
  rows_width := by
    intro r hr
    obtain ⟨i, hi, rfl⟩ := List.getElem_of_mem hr
    rw [List.getElem_zipWith, List.length_append, b.rows_width _ (List.getElem_mem _),
      b'.rows_width _ (List.getElem_mem _)]

def noRows (p : Policy) (batchSize i : ℕ) : Batch κ where
  width := 0
  rows := List.replicate (p.microBatchRows batchSize i) []
  rows_width r hr := by rw [List.eq_of_mem_replicate hr]; rfl

/-- What the steps read when micro-batch `i` has written the rows `own i`. -/
def ownReads : (ℕ → Batch κ) → List (Visit κ) → List (Option (List (List κ)))
  | _, [] => []
  | own, v :: vs =>
    (if (own v.microBatch).width = 0 then none else some (own v.microBatch).rows) ::
      ownReads (Function.update own v.microBatch (extend (own v.microBatch) v.new)) vs

/-- Every step is one of a micro-batch of the request and fits after its prefix. -/
def OwnFits (p : Policy) (batchSize seqLen : ℕ) : (ℕ → Batch κ) → List (Visit κ) → Prop
  | _, [] => True
  | own, v :: vs =>
    (v.microBatch * p.workingSlotBatchSize < batchSize ∧
      v.new.rows.length = p.microBatchRows batchSize v.microBatch ∧
      (own v.microBatch).width < seqLen ∧ (own v.microBatch).width + v.new.width ≤ seqLen) ∧
    OwnFits p batchSize seqLen
      (Function.update own v.microBatch (extend (own v.microBatch) v.new)) vs

instance decidableOwnFits (p : Policy) (batchSize seqLen : ℕ) :
    ∀ (own : ℕ → Batch κ) (vs : List (Visit κ)), Decidable (OwnFits p batchSize seqLen own vs)
  | _, [] => isTrue trivial
  | own, v :: vs =>
    haveI := decidableOwnFits p batchSize seqLen
      (Function.update own v.microBatch (extend (own v.microBatch) v.new)) vs
    inferInstanceAs (Decidable (_ ∧ _))

inductive Phase (κ : Type) where
  | waiting
  | live (c : CacheTensor κ)
  | closed

structure World (ι κ : Type) where
  manager : Manager κ
  phase : ι → Phase κ

def World.init : World ι κ := ⟨.init, fun _ => .waiting⟩

inductive Event (ι κ : Type) where
  | allocate (s : ι) (c : CacheTensor κ)
  | select (s : ι) (prefixLength batchOffset fullBatchSize microBatchSize : ℕ)
  | write (s : ι) (startPosition batchOffset fullBatchSize microBatchSize : ℕ) (new : Batch κ)
  | free (s : ι)
  /-- The cleanup at the end of `rpc_inference`, whoever's. -/
  | clearOffloadState

def Event.session : Event ι κ → Option ι
  | .allocate s _ => some s
  | .select s _ _ _ _ => some s
  | .write s _ _ _ _ _ => some s
  | .free s => some s
  | .clearOffloadState => none

/-- What `select_cache` gives a session. -/
abbrev Reply (ι κ : Type) := ι × Except Error (Option (List (List κ)))

variable [DecidableEq ι]

/-- One event and the replies it gives, `none` when the session cannot have it. -/
def World.step (p : Policy) (w : World ι κ) : Event ι κ → Option (World ι κ × List (Reply ι κ))
  | .allocate s c =>
    match w.phase s with
    | .waiting => some ({ w with phase := Function.update w.phase s (.live c) }, [])
    | _ => none
  | .select s prefixLength batchOffset fullBatchSize microBatchSize =>
    match w.phase s with
    | .live c =>
      match selectCache p w.manager c prefixLength batchOffset fullBatchSize microBatchSize with
      | .error e => some (w, [(s, .error e)])
      | .ok (past, m, c) => some (⟨m, Function.update w.phase s (.live c)⟩, [(s, .ok past)])
    | _ => none
  | .write s startPosition batchOffset fullBatchSize microBatchSize new =>
    match w.phase s with
    | .live c =>
      match writeKvs p w.manager c startPosition batchOffset fullBatchSize microBatchSize new with
      | .error _ => some (w, [])
      | .ok (m, c) => some (⟨m, Function.update w.phase s (.live c)⟩, [])
    | _ => none
  | .free s =>
    match w.phase s with
    | .live _ => some ({ w with phase := Function.update w.phase s .closed }, [])
    | _ => none
  | .clearOffloadState => some ({ w with manager := w.manager.clearOffloadState }, [])

def World.run (p : Policy) : World ι κ → List (Event ι κ) → Option (World ι κ × List (Reply ι κ))
  | w, [] => some (w, [])
  | w, e :: es => do
    let (w, rs) ← w.step p e
    let (w, rs') ← World.run p w es
    return (w, rs ++ rs')

def Phase.cacheId : Phase κ → Option ℕ
  | .live c => some c.id
  | _ => none

/-- Two tensors in use at one time have different identities. -/
def Event.Possible (w : World ι κ) : Event ι κ → Prop
  | .allocate _ c => ∀ s, (w.phase s).cacheId ≠ some c.id
  | _ => True

def Manager.Vacant (m : Manager κ) (id : ℕ) : Prop :=
  (∀ key ∈ m.mbCpuStaging.keys, key.1 ≠ id) ∧ ∀ key ∈ m.currentGpuMb.keys, key.1 ≠ id

/-- No cleanup while a live cache has entries, and no entries left under the identity of a new
cache. -/
def Event.Undisturbed (w : World ι κ) : Event ι κ → Prop
  | .allocate _ c => w.manager.Vacant c.id
  | .clearOffloadState => ∀ s, ∀ id ∈ (w.phase s).cacheId, w.manager.Vacant id
  | _ => True

instance (m : Manager κ) (id : ℕ) : Decidable (m.Vacant id) :=
  inferInstanceAs (Decidable (_ ∧ _))

instance [Fintype ι] (w : World ι κ) : DecidablePred (Event.Possible w)
  | .allocate _ c => inferInstanceAs (Decidable (∀ s, (w.phase s).cacheId ≠ some c.id))
  | .select .. | .write .. | .free _ | .clearOffloadState => isTrue trivial

instance [Fintype ι] (w : World ι κ) : DecidablePred (Event.Undisturbed w)
  | .allocate _ c => inferInstanceAs (Decidable (w.manager.Vacant c.id))
  | .clearOffloadState =>
    inferInstanceAs (Decidable (∀ s, ∀ id ∈ (w.phase s).cacheId, w.manager.Vacant id))
  | .select .. | .write .. | .free _ => isTrue trivial

/-- `P` of every event and the world it meets. -/
def World.Along (p : Policy) (P : World ι κ → Event ι κ → Prop) :
    World ι κ → List (Event ι κ) → Prop
  | _, [] => True
  | w, e :: es => P w e ∧ ∀ r ∈ w.step p e, World.Along p P r.1 es

instance decidableAlong (p : Policy) (P : World ι κ → Event ι κ → Prop)
    [∀ w, DecidablePred (P w)] :
    ∀ (w : World ι κ) (es : List (Event ι κ)), Decidable (World.Along p P w es)
  | _, [] => isTrue trivial
  | w, e :: es =>
    haveI := fun w' => decidableAlong p P w' es
    inferInstanceAs (Decidable (P w e ∧ ∀ r ∈ w.step p e, World.Along p P r.1 es))

end BloomBee.KVMultiplex
