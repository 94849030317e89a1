import BloomBee.Spec.PagedKV
import BloomBee.Spec.SpecCache
import Mathlib.Data.List.Sort

/-! The paged shim of `server/memory_cache_manager.py`: how the cache manager mirrors its writes,
its rollbacks and its commits in the paged table of a handle. The table is aliased onto the slab
of the handle, so `k` and `v` of the table are the slab. What a table call raises is logged and
dropped. -/

set_option autoImplicit false

namespace BloomBee.PagedKV

open PagedKVTable Speculative

variable {α : Type}

/-- The fields of `block_config` that are read. -/
structure BlockConfig where
  numAttentionHeads : Option ℕ := none
  numKeyValueHeads : Option ℕ := none
  numKeyValueGroups : Option ℕ := none

/-- `num_attention_heads`, with its default. -/
def BlockConfig.attentionHeads (cfg : BlockConfig) : ℕ := cfg.numAttentionHeads.getD 32

def sourceHeadsPerBatch (cfg : BlockConfig) (attentionHeads sourceBh fullBatchSize
    microBatchSize : ℕ) : ℕ :=
  let attentionHeads := max 1 attentionHeads
  let heads := sourceBh / microBatchSize
  if 0 < fullBatchSize ∧ 0 < microBatchSize ∧ sourceBh % microBatchSize = 0 ∧ 0 < heads ∧
      heads ≤ attentionHeads then heads
  else
    let groups := cfg.numKeyValueGroups.getD 1
    let kvHeads := cfg.numKeyValueHeads.getD
      (if 1 < groups ∧ attentionHeads % groups = 0 then attentionHeads / groups
        else attentionHeads)
    if 0 < kvHeads ∧ kvHeads ≤ attentionHeads ∧ sourceBh % kvHeads = 0 then kvHeads
    else attentionHeads

/-- The sequence ids of `_infer_seq_ids_and_tokens` for a key of `bh` rows. The batch offset and
the size of the micro-batch are not passed on. -/
def inferSeqIds (cfg : BlockConfig) (bh : ℕ) : List ℤ :=
  let heads := if cfg.attentionHeads = 0 then 32 else cfg.attentionHeads
  let sourceHeads := sourceHeadsPerBatch cfg heads bh 0 0
  if bh % sourceHeads ≠ 0 then [] else (List.range (bh / sourceHeads)).map Int.ofNat

def trackPagedWrite (t : PagedKVTable α) (seqIds : List ℤ) (start sNew : ℕ) (commit : Bool) :
    PagedKVTable α :=
  seqIds.foldl (fun t seq => (t.trackWrite seq start sNew commit).1) t

/-- The registered sequences in the order of their registration. The shim registers the rows of a
handle in the order of their ids and releases none. -/
def seqKeys (t : PagedKVTable α) : List ℤ := t.seqs.keys.insertionSort (· ≤ ·)

/-- The body of the loop of `_rollback_paged_to`. -/
def rollbackSeqTo (lAccTarget : ℤ) (t : PagedKVTable α) (seq : ℤ) : PagedKVTable α :=
  match t.seqs.lookup seq with
  | none => t
  | some st => (t.rollback seq (max 0 (min lAccTarget st.lAcc))).1

def rollbackPagedTo (t : PagedKVTable α) (lAccTarget : ℤ) : PagedKVTable α :=
  (seqKeys t).foldl (rollbackSeqTo lAccTarget) t

/-- The body of the loop of `_commit_paged_to`. -/
def commitSeqTo (lAccTarget : ℤ) (t : PagedKVTable α) (seq : ℤ) : PagedKVTable α :=
  match t.seqs.lookup seq with
  | none => t
  | some st => (t.commit seq (some (min lAccTarget st.lSeq))).1

def commitPagedTo (t : PagedKVTable α) (lAccTarget : ℤ) : PagedKVTable α :=
  (seqKeys t).foldl (commitSeqTo lAccTarget) t

/-! ### `update_cache` -/

/-- `new_kvs`: a key of shape `(bh, d, s_new)` and a value of shape `(bh, s_new, d)`. -/
structure NewKvs (α : Type) where
  bh : ℕ
  d : ℕ
  sNew : ℕ
  key : ℕ → ℕ → ℕ → α
  value : ℕ → ℕ → ℕ → α

structure UpdateCall (α : Type) where
  new : NewKvs α
  startPosition : ℕ
  batchOffset : ℕ := 0
  fullBatchSize : ℕ := 0
  microBatchSize : ℕ := 0

namespace UpdateCall

/-- `source_heads` of `_write_kvs`. -/
def sourceHeads (cfg : BlockConfig) (call : UpdateCall α) : ℕ :=
  sourceHeadsPerBatch cfg cfg.attentionHeads call.new.bh call.fullBatchSize call.microBatchSize

def sourceBatchSize (cfg : BlockConfig) (call : UpdateCall α) : ℕ :=
  call.new.bh / call.sourceHeads cfg

/-- The batch row the first written one lands on. Without a full batch size there is no offset. -/
def firstRow (call : UpdateCall α) : ℕ :=
  if 0 < call.fullBatchSize then call.batchOffset else 0

/-- The assertions of `_write_kvs` hold, the handle stores the full batch, and the rows and the
positions that are written lie in the slab. -/
def InRange (cfg : BlockConfig) (t : PagedKVTable α) (call : UpdateCall α) : Prop :=
  0 < cfg.attentionHeads ∧ call.new.d = t.d ∧ call.new.bh % call.sourceHeads cfg = 0 ∧
    call.fullBatchSize ≤ t.bh / cfg.attentionHeads ∧
    (call.firstRow + call.sourceBatchSize cfg) * cfg.attentionHeads ≤ t.bh ∧
    call.startPosition < t.numPages * t.blockSize ∧
    call.startPosition + call.new.sNew ≤ t.numPages * t.blockSize

instance (cfg : BlockConfig) (t : PagedKVTable α) (call : UpdateCall α) :
    Decidable (call.InRange cfg t) := inferInstanceAs (Decidable (_ ∧ _ ∧ _ ∧ _ ∧ _ ∧ _ ∧ _))

end UpdateCall

/-- `slab[start : start + s_new, lo : lo + heads] = new[first : first + heads]`, in the layout of
the slab. -/
def storeHeads (t : PagedKVTable α) (new : NewKvs α) (start lo first heads : ℕ) :
    PagedKVTable α :=
  { t with
    k := assignRows t.k start new.sNew lo (lo + heads) fun s c e => new.key (first + c) e s
    v := assignRows t.v start new.sNew lo (lo + heads) fun s c e => new.value (first + c) s e }

/-- `_write_kvs` in range. The slab has a stride of all attention heads for each batch row, of which
a source with fewer heads fills the first. -/
def writeKvs (cfg : BlockConfig) (t : PagedKVTable α) (call : UpdateCall α) : PagedKVTable α :=
  let heads := cfg.attentionHeads
  let sourceHeads := call.sourceHeads cfg
  let offset := call.firstRow * heads
  if sourceHeads < heads then
    (List.range (call.sourceBatchSize cfg)).foldl (fun t i =>
      storeHeads t call.new call.startPosition (offset + i * heads) (i * sourceHeads) sourceHeads) t
  else storeHeads t call.new call.startPosition offset 0 call.new.bh

/-- `update_cache` in range. Every token is accepted, so the write is committed. -/
def updateCache (cfg : BlockConfig) (t : PagedKVTable α) (call : UpdateCall α) : PagedKVTable α :=
  trackPagedWrite (writeKvs cfg t call) (inferSeqIds cfg call.new.bh) call.startPosition
    call.new.sNew true

/-! ### Speculative rounds -/

/-- How far the slab gets in `_do_reorder_task`: `_write_kvs` raises, or it returns and the
accepted prefix is not moved, or it is moved. -/
inductive SlabOutcome where
  | raised
  | written
  | compacted
  deriving DecidableEq, Repr

/-- The outcome on a slab that holds the full batch. -/
def slabOutcome {κ : Type} (zero : κ) (slab : RpcInference.Slab κ) (batchOffset : ℕ)
    (ids : List (List ℤ)) (treeLen : ℕ) (new : List (List κ)) : SlabOutcome :=
  let writePosition := cacheLenOf ids
  match RpcInference.writeKvs slab writePosition batchOffset new with
  | none => .raised
  | some slab =>
    let extended := extendIds ids writePosition treeLen
    let cacheLen := cacheLenOf extended
    if writePosition = 0 ∨ slab.seqLen < cacheLen then .written
    else if (reorderAndWriteCache zero slab batchOffset cacheLen extended).isSome then .compacted
    else .written

/-- What `_do_reorder_task` does to the paged table. A round without a valid position id is a
prefill. -/
def pagedReorderTask (cfg : BlockConfig) (t : PagedKVTable α) (ids : List (List ℤ))
    (bh treeLen : ℕ) (outcome : SlabOutcome) : PagedKVTable α :=
  let seqIds := inferSeqIds cfg bh
  let writePosition := cacheLenOf ids
  if writePosition = 0 then
    if outcome = .raised then t else trackPagedWrite t seqIds 0 treeLen true
  else
    -- everything at or beyond the write position was speculative
    let t := rollbackPagedTo t writePosition
    if outcome = .raised then t
    else
      let t := trackPagedWrite t seqIds writePosition treeLen false
      if outcome = .written then t
      else commitPagedTo t (cacheLenOf (extendIds ids writePosition treeLen) : ℕ)

end BloomBee.PagedKV
