import BloomBee.Lib.Masked
import BloomBee.Spec.KVSlab

/-! The speculative updates of the KV slab (`server/memory_cache_manager.py`):
`reorder_and_write_cache`, which packs the accepted tokens of every row by masked gathers, and
`update_cache_and_async_reorder`, whose task writes the new tree behind the accepted tokens, reads
the rows back and packs them. -/

set_option autoImplicit false

namespace BloomBee.KVSlab

open KVMultiplex (Policy)
open Masked (argmax cumsum ints scatter)
open PagedKV (BlockConfig NewKvs PagedKVTable Tensor inferSeqIds rollbackPagedTo seqKeys
  trackPagedWrite commitPagedTo)
open Speculative (cacheLenOf extendIds)

variable {α κ : Type}

/-- `kv_cache_position_ids`, with -1 for padding. A vector of ids stands for one row. -/
structure PositionIds where
  width : ℕ
  rows : List (List ℤ)
  rows_width : ∀ r ∈ rows, r.length = width

def PositionIds.extend (ids : PositionIds) (writePosition treeLen : ℕ) : PositionIds where
  width := ids.width + treeLen
  rows := extendIds ids.rows writePosition treeLen
  rows_width r hr := by
    obtain ⟨r, hmem, rfl⟩ := List.mem_map.mp hr
    rw [List.length_append, ids.rows_width r hmem, List.length_map, List.length_range]

/-! ### `reorder_and_write_cache` -/

/-- An entry of `valid_mask`. -/
def isValid (id : ℤ) : Bool := decide (0 ≤ id)

/-- An entry of `root_positions`. -/
def rootPosition (sOld : ℕ) (row : List ℤ) : ℕ :=
  if row.any isValid then (row.getD (argmax (ints isValid row)) 0).toNat else sOld

def validLengths (sOld : ℕ) (ids : PositionIds) : List ℕ :=
  ids.rows.map fun row => rootPosition sOld row + row.countP isValid

/-- A row of `k_new` or `v_new` for one head: the slots before the root are copied, and those with
the ids of the row to where the running totals of its mask put them. -/
def newRow [Zero κ] (sOld maxRoot : ℕ) (old : ℕ → κ) (row : List ℤ) : ℕ → κ :=
  let root := rootPosition sOld row
  let kept := ((List.range maxRoot).filter fun i => i < root).map fun i => (i, old i)
  let dstPositions := (cumsum 0 (ints isValid row)).map fun total => root + (total - 1)
  let tree := ((row.zip dstPositions).filter fun x => isValid x.1).map fun x =>
    (x.2, old x.1.toNat)
  scatter (scatter (fun _ => 0) kept) tree

instance [Zero α] : Zero (Cell α) := ⟨⟨fun _ => 0, fun _ => 0⟩⟩

/-- The heads of the rows one after the other, as `async_write_pkv_cache` passes them on. -/
def Pkv.newKvs (pkv : Pkv (Cell α)) : NewKvs α where
  bh := pkv.batch * pkv.heads
  d := pkv.d
  sNew := pkv.len
  key := fun c e t => (pkv.cell (c / pkv.heads) (c % pkv.heads) t).key e
  value := fun c t e => (pkv.cell (c / pkv.heads) (c % pkv.heads) t).value e

def asyncWritePkvCache (cfg : BlockConfig) (p : Policy) (c : Cache (Cell α)) (pkv : Pkv (Cell α))
    (startPosition : ℤ) (mb : MicroBatch) : Cache (Cell α) × Except Raised Unit :=
  writeKvs cfg p c startPosition mb (tensors pkv.newKvs)

/-- `k_new` and `v_new` -/
def Pkv.reordered [Zero α] (pkv : Pkv (Cell α)) (ids : PositionIds) : Pkv (Cell α) :=
  let maxRoot := (ids.rows.map (rootPosition pkv.len)).foldr max 0
  { pkv with
    len := (validLengths pkv.len ids).foldr max 0
    cell := fun b h => newRow pkv.len maxRoot (pkv.cell b h) (ids.rows.getD b []) }

/-- `reorder_and_write_cache`. The maxima over no rows and over no columns raise, and so do ids for
other rows and ids behind the old length. -/
def reorderAndWriteCache [Zero α] (cfg : BlockConfig) (p : Policy) (c : Cache (Cell α))
    (pkv : Pkv (Cell α)) (ids : PositionIds) (mb : MicroBatch) :
    Cache (Cell α) × Except Raised (ℕ × List ℕ) :=
  if pkv.batch = 0 then (c, .error .runtimeError)
  else if ids.rows.length ≠ pkv.batch ∨ ids.width = 0 then (c, .error .indexError)
  else if ∃ row ∈ ids.rows, ∃ id ∈ row, (pkv.len : ℤ) ≤ id then (c, .error .indexError)
  else
    let new := pkv.reordered ids
    let r := asyncWritePkvCache cfg p c new 0 mb
    (r.1, r.2.map fun _ => (new.len, validLengths pkv.len ids))

/-! ### `update_cache_and_async_reorder` -/

theorem PositionIds.width_nil : ∀ r ∈ ([] : List (List ℤ)), r.length = 0 := by simp

/-- The position ids of a call. `None` is a batch without ids. -/
def givenIds (ids : Option PositionIds) : PositionIds := ids.getD ⟨0, [], PositionIds.width_nil⟩

/-- `write_position`, which is zero without a valid id. -/
def writePosition (ids : Option PositionIds) : ℕ := cacheLenOf (givenIds ids).rows

def extendedIds (ids : Option PositionIds) (treeLen : ℕ) : PositionIds :=
  (givenIds ids).extend (writePosition ids) treeLen

/-- What a loop of the shim logs: each call's error is caught on its own. -/
def logged (call : PagedKVTable α → ℤ → PagedKVTable α × Except PagedKV.Raised Unit) :
    PagedKVTable α → List ℤ → List PagedKV.Raised
  | _, [] => []
  | t, seq :: seqs =>
    let r := call t seq
    match r.2 with
    | .error e => e :: logged call r.1 seqs
    | .ok () => logged call r.1 seqs

/-- A cache with the staging of its micro-batches and the paged tables on it. -/
structure Server (α : Type) where
  cache : Cache (Cell α)
  staging : Staging (Cell α)
  tables : List (PagedKVTable α)

inductive Ended where
  | written
  /-- `select_cache` gave nothing. -/
  | unselected
  | reordered
  deriving DecidableEq, Repr

/-- What the task leaves, what the shim and the offloads have logged in it, and how it ends. -/
structure TaskRun (α : Type) where
  server : Server α
  logged : List PagedKV.Raised
  offloads : List Raised
  outcome : Except Raised Ended

/-- `_track_paged_write` over the tables. -/
def Server.track (cfg : BlockConfig) (s : Server α) (new : NewKvs α) (start : ℕ) (commit : Bool) :
    Server α × List PagedKV.Raised :=
  let seqIds := inferSeqIds cfg new.bh
  ({ s with tables := s.tables.map fun t => trackPagedWrite t seqIds start new.sNew commit },
    s.tables.flatMap fun t =>
      logged (fun t seq => t.trackWrite seq start new.sNew commit) t seqIds)

/-- The call that `_rollback_paged_to` makes for a sequence. -/
def rollbackCall (target : ℤ) (t : PagedKVTable α) (seq : ℤ) :
    PagedKVTable α × Except PagedKV.Raised Unit :=
  match t.seqs.lookup seq with
  | none => (t, .error (.keyError seq))
  | some st => t.rollback seq (max 0 (min target st.lAcc))

/-- `_rollback_paged_to` over the tables. -/
def Server.rollbackTo (s : Server α) (target : ℕ) : Server α × List PagedKV.Raised :=
  ({ s with tables := s.tables.map fun t => rollbackPagedTo t target },
    s.tables.flatMap fun t => logged (rollbackCall target) t (seqKeys t))

/-- The call that `_commit_paged_to` makes for a sequence. -/
def commitCall (target : ℤ) (t : PagedKVTable α) (seq : ℤ) :
    PagedKVTable α × Except PagedKV.Raised Unit :=
  match t.seqs.lookup seq with
  | none => (t, .error (.keyError seq))
  | some st => t.commit seq (some (min target st.lSeq))

/-- `_commit_paged_to` over the tables. -/
def Server.commitTo (s : Server α) (target : ℕ) : Server α × List PagedKV.Raised :=
  ({ s with tables := s.tables.map fun t => commitPagedTo t target },
    s.tables.flatMap fun t => logged (commitCall target) t (seqKeys t))

variable [Zero α]

/-- The task from the read-back on. -/
def reorderBack (cfg : BlockConfig) (p : Policy) (s : Server α) (ids : PositionIds)
    (mb : MicroBatch) (log : List PagedKV.Raised) (offloads : List Raised) : TaskRun α :=
  let cacheLen := cacheLenOf ids.rows
  match selectCache cfg p s.staging s.cache cacheLen mb with
  | ((st, c), .error e) => ⟨{ s with cache := c, staging := st }, log, offloads, .error e⟩
  | ((st, c), .ok none) =>
    ⟨{ s with cache := c, staging := st }, log, offloads, .ok .unselected⟩
  | ((st, c), .ok (some pkv)) =>
    match reorderAndWriteCache cfg p c pkv ids mb with
    | (c, .error e) => ⟨{ s with cache := c, staging := st }, log, offloads, .error e⟩
    | (c, .ok (newLen, _)) =>
      let w := offloadWritten cfg p st c (endPosition c.seqLen 0 newLen) mb
      let s := Server.commitTo { s with cache := w.cache, staging := w.staging } cacheLen
      ⟨s.1, log ++ s.2, offloads ++ w.logged, .ok .reordered⟩

/-- The body of `_do_reorder_task`. Without a valid position id it is a prefill. -/
def reorderTask (cfg : BlockConfig) (p : Policy) (s : Server α) (new : NewKvs α)
    (ids : Option PositionIds) (mb : MicroBatch) : TaskRun α :=
  let start := writePosition ids
  if start = 0 then
    let w := writeAndOffload cfg p s.staging s.cache 0 mb new
    let s := { s with cache := w.cache, staging := w.staging }
    match w.outcome with
    | .error e => ⟨s, [], w.logged, .error e⟩
    | .ok () =>
      let s := Server.track cfg s new 0 true
      ⟨s.1, s.2, w.logged, .ok .written⟩
  else
    -- everything at or beyond the write position was speculative
    let rolled := s.rollbackTo start
    let w := writeAndOffload cfg p rolled.1.staging rolled.1.cache start mb new
    let s := { rolled.1 with cache := w.cache, staging := w.staging }
    match w.outcome with
    | .error e => ⟨s, rolled.2, w.logged, .error e⟩
    | .ok () =>
      let tracked := Server.track cfg s new start false
      reorderBack cfg p tracked.1 (extendedIds ids new.sNew) mb (rolled.2 ++ tracked.2) w.logged

/-- `update_cache_and_async_reorder`: what its task raises is caught and logged. -/
def updateCacheAndAsyncReorder (cfg : BlockConfig) (p : Policy) (s : Server α) (new : NewKvs α)
    (ids : Option PositionIds) (mb : MicroBatch) : Server α × Except Raised Unit :=
  ((reorderTask cfg p s new ids mb).server, .ok ())

end BloomBee.KVSlab
