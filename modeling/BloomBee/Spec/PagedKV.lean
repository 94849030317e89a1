import Mathlib.Data.List.AList

/-! The paged KV table of `server/paged_kv.py`. A table hands out fixed-size pages of
one backing `(S_total, BH, D)` pair to sequences. Every call returns the table it
leaves behind next to its outcome, because a call that raises keeps the pages it had
already moved. Positions are natural numbers: `start_position` is never negative. -/

namespace BloomBee.PagedKV

/-- The default page length `BLOCK_SIZE`. -/
def BLOCK_SIZE : ℕ := 16

/-- The contract violations raised as `PagedKVError`, with the values their texts print. -/
inductive PagedKVError where
  | backingShapesDiffer (k v : List ℕ)
  | backingNotThreeDim (shape : List ℕ)
  | notMultipleOfBlockSize (sTotal blockSize : ℕ)
  | alreadyRegistered (seq : ℤ)
  | outOfPages (needed held : ℕ) (seq : ℤ) (free : ℕ)
  | newShapesDiffer (k v : List ℕ)
  | newNotThreeDim (shape : List ℕ)
  | commitBeyondLSeq (target : ℤ) (lSeq : ℕ)
  | rollbackExceedsLAcc (target : ℤ) (lAcc : ℕ)
  | rollbackNegative (target : ℤ)
  | readExceedsLAcc (length : ℤ) (lAcc : ℕ) (seq : ℤ)
  deriving DecidableEq, Repr

/-- Everything a call can raise: the table's own errors and those of Python and torch. -/
inductive Raised where
  | pagedKV (e : PagedKVError)
  | keyError (seq : ℤ)
  | indexError (i : ℕ)
  | runtimeError
  | zeroDivision
  deriving DecidableEq, Repr

/-- A tensor: its shape, and its entries when it has three axes. -/
structure Tensor (α : Type) where
  shape : List ℕ
  data : ℕ → ℕ → ℕ → α

structure SeqState where
  pages : List ℕ := []
  lAcc : ℕ := 0
  lSeq : ℕ := 0
  deriving DecidableEq, Repr

/-- `PagedKVTable`. `free` is the stack `_free` with its top first; `bh` and `d` are the
last two axes of the backing tensors. -/
structure PagedKVTable (α : Type) where
  k : ℕ → ℕ → ℕ → α
  v : ℕ → ℕ → ℕ → α
  bh : ℕ
  d : ℕ
  blockSize : ℕ
  numPages : ℕ
  free : List ℕ
  seqs : AList (fun _ : ℤ => SeqState)
  blockSize_pos : 0 < blockSize

variable {α : Type}

namespace PagedKVTable

/-- `__init__`: a remainder by a zero block size raises before the table exists. -/
def init (backingK backingV : Tensor α) (blockSize : ℕ := BLOCK_SIZE) :
    Except Raised (PagedKVTable α) :=
  if backingK.shape ≠ backingV.shape then
    .error (.pagedKV (.backingShapesDiffer backingK.shape backingV.shape))
  else
    match backingK.shape with
    | [sTotal, bh, d] =>
      if h : 0 < blockSize then
        if sTotal % blockSize ≠ 0 then
          .error (.pagedKV (.notMultipleOfBlockSize sTotal blockSize))
        else
          .ok { k := backingK.data, v := backingV.data, bh := bh, d := d, blockSize := blockSize,
                numPages := sTotal / blockSize, free := List.range (sTotal / blockSize),
                seqs := ∅, blockSize_pos := h }
      else .error .zeroDivision
    | shape => .error (.pagedKV (.backingNotThreeDim shape))

/-! Sequence lifecycle. -/

def registerSequence (t : PagedKVTable α) (seq : ℤ) : PagedKVTable α × Except Raised Unit :=
  if seq ∈ t.seqs then (t, .error (.pagedKV (.alreadyRegistered seq)))
  else ({ t with seqs := t.seqs.insert seq {} }, .ok ())

def releaseSequence (t : PagedKVTable α) (seq : ℤ) : PagedKVTable α × Except Raised Unit :=
  match t.seqs.lookup seq with
  | none => (t, .ok ())
  | some st => ({ t with seqs := t.seqs.erase seq, free := st.pages.reverse ++ t.free }, .ok ())

/-! Allocation. -/

/-- The loop of `_ensure_capacity`: pop a free page onto the end of the sequence's list
until it holds `needed` pages or the stack is empty. -/
def takePages (needed : ℕ) : List ℕ → List ℕ → List ℕ × List ℕ
  | pages, [] => (pages, [])
  | pages, p :: free =>
    if pages.length < needed then takePages needed (pages ++ [p]) free else (pages, p :: free)

def pagesFor (t : PagedKVTable α) (len : ℕ) : ℕ := (len + t.blockSize - 1) / t.blockSize

/-- `_ensure_capacity`: running out of pages raises after the pages that were left moved. -/
def ensureCapacity (t : PagedKVTable α) (seq : ℤ) (targetLen : ℕ) :
    PagedKVTable α × Except Raised Unit :=
  match t.seqs.lookup seq with
  | none => (t, .error (.keyError seq))
  | some st =>
    let needed := t.pagesFor targetLen
    let r := takePages needed st.pages t.free
    let t' := { t with free := r.2, seqs := t.seqs.insert seq { st with pages := r.1 } }
    if r.1.length < needed then
      (t', .error (.pagedKV (.outOfPages needed r.1.length seq r.2.length)))
    else (t', .ok ())

/-! Slices and copies. -/

/-- A slice bound on an axis of length `n`, as Python resolves it. -/
def sliceBound (n : ℕ) (i : ℤ) : ℕ :=
  if i < 0 then (i + n).toNat else min i.toNat n

/-- Torch copies an axis of length `src` into one of length `dst`, stretching length one. -/
def Broadcasts (src dst : ℕ) : Prop := src = dst ∨ src = 1

instance (src dst : ℕ) : Decidable (Broadcasts src dst) :=
  inferInstanceAs (Decidable (src = dst ∨ src = 1))

/-- The source index read for destination index `i` along an axis of length `src`. -/
def broadcastIndex (src i : ℕ) : ℕ := if src = 1 then 0 else i

/-- `dst[base : base + n, lo : hi, :] = src`. -/
def assignRows (dst : ℕ → ℕ → ℕ → α) (base n lo hi : ℕ) (src : ℕ → ℕ → ℕ → α) :
    ℕ → ℕ → ℕ → α :=
  fun s c e =>
    if base ≤ s ∧ s < base + n ∧ lo ≤ c ∧ c < hi then src (s - base) (c - lo) e else dst s c e

/-! Write. -/

/-- The page-by-page loop of `write`, with one unit of fuel for each token still to copy. -/
def writeLoop (bs : ℕ) (pages : List ℕ) (lo hi : ℕ) (kNew vNew : ℕ → ℕ → ℕ → α)
    (endPos : ℕ) : ℕ → ℕ → ℕ → (ℕ → ℕ → ℕ → α) × (ℕ → ℕ → ℕ → α) →
    ((ℕ → ℕ → ℕ → α) × (ℕ → ℕ → ℕ → α)) × Except Raised Unit
  | 0, _, _, kv => (kv, .ok ())
  | fuel + 1, pos, src, kv =>
    if pos < endPos then
      match pages[pos / bs]? with
      | none => (kv, .error (.indexError (pos / bs)))
      | some phys =>
        let slot := pos % bs
        let tokens := min (bs - slot) (endPos - pos)
        let base := phys * bs + slot
        writeLoop bs pages lo hi kNew vNew endPos fuel (pos + tokens) (src + tokens)
          (assignRows kv.1 base tokens lo hi fun s => kNew (src + s),
           assignRows kv.2 base tokens lo hi fun s => vNew (src + s))
    else (kv, .ok ())

/-- The length updates shared by `write` and `track_write`. -/
def advance (st : SeqState) (endPos : ℕ) (commit : Bool) : SeqState :=
  { st with
    lSeq := if endPos > st.lSeq then endPos else st.lSeq
    lAcc := if commit && endPos > st.lAcc then endPos else st.lAcc }

/-- `write`. An empty write returns before it looks the sequence up. -/
def write (t : PagedKVTable α) (seq : ℤ) (start : ℕ) (kNew vNew : Tensor α) (bhSlice : ℤ × ℤ)
    (commit : Bool := true) : PagedKVTable α × Except Raised Unit :=
  if kNew.shape ≠ vNew.shape then
    (t, .error (.pagedKV (.newShapesDiffer kNew.shape vNew.shape)))
  else
    match kNew.shape with
    | [sNew, w, dNew] =>
      if sNew = 0 then (t, .ok ())
      else
        let endPos := start + sNew
        match t.ensureCapacity seq endPos with
        | (t', .error e) => (t', .error e)
        | (t', .ok ()) =>
          match t'.seqs.lookup seq with
          | none => (t', .error (.keyError seq))
          | some st =>
            let lo := sliceBound t.bh bhSlice.1
            let hi := sliceBound t.bh bhSlice.2
            if Broadcasts w (hi - lo) ∧ Broadcasts dNew t.d then
              let src (x : Tensor α) : ℕ → ℕ → ℕ → α :=
                fun s c e => x.data s (broadcastIndex w c) (broadcastIndex dNew e)
              let r := writeLoop t.blockSize st.pages lo hi (src kNew) (src vNew) endPos sNew
                start 0 (t'.k, t'.v)
              match r.2 with
              | .error e => ({ t' with k := r.1.1, v := r.1.2 }, .error e)
              | .ok () => ({ t' with k := r.1.1, v := r.1.2,
                                     seqs := t'.seqs.insert seq (advance st endPos commit) }, .ok ())
            -- torch refuses the first page's copy, so nothing has been written
            else (t', .error .runtimeError)
    | shape => (t, .error (.pagedKV (.newNotThreeDim shape)))

/-- `track_write`: the page and length bookkeeping of `write` without its copies. -/
def trackWrite (t : PagedKVTable α) (seq : ℤ) (start : ℕ) (sNew : ℤ) (commit : Bool := true) :
    PagedKVTable α × Except Raised Unit :=
  if sNew ≤ 0 then (t, .ok ())
  else
    let t₁ := if seq ∈ t.seqs then t else (t.registerSequence seq).1
    let endPos := start + sNew.toNat
    match t₁.ensureCapacity seq endPos with
    | (t₂, .error e) => (t₂, .error e)
    | (t₂, .ok ()) =>
      match t₂.seqs.lookup seq with
      | none => (t₂, .error (.keyError seq))
      | some st => ({ t₂ with seqs := t₂.seqs.insert seq (advance st endPos commit) }, .ok ())

/-! Commit and rollback. -/

def commit (t : PagedKVTable α) (seq : ℤ) (upTo : Option ℤ := none) :
    PagedKVTable α × Except Raised Unit :=
  match t.seqs.lookup seq with
  | none => (t, .error (.keyError seq))
  | some st =>
    let target := upTo.getD st.lSeq
    if target > st.lSeq then (t, .error (.pagedKV (.commitBeyondLSeq target st.lSeq)))
    else if target > st.lAcc then
      ({ t with seqs := t.seqs.insert seq { st with lAcc := target.toNat } }, .ok ())
    else (t, .ok ())

/-- The loop of `rollback`, over the sequence's pages with the last one first. -/
def dropPages (keep : ℕ) : List ℕ → List ℕ → List ℕ × List ℕ
  | [], free => ([], free)
  | p :: rest, free =>
    if rest.length + 1 > keep then dropPages keep rest (p :: free) else (p :: rest, free)

def rollback (t : PagedKVTable α) (seq : ℤ) (target : ℤ) : PagedKVTable α × Except Raised Unit :=
  match t.seqs.lookup seq with
  | none => (t, .error (.keyError seq))
  | some st =>
    if target > st.lAcc then (t, .error (.pagedKV (.rollbackExceedsLAcc target st.lAcc)))
    else if target < 0 then (t, .error (.pagedKV (.rollbackNegative target)))
    else
      let r := dropPages (t.pagesFor target.toNat) st.pages.reverse t.free
      ({ t with
          free := r.2
          seqs := t.seqs.insert seq
            { pages := r.1.reverse, lAcc := target.toNat, lSeq := target.toNat } }, .ok ())

/-! Read. -/

/-- The page-by-page loop of `gather_prefix`, with one unit of fuel for each token still
to copy. -/
def gatherLoop (t : PagedKVTable α) (pages : List ℕ) (lo hi width length : ℕ) :
    ℕ → ℕ → (ℕ → ℕ → ℕ → α) × (ℕ → ℕ → ℕ → α) →
    Except Raised ((ℕ → ℕ → ℕ → α) × (ℕ → ℕ → ℕ → α))
  | 0, _, out => .ok out
  | fuel + 1, pos, out =>
    if pos < length then
      match pages[pos / t.blockSize]? with
      | none => .error (.indexError (pos / t.blockSize))
      | some phys =>
        let slot := pos % t.blockSize
        let tokens := min (t.blockSize - slot) (length - pos)
        let base := phys * t.blockSize + slot
        if Broadcasts (hi - lo) width then
          let src (x : ℕ → ℕ → ℕ → α) : ℕ → ℕ → ℕ → α :=
            fun s c e => x (base + s) (lo + broadcastIndex (hi - lo) c) e
          gatherLoop t pages lo hi width length fuel (pos + tokens)
            (assignRows out.1 pos tokens 0 width (src t.k),
             assignRows out.2 pos tokens 0 width (src t.v))
        else .error .runtimeError
    else .ok out

/-- `gather_prefix` into fresh tensors, whose entries start out arbitrary. -/
def gatherPrefix [Inhabited α] (t : PagedKVTable α) (seq : ℤ) (bhSlice : ℤ × ℤ)
    (length : Option ℤ := none) : Except Raised (Tensor α × Tensor α) :=
  match t.seqs.lookup seq with
  | none => .error (.keyError seq)
  | some st =>
    let len := length.getD st.lAcc
    if len > st.lAcc then .error (.pagedKV (.readExceedsLAcc len st.lAcc seq))
    -- torch refuses a negative size
    else if len < 0 ∨ bhSlice.2 - bhSlice.1 < 0 then .error .runtimeError
    else
      let width := (bhSlice.2 - bhSlice.1).toNat
      let shape := [len.toNat, width, t.d]
      let empty : ℕ → ℕ → ℕ → α := fun _ _ _ => default
      match gatherLoop t st.pages (sliceBound t.bh bhSlice.1) (sliceBound t.bh bhSlice.2) width
          len.toNat len.toNat 0 (empty, empty) with
      | .error e => .error e
      | .ok out => .ok (⟨shape, out.1⟩, ⟨shape, out.2⟩)

end PagedKVTable

/-! Runs. -/

inductive Op (α : Type) where
  | registerSequence (seq : ℤ)
  | releaseSequence (seq : ℤ)
  | write (seq : ℤ) (start : ℕ) (kNew vNew : Tensor α) (bhSlice : ℤ × ℤ) (commit : Bool)
  | trackWrite (seq : ℤ) (start : ℕ) (sNew : ℤ) (commit : Bool)
  | commit (seq : ℤ) (upTo : Option ℤ)
  | rollback (seq : ℤ) (target : ℤ)

def Op.seq : Op α → ℤ
  | .registerSequence s | .releaseSequence s | .write s .. | .trackWrite s .. | .commit s _
  | .rollback s _ => s

def Op.apply (t : PagedKVTable α) : Op α → PagedKVTable α × Except Raised Unit
  | .registerSequence s => t.registerSequence s
  | .releaseSequence s => t.releaseSequence s
  | .write s p k v sl c => t.write s p k v sl c
  | .trackWrite s p n c => t.trackWrite s p n c
  | .commit s u => t.commit s u
  | .rollback s l => t.rollback s l

/-- The table after a list of calls, whatever each of them raised. -/
def runOps (t : PagedKVTable α) (ops : List (Op α)) : PagedKVTable α :=
  ops.foldl (fun t op => (op.apply t).1) t

open PagedKVTable (broadcastIndex sliceBound)

/-! What the table is for: each sequence sees an array of its own. The array is read off the calls
and their outcomes, without pages. -/

/-- The rows `write` copies, with the last two axes stretched as torch stretches them. -/
def writtenRows (w dNew : ℕ) (x : Tensor α) : ℕ → ℕ → ℕ → α :=
  fun s c e => x.data s (broadcastIndex w c) (broadcastIndex dNew e)

/-- The key and value a successful call writes at position `p` and column `c`, if it does. -/
def Op.wrote (bh p c e : ℕ) : Op α → Option (α × α)
  | .write _ start kNew vNew bhSlice _ =>
    match kNew.shape with
    | [sNew, w, dNew] =>
      let lo := sliceBound bh bhSlice.1
      if start ≤ p ∧ p < start + sNew ∧ lo ≤ c ∧ c < sliceBound bh bhSlice.2 then
        some (writtenRows w dNew kNew (p - start) (c - lo) e,
              writtenRows w dNew vNew (p - start) (c - lo) e)
      else none
    | _ => none
  | _ => none

/-- Whether a successful call ends what its sequence held at position `p`: a rollback below
`p + 1`, or the end of the sequence itself. -/
def Op.erases (p : ℕ) : Op α → Bool
  | .rollback _ target => target ≤ p
  | .releaseSequence _ => true
  | _ => false

/-- The value most recently written by `seq` at position `p` and column `c` since its last
rollback below `p + 1`. The log has the newest call first. -/
def lastWritten (bh : ℕ) (seq : ℤ) (p c e : ℕ) : List (Op α × Except Raised Unit) → Option (α × α)
  | [] => none
  | (op, .ok ()) :: log =>
    if op.seq = seq then
      if op.erases p then none
      else (op.wrote bh p c e).or (lastWritten bh seq p c e log)
    else lastWritten bh seq p c e log
  | (_, .error _) :: log => lastWritten bh seq p c e log

/-- The calls of a run with their outcomes, newest first, and the table they leave. -/
def runLog (t : PagedKVTable α) (ops : List (Op α)) :
    PagedKVTable α × List (Op α × Except Raised Unit) :=
  ops.foldl (fun s op => ((op.apply s.1).1, (op, (op.apply s.1).2) :: s.2)) (t, [])

end BloomBee.PagedKV
