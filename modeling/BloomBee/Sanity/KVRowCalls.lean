import BloomBee.Proofs.KVBatched
import BloomBee.Sanity.KVMultiplex
import BloomBee.Sanity.RowRuns
import BloomBee.Spec.KVRowRuns

/-! What the calls of one cache update leave: the runs of active rows, each at its place, what
their rows leave one by one (`writeRowRuns_rowsAlone`), and a run that is out of place leaves a row
without its token (`writeRowRuns_hasKey`, `writeRowsAlone_cell`). -/

set_option autoImplicit false

namespace BloomBee.KVSlab

open LiveDecode (rowsOfRun rowsOfRun_succ)
open PagedKV (BlockConfig NewKvs Tensor)

/-! ### One call -/

section Calls

variable {α : Type} {cfg : BlockConfig} {p : KVMultiplex.Policy} {c c₁ c₂ c' : Cache (Cell α)}
  {new : NewKvs α} {rows headsPerRow home first start stop position : ℕ}

def sliceRows (new : NewKvs α) (rowStart rowEnd headsPerRow : ℕ) : NewKvs α where
  bh := min (rowEnd * headsPerRow) new.bh - rowStart * headsPerRow
  d := new.d
  sNew := new.sNew
  key := fun i => new.key (rowStart * headsPerRow + i)
  value := fun i => new.value (rowStart * headsPerRow + i)

theorem sliceKvRows_tensors (new : NewKvs α) (rowStart rowEnd headsPerRow : ℕ) :
    sliceKvRows (tensors new) rowStart rowEnd headsPerRow =
      tensors (sliceRows new rowStart rowEnd headsPerRow) := rfl

theorem sliceRows_bh (hbh : new.bh = rows * headsPerRow) (hle : stop ≤ rows) :
    (sliceRows new start stop headsPerRow).bh = (stop - start) * headsPerRow := by
  rw [sliceRows, hbh, Nat.min_eq_left (Nat.mul_le_mul_right _ hle), Nat.sub_mul]

/-- The batch rows from `first` on have the rows of the new tokens from `start` to `stop`, and every
other cell is as it was. -/
structure Written (cfg : BlockConfig) (new : NewKvs α) (headsPerRow position first start stop : ℕ)
    (c c' : Cache (Cell α)) : Prop where
  shape : SameShape c c'
  cells : ∀ b, ∀ hd < cfg.attentionHeads, ∀ s < c.seqLen,
    c'.cell? s (b * cfg.attentionHeads + hd) =
      if first ≤ b ∧ b < first + (stop - start) ∧ hd < headsPerRow then
        (writtenToken c.seqLen new.sNew position s).elim
          (c.cell? s (b * cfg.attentionHeads + hd)) fun t =>
            some ((block new).data t ((start + (b - first)) * headsPerRow + hd))
      else c.cell? s (b * cfg.attentionHeads + hd)

structure Takes (cfg : BlockConfig) (p : KVMultiplex.Policy) (c : Cache (Cell α)) (mb : MicroBatch)
    (new : NewKvs α) (headsPerRow start stop : ℕ) : Prop where
  seqLen : 0 < c.seqLen
  heads : 0 < headsPerRow
  heads_le : headsPerRow ≤ cfg.attentionHeads
  headDim : new.d = c.d
  lt : start < stop
  bh : (sliceRows new start stop headsPerRow).bh = (stop - start) * headsPerRow
  fullBatchSize : 0 < mb.fullBatchSize
  microBatchSize : mb.microBatchSize = stop - start
  room : firstRow cfg p c mb + (stop - start) ≤ c.batch cfg.attentionHeads

section Takes

variable {mb : MicroBatch}

theorem Takes.sourceHeads (h : Takes cfg p c mb new headsPerRow start stop) :
    mb.sourceHeads cfg (sliceRows new start stop headsPerRow).bh = headsPerRow := by
  rw [h.bh]
  exact sourceHeads_eq h.fullBatchSize h.microBatchSize (Nat.sub_pos_of_lt h.lt) h.heads
    h.heads_le

theorem Takes.batchRows (h : Takes cfg p c mb new headsPerRow start stop) :
    (sliceRows new start stop headsPerRow).bh /
      mb.sourceHeads cfg (sliceRows new start stop headsPerRow).bh = stop - start := by
  rw [h.sourceHeads, h.bh, Nat.mul_div_cancel _ h.heads]

theorem Takes.accepts (h : Takes cfg p c mb new headsPerRow start stop) :
    Accepts cfg p c mb (sliceRows new start stop headsPerRow) where
  attentionHeads := h.heads.trans_le h.heads_le
  headDim := h.headDim
  divisible := by rw [h.sourceHeads, h.bh, Nat.mul_mod_left]
  rows := by rw [h.batchRows]; exact h.room

theorem Takes.raises (h : Takes cfg p c mb new headsPerRow start stop)
    (hraises : Raises c.seqLen new.sNew position) :
    writeKvs cfg p c position mb (sliceKvRows (tensors new) start stop headsPerRow) =
      (c, .error .runtimeError) := by
  rw [sliceKvRows_tensors]
  exact writeKvs_raises h.accepts (by rw [h.batchRows]; exact Nat.sub_pos_of_lt h.lt) hraises

theorem Takes.written (h : Takes cfg p c mb new headsPerRow start stop)
    (hok : ¬Raises c.seqLen new.sNew position) :
    ∃ c', writeKvs cfg p c position mb (sliceKvRows (tensors new) start stop headsPerRow) =
        (c', .ok ()) ∧
      Written cfg new headsPerRow position (firstRow cfg p c mb) start stop c c' := by
  obtain ⟨c', hwrite, hshape, hcells⟩ := writeKvs_cells h.accepts h.seqLen hok
  rw [sliceKvRows_tensors]
  refine ⟨c', hwrite, hshape, fun b hd hhd s hs => ?_⟩
  rw [hcells b hd hhd s hs, h.batchRows, h.sourceHeads, Nat.add_mul, Nat.add_assoc]
  rfl

end Takes

theorem Written.refl (c : Cache (Cell α)) :
    Written cfg new headsPerRow position first start start c c where
  shape := .refl c
  cells b hd _ s _ := by rw [if_neg (by omega)]

theorem Written.append {mid : ℕ} (hle : start ≤ mid) (hle' : mid ≤ stop)
    (h : Written cfg new headsPerRow position first start mid c c₁)
    (h' : Written cfg new headsPerRow position (first + (mid - start)) mid stop c₁ c₂) :
    Written cfg new headsPerRow position first start stop c c₂ where
  shape := h.shape.trans h'.shape
  cells b hd hhd s hs := by
    rw [h'.cells b hd hhd s (h.shape.seqLen ▸ hs), h.cells b hd hhd s hs, h.shape.seqLen]
    by_cases hfirst : first ≤ b ∧ b < first + (mid - start) ∧ hd < headsPerRow
    · rw [if_neg (by omega), if_pos hfirst, if_pos (by omega)]
    · rw [if_neg hfirst]
      refine ite_congr (propext (by omega)) (fun hin => ?_) fun _ => rfl
      rw [show mid + (b - (first + (mid - start))) = start + (b - first) by omega]

structure SameCells (c c' : Cache (Cell α)) : Prop where
  shape : SameShape c c'
  cells : ∀ s col, c'.cell? s col = c.cell? s col

theorem SameCells.refl (c : Cache (Cell α)) : SameCells c c := ⟨.refl c, fun _ _ => rfl⟩

theorem cell?_none {s col : ℕ} (h : ¬s < c.seqLen) : c.cell? s col = none := if_neg h

/-- The same rows written to the same place, or no tokens written. -/
theorem Written.sameCells {first' : ℕ} {c₁' : Cache (Cell α)} (hheads : 0 < cfg.attentionHeads)
    (hpos : 0 < c.seqLen) (hsame : SameCells c c')
    (h : Written cfg new headsPerRow position first start stop c c₁)
    (h' : Written cfg new headsPerRow position first' start stop c' c₁')
    (hplaced : first = first' ∨ new.sNew = 0) : SameCells c₁ c₁' where
  shape := ⟨(h'.shape.seqLen.trans hsame.shape.seqLen).trans h.shape.seqLen.symm,
    (h'.shape.d.trans hsame.shape.d).trans h.shape.d.symm,
    (h'.shape.bh.trans hsame.shape.bh).trans h.shape.bh.symm⟩
  cells s col := by
    by_cases hs : s < c.seqLen
    · have hcol : col = col / cfg.attentionHeads * cfg.attentionHeads + col % cfg.attentionHeads :=
        (Nat.div_add_mod' col cfg.attentionHeads).symm
      have hhd := Nat.mod_lt col hheads
      rw [hcol, h'.cells _ _ hhd s (hsame.shape.seqLen ▸ hs), h.cells _ _ hhd s hs,
        hsame.shape.seqLen, hsame.cells]
      rcases hplaced with rfl | h0
      · rfl
      · simp only [h0, writtenToken_empty hpos, Option.elim_none, ite_self]
    · rw [cell?_none (by rwa [h'.shape.seqLen, hsame.shape.seqLen]),
        cell?_none (by rwa [h.shape.seqLen])]

end Calls

/-! ### The calls of an update -/

section Update

variable {α : Type} {cfg : BlockConfig} {p : KVMultiplex.Policy} {c c' : Cache (Cell α)}
  {new : NewKvs α} {batchOffset fullBatchSize rows headsPerRow home start stop position : ℕ}

def runBatch (batchOffset fullBatchSize start stop : ℕ) : MicroBatch :=
  ⟨batchOffset + start, fullBatchSize, stop - start⟩

/-- The rows are rows of the batch. A slab with fewer of them has whole working slots, and each has
room for the micro-batch. -/
structure FitsSlab (cfg : BlockConfig) (p : KVMultiplex.Policy) (c : Cache (Cell α))
    (batchOffset fullBatchSize rows headsPerRow : ℕ) : Prop where
  seqLen : 0 < c.seqLen
  headDim : 0 < c.d
  heads : 0 < headsPerRow
  heads_le : headsPerRow ≤ cfg.attentionHeads
  batch : batchOffset + rows ≤ fullBatchSize
  slot : c.batch cfg.attentionHeads < fullBatchSize →
    p.Multiple (c.batch cfg.attentionHeads) ∧ rows ≤ p.workingSlotBatchSize

theorem firstRow_whole (mb : MicroBatch) (hpos : 0 < mb.fullBatchSize)
    (hwhole : mb.fullBatchSize ≤ c.batch cfg.attentionHeads) :
    firstRow cfg p c mb = mb.batchOffset := by
  rw [firstRow, KVMultiplex.writeBatchStart, if_neg hpos.ne', if_neg (Nat.not_lt.mpr hwhole)]

theorem firstRow_slot (mb : MicroBatch) (hslot : c.batch cfg.attentionHeads < mb.fullBatchSize) :
    firstRow cfg p c mb = (c.slot cfg.attentionHeads p mb).batchStart := by
  rw [firstRow, KVMultiplex.writeBatchStart, if_neg (Nat.zero_lt_of_lt hslot).ne', if_pos hslot]

theorem slot_index (cfg : BlockConfig) (p : KVMultiplex.Policy) (c : Cache (Cell α))
    (mb : MicroBatch) :
    ∃ index < p.workingSlotCount (c.batch cfg.attentionHeads),
      (c.slot cfg.attentionHeads p mb).batchStart = index * p.workingSlotBatchSize :=
  ⟨_, Nat.mod_lt _ (KVMultiplex.workingSlotCount_pos p _), rfl⟩

theorem FitsSlab.of_sameShape (h : FitsSlab cfg p c batchOffset fullBatchSize rows headsPerRow)
    (hshape : SameShape c c') : FitsSlab cfg p c' batchOffset fullBatchSize rows headsPerRow where
  seqLen := hshape.seqLen ▸ h.seqLen
  headDim := hshape.d ▸ h.headDim
  heads := h.heads
  heads_le := h.heads_le
  batch := h.batch
  slot := by rw [hshape.batch]; exact h.slot

theorem FitsSlab.room (h : FitsSlab cfg p c batchOffset fullBatchSize rows headsPerRow)
    (hlt : start < stop) (hle : stop ≤ rows) :
    firstRow cfg p c (runBatch batchOffset fullBatchSize start stop) + (stop - start) ≤
      c.batch cfg.attentionHeads := by
  have hbatch := h.batch
  rcases Nat.lt_or_ge (c.batch cfg.attentionHeads) fullBatchSize with hslot | hwhole
  · obtain ⟨index, hindex, hstart⟩ :=
      slot_index cfg p c (runBatch batchOffset fullBatchSize start stop)
    obtain ⟨hmultiple, hrows⟩ := h.slot hslot
    have hend := KVMultiplex.slot_end_le hmultiple hindex
    rw [firstRow_slot (runBatch batchOffset fullBatchSize start stop) hslot, hstart]
    omega
  · have hpos : 0 < fullBatchSize := by omega
    rw [firstRow_whole (runBatch batchOffset fullBatchSize start stop) hpos hwhole]
    simp only [runBatch]
    omega

/-- New keys and values of the rows, which the slab has a place for from `home` on. -/
structure Ready (cfg : BlockConfig) (p : KVMultiplex.Policy) (c : Cache (Cell α)) (new : NewKvs α)
    (batchOffset fullBatchSize rows headsPerRow home : ℕ) : Prop where
  fits : FitsSlab cfg p c batchOffset fullBatchSize rows headsPerRow
  bh : new.bh = rows * headsPerRow
  headDim : new.d = c.d
  home : home + rows ≤ c.batch cfg.attentionHeads

section Ready

variable (h : Ready cfg p c new batchOffset fullBatchSize rows headsPerRow home)

include h

theorem Ready.attentionHeads : 0 < cfg.attentionHeads := h.fits.heads.trans_le h.fits.heads_le

theorem Ready.of_sameShape (hshape : SameShape c c') :
    Ready cfg p c' new batchOffset fullBatchSize rows headsPerRow home where
  fits := h.fits.of_sameShape hshape
  bh := h.bh
  headDim := h.headDim.trans hshape.d.symm
  home := by rw [hshape.batch]; exact h.home

theorem Ready.takesRun (hlt : start < stop) (hle : stop ≤ rows) :
    Takes cfg p c (runBatch batchOffset fullBatchSize start stop) new headsPerRow start stop where
  seqLen := h.fits.seqLen
  heads := h.fits.heads
  heads_le := h.fits.heads_le
  headDim := h.headDim
  lt := hlt
  bh := sliceRows_bh h.bh hle
  fullBatchSize := by
    have := h.fits.batch
    change 0 < fullBatchSize
    omega
  microBatchSize := rfl
  room := h.fits.room hlt hle

theorem Ready.takesRow {row : ℕ} (hrow : row < rows) :
    let mb : MicroBatch := ⟨home + row, c.batch cfg.attentionHeads, 1⟩
    firstRow cfg p c mb = home + row ∧ Takes cfg p c mb new headsPerRow row (row + 1) := by
  intro mb
  have hhome := h.home
  have hpos : 0 < c.batch cfg.attentionHeads := by omega
  have hfirst : firstRow cfg p c mb = home + row := firstRow_whole mb hpos (Nat.le_refl _)
  exact ⟨hfirst, h.fits.seqLen, h.fits.heads, h.fits.heads_le, h.headDim, Nat.lt_succ_self row,
    sliceRows_bh h.bh hrow, hpos, (Nat.add_sub_cancel_left ..).symm, by rw [hfirst]; omega⟩

end Ready

/-! ### The loops -/

section Loops

variable {kvs : Tensor α × Tensor α} {c₁ : Cache (Cell α)} {row : ℕ} {e : Raised}
  {restRows : List (ℕ × ℕ)} {run : ℕ × ℕ × ℕ} {runs : List (ℕ × ℕ × ℕ)}

theorem writeRowsAlone_ok
    (hwrite : writeRowAlone cfg p home headsPerRow kvs row position c = (c₁, .ok ())) :
    writeRowsAlone cfg p home headsPerRow kvs ((row, position) :: restRows) c =
      writeRowsAlone cfg p home headsPerRow kvs restRows c₁ := by
  rw [writeRowsAlone, hwrite]

theorem writeRowsAlone_error
    (hwrite : writeRowAlone cfg p home headsPerRow kvs row position c = (c₁, .error e)) :
    writeRowsAlone cfg p home headsPerRow kvs ((row, position) :: restRows) c =
      (c₁, .error e) := by
  rw [writeRowsAlone, hwrite]

theorem writeRowsAlone_append (firstRows : List (ℕ × ℕ)) (c : Cache (Cell α))
    (hwrite : writeRowsAlone cfg p home headsPerRow kvs firstRows c = (c₁, .ok ())) :
    writeRowsAlone cfg p home headsPerRow kvs (firstRows ++ restRows) c =
      writeRowsAlone cfg p home headsPerRow kvs restRows c₁ := by
  induction firstRows generalizing c with
  | nil =>
    cases hwrite
    rfl
  | cons head firstRows ih =>
    obtain ⟨row, position⟩ := head
    rcases hrow : writeRowAlone cfg p home headsPerRow kvs row position c with ⟨c₂, e | ⟨⟩⟩
    · rw [writeRowsAlone_error hrow] at hwrite
      cases hwrite
    · rw [writeRowsAlone_ok hrow] at hwrite
      rw [List.cons_append, writeRowsAlone_ok hrow, ih c₂ hwrite]

theorem writeRowRuns_ok
    (hwrite : writeKvs cfg p c run.2.2 (runBatch batchOffset fullBatchSize run.1 run.2.1)
      (sliceKvRows kvs run.1 run.2.1 headsPerRow) = (c₁, .ok ())) :
    writeRowRuns cfg p batchOffset fullBatchSize headsPerRow kvs (run :: runs) c =
      writeRowRuns cfg p batchOffset fullBatchSize headsPerRow kvs runs c₁ := by
  obtain ⟨start, stop, position⟩ := run
  rw [runBatch] at hwrite
  simp only [writeRowRuns, hwrite]

theorem writeRowRuns_error
    (hwrite : writeKvs cfg p c run.2.2 (runBatch batchOffset fullBatchSize run.1 run.2.1)
      (sliceKvRows kvs run.1 run.2.1 headsPerRow) = (c₁, .error e)) :
    writeRowRuns cfg p batchOffset fullBatchSize headsPerRow kvs (run :: runs) c =
      (c₁, .error e) := by
  obtain ⟨start, stop, position⟩ := run
  rw [runBatch] at hwrite
  simp only [writeRowRuns, hwrite]

theorem writeRowsAlone_run
    (h : Ready cfg p c new batchOffset fullBatchSize rows headsPerRow home)
    (hok : ¬Raises c.seqLen new.sNew position) (hle : start ≤ stop) (hstop : stop ≤ rows) :
    ∃ c', writeRowsAlone cfg p home headsPerRow (tensors new)
        (rowsOfRun (start, stop, position)) c = (c', .ok ()) ∧
      Written cfg new headsPerRow position (home + start) start stop c c' := by
  induction stop, hle using Nat.le_induction with
  | base =>
    refine ⟨c, ?_, .refl c⟩
    rw [rowsOfRun, Nat.sub_self]
    rfl
  | succ stop hle ih =>
    obtain ⟨c₁, hwrite, hwritten⟩ := ih (Nat.le_of_succ_le hstop)
    have hshape := hwritten.shape
    obtain ⟨hfirst, htakes⟩ := (h.of_sameShape hshape).takesRow hstop
    obtain ⟨c₂, hrow, hrowWritten⟩ := htakes.written (by rwa [hshape.seqLen])
    rw [hfirst, show home + stop = home + start + (stop - start) by omega] at hrowWritten
    refine ⟨c₂, ?_, hwritten.append hle (Nat.le_succ stop) hrowWritten⟩
    rw [rowsOfRun_succ hle, writeRowsAlone_append _ c hwrite, writeRowsAlone_ok hrow]
    rfl

def SameOutcome (r r' : Cache (Cell α) × Except Raised Unit) : Prop :=
  r.2 = r'.2 ∧ SameCells r.1 r'.1

/-- Runs that are at their place, up to the first that raises, leave what their rows leave. -/
theorem writeRowRuns_rowsAlone (runs : List (ℕ × ℕ × ℕ))
    (hbounds : ∀ q ∈ runs, q.1 < q.2.1 ∧ q.2.1 ≤ rows)
    (h : Ready cfg p c new batchOffset fullBatchSize rows headsPerRow home) (hsame : SameCells c c')
    (hplaced : ∀ before q after, runs = before ++ q :: after →
      (∀ q' ∈ before ++ [q], ¬Raises c.seqLen new.sNew q'.2.2) →
      firstRow cfg p c (runBatch batchOffset fullBatchSize q.1 q.2.1) = home + q.1 ∨
        new.sNew = 0) :
    SameOutcome
      (writeRowRuns cfg p batchOffset fullBatchSize headsPerRow (tensors new) runs c)
      (writeRowsAlone cfg p home headsPerRow (tensors new) (runs.flatMap rowsOfRun) c') := by
  induction runs generalizing c c' with
  | nil => exact ⟨rfl, hsame⟩
  | cons q runs ih =>
    obtain ⟨hlt, hle⟩ := hbounds q List.mem_cons_self
    have htakes := h.takesRun hlt hle
    have h' := h.of_sameShape hsame.shape
    rw [List.flatMap_cons]
    by_cases hraises : Raises c.seqLen new.sNew q.2.2
    · -- the first row of the run raises too
      have hfirstRow : rowsOfRun q = (q.1, q.2.2) :: rowsOfRun (q.1 + 1, q.2.1, q.2.2) := by
        rw [rowsOfRun, show q.2.1 - q.1 = q.2.1 - (q.1 + 1) + 1 by omega, List.range'_succ]
        rfl
      obtain ⟨-, htakesRow⟩ := h'.takesRow (Nat.lt_of_lt_of_le hlt hle)
      rw [writeRowRuns_error (htakes.raises hraises), hfirstRow, List.cons_append,
        writeRowsAlone_error (htakesRow.raises (by rwa [hsame.shape.seqLen]))]
      exact ⟨rfl, hsame⟩
    · obtain ⟨c₁, hwrite, hwritten⟩ := htakes.written hraises
      have hraises' : ¬Raises c'.seqLen new.sNew q.2.2 := by rwa [hsame.shape.seqLen]
      obtain ⟨c₁', hrows, hrowsWritten⟩ := writeRowsAlone_run h' hraises' hlt.le hle
      have hsame₁ : SameCells c₁ c₁' := hwritten.sameCells h.attentionHeads h.fits.seqLen hsame
        hrowsWritten (hplaced [] q runs rfl fun q' hq' => by
          rw [List.nil_append, List.mem_singleton] at hq'
          rwa [hq'])
      rw [writeRowRuns_ok hwrite, writeRowsAlone_append _ c' hrows]
      have hshape := hwritten.shape
      refine ih (fun q' hq' => hbounds q' (List.mem_cons_of_mem q hq')) (h.of_sameShape hshape)
        hsame₁ fun before q' after hsplit hok => ?_
      rw [hshape.firstRow]
      refine hplaced (q :: before) q' after (by rw [hsplit]; rfl) fun q'' hq'' => ?_
      rcases List.mem_cons.mp hq'' with rfl | hq''
      · exact hraises
      · rw [← hshape.seqLen]
        exact hok q'' hq''

/-! ### A run that is out of place -/

theorem Written.kept {first b s : ℕ}
    (hwritten : Written cfg new headsPerRow position first start stop c c₁)
    (hheads : 0 < cfg.attentionHeads) (hs : s < c.seqLen)
    (hout : ¬(first ≤ b ∧ b < first + (stop - start))) :
    c₁.cell? s (b * cfg.attentionHeads) = c.cell? s (b * cfg.attentionHeads) := by
  have hcell := hwritten.cells b 0 hheads s hs
  rwa [if_neg fun hin => hout ⟨hin.1, hin.2.1⟩] at hcell

theorem writeRowsAlone_kept {s : ℕ} (others : List (ℕ × ℕ))
    (hothers : ∀ r ∈ others, r.1 < rows ∧ r.1 ≠ row)
    (h : Ready cfg p c new batchOffset fullBatchSize rows headsPerRow home) (hs : s < c.seqLen) :
    (writeRowsAlone cfg p home headsPerRow (tensors new) others c).1.cell? s
        ((home + row) * cfg.attentionHeads) =
      c.cell? s ((home + row) * cfg.attentionHeads) := by
  induction others generalizing c with
  | nil => rfl
  | cons r others ih =>
    obtain ⟨other, position⟩ := r
    obtain ⟨hlt, hne⟩ := hothers (other, position) List.mem_cons_self
    obtain ⟨hfirst, htakes⟩ := h.takesRow hlt
    by_cases hraises : Raises c.seqLen new.sNew position
    · rw [writeRowsAlone_error (htakes.raises hraises)]
    · obtain ⟨c₁, hwrite, hwritten⟩ := htakes.written hraises
      have hshape := hwritten.shape
      have hout : ¬(home + other ≤ home + row ∧
          home + row < home + other + (other + 1 - other)) := by
        have : other ≠ row := hne
        omega
      rw [writeRowsAlone_ok hwrite, ih (fun r hr => hothers r (List.mem_cons_of_mem _ hr))
        (h.of_sameShape hshape) (by rwa [hshape.seqLen]),
        hwritten.kept h.attentionHeads hs (by rwa [hfirst])]

/-- A row has its token when no row before it raises. -/
theorem writeRowsAlone_cell {s t : ℕ} (all : List (ℕ × ℕ))
    (hsorted : all.Pairwise fun r r' => r.1 < r'.1) (hbounds : ∀ r ∈ all, r.1 < rows)
    (hmem : (row, position) ∈ all)
    (h : Ready cfg p c new batchOffset fullBatchSize rows headsPerRow home) (hs : s < c.seqLen)
    (hok : ∀ r ∈ all, r.1 ≤ row → ¬Raises c.seqLen new.sNew r.2)
    (htoken : writtenToken c.seqLen new.sNew position s = some t) :
    (writeRowsAlone cfg p home headsPerRow (tensors new) all c).1.cell? s
        ((home + row) * cfg.attentionHeads) =
      some ((block new).data t (row * headsPerRow)) := by
  induction all generalizing c with
  | nil => cases hmem
  | cons r all ih =>
    obtain ⟨hbefore, hsorted⟩ := List.pairwise_cons.mp hsorted
    have hle : r.1 ≤ row := by
      rcases List.mem_cons.mp hmem with rfl | hmem
      · exact Nat.le_refl _
      · exact (hbefore _ hmem).le
    have hrow : r.1 < rows := hbounds r List.mem_cons_self
    obtain ⟨hfirst, htakes⟩ := h.takesRow hrow
    obtain ⟨c₁, hwrite, hwritten⟩ := htakes.written (hok r List.mem_cons_self hle)
    have hshape := hwritten.shape
    have h₁ := h.of_sameShape hshape
    have hs₁ : s < c₁.seqLen := by rwa [hshape.seqLen]
    rw [writeRowsAlone_ok hwrite]
    rcases List.mem_cons.mp hmem with rfl | hmem
    · have hcell := hwritten.cells (home + row) 0 h.attentionHeads s hs
      rw [hfirst, if_pos ⟨Nat.le_refl _, by omega, h.fits.heads⟩, htoken, Option.elim_some,
        Nat.sub_self] at hcell
      rw [writeRowsAlone_kept all (fun r hr => ⟨hbounds r (List.mem_cons_of_mem _ hr),
        (hbefore r hr).ne'⟩) h₁ hs₁]
      exact hcell
    · refine ih hsorted (fun r hr => hbounds r (List.mem_cons_of_mem _ hr)) hmem h₁ hs₁
        (fun r hr hle => ?_) (by rwa [hshape.seqLen])
      rw [hshape.seqLen]
      exact hok r (List.mem_cons_of_mem _ hr) hle

def HasKey (c : Cache (Cell α)) (s col : ℕ) (v : α) : Prop :=
  ∃ x, c.cell? s col = some x ∧ x.key 0 = v

/-- Runs that do not bring row `row` to the batch row `b` leave there what all other rows have. -/
theorem writeRowRuns_hasKey {b s : ℕ} {v : α}
    (hother : ∀ r ≠ row, ∀ t, new.key (r * headsPerRow) 0 t = v) (runs : List (ℕ × ℕ × ℕ))
    (hbounds : ∀ q ∈ runs, q.1 < q.2.1 ∧ q.2.1 ≤ rows)
    (h : Ready cfg p c new batchOffset fullBatchSize rows headsPerRow home) (hs : s < c.seqLen)
    (hnot : ∀ q ∈ runs,
      let first := firstRow cfg p c (runBatch batchOffset fullBatchSize q.1 q.2.1)
      first ≤ b → b < first + (q.2.1 - q.1) → q.1 + (b - first) ≠ row)
    (hkey : HasKey c s (b * cfg.attentionHeads) v) :
    HasKey (writeRowRuns cfg p batchOffset fullBatchSize headsPerRow (tensors new) runs c).1 s
      (b * cfg.attentionHeads) v := by
  induction runs generalizing c with
  | nil => exact hkey
  | cons q runs ih =>
    obtain ⟨hlt, hle⟩ := hbounds q List.mem_cons_self
    have htakes := h.takesRun hlt hle
    by_cases hraises : Raises c.seqLen new.sNew q.2.2
    · rw [writeRowRuns_error (htakes.raises hraises)]
      exact hkey
    · obtain ⟨c₁, hwrite, hwritten⟩ := htakes.written hraises
      have hshape := hwritten.shape
      rw [writeRowRuns_ok hwrite]
      refine ih (fun q' hq' => hbounds q' (List.mem_cons_of_mem q hq')) (h.of_sameShape hshape)
        (by rwa [hshape.seqLen]) (fun q' hq' => ?_) ?_
      · rw [hshape.firstRow]
        exact hnot q' (List.mem_cons_of_mem q hq')
      · have hcell := hwritten.cells b 0 h.attentionHeads s hs
        rw [HasKey, show b * cfg.attentionHeads = b * cfg.attentionHeads + 0 from rfl, hcell]
        split_ifs with hin
        · rcases writtenToken c.seqLen new.sNew q.2.2 s with - | t
          · exact hkey
          · exact ⟨_, rfl, hother _ (hnot q List.mem_cons_self hin.1 hin.2.1) t⟩
        · exact hkey

end Loops

end Update

end BloomBee.KVSlab
