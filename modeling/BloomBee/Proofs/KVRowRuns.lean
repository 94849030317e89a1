import BloomBee.Sanity.KVRowCalls
import BloomBee.Sanity.LiveDecode

/-! Where the writes of the runs of active rows leave the slab as the rows would that are written
one by one: with the whole batch in the slab always, and in a working slot for a run at its first
row only. -/

set_option autoImplicit false

namespace BloomBee.KVSlab

open LiveDecode (IsRun RunsExact activeMaskList activePositionRowRuns
  activePositionRowRuns_activeRowPositions activeRowPositions activeRowPositions_sorted
  batchAligned_length mem_activePositionRowRuns mem_runs mem_runs_iff mem_zip rowPositionList
  runsExact separated_or separated_runs)
open PagedKV (BlockConfig NewKvs)

/-! ### The update -/

section Finalize

variable {α : Type} {cfg : BlockConfig} {p : KVMultiplex.Policy} {c : Cache (Cell α)}
  {new : NewKvs α} {headsPerRow sNew cacheLen : ℕ} {info : UpdateInfo} {mask : List Bool}

def UpdateInfo.firstRows (info : UpdateInfo) (n : ℕ) : MicroBatch :=
  ⟨info.microBatch.batchOffset, info.fullBatchSize, n⟩

def UpdateInfo.home (info : UpdateInfo) (cfg : BlockConfig) (p : KVMultiplex.Policy)
    (c : Cache (Cell α)) : ℕ :=
  firstRow cfg p c (info.firstRows info.expectedBatch)

/-- The update raises what its active rows do when they are written one by one, each at its own
position and in its own batch row, and leaves the numbers that they leave. -/
def AsRowsAlone (cfg : BlockConfig) (p : KVMultiplex.Policy) (c : Cache (Cell α))
    (headsPerRow sNew cacheLen : ℕ) (info : UpdateInfo) (mask : List Bool) : Prop :=
  ∀ new : NewKvs α, HasShape new (info.expectedBatch * headsPerRow) c.d sNew →
    let updated := finalizeCacheUpdate cfg p c (tensors new) cacheLen info
    let alone := writeRowsAlone cfg p (info.home cfg p c) headsPerRow (tensors new)
      (activeRowPositions 0 (mask.zip (info.positions cacheLen))) c
    updated.2 = alone.2 ∧
      ∀ s col e, e < c.d → updated.1.number? s col e = alone.1.number? s col e

/-- The slab has the whole batch, or there is nothing to write, or the rows that are active and
written before a write raises are the first ones, all at one position and in the working slot of
the micro-batch. -/
def InPlace (cfg : BlockConfig) (p : KVMultiplex.Policy) (c : Cache (Cell α))
    (sNew cacheLen : ℕ) (info : UpdateInfo) (mask : List Bool) : Prop :=
  info.fullBatchSize ≤ c.batch cfg.attentionHeads ∨ sNew = 0 ∨
    ∀ start stop position, IsRun mask (info.positions cacheLen) start stop position →
      (∀ row < stop, ∀ position, mask[row]? = some true →
        (info.positions cacheLen)[row]? = some position → ¬Raises c.seqLen sNew position) →
      start = 0 ∧
        (c.slot cfg.attentionHeads p (info.firstRows stop)).batchStart =
          (c.slot cfg.attentionHeads p (info.firstRows info.expectedBatch)).batchStart

abbrev UpdateFits (cfg : BlockConfig) (p : KVMultiplex.Policy) (c : Cache (Cell α))
    (headsPerRow : ℕ) (info : UpdateInfo) : Prop :=
  FitsSlab cfg p c info.microBatch.batchOffset info.fullBatchSize info.expectedBatch headsPerRow

theorem positions_length (info : UpdateInfo) (cacheLen : ℕ) :
    (info.positions cacheLen).length = info.expectedBatch := by
  rw [UpdateInfo.positions]
  cases h : rowPositionList info.prefillLength info.expectedBatch with
  | none => exact List.length_replicate
  | some positions => exact (batchAligned_length h).2

/-- An update with an active mask is the loop over its runs. -/
theorem finalizeCacheUpdate_eq
    (hmask : activeMaskList info.activeMask info.expectedBatch = some mask)
    (hheads : 0 < headsPerRow) (hbh : new.bh = info.expectedBatch * headsPerRow) :
    finalizeCacheUpdate cfg p c (tensors new) cacheLen info =
      writeRowRuns cfg p info.microBatch.batchOffset info.fullBatchSize headsPerRow (tensors new)
        (activePositionRowRuns mask (info.positions cacheLen)) c := by
  have hrows := (batchAligned_length hmask).1
  have hshape : (tensors new).1.shape.headD 0 = info.expectedBatch * headsPerRow := hbh
  simp only [finalizeCacheUpdate, hmask, hshape]
  rw [if_pos ⟨Nat.mul_pos hrows hheads, hrows, Nat.mul_mod_right ..⟩,
    Nat.mul_div_cancel_left _ hrows]

theorem home_room (h : UpdateFits cfg p c headsPerRow info) (hrows : 0 < info.expectedBatch) :
    info.home cfg p c + info.expectedBatch ≤ c.batch cfg.attentionHeads := by
  have hroom := h.room hrows (Nat.le_refl _)
  rwa [runBatch, Nat.add_zero, Nat.sub_zero] at hroom

theorem ready (h : UpdateFits cfg p c headsPerRow info) (hrows : 0 < info.expectedBatch)
    (hbh : new.bh = info.expectedBatch * headsPerRow) (hd : new.d = c.d) :
    Ready cfg p c new info.microBatch.batchOffset info.fullBatchSize info.expectedBatch headsPerRow
      (info.home cfg p c) where
  fits := h
  bh := hbh
  headDim := hd
  home := home_room h hrows

/-- A slab with the whole batch has every run at its place. -/
theorem firstRow_eq_home (h : UpdateFits cfg p c headsPerRow info)
    (hwhole : info.fullBatchSize ≤ c.batch cfg.attentionHeads) {start stop : ℕ} (hlt : start < stop)
    (hle : stop ≤ info.expectedBatch) :
    firstRow cfg p c (runBatch info.microBatch.batchOffset info.fullBatchSize start stop) =
      info.home cfg p c + start := by
  have hbatch := h.batch
  have hpos : 0 < info.fullBatchSize := by omega
  rw [UpdateInfo.home, firstRow_whole (info.firstRows info.expectedBatch) hpos hwhole]
  exact firstRow_whole (runBatch _ _ start stop) hpos hwhole

/-- In a working slot only the first rows are at their place. -/
theorem firstRow_eq_home_iff (h : UpdateFits cfg p c headsPerRow info)
    (hslot : c.batch cfg.attentionHeads < info.fullBatchSize) {start stop : ℕ} (hlt : start < stop)
    (hle : stop ≤ info.expectedBatch) :
    firstRow cfg p c (runBatch info.microBatch.batchOffset info.fullBatchSize start stop) =
        info.home cfg p c + start ↔
      start = 0 ∧
        (c.slot cfg.attentionHeads p (info.firstRows stop)).batchStart =
          (c.slot cfg.attentionHeads p (info.firstRows info.expectedBatch)).batchStart := by
  rw [UpdateInfo.home,
    firstRow_slot (runBatch info.microBatch.batchOffset info.fullBatchSize start stop) hslot,
    firstRow_slot (info.firstRows info.expectedBatch) hslot]
  constructor
  · intro heq
    obtain ⟨index, -, hindex⟩ := slot_index cfg p c
      (runBatch info.microBatch.batchOffset info.fullBatchSize start stop)
    obtain ⟨index', -, hindex'⟩ := slot_index cfg p c
      (info.firstRows info.expectedBatch)
    have hstart : start < p.workingSlotBatchSize :=
      hlt.trans_le (hle.trans (h.slot hslot).2)
    obtain rfl : start = 0 := by
      rw [hindex, hindex'] at heq
      exact (col_inj (Nat.zero_lt_of_lt hstart) hstart heq).2.symm
    exact ⟨rfl, heq⟩
  · rintro ⟨rfl, heq⟩
    exact heq

theorem runs_bounds (hmask : activeMaskList info.activeMask info.expectedBatch = some mask) :
    ∀ q ∈ activePositionRowRuns mask (info.positions cacheLen),
      q.1 < q.2.1 ∧ q.2.1 ≤ info.expectedBatch := fun _ hq =>
  (batchAligned_length hmask).2 ▸ (mem_activePositionRowRuns hq).2

def markedKvs (bh d sNew col : ℕ) (mark v : α) : NewKvs α where
  bh := bh
  d := d
  sNew := sNew
  key := fun i _ _ => if i = col then mark else v
  value := fun _ _ _ => v

section InPlace

variable (h : UpdateFits cfg p c headsPerRow info)
  (hmask : activeMaskList info.activeMask info.expectedBatch = some mask)

include h hmask

theorem placed_of_inPlace (hplace : InPlace cfg p c sNew cacheLen info mask)
    {before after : List (ℕ × ℕ × ℕ)} {q : ℕ × ℕ × ℕ}
    (hsplit : activePositionRowRuns mask (info.positions cacheLen) = before ++ q :: after)
    (hok : ∀ q' ∈ before ++ [q], ¬Raises c.seqLen sNew q'.2.2) :
    firstRow cfg p c (runBatch info.microBatch.batchOffset info.fullBatchSize q.1 q.2.1) =
      info.home cfg p c + q.1 ∨ sNew = 0 := by
  have hq : q ∈ activePositionRowRuns mask (info.positions cacheLen) := by
    rw [hsplit]
    exact List.mem_append_right _ List.mem_cons_self
  obtain ⟨hlt, hle⟩ := runs_bounds hmask q hq
  rcases Nat.lt_or_ge (c.batch cfg.attentionHeads) info.fullBatchSize with hslot | hwhole
  · refine (or_iff_right (Nat.not_le.mpr hslot)).mp hplace |>.symm.imp_left fun hfirst => ?_
    refine (firstRow_eq_home_iff h hslot hlt hle).mpr
      (hfirst q.1 q.2.1 q.2.2 (mem_runs_iff.mp hq) fun row hrow position hactive hposition => ?_)
    -- the row is in a run that is not behind `q`
    obtain ⟨q', hq', hle', hlt', rfl⟩ := mem_runs.mpr ⟨hactive, hposition⟩
    have hsep := separated_runs mask (info.positions cacheLen)
    rw [hsplit] at hq' hsep
    rcases List.mem_append.mp hq' with hq' | hq'
    · exact hok q' (List.mem_append_left _ hq')
    · rcases List.mem_cons.mp hq' with rfl | hq'
      · exact hok q' (List.mem_append_right _ (List.mem_singleton_self q'))
      · have hbehind := List.rel_of_pairwise_cons (List.pairwise_append.mp hsep).2.1 hq'
        rcases hbehind with hbehind | hbehind <;> omega
  · exact .inl (firstRow_eq_home h hwhole hlt hle)

theorem asRowsAlone_of_inPlace (hplace : InPlace cfg p c sNew cacheLen info mask) :
    AsRowsAlone cfg p c headsPerRow sNew cacheLen info mask := by
  rintro new ⟨hbh, hd, rfl⟩
  have houtcome := writeRowRuns_rowsAlone _ (runs_bounds hmask)
    (ready h (batchAligned_length hmask).1 hbh hd) (.refl c)
    fun before q after hsplit hok => placed_of_inPlace h hmask hplace hsplit hok
  rw [finalizeCacheUpdate_eq hmask h.heads hbh, ← activePositionRowRuns_activeRowPositions]
  exact ⟨houtcome.1, fun s col e _ => by rw [Cache.number?, Cache.number?, houtcome.2.cells]⟩

theorem homeCol_lt {row : ℕ} (hrow : row < info.expectedBatch) :
    (info.home cfg p c + row) * cfg.attentionHeads < c.bh := by
  have hroom := home_room h (batchAligned_length hmask).1
  calc (info.home cfg p c + row) * cfg.attentionHeads
      < (info.home cfg p c + info.expectedBatch) * cfg.attentionHeads :=
        (Nat.mul_lt_mul_right (h.heads.trans_le h.heads_le)).mpr (Nat.add_lt_add_left hrow _)
    _ ≤ c.batch cfg.attentionHeads * cfg.attentionHeads := Nat.mul_le_mul_right _ hroom
    _ ≤ c.bh := Nat.div_mul_le_self _ _

section Misplaced

variable {start stop position s t : ℕ}
  (hrun : IsRun mask (info.positions cacheLen) start stop position)
  (hbh : new.bh = info.expectedBatch * headsPerRow) (hd : new.d = c.d) (hs : s < c.seqLen)

include hrun hbh hd hs

/-- The update does not write the first row of a run that is not at its place. -/
theorem finalizeCacheUpdate_hasKey {v : α}
    (hmisplaced : firstRow cfg p c
      (runBatch info.microBatch.batchOffset info.fullBatchSize start stop) ≠
        info.home cfg p c + start)
    (hothers : ∀ r ≠ start, ∀ t, new.key (r * headsPerRow) 0 t = v)
    (hkey : HasKey c s ((info.home cfg p c + start) * cfg.attentionHeads) v) :
    HasKey (finalizeCacheUpdate cfg p c (tensors new) cacheLen info).1 s
      ((info.home cfg p c + start) * cfg.attentionHeads) v := by
  have hlt : start < stop := hrun.lt
  rw [finalizeCacheUpdate_eq hmask h.heads hbh]
  refine writeRowRuns_hasKey hothers _ (runs_bounds hmask)
    (ready h (batchAligned_length hmask).1 hbh hd) hs (fun q hq hfirst hend hrow => ?_) hkey
  rcases separated_or hq (mem_runs_iff (q := (start, stop, position)).mpr hrun)
    with rfl | hsep | hsep
  · dsimp only at hfirst hrow
    omega
  -- the row `start` is in no other run
  · rcases hsep with hsep | hsep <;> dsimp only at hsep <;> omega
  · rcases hsep with hsep | hsep <;> dsimp only at hsep <;> omega

theorem alone_cell
    (hok : ∀ row < stop, ∀ position, mask[row]? = some true →
      (info.positions cacheLen)[row]? = some position → ¬Raises c.seqLen new.sNew position)
    (htoken : writtenToken c.seqLen new.sNew position s = some t) :
    (writeRowsAlone cfg p (info.home cfg p c) headsPerRow (tensors new)
        (activeRowPositions 0 (mask.zip (info.positions cacheLen))) c).1.cell? s
          ((info.home cfg p c + start) * cfg.attentionHeads) =
      some ((block new).data t (start * headsPerRow)) := by
  obtain ⟨hrows, hlen⟩ := batchAligned_length hmask
  refine writeRowsAlone_cell _ (activeRowPositions_sorted _ _) (fun r hr => ?_)
    (mem_zip.mpr (hrun.rows start (Nat.le_refl _) hrun.lt)) (ready h hrows hbh hd) hs
    (fun r hr hle => ?_) htoken
  · obtain ⟨hlt, -⟩ := List.getElem?_eq_some_iff.mp (mem_zip.mp hr).1
    rwa [hlen] at hlt
  · exact hok r.1 (hle.trans_lt hrun.lt) r.2 (mem_zip.mp hr).1 (mem_zip.mp hr).2

end Misplaced

/-- A run that is reached and is not at its place leaves a row without its token. -/
theorem inPlace_of_asRowsAlone [Nontrivial α]
    (halone : AsRowsAlone cfg p c headsPerRow sNew cacheLen info mask) :
    InPlace cfg p c sNew cacheLen info mask := by
  rcases Nat.lt_or_ge (c.batch cfg.attentionHeads) info.fullBatchSize with hslot | hwhole
  swap
  · exact .inl hwhole
  rcases Nat.eq_zero_or_pos sNew with h0 | hnew
  · exact .inr (.inl h0)
  refine .inr (.inr fun start stop position hrun hok => ?_)
  have hle : stop ≤ info.expectedBatch :=
    (runs_bounds hmask _ (mem_runs_iff (q := (start, stop, position)).mpr hrun)).2
  refine (firstRow_eq_home_iff h hslot hrun.lt hle).mp ?_
  by_contra hmisplaced
  -- a position that the row `start` has a token for, and another number than the cell has there
  obtain ⟨hactive, hposition⟩ := hrun.rows start (Nat.le_refl _) hrun.lt
  obtain ⟨s, hs, t, htoken⟩ :=
    exists_writtenToken h.seqLen hnew (hok start hrun.lt position hactive hposition)
  obtain ⟨old, hold⟩ := cell?_isSome hs (homeCol_lt h hmask (hrun.lt.trans_le hle))
  obtain ⟨mark, hmark⟩ := exists_ne (old.key 0)
  let new := markedKvs (info.expectedBatch * headsPerRow) c.d sNew (start * headsPerRow) mark
    (old.key 0)
  have hbh : new.bh = info.expectedBatch * headsPerRow := rfl
  have hd : new.d = c.d := rfl
  have hothers : ∀ r ≠ start, ∀ t, new.key (r * headsPerRow) 0 t = old.key 0 :=
    fun r hr t => if_neg fun heq => hr (Nat.eq_of_mul_eq_mul_right h.heads heq)
  obtain ⟨x, hx, hkey⟩ := finalizeCacheUpdate_hasKey h hmask hrun hbh hd hs
    hmisplaced hothers ⟨old, hold, rfl⟩
  have hnumber := (halone new ⟨rfl, rfl, rfl⟩).2 s
    ((info.home cfg p c + start) * cfg.attentionHeads) 0 h.headDim
  rw [Cache.number?, Cache.number?, hx,
    alone_cell h hmask hrun hbh hd hs hok htoken] at hnumber
  have hkeys : x.key 0 = if start * headsPerRow = start * headsPerRow then mark else old.key 0 :=
    congrArg Prod.fst (Option.some.inj hnumber)
  rw [if_pos rfl, hkey] at hkeys
  exact hmark hkeys.symm

end InPlace

end Finalize

/-- The runs take the active rows apart, and their writes are those of the rows exactly where
`InPlace` holds. -/
theorem finalizeCacheUpdate_asRowsAlone_iff {α : Type} [Nontrivial α] :
    (∀ (mask : List Bool) (positions : List ℕ), mask.length = positions.length →
      RunsExact mask positions (activePositionRowRuns mask positions)) ∧
    ∀ (cfg : BlockConfig) (p : KVMultiplex.Policy) (c : Cache (Cell α))
      (headsPerRow sNew cacheLen : ℕ) (info : UpdateInfo) (mask : List Bool),
      UpdateFits cfg p c headsPerRow info →
      activeMaskList info.activeMask info.expectedBatch = some mask →
      (AsRowsAlone cfg p c headsPerRow sNew cacheLen info mask ↔
        InPlace cfg p c sNew cacheLen info mask) :=
  ⟨fun _ _ hlen => runsExact hlen, fun _ _ _ _ _ _ _ _ h hmask =>
    ⟨inPlace_of_asRowsAlone h hmask, asRowsAlone_of_inPlace h hmask⟩⟩

def secondMicroBatch (mask : List Bool) : UpdateInfo where
  activeMask := some mask
  prefillLength := some [1, 1]
  microBatch := ⟨2, 4, 2⟩

theorem secondMicroBatch_fits (mask : List Bool) :
    UpdateFits { numAttentionHeads := some 1 } ⟨2, 1⟩ (oneSegment 2) 1 (secondMicroBatch mask) where
  seqLen := by decide
  headDim := by decide
  heads := by decide
  heads_le := by decide
  batch := Nat.le_refl 4
  slot _ := ⟨⟨by decide, 1, rfl⟩, Nat.le_refl 2⟩

/-- Two active rows are written to a slot of two rows as they are, one of them only when it is the
first. -/
theorem finalizeCacheUpdate_asRowsAlone_secondMicroBatch :
    RunsExact [true, true] [1, 1] [(0, 2, 1)] ∧
      AsRowsAlone { numAttentionHeads := some 1 } ⟨2, 1⟩ (oneSegment 2) 1 1 1
        (secondMicroBatch [true, true]) [true, true] ∧
      ¬AsRowsAlone { numAttentionHeads := some 1 } ⟨2, 1⟩ (oneSegment 2) 1 1 1
        (secondMicroBatch [false, true]) [false, true] := by
  have hpositions (mask : List Bool) : (secondMicroBatch mask).positions 1 = [1, 1] := by rfl
  refine ⟨finalizeCacheUpdate_asRowsAlone_iff (α := ℕ).1 _ _ rfl,
    (finalizeCacheUpdate_asRowsAlone_iff.2 _ _ _ _ _ _ _ _ (secondMicroBatch_fits _) rfl).mpr ?_,
    fun halone => ?_⟩
  · refine .inr (.inr fun start stop position hrun _ => ?_)
    have hmem := (mem_runs_iff (q := (start, stop, position))).mpr hrun
    rw [hpositions, show activePositionRowRuns [true, true] [1, 1] = [(0, 2, 1)] from rfl,
      List.mem_singleton] at hmem
    cases hmem
    exact ⟨rfl, rfl⟩
  · have hplace := (finalizeCacheUpdate_asRowsAlone_iff.2 _ _ _ _ _ _ _ _
      (secondMicroBatch_fits _) rfl).mp halone
    rcases hplace with hwhole | h0 | hfirst
    · exact absurd hwhole (by decide)
    · cases h0
    · have hmem : ((1, 2, 1) : ℕ × ℕ × ℕ) ∈ activePositionRowRuns [false, true] [1, 1] := by decide
      refine absurd (hfirst 1 2 1 (mem_runs_iff.mp hmem) fun row _ position _ hposition => ?_).1
        Nat.one_ne_zero
      have hone : position = 1 := by
        rcases row with - | - | row <;> cases hposition <;> rfl
      rw [hone]
      decide

/-- The second row of a slot, alone active, is written over the first. -/
theorem finalizeCacheUpdate_overwritesFirstRow :
    ¬AsRowsAlone { numAttentionHeads := some 1 } ⟨2, 1⟩ (oneSegment 2) 1 1 1
      (secondMicroBatch [false, true]) [false, true] := by
  intro halone
  have hnumber := (halone (constantKvs 2 1) ⟨rfl, rfl, rfl⟩).2 1 0 0 (by decide)
  revert hnumber
  decide

end BloomBee.KVSlab