import BloomBee.Sanity.RpcRows
import BloomBee.Spec.KVMultiplex

/-! The slots of a cache whose capacity is a multiple of the slot size are disjoint and full,
and a step of a micro-batch reads and extends its own rows (`microBatchStep_spec`). -/

set_option autoImplicit false

namespace BloomBee.KVMultiplex

open RpcInference

variable {κ : Type}

/-! ### Slots -/

theorem workingSlotBatchSize_pos (p : Policy) : 0 < p.workingSlotBatchSize :=
  lt_of_lt_of_le Nat.zero_lt_one (le_max_left _ _)

theorem microBatchRows_le (p : Policy) (batchSize i : ℕ) :
    p.microBatchRows batchSize i ≤ p.workingSlotBatchSize := min_le_left _ _

theorem microBatchRows_pos {p : Policy} {batchSize i : ℕ}
    (hi : i * p.workingSlotBatchSize < batchSize) : 0 < p.microBatchRows batchSize i :=
  lt_min (workingSlotBatchSize_pos p) (by omega)

theorem microBatchRows_add_le {p : Policy} {batchSize i : ℕ}
    (hi : i * p.workingSlotBatchSize < batchSize) :
    i * p.workingSlotBatchSize + p.microBatchRows batchSize i ≤ batchSize := by
  have := min_le_right p.workingSlotBatchSize (batchSize - i * p.workingSlotBatchSize)
  unfold Policy.microBatchRows
  omega

/-- Both the full micro-batches and a short tail are numbered by the policy's size. -/
theorem computeMicrobatchIndex_policy {p : Policy} {batchSize i : ℕ}
    (hi : i * p.workingSlotBatchSize < batchSize) :
    p.computeMicrobatchIndex (i * p.workingSlotBatchSize) (p.microBatchRows batchSize i)
      batchSize = i := by
  have hpos := microBatchRows_pos hi
  have hdiv : i * p.workingSlotBatchSize / p.workingSlotBatchSize = i :=
    Nat.mul_div_cancel _ (workingSlotBatchSize_pos p)
  have hmax : max 1 (max 1 p.gpuBatchSize) = p.workingSlotBatchSize := by
    unfold Policy.workingSlotBatchSize; omega
  rw [Policy.computeMicrobatchIndex, if_pos hpos, if_neg, hmax, hdiv]
  rintro ⟨hne, htail⟩
  -- a size other than the policy's can only be what is left of the batch
  refine htail ⟨by omega, lt_of_le_of_ne (microBatchRows_le p batchSize i) hne, ?_⟩
  change p.microBatchRows batchSize i ≠ p.workingSlotBatchSize at hne
  unfold Policy.microBatchRows at hne ⊢
  omega

theorem workingSlotCount_pos (p : Policy) (capacity : ℕ) : 0 < p.workingSlotCount capacity := by
  unfold Policy.workingSlotCount
  split
  · exact Nat.zero_lt_one
  · exact lt_of_lt_of_le Nat.zero_lt_one (le_max_left _ _)

theorem slot_end_le {p : Policy} {capacity slot : ℕ} (hcap : p.Multiple capacity)
    (hslot : slot < p.workingSlotCount capacity) :
    slot * p.workingSlotBatchSize + p.workingSlotBatchSize ≤ capacity := by
  obtain ⟨hpos, k, rfl⟩ := hcap
  have hw := workingSlotBatchSize_pos p
  have hk : 0 < k := Nat.pos_of_mul_pos_left hpos
  have hdiv : (p.workingSlotBatchSize * k + p.workingSlotBatchSize - 1) / p.workingSlotBatchSize
      = k := by
    rw [Nat.add_sub_assoc hw, Nat.mul_add_div hw,
      Nat.div_eq_of_lt (Nat.sub_lt hw Nat.zero_lt_one), Nat.add_zero]
  have hle : slot + 1 ≤ k := by
    rw [Policy.workingSlotCount, if_neg (by omega), hdiv] at hslot
    omega
  calc slot * p.workingSlotBatchSize + p.workingSlotBatchSize
      = p.workingSlotBatchSize * (slot + 1) := by rw [Nat.mul_comm, Nat.mul_succ]
    _ ≤ p.workingSlotBatchSize * k := Nat.mul_le_mul_left _ hle

/-- Where micro-batch `i` works when `rows` is its size. -/
theorem resolveWorkingSlot_of_multiple {p : Policy} {capacity : ℕ} (hcap : p.Multiple capacity)
    (i : ℕ) {rows : ℕ} (hpos : 0 < rows) (hle : rows ≤ p.workingSlotBatchSize) :
    p.resolveWorkingSlot i capacity rows =
      ⟨i % p.workingSlotCount capacity,
        i % p.workingSlotCount capacity * p.workingSlotBatchSize, rows⟩ := by
  have hend := slot_end_le hcap (Nat.mod_lt i (workingSlotCount_pos p capacity))
  simp only [Policy.resolveWorkingSlot, WorkingSlot.mk.injEq, true_and]
  rw [if_neg (by omega)]
  omega

theorem slot_disjoint {w s s' r r' : ℕ} (hne : s ≠ s') (hr : r < w) (hr' : r' < w) :
    s * w + r ≠ s' * w + r' := by
  intro h
  apply hne
  have h1 : (s * w + r) / w = s := by
    rw [Nat.mul_comm, Nat.mul_add_div (by omega), Nat.div_eq_of_lt hr, Nat.add_zero]
  have h2 : (s' * w + r') / w = s' := by
    rw [Nat.mul_comm, Nat.mul_add_div (by omega), Nat.div_eq_of_lt hr', Nat.add_zero]
  rw [← h1, ← h2, h]

/-! ### Rows -/

theorem extend_rows_length {b b' : Batch κ} (h : b.rows.length = b'.rows.length) :
    (extend b b').rows.length = b.rows.length := by
  simp [extend, h]

theorem map_range_eq {α : Type} {f : ℕ → α} {l : List α} (h : ∀ i (hi : i < l.length), f i = l[i]) :
    (List.range l.length).map f = l := by
  apply List.ext_getElem (by simp)
  intro i _ hi
  rw [List.getElem_map, List.getElem_range, h i hi]

/-- The rows of the cache from `batchStart` on begin with the rows of `b`. -/
def Holds (c : CacheTensor κ) (batchStart : ℕ) (b : Batch κ) : Prop :=
  ∀ r row, b.rows[r]? = some row → (List.range b.width).map (c.cell (batchStart + r)) = row

theorem readRows_of_holds {c : CacheTensor κ} {batchStart : ℕ} {b : Batch κ}
    (h : Holds c batchStart b) :
    c.readRows batchStart (batchStart + b.rows.length) b.width = b.rows := by
  rw [CacheTensor.readRows, Nat.add_sub_cancel_left]
  exact map_range_eq fun r hr => h r _ (List.getElem?_eq_getElem hr)

theorem holds_of_cells {c c' : CacheTensor κ} {batchStart : ℕ} {b : Batch κ}
    (h : Holds c batchStart b)
    (hc : ∀ r < b.rows.length, ∀ pos, c'.cell (batchStart + r) pos = c.cell (batchStart + r) pos) :
    Holds c' batchStart b := by
  intro r row hr
  obtain ⟨hlt, -⟩ := List.getElem?_eq_some_iff.mp hr
  rw [← h r row hr]
  exact List.map_congr_left fun pos _ => hc r hlt pos

theorem putRows_cell_of_lt (c : CacheTensor κ) {batchStart b : ℕ} (rows : List (ℕ × List κ))
    (hb : b < batchStart ∨ batchStart + rows.length ≤ b) (pos : ℕ) :
    (c.putRows batchStart rows).cell b pos = c.cell b pos := by
  simp only [CacheTensor.putRows]
  split
  · rw [List.getElem?_eq_none (by omega)]
  · rfl

theorem putRows_cell_add (c : CacheTensor κ) (batchStart : ℕ) {rows : List (ℕ × List κ)} {r : ℕ}
    {start : ℕ} {slots : List κ} (hr : rows[r]? = some (start, slots)) (pos : ℕ) :
    (c.putRows batchStart rows).cell (batchStart + r) pos =
      if start ≤ pos then slots.getD (pos - start) (c.cell (batchStart + r) pos)
      else c.cell (batchStart + r) pos := by
  simp only [CacheTensor.putRows, Nat.le_add_right, if_true, Nat.add_sub_cancel_left, hr]

theorem putRows_slots (c : CacheTensor κ) (batchStart : ℕ) {rows : List (ℕ × List κ)} {r : ℕ}
    {start : ℕ} {slots : List κ} (hr : rows[r]? = some (start, slots)) :
    (List.range slots.length).map
      (fun i => (c.putRows batchStart rows).cell (batchStart + r) (start + i)) = slots := by
  apply map_range_eq
  intro i hi
  rw [putRows_cell_add c batchStart hr, if_pos (Nat.le_add_right _ _), Nat.add_sub_cancel_left,
    List.getD_eq_getElem?_getD, List.getElem?_eq_getElem hi, Option.getD_some]

theorem holds_putRows_zero (c : CacheTensor κ) (batchStart : ℕ) (b : Batch κ) :
    Holds (c.putRows batchStart (b.rows.map fun r => (0, r))) batchStart b := by
  intro r row hr
  have hat : (b.rows.map fun r => (0, r))[r]? = some (0, row) := by
    rw [List.getElem?_map, hr]; rfl
  rw [← b.rows_width row (List.mem_of_getElem? hr)]
  simpa using putRows_slots c batchStart hat

/-- New rows at the end of the rows that are there. -/
theorem holds_putRows {c : CacheTensor κ} {batchStart : ℕ} {b : Batch κ}
    (h : Holds c batchStart b) (b' : Batch κ) :
    Holds (c.putRows batchStart (b'.rows.map fun r => (b.width, r))) batchStart (extend b b') := by
  intro r row hr
  obtain ⟨x, y, hx, hy, rfl⟩ := List.getElem?_zipWith_eq_some.mp hr
  have hat : (b'.rows.map fun r => (b.width, r))[r]? = some (b.width, y) := by
    rw [List.getElem?_map, hy]; rfl
  change (List.range (b.width + b'.width)).map _ = _
  rw [List.range_add, List.map_append, List.map_map]
  congr 1
  · rw [← h r x hx]
    apply List.map_congr_left
    intro pos hpos
    rw [putRows_cell_add c batchStart hat, if_neg (by simpa using List.mem_range.mp hpos)]
  · rw [← b'.rows_width y (List.mem_of_getElem? hy)]
    exact putRows_slots c batchStart hat

theorem mapM_placement_rows {seqLen start : ℕ} (new : Batch κ) (hstart : start < seqLen)
    (hfit : start + new.width ≤ seqLen) :
    new.rows.mapM (placement seqLen start) = some (new.rows.map fun r => (start, r)) := by
  apply mapM_placement
  intro kv hkv
  rw [new.rows_width kv hkv]
  exact ⟨hstart, hfit⟩

/-! ### The multiplexed cache -/

/-- The manager and a cache that is smaller than the batch have the rows that every
micro-batch has written. -/
structure Agrees (p : Policy) (batchSize : ℕ) (m : Manager κ) (c : CacheTensor κ)
    (own : ℕ → Batch κ) : Prop where
  rows : ∀ i, i * p.workingSlotBatchSize < batchSize →
    (own i).rows.length = p.microBatchRows batchSize i
  staged_none : ∀ i, i * p.workingSlotBatchSize < batchSize →
    m.staged c.id i = none → (own i).width = 0
  staged_some : ∀ i, i * p.workingSlotBatchSize < batchSize → ∀ st,
    m.staged c.id i = some st →
      st.seqLen = c.seqLen ∧ st.rows.length = p.microBatchRows batchSize i ∧
      (0 < (own i).width → st.rows = (own i).rows ∧ st.prefixLength = (own i).width)
  current : ∀ slot i, m.current c.id slot = some i →
    i * p.workingSlotBatchSize < batchSize ∧ slot = i % p.workingSlotCount c.batch ∧
      Holds c (slot * p.workingSlotBatchSize) (own i)

theorem holds_of_other_slot {p : Policy} {c c' : CacheTensor κ} {s s' : ℕ} {b : Batch κ}
    (hb : b.rows.length ≤ p.workingSlotBatchSize) (hne : s ≠ s')
    (hc : ∀ row, (∀ r < p.workingSlotBatchSize, row ≠ s * p.workingSlotBatchSize + r) →
      ∀ pos, c'.cell row pos = c.cell row pos)
    (h : Holds c (s' * p.workingSlotBatchSize) b) : Holds c' (s' * p.workingSlotBatchSize) b := by
  apply holds_of_cells h
  intro r hr pos
  exact hc _ (fun r' hr' => slot_disjoint (Ne.symm hne) (by omega) hr') pos

/-- `putRows` at a slot leaves the rows of the other slots. -/
theorem putRows_cell_other {p : Policy} (c : CacheTensor κ) (s : ℕ) {rows : List (ℕ × List κ)}
    (hrows : rows.length ≤ p.workingSlotBatchSize) (row : ℕ)
    (hrow : ∀ r < p.workingSlotBatchSize, row ≠ s * p.workingSlotBatchSize + r) (pos : ℕ) :
    (c.putRows (s * p.workingSlotBatchSize) rows).cell row pos = c.cell row pos := by
  apply putRows_cell_of_lt
  by_contra hcon
  push Not at hcon
  exact hrow (row - s * p.workingSlotBatchSize) (by omega) (by omega)

section

variable {p : Policy} {batchSize : ℕ} {m : Manager κ} {c : CacheTensor κ} {own : ℕ → Batch κ}

def Policy.slotStart (p : Policy) (c : CacheTensor κ) (i : ℕ) : ℕ :=
  i % p.workingSlotCount c.batch * p.workingSlotBatchSize

/-- The slot of micro-batch `i` takes rows that make it hold `b`, and the staging entry of `i`
has `b` too. -/
theorem Agrees.visit (hag : Agrees p batchSize m c own) {i : ℕ}
    (hi : i * p.workingSlotBatchSize < batchSize) {b : Batch κ} {rows : List (ℕ × List κ)}
    {staging : AList fun _ : ℕ × ℕ => Staged κ} {st : Staged κ}
    (hb : b.rows.length = p.microBatchRows batchSize i)
    (hrows : rows.length ≤ p.workingSlotBatchSize)
    (hother : ∀ j, j ≠ i → staging.lookup (c.id, j) = m.staged c.id j)
    (hst : staging.lookup (c.id, i) = some st) (hseq : st.seqLen = c.seqLen)
    (hlen : st.rows.length = p.microBatchRows batchSize i)
    (hval : 0 < b.width → st.rows = b.rows ∧ st.prefixLength = b.width)
    (hh : Holds (c.putRows (p.slotStart c i) rows) (p.slotStart c i) b) :
    Agrees p batchSize
      ⟨staging, m.currentGpuMb.insert (c.id, i % p.workingSlotCount c.batch) i⟩
      (c.putRows (p.slotStart c i) rows) (Function.update own i b) where
  rows j hj := by
    by_cases hji : j = i
    · subst hji; rw [Function.update_self]; exact hb
    · rw [Function.update_of_ne hji]; exact hag.rows j hj
  staged_none j hj hnone := by
    by_cases hji : j = i
    · subst hji; cases hst.symm.trans hnone
    · rw [Function.update_of_ne hji]; exact hag.staged_none j hj ((hother j hji).symm.trans hnone)
  staged_some j hj st' hst' := by
    by_cases hji : j = i
    · subst hji
      cases hst.symm.trans hst'
      rw [Function.update_self]
      exact ⟨hseq, hlen, hval⟩
    · rw [Function.update_of_ne hji]
      exact hag.staged_some j hj st' ((hother j hji).symm.trans hst')
  current slot j hj := by
    by_cases hslot : slot = i % p.workingSlotCount c.batch
    · subst hslot
      change AList.lookup (c.id, i % p.workingSlotCount c.batch) _ = _ at hj
      rw [AList.lookup_insert] at hj
      cases hj
      rw [Function.update_self]
      exact ⟨hi, rfl, hh⟩
    · change AList.lookup (c.id, slot) _ = _ at hj
      rw [AList.lookup_insert_ne (by simpa using hslot)] at hj
      obtain ⟨hjB, hjslot, hholds⟩ := hag.current slot j hj
      have hji : j ≠ i := by rintro rfl; exact hslot hjslot
      rw [Function.update_of_ne hji]
      refine ⟨hjB, hjslot, ?_⟩
      have hle : (own j).rows.length ≤ p.workingSlotBatchSize := by
        rw [hag.rows j hjB]; exact microBatchRows_le p batchSize j
      exact holds_of_other_slot hle (Ne.symm hslot) (putRows_cell_other c _ hrows) hholds

/-- A prefetch puts the rows of a micro-batch that has some into its slot. -/
theorem prefetchMicrobatchKv_spec (hcap : p.Multiple c.batch) (hag : Agrees p batchSize m c own)
    {i : ℕ} (hi : i * p.workingSlotBatchSize < batchSize) (hpos : 0 < (own i).width)
    (hlen : (own i).width ≤ c.seqLen) :
    ∃ m' c', prefetchMicrobatchKv p m c i = (m', c') ∧ Agrees p batchSize m' c' own ∧
      c'.id = c.id ∧ c'.seqLen = c.seqLen ∧ c'.batch = c.batch ∧
      Holds c' (p.slotStart c i) (own i) := by
  cases hst : m.staged c.id i with
  | none => exact absurd (hag.staged_none i hi hst) (by omega)
  | some st =>
    obtain ⟨hseq, hrows, hval⟩ := hag.staged_some i hi st hst
    obtain ⟨hsr, hsp⟩ := hval hpos
    have hrpos := microBatchRows_pos hi
    have hrle := microBatchRows_le p batchSize i
    have hend := slot_end_le hcap (Nat.mod_lt i (workingSlotCount_pos p c.batch))
    have hslot := resolveWorkingSlot_of_multiple hcap i (hrows ▸ hrpos) (hrows ▸ hrle)
    have hsize : min (i % p.workingSlotCount c.batch * p.workingSlotBatchSize + st.rows.length)
        c.batch - i % p.workingSlotCount c.batch * p.workingSlotBatchSize = st.rows.length := by
      omega
    have hput : prefetchMicrobatchKv p m c i =
        (⟨m.mbCpuStaging, m.currentGpuMb.insert (c.id, i % p.workingSlotCount c.batch) i⟩,
          c.putRows (p.slotStart c i) ((own i).rows.map fun r => (0, r))) := by
      simp only [prefetchMicrobatchKv, hst, hslot, hsize]
      rw [if_neg (by omega), List.take_length, hsr]
      rfl
    have hh := holds_putRows_zero c (p.slotStart c i) (own i)
    refine ⟨_, _, hput, ?_, rfl, rfl, rfl, hh⟩
    have := hag.visit hi (b := own i) (hag.rows i hi) (by simp [hag.rows i hi, hrle])
      (fun _ _ => rfl) hst hseq hrows (fun _ => ⟨hsr, hsp⟩) hh
    rwa [Function.update_eq_self] at this

/-- `select_cache` gives micro-batch `i` its own rows and leaves them in its slot. -/
theorem selectCache_spec (hcap : p.Multiple c.batch) (hB : c.batch < batchSize)
    (hag : Agrees p batchSize m c own) {i : ℕ} (hi : i * p.workingSlotBatchSize < batchSize)
    (hlen : (own i).width ≤ c.seqLen) :
    ∃ m' c', selectCache p m c (own i).width (i * p.workingSlotBatchSize) batchSize
        (p.microBatchRows batchSize i) =
          .ok (if (own i).width = 0 then none else some (own i).rows, m', c') ∧
      Agrees p batchSize m' c' own ∧ c'.id = c.id ∧ c'.seqLen = c.seqLen ∧ c'.batch = c.batch ∧
      Holds c' (p.slotStart c i) (own i) := by
  have hrpos := microBatchRows_pos hi
  have hend := slot_end_le hcap (Nat.mod_lt i (workingSlotCount_pos p c.batch))
  have hrle := microBatchRows_le p batchSize i
  by_cases hzero : (own i).width = 0
  · refine ⟨m, c, by rw [selectCache, if_pos hzero, if_pos hzero], hag, rfl, rfl, rfl, ?_⟩
    intro r row hr
    have := (own i).rows_width row (List.mem_of_getElem? hr)
    rw [hzero] at this ⊢
    exact (List.length_eq_zero_iff.mp this).symm
  · have hslot := resolveWorkingSlot_of_multiple hcap i hrpos hrle
    -- the slot after the prefetch, or as it is when the micro-batch has it already
    obtain ⟨m', c', hmc, hag', hid, hseq, hbatch, hh⟩ : ∃ m' c',
        (if m.current c.id (i % p.workingSlotCount c.batch) = some i then (m, c)
          else prefetchMicrobatchKv p m c i) = (m', c') ∧ Agrees p batchSize m' c' own ∧
        c'.id = c.id ∧ c'.seqLen = c.seqLen ∧ c'.batch = c.batch ∧
        Holds c' (p.slotStart c i) (own i) := by
      by_cases hcur : m.current c.id (i % p.workingSlotCount c.batch) = some i
      · rw [if_pos hcur]
        exact ⟨m, c, rfl, hag, rfl, rfl, rfl, (hag.current _ i hcur).2.2⟩
      · rw [if_neg hcur]
        exact prefetchMicrobatchKv_spec hcap hag hi (by omega) hlen
    refine ⟨m', c', ?_, hag', hid, hseq, hbatch, hh⟩
    have hread := readRows_of_holds hh
    rw [hag.rows i hi] at hread
    have hmin : min (p.slotStart c i + p.microBatchRows batchSize i) c.batch =
        p.slotStart c i + p.microBatchRows batchSize i := by
      unfold Policy.slotStart; omega
    rw [selectCache, if_neg hzero, if_neg (by omega), if_pos ⟨by omega, hrpos⟩, if_pos hB]
    simp only [computeMicrobatchIndex_policy hi, hslot, hmc, if_pos hrpos, if_neg hzero]
    change Except.ok (some (c'.readRows (p.slotStart c i)
      (min (p.slotStart c i + p.microBatchRows batchSize i) c.batch) _), m', c') = _
    rw [hmin, hread]

theorem offloadMicrobatchKv_of_fits {i prefixLength : ℕ} (slot : WorkingSlot)
    (hpos : 0 < slot.activeBatchSize) (hend : slot.batchStart + slot.activeBatchSize ≤ c.batch)
    (hlen : prefixLength ≤ c.seqLen)
    (hst : ∀ st, m.staged c.id i = some st →
      st.seqLen = c.seqLen ∧ st.rows.length = slot.activeBatchSize) :
    offloadMicrobatchKv m c i prefixLength slot =
      ⟨m.mbCpuStaging.insert (c.id, i)
        ⟨c.seqLen, if prefixLength = 0 then c.seqLen else prefixLength,
          c.readRows slot.batchStart (slot.batchStart + slot.activeBatchSize)
            (if prefixLength = 0 then c.seqLen else prefixLength)⟩,
        m.currentGpuMb.insert (c.id, slot.index) i⟩ := by
  have hseq : ((m.staged c.id i).map Staged.seqLen).getD c.seqLen = c.seqLen := by
    cases h : m.staged c.id i with
    | none => rfl
    | some st => exact (hst st h).1
  have htakes : ∀ st ∈ m.staged c.id i,
      st.Takes (if prefixLength = 0 then c.seqLen else prefixLength) slot.activeBatchSize := by
    intro st h
    obtain ⟨h1, h2⟩ := hst st h
    refine ⟨?_, h2.symm⟩
    split <;> omega
  simp only [offloadMicrobatchKv, min_eq_left hend, Nat.add_sub_cancel_left]
  rw [if_neg (by omega), if_pos htakes, hseq]

/-- `_write_kvs` extends the rows of micro-batch `i` and stages them. -/
theorem writeKvs_spec (hcap : p.Multiple c.batch) (hB : c.batch < batchSize)
    (hag : Agrees p batchSize m c own) {i : ℕ} (hi : i * p.workingSlotBatchSize < batchSize)
    (hh : Holds c (p.slotStart c i) (own i)) {new : Batch κ}
    (hnew : new.rows.length = p.microBatchRows batchSize i) (hstart : (own i).width < c.seqLen)
    (hfit : (own i).width + new.width ≤ c.seqLen) :
    ∃ m' c', writeKvs p m c (own i).width (i * p.workingSlotBatchSize) batchSize
        (p.microBatchRows batchSize i) new = .ok (m', c') ∧
      Agrees p batchSize m' c' (Function.update own i (extend (own i) new)) ∧
      c'.id = c.id ∧ c'.seqLen = c.seqLen ∧ c'.batch = c.batch := by
  have hrpos := microBatchRows_pos hi
  have hend := slot_end_le hcap (Nat.mod_lt i (workingSlotCount_pos p c.batch))
  have hrle := microBatchRows_le p batchSize i
  have hslot := resolveWorkingSlot_of_multiple hcap i hrpos hrle
  have hplaced := mapM_placement_rows new hstart hfit
  have hrows : (extend (own i) new).rows.length = p.microBatchRows batchSize i := by
    rw [extend_rows_length (by rw [hag.rows i hi, hnew]), hag.rows i hi]
  have hh' := holds_putRows hh new
  set c' := c.putRows (p.slotStart c i) (new.rows.map fun r => ((own i).width, r)) with hc'
  have hwrite : writeKvs p m c (own i).width (i * p.workingSlotBatchSize) batchSize
      (p.microBatchRows batchSize i) new =
        .ok (offloadMicrobatchKv m c' i ((own i).width + new.width)
          ⟨i % p.workingSlotCount c.batch, p.slotStart c i, p.microBatchRows batchSize i⟩, c') := by
    rw [writeKvs, computeMicrobatchIndex_policy hi]
    simp only [hslot, hplaced, writeBatchStart, writeEndPosition,
      if_neg (show batchSize ≠ 0 by omega), if_pos hB,
      if_pos (show (own i).width < c.seqLen ∧ (own i).width + new.width ≤ c.seqLen from
        ⟨hstart, hfit⟩)]
    rw [if_neg (by omega)]
    rfl
  have hoff := offloadMicrobatchKv_of_fits (m := m) (c := c') (i := i)
    ⟨i % p.workingSlotCount c.batch, p.slotStart c i, p.microBatchRows batchSize i⟩
    hrpos (show p.slotStart c i + p.microBatchRows batchSize i ≤ c.batch by
      unfold Policy.slotStart; omega) hfit
    fun st hst => ⟨(hag.staged_some i hi st hst).1, (hag.staged_some i hi st hst).2.1⟩
  refine ⟨_, c', hwrite, ?_, rfl, rfl, rfl⟩
  rw [hoff]
  refine hag.visit hi hrows (by rw [List.length_map, hnew]; exact hrle) ?_
    (AList.lookup_insert _) rfl ?_ ?_ hh'
  · intro j hj
    exact AList.lookup_insert_ne fun h => hj (congrArg Prod.snd h)
  · simp [CacheTensor.readRows]
  · intro hpos
    change 0 < (own i).width + new.width at hpos
    rw [if_neg (by omega), ← hrows]
    exact ⟨readRows_of_holds hh', rfl⟩

/-- One step of micro-batch `i`. -/
theorem microBatchStep_spec (hcap : p.Multiple c.batch) (hB : c.batch < batchSize)
    (hag : Agrees p batchSize m c own) {i : ℕ} (hi : i * p.workingSlotBatchSize < batchSize)
    {new : Batch κ} (hnew : new.rows.length = p.microBatchRows batchSize i)
    (hstart : (own i).width < c.seqLen) (hfit : (own i).width + new.width ≤ c.seqLen) :
    ∃ m' c', microBatchStep p m c (own i).width (i * p.workingSlotBatchSize) batchSize new =
        .ok (if (own i).width = 0 then none else some (own i).rows, m', c') ∧
      Agrees p batchSize m' c' (Function.update own i (extend (own i) new)) ∧
      c'.seqLen = c.seqLen ∧ c'.batch = c.batch := by
  obtain ⟨m1, c1, hsel, hag1, -, hseq1, hbatch1, hh⟩ :=
    selectCache_spec hcap hB hag hi (Nat.le_of_lt hstart)
  have hslot : p.slotStart c1 i = p.slotStart c i := by unfold Policy.slotStart; rw [hbatch1]
  rw [← hslot] at hh
  rw [← hseq1] at hstart hfit
  rw [← hbatch1] at hcap hB
  obtain ⟨m2, c2, hwrite, hag2, -, hseq2, hbatch2⟩ :=
    writeKvs_spec hcap hB hag1 hi hh hnew hstart hfit
  refine ⟨m2, c2, ?_, hag2, hseq2.trans hseq1, hbatch2.trans hbatch1⟩
  simp only [microBatchStep, hnew, hsel, hwrite, bind, Except.bind]
  rfl

end

/-! ### A cache for the full batch -/

structure Direct (p : Policy) (batchSize : ℕ) (c : CacheTensor κ) (own : ℕ → Batch κ) : Prop where
  rows : ∀ i, i * p.workingSlotBatchSize < batchSize →
    (own i).rows.length = p.microBatchRows batchSize i
  holds : ∀ i, i * p.workingSlotBatchSize < batchSize →
    Holds c (i * p.workingSlotBatchSize) (own i)

theorem microBatchStep_direct {p : Policy} {batchSize : ℕ} {m : Manager κ} {c : CacheTensor κ}
    {own : ℕ → Batch κ} (hB : batchSize ≤ c.batch) (hd : Direct p batchSize c own) {i : ℕ}
    (hi : i * p.workingSlotBatchSize < batchSize) {new : Batch κ}
    (hnew : new.rows.length = p.microBatchRows batchSize i) (hstart : (own i).width < c.seqLen)
    (hfit : (own i).width + new.width ≤ c.seqLen) :
    ∃ c', microBatchStep p m c (own i).width (i * p.workingSlotBatchSize) batchSize new =
        .ok (if (own i).width = 0 then none else some (own i).rows, m, c') ∧
      Direct p batchSize c' (Function.update own i (extend (own i) new)) ∧
      c'.seqLen = c.seqLen ∧ c'.batch = c.batch := by
  have hrpos := microBatchRows_pos hi
  have hrle := microBatchRows_le p batchSize i
  have hend := microBatchRows_add_le hi
  have hread := readRows_of_holds (hd.holds i hi)
  rw [hd.rows i hi] at hread
  have hsel : selectCache p m c (own i).width (i * p.workingSlotBatchSize) batchSize
      (p.microBatchRows batchSize i) =
        .ok (if (own i).width = 0 then none else some (own i).rows, m, c) := by
    by_cases hzero : (own i).width = 0
    · rw [selectCache, if_pos hzero, if_pos hzero]
    · rw [selectCache, if_neg hzero, if_neg (by omega), if_pos ⟨by omega, hrpos⟩,
        if_neg (by omega), if_neg hzero, min_eq_left (by omega), hread]
  have hplaced := mapM_placement_rows new hstart hfit
  set c' := c.putRows (i * p.workingSlotBatchSize) (new.rows.map fun r => ((own i).width, r))
  have hwrite : writeKvs p m c (own i).width (i * p.workingSlotBatchSize) batchSize
      (p.microBatchRows batchSize i) new = .ok (m, c') := by
    simp only [writeKvs, hplaced, writeBatchStart, if_neg (show batchSize ≠ 0 by omega),
      if_neg (show ¬ c.batch < batchSize by omega)]
    rw [if_neg (by omega)]
  refine ⟨c', ?_, ⟨?_, ?_⟩, rfl, rfl⟩
  · simp only [microBatchStep, hnew, hsel, hwrite, bind, Except.bind]
    rfl
  · intro j hj
    by_cases hji : j = i
    · subst hji
      rw [Function.update_self, extend_rows_length (by rw [hd.rows j hj, hnew]), hd.rows j hj]
    · rw [Function.update_of_ne hji]; exact hd.rows j hj
  · intro j hj
    by_cases hji : j = i
    · subst hji; rw [Function.update_self]; exact holds_putRows (hd.holds j hj) new
    · rw [Function.update_of_ne hji]
      have hle : (own j).rows.length ≤ p.workingSlotBatchSize := by
        rw [hd.rows j hj]; exact microBatchRows_le p batchSize j
      exact holds_of_other_slot hle (Ne.symm hji)
        (putRows_cell_other c i (by rw [List.length_map, hnew]; exact hrle)) (hd.holds j hj)

end BloomBee.KVMultiplex
