import BloomBee.Lib.Fallible
import BloomBee.Spec.PrefixHandoff
import BloomBee.Proofs.KVSlab

/-! The copy of a prefix between two handles changes the cells it is to copy to and nothing else,
and nothing at all when it refuses its arguments; and the handoff from batch row 0 to batch row 1,
against the columns in which the cache manager stores these rows. -/

set_option autoImplicit false

namespace BloomBee.PrefixHandoff

open PagedKV (Tensor)

variable {κ : Type}

/-! ### The checks -/

/-- The combinations of slice arguments that are not refused, with what they stand for. -/
inductive Resolved (a : CopyArgs) (srcBh dstBh : ℕ) : ℕ × ℕ → ℕ × ℕ → Prop where
  | all (hbh : a.bhSlice = none) (hsource : a.sourceBhSlice = none)
      (hdestination : a.destinationBhSlice = none) :
      Resolved a srcBh dstBh (0, min srcBh dstBh) (0, min srcBh dstBh)
  | both {lo hi : ℕ} (hbh : a.bhSlice = some ((lo : ℤ), (hi : ℤ))) (hsource : a.sourceBhSlice = none)
      (hdestination : a.destinationBhSlice = none) (hlt : lo < hi)
      (hle : hi ≤ min srcBh dstBh) : Resolved a srcBh dstBh (lo, hi) (lo, hi)
  | apart {lo hi lo' hi' : ℕ} (hbh : a.bhSlice = none)
      (hsource : a.sourceBhSlice = some ((lo : ℤ), (hi : ℤ)))
      (hdestination : a.destinationBhSlice = some ((lo' : ℤ), (hi' : ℤ))) (hlt : lo < hi)
      (hle : hi ≤ srcBh) (hlt' : lo' < hi') (hle' : hi' ≤ dstBh)
      (hwidth : hi - lo = hi' - lo') :
      Resolved a srcBh dstBh (lo, hi) (lo', hi')

theorem normalizeBhSlice_ok {value : ℤ × ℤ} {maxBh : ℕ} {label : String} {slice : ℕ × ℕ}
    (h : normalizeBhSlice value maxBh label = .ok slice) :
    value = ((slice.1 : ℤ), (slice.2 : ℤ)) ∧ slice.1 < slice.2 ∧ slice.2 ≤ maxBh := by
  unfold normalizeBhSlice at h
  split_ifs at h with hrange hmax
  obtain rfl := Except.ok.inj h
  refine ⟨Prod.ext ?_ ?_, ?_, ?_⟩ <;> simp only <;> omega

theorem resolveSlices_ok {a : CopyArgs} {srcBh dstBh : ℕ} {s d : ℕ × ℕ}
    (h : resolveSlices a srcBh dstBh = .ok (s, d)) : Resolved a srcBh dstBh s d := by
  unfold resolveSlices at h
  split at h
  · next hsource hdestination =>
    split at h
    · next hbh =>
      obtain ⟨rfl, rfl⟩ := Prod.mk.inj (Except.ok.inj h)
      exact .all hbh hsource hdestination
    · next value hbh =>
      obtain ⟨slice, hslice, h⟩ := Fallible.bind_eq_ok h
      obtain ⟨rfl, rfl⟩ := Prod.mk.inj (Except.ok.inj h)
      obtain ⟨rfl, hlt, hle⟩ := normalizeBhSlice_ok hslice
      exact .both hbh hsource hdestination hlt hle
  · next source destination hsource hdestination =>
    split_ifs at h with hbh
    obtain ⟨slice, hslice, h⟩ := Fallible.bind_eq_ok h
    obtain ⟨slice', hslice', h⟩ := Fallible.bind_eq_ok h
    split_ifs at h with hwidth
    obtain ⟨rfl, rfl⟩ := Prod.mk.inj (Except.ok.inj h)
    obtain ⟨rfl, hlt, hle⟩ := normalizeBhSlice_ok hslice
    obtain ⟨rfl, hlt', hle'⟩ := normalizeBhSlice_ok hslice'
    exact .apart (not_not.mp hbh) hsource hdestination hlt hle hlt' hle' (not_not.mp hwidth)
  · cases h

structure Valid (st : CacheState κ) (a : CopyArgs) (v : Validated κ) : Prop where
  positive : 0 < v.prefixLength
  prefixLength : (v.prefixLength : ℤ) = a.prefixLength
  source : st.allocated a.sourceHandle = some (.tensor v.srcK, .tensor v.srcV)
  destination : st.allocated a.destinationHandle = some (.tensor v.dstK, .tensor v.dstV)
  dims : v.srcK.shape.length = 3 ∧ v.dstK.shape.length = 3
  shapes : v.srcV.shape = v.srcK.shape ∧ v.dstV.shape = v.dstK.shape
  headDim : v.srcK.shape.getD 2 0 = v.dstK.shape.getD 2 0
  fits : v.prefixLength ≤ v.srcK.shape.getD 0 0 ∧ v.prefixLength ≤ v.dstK.shape.getD 0 0
  slices : Resolved a (v.srcK.shape.getD 1 0) (v.dstK.shape.getD 1 0) v.sourceSlice
    v.destinationSlice
  apart : a.sourceHandle = a.destinationHandle →
    v.sourceSlice.2 ≤ v.destinationSlice.1 ∨ v.destinationSlice.2 ≤ v.sourceSlice.1

theorem tensorOf_ok {x : Value κ} {t : Tensor κ} (h : tensorOf x = .ok t) : x = .tensor t := by
  cases x with
  | tensor t' =>
    obtain rfl := Except.ok.inj h
    rfl
  | other shape => cases h

theorem validateSlabs_ok {st : CacheState κ} {a : CopyArgs} {v : Validated κ}
    {srcK srcV dstK dstV : Tensor κ} (hpositive : ¬a.prefixLength ≤ 0)
    (hsource : st.allocated a.sourceHandle = some (.tensor srcK, .tensor srcV))
    (hdestination : st.allocated a.destinationHandle = some (.tensor dstK, .tensor dstV))
    (h : validateSlabs a srcK srcV dstK dstV = .ok v) : Valid st a v := by
  unfold validateSlabs at h
  split_ifs at h with hdims hshapes hheadDim hfits
  obtain ⟨⟨s, d⟩, hslices, h⟩ := Fallible.bind_eq_ok h
  split_ifs at h with hapart
  obtain rfl := Except.ok.inj h
  simp only [ne_eq, not_or, not_not] at hdims hshapes
  refine ⟨?_, ?_, hsource, hdestination, ⟨hdims.1, hdims.2.2.1⟩, ⟨hshapes.1.symm, hshapes.2.symm⟩,
    not_not.mp hheadDim, ?_, resolveSlices_ok hslices, ?_⟩
  · simp only
    omega
  · simp only
    omega
  · simp only
    omega
  · intro hsame
    exact not_not.mp fun hnot => hapart ⟨hsame, hnot⟩

theorem validate_ok {st : CacheState κ} {a : CopyArgs} {v : Validated κ}
    (h : validate st a = .ok v) : Valid st a v := by
  unfold validate at h
  split_ifs at h with hpositive
  split at h
  · next hsource hdestination =>
    obtain ⟨srcK, hsrcK, h⟩ := Fallible.bind_eq_ok h
    obtain ⟨srcV, hsrcV, h⟩ := Fallible.bind_eq_ok h
    obtain ⟨dstK, hdstK, h⟩ := Fallible.bind_eq_ok h
    obtain ⟨dstV, hdstV, h⟩ := Fallible.bind_eq_ok h
    obtain rfl := tensorOf_ok hsrcK
    obtain rfl := tensorOf_ok hsrcV
    obtain rfl := tensorOf_ok hdstK
    obtain rfl := tensorOf_ok hdstV
    exact validateSlabs_ok hpositive hsource hdestination h
  · cases h

/-! ### The copy -/

/-- `d'` is `d` with the prefix of the columns `src` of `s` in the columns `dst`. -/
structure Copied (prefixLength : ℕ) (src dst : ℕ × ℕ) (s d d' : Tensor κ) : Prop where
  shape : d'.shape = d.shape
  copied : ∀ i < prefixLength, ∀ j < dst.2 - dst.1, ∀ e,
    d'.data i (dst.1 + j) e = s.data i (src.1 + j) e
  kept : ∀ i c e, ¬(i < prefixLength ∧ dst.1 ≤ c ∧ c < dst.2) → d'.data i c e = d.data i c e

theorem copyCells_copied (s d : Tensor κ) (prefixLength : ℕ) (src dst : ℕ × ℕ) :
    Copied prefixLength src dst s d
      (copyCells d prefixLength dst.1 dst.2 (clonedFrom s src.1)) where
  shape := rfl
  copied i hi j hj e := by
    have hin : i < prefixLength ∧ dst.1 ≤ dst.1 + j ∧ dst.1 + j < dst.2 := by omega
    simp only [copyCells, if_pos hin, clonedFrom, Nat.add_sub_cancel_left]
  kept i c e h := by simp only [copyCells, if_neg h]

/-- What a copy that returned has done: the slices are those of the arguments and within the slabs,
the prefix of the source is in the destination, and every other cell of every handle, also those of
the source, and the tokens are what they were. -/
structure CopiedExactly (st : CacheState κ) (a : CopyArgs) (report : Report)
    (st' : CacheState κ) : Prop where
  prefixLength : 0 < report.prefixLength ∧ (report.prefixLength : ℤ) = a.prefixLength
  cells : ∃ srcK srcV dstK dstV srcK' srcV' dstK' dstV' : Tensor κ,
    st.allocated a.sourceHandle = some (.tensor srcK, .tensor srcV) ∧
    st.allocated a.destinationHandle = some (.tensor dstK, .tensor dstV) ∧
    st'.allocated a.sourceHandle = some (.tensor srcK', .tensor srcV') ∧
    st'.allocated a.destinationHandle = some (.tensor dstK', .tensor dstV') ∧
    Resolved a (srcK.shape.getD 1 0) (dstK.shape.getD 1 0) report.cacheReadSourceBhSlice
      report.cacheWriteDestinationBhSlice ∧
    report.prefixLength ≤ srcK.shape.getD 0 0 ∧ report.prefixLength ≤ dstK.shape.getD 0 0 ∧
    Copied report.prefixLength report.cacheReadSourceBhSlice report.cacheWriteDestinationBhSlice
      srcK dstK dstK' ∧
    Copied report.prefixLength report.cacheReadSourceBhSlice report.cacheWriteDestinationBhSlice
      srcV dstV dstV' ∧
    ∀ i c e, report.cacheReadSourceBhSlice.1 ≤ c → c < report.cacheReadSourceBhSlice.2 →
      srcK'.data i c e = srcK.data i c e ∧ srcV'.data i c e = srcV.data i c e
  others : ∀ h, h ≠ a.destinationHandle → st'.allocated h = st.allocated h
  tokens : st'.currentSizeTokens = st.currentSizeTokens

theorem Valid.copiedExactly {st : CacheState κ} {a : CopyArgs} {v : Validated κ}
    (h : Valid st a v) {report : Report} (hcount : report.prefixLength = v.prefixLength)
    (hsource : report.cacheReadSourceBhSlice = v.sourceSlice)
    (hdestination : report.cacheWriteDestinationBhSlice = v.destinationSlice) :
    CopiedExactly st a report (v.write st a.destinationHandle) := by
  obtain ⟨hpositive, hlength, hsrc, hdst, -, -, -, hfits, hslices, hapart⟩ := h
  have hcopyK := copyCells_copied v.srcK v.dstK v.prefixLength v.sourceSlice v.destinationSlice
  have hcopyV := copyCells_copied v.srcV v.dstV v.prefixLength v.sourceSlice v.destinationSlice
  have hat : (v.write st a.destinationHandle).allocated a.destinationHandle = some (_, _) :=
    Function.update_self ..
  have hother : ∀ h, h ≠ a.destinationHandle →
      (v.write st a.destinationHandle).allocated h = st.allocated h := fun h hne =>
    Function.update_of_ne hne ..
  refine ⟨by rw [hcount]; exact ⟨hpositive, hlength⟩, ?_, hother, rfl⟩
  rw [hcount, hsource, hdestination]
  by_cases hsame : a.sourceHandle = a.destinationHandle
  · -- the slices of one handle are apart, so that its source is not written
    obtain ⟨hk, hv⟩ : Value.tensor v.dstK = .tensor v.srcK ∧ Value.tensor v.dstV = .tensor v.srcV :=
      Prod.mk.inj (Option.some.inj ((hdst.symm.trans (hsame ▸ rfl)).trans hsrc))
    have hdK : v.dstK = v.srcK := Value.tensor.inj hk
    have hdV : v.dstV = v.srcV := Value.tensor.inj hv
    refine ⟨_, _, _, _, _, _, _, _, hsrc, hdst, (congrArg _ hsame).trans hat, hat, hslices, hfits.1, hfits.2,
      hcopyK, hcopyV, fun i c e hlo hhi => ?_⟩
    have hout : ¬(i < v.prefixLength ∧ v.destinationSlice.1 ≤ c ∧ c < v.destinationSlice.2) := by
      have := hapart hsame
      omega
    rw [hcopyK.kept i c e hout, hcopyV.kept i c e hout, hdK, hdV]
    exact ⟨rfl, rfl⟩
  · exact ⟨_, _, _, _, _, _, _, _, hsrc, hdst, (hother _ hsame).trans hsrc, hat, hslices, hfits.1,
      hfits.2, hcopyK, hcopyV, fun i c e _ _ => ⟨rfl, rfl⟩⟩

theorem copyPrefixFromHandle_ok {sha256 : List κ → String} {st st' : CacheState κ} {a : CopyArgs}
    {report : Report} (h : copyPrefixFromHandle sha256 st a = (st', .ok report)) :
    CopiedExactly st a report st' := by
  unfold copyPrefixFromHandle at h
  split at h
  · cases (Prod.mk.inj h).2
  · next v hv =>
    dsimp only at h
    split_ifs at h
    · obtain ⟨rfl, hreport⟩ := Prod.mk.inj h
      obtain rfl := Except.ok.inj hreport
      exact (validate_ok hv).copiedExactly rfl rfl rfl
    · cases (Prod.mk.inj h).2

/-- A copy that is refused changes nothing, and one that returns changes exactly what it should.
Only the bytes for the checksum are taken after the copies. -/
theorem copy_prefix_atomic_framed (sha256 : List κ → String) (st : CacheState κ) (a : CopyArgs) :
    (∀ e, (copyPrefixFromHandle sha256 st a).2 = .error e → e ≠ .unsupportedScalarType →
        (copyPrefixFromHandle sha256 st a).1 = st) ∧
      ∀ report, (copyPrefixFromHandle sha256 st a).2 = .ok report →
        CopiedExactly st a report (copyPrefixFromHandle sha256 st a).1 := by
  constructor
  · intro e he hne
    unfold copyPrefixFromHandle at he ⊢
    split at he
    · rfl
    · dsimp only at he
      split_ifs at he
      exact absurd (Except.error.inj he).symm hne
  · intro report hreport
    exact copyPrefixFromHandle_ok (Prod.ext rfl hreport)

end BloomBee.PrefixHandoff

/-! ### The handoff between rows -/

namespace BloomBee.PrefixHandoff

open KVSlab (Accepts Cache Cell MicroBatch firstRow newCell tensors writeKvs)
open PagedKV (BlockConfig NewKvs Tensor sourceHeadsPerBatch)
open PagedKV.PagedKVTable (broadcastIndex)

variable {α : Type}

/-! ### The columns of a batch row -/

def slabOf (k v : Tensor α) : Cache (Cell α) where
  seqLen := k.shape.getD 0 0
  d := k.shape.getD 2 0
  storage := .whole ⟨k.shape.getD 1 0, fun s c => ⟨k.data s c, v.data s c⟩⟩

/-- Every write that has batch row `r` of `kvHeads` heads among its rows puts one of the row's heads
in column `col`. -/
def StoresRow (cfg : BlockConfig) (p : KVMultiplex.Policy) (c : Cache (Cell α))
    (fullBatchSize kvHeads r col : ℕ) : Prop :=
  ∃ h < kvHeads, ∀ (mb : MicroBatch) (new : NewKvs α) (start : ℕ),
    mb.fullBatchSize = fullBatchSize → Accepts cfg p c mb new →
    mb.sourceHeads cfg new.bh = kvHeads → firstRow cfg p c mb ≤ r →
    r < firstRow cfg p c mb + new.bh / kvHeads → start < c.seqLen →
    start + new.sNew ≤ c.seqLen → ∀ t < new.sNew,
      (writeKvs cfg p c start mb (tensors new)).1.cell? (start + t) col =
        some (newCell new kvHeads (r - firstRow cfg p c mb) h t)

/-- The key-value heads of the config, which a batch without micro-batches is stored with. -/
def keyValueHeads (cfg : BlockConfig) : ℕ :=
  let groups := cfg.numKeyValueGroups.getD 1
  cfg.numKeyValueHeads.getD
    (if 1 < groups ∧ cfg.attentionHeads % groups = 0 then cfg.attentionHeads / groups
      else cfg.attentionHeads)

section Columns

variable {cfg : BlockConfig} {p : KVMultiplex.Policy} {c : Cache (Cell α)}
  {fullBatchSize kvHeads r col : ℕ}

theorem firstRow_eq {mb : MicroBatch} (hcapacity : fullBatchSize ≤ c.batch cfg.attentionHeads)
    (hfull : mb.fullBatchSize = fullBatchSize) :
    firstRow cfg p c mb = if fullBatchSize = 0 then 0 else mb.batchOffset := by
  rw [firstRow, KVMultiplex.writeBatchStart, hfull]
  split_ifs with h0 hlt
  · rfl
  · omega
  · rfl

/-- New keys and values that have `x` in row `r` and `y` in all others. -/
def rowKvs (kvHeads bh d r : ℕ) (x y : α) : NewKvs α where
  bh := bh
  d := d
  sNew := 1
  key := fun b _ _ => if b / kvHeads = r then x else y
  value := fun b _ _ => if b / kvHeads = r then x else y

theorem newCell_rowKvs {bh d r r' h : ℕ} {x y : α} (hh : h < kvHeads) (t : ℕ) :
    newCell (rowKvs kvHeads bh d r x y) kvHeads r' h t =
      if r' = r then ⟨fun _ => x, fun _ => x⟩ else ⟨fun _ => y, fun _ => y⟩ := by
  have hdiv : (r' * kvHeads + h) / kvHeads = r' := by
    rw [Nat.mul_comm, Nat.mul_add_div (Nat.zero_lt_of_lt hh), Nat.div_eq_of_lt hh, Nat.add_zero]
  simp only [newCell, rowKvs, hdiv]
  split_ifs <;> rfl

/-- A write with row `r` as its last one. -/
theorem exists_write (hheads : 0 < cfg.attentionHeads) (hkv : 0 < kvHeads)
    (hle : kvHeads ≤ cfg.attentionHeads) (hcfg : fullBatchSize = 0 → keyValueHeads cfg = kvHeads)
    (hcapacity : fullBatchSize ≤ c.batch cfg.attentionHeads) :
    ∃ (mb : MicroBatch) (bh : ℕ), mb.fullBatchSize = fullBatchSize ∧ bh % kvHeads = 0 ∧
      mb.sourceHeads cfg bh = kvHeads ∧ firstRow cfg p c mb + bh / kvHeads = r + 1 ∧
      0 < bh / kvHeads := by
  rcases Nat.eq_zero_or_pos fullBatchSize with h0 | hpos
  · refine ⟨⟨0, 0, 0⟩, (r + 1) * kvHeads, h0.symm, Nat.mul_mod_left _ _, ?_, ?_, ?_⟩
    · have hkvHeads := hcfg h0
      simp only [keyValueHeads] at hkvHeads
      simp only [MicroBatch.sourceHeads, sourceHeadsPerBatch, Nat.lt_irrefl, false_and, if_false,
        Nat.max_eq_right hheads, hkvHeads, Nat.mul_mod_left]
      rw [if_pos ⟨hkv, hle, trivial⟩]
    · rw [firstRow_eq hcapacity h0.symm, if_pos h0, Nat.zero_add, Nat.mul_div_cancel _ hkv]
    · rw [Nat.mul_div_cancel _ hkv]
      exact Nat.succ_pos r
  · refine ⟨⟨r, fullBatchSize, 1⟩, kvHeads, rfl, Nat.mod_self _, ?_, ?_, ?_⟩
    · have := @KVSlab.sourceHeads_eq cfg ⟨r, fullBatchSize, 1⟩ 1 kvHeads hpos rfl Nat.one_pos hkv
        hle
      rwa [Nat.one_mul] at this
    · rw [firstRow_eq hcapacity rfl, if_neg hpos.ne', Nat.div_self hkv]
    · rw [Nat.div_self hkv]
      exact Nat.one_pos

/-- A batch row is stored in its heads' columns, in strides of the attention heads. -/
theorem storesRow_iff [Nontrivial α] (hheads : 0 < cfg.attentionHeads) (hkv : 0 < kvHeads)
    (hle : kvHeads ≤ cfg.attentionHeads) (hcfg : fullBatchSize = 0 → keyValueHeads cfg = kvHeads)
    (hcapacity : fullBatchSize ≤ c.batch cfg.attentionHeads)
    (hr : r < c.batch cfg.attentionHeads) (hseq : 0 < c.seqLen) :
    StoresRow cfg p c fullBatchSize kvHeads r col ↔
      ∃ h < kvHeads, col = r * cfg.attentionHeads + h := by
  have hstores : ∀ (mb : MicroBatch) (new : NewKvs α) (start : ℕ), Accepts cfg p c mb new →
      mb.sourceHeads cfg new.bh = kvHeads → start < c.seqLen → start + new.sNew ≤ c.seqLen →
      KVSlab.Stores cfg.attentionHeads start new.sNew (firstRow cfg p c mb) (new.bh / kvHeads)
        kvHeads (newCell new kvHeads) c (writeKvs cfg p c start mb (tensors new)).1 := by
    intro mb new start haccepts hsource hlt hfit
    obtain ⟨c', hwrite, hstores⟩ := KVSlab.writeKvs_stores haccepts
      (KVSlab.place_inRange hlt hfit) hfit (.inl (KVSlab.taken_of_le (Nat.le_refl _)))
    rw [hsource, KVSlab.taken_of_le (Nat.le_refl _)] at hstores
    rw [hwrite]
    refine ⟨hstores.shape, fun row hrow h hh t ht => ?_, hstores.kept⟩
    have htoken : broadcastIndex (KVSlab.block new).tokens t = t :=
      KVSlab.broadcastIndex_of_lt ht
    rw [hstores.stored row hrow h hh t ht, htoken]
    rfl
  constructor
  · rintro ⟨h, hh, hall⟩
    obtain ⟨mb, bh, hfull, hmod, hsource, hlast, hrows⟩ :=
      @exists_write _ cfg p c _ _ r hheads hkv hle hcfg hcapacity
    obtain ⟨x, y, hxy⟩ := exists_pair_ne α
    have haccepts : ∀ x y : α, Accepts cfg p c mb
        (rowKvs kvHeads bh c.d (r - firstRow cfg p c mb) x y) := fun x y =>
      ⟨hheads, rfl, by rw [rowKvs, hsource]; exact hmod, by
        rw [rowKvs, hsource, hlast]; exact hr⟩
    have hcell : ∀ x y : α, (writeKvs cfg p c (0 : ℕ) mb
        (tensors (rowKvs kvHeads bh c.d (r - firstRow cfg p c mb) x y))).1.cell? 0 col =
          some ⟨fun _ => x, fun _ => x⟩ := by
      intro x y
      have := hall mb _ 0 hfull (haccepts x y) hsource (by omega)
        (show r < firstRow cfg p c mb + bh / kvHeads by omega) hseq hseq 0 Nat.one_pos
      rwa [newCell_rowKvs hh, if_pos rfl, Nat.zero_add] at this
    by_contra hnot
    -- another row's columns have `y`, and all others are as they were
    by_cases hcol : ∃ r' < bh / kvHeads, ∃ h' < kvHeads,
        col = (firstRow cfg p c mb + r') * cfg.attentionHeads + h'
    · obtain ⟨r', hr', h', hh', hcol⟩ := hcol
      have hne : r' ≠ r - firstRow cfg p c mb := by
        rintro rfl
        exact hnot ⟨h', hh', by rw [hcol, Nat.add_sub_cancel' (by omega)]⟩
      have hst := (hstores mb _ 0 (haccepts x y) hsource hseq hseq).stored r' hr' h' hh' 0
        Nat.one_pos
      rw [newCell_rowKvs hh', if_neg hne, ← hcol, Nat.zero_add, hcell x y] at hst
      exact hxy (congrFun (congrArg Cell.key (Option.some.inj hst)) 0)
    · have hkept : ∀ x y : α, c.cell? 0 col = some ⟨fun _ => x, fun _ => x⟩ := by
        intro x y
        rw [← hcell x y]
        refine ((hstores mb _ 0 (haccepts x y) hsource hseq hseq).kept 0 col ?_).symm
        intro r' hr' h' hh' t _ heq
        exact hcol ⟨r', hr', h', hh', heq.2⟩
      have hst := (hkept x y).symm.trans (hkept y x)
      exact hxy (congrFun (congrArg Cell.key (Option.some.inj hst)) 0)
  · rintro ⟨h, hh, rfl⟩
    refine ⟨h, hh, fun mb new start _ haccepts hsource hfirst hlast hlt hfit t ht => ?_⟩
    have hst := (hstores mb new start haccepts hsource hlt hfit).stored
      (r - firstRow cfg p c mb) (by omega) h hh t ht
    rwa [Nat.add_sub_cancel' hfirst] at hst

end Columns

/-! ### The handoff -/

def InferenceInfo.requestBatch (info : InferenceInfo) (batchSize : ℕ) : ℕ :=
  if info.fullBatchSize = 0 then batchSize else info.fullBatchSize

/-- A handoff is reported for a copy between the first two slices of the handle's row width. -/
theorem maybeRecord_serverHandoff {sha256 : List α → String} {reuseEnv : Bool}
    {st st' : CacheState α} {info : InferenceInfo} {batchSize : ℕ} {h : ServerHandoff}
    (hreport : maybeRecordRuntimeKvPrefixReuseHandoff sha256 reuseEnv st info batchSize =
      (st', .serverHandoff h)) {handle : Handle} {rest : List Handle}
    (hhandle : info.cacheHandles = handle :: rest) {pair : Value α × Value α}
    (hpair : st.allocated handle = some pair) :
    ∃ width : ℕ, width ≠ 0 ∧
      width = (rowBhWidthFromCacheShape pair.1.shape (info.requestBatch batchSize)).getD 0 ∧
      copyPrefixFromHandle sha256 st {
        sourceHandle := handle
        destinationHandle := handle
        prefixLength := info.kvPrefixReuseCommonPrefixTokenCount
        sourceBhSlice := some (0, width)
        destinationBhSlice := some (width, width * 2) } = (st', .ok h.toReport) := by
  have hbatch : (if info.fullBatchSize = 0 then batchSize else info.fullBatchSize) =
      info.requestBatch batchSize := rfl
  unfold maybeRecordRuntimeKvPrefixReuseHandoff at hreport
  rw [hhandle] at hreport
  simp only [hpair, hbatch] at hreport
  split_ifs at hreport with _ _ _ _ hwidth
  all_goals first
    | cases (Prod.mk.inj hreport).2
    | skip
  refine ⟨_, hwidth, rfl, ?_⟩
  split at hreport
  · cases (Prod.mk.inj hreport).2
  · next st₁ report hcopy =>
    obtain ⟨rfl, hh⟩ := Prod.mk.inj hreport
    obtain rfl := RuntimeMetadata.serverHandoff.inj hh
    exact hcopy

/-- The prefix of row 0, and nothing else, is where the slab has row 1: the columns of the two
slices are exactly those of the rows, over the common prefix, and no other row has changed. -/
def RowsHandedOver (cfg : BlockConfig) (p : KVMultiplex.Policy) (info : InferenceInfo)
    (batchSize kvHeads : ℕ) (handle : Handle) (k v : Tensor α) (st' : CacheState α)
    (h : ServerHandoff) : Prop :=
  (h.prefixLength : ℤ) = info.kvPrefixReuseCommonPrefixTokenCount ∧
    (∀ col, h.cacheReadSourceBhSlice.1 ≤ col ∧ col < h.cacheReadSourceBhSlice.2 ↔
      StoresRow cfg p (slabOf k v) info.fullBatchSize kvHeads 0 col) ∧
    (∀ col, h.cacheWriteDestinationBhSlice.1 ≤ col ∧ col < h.cacheWriteDestinationBhSlice.2 ↔
      StoresRow cfg p (slabOf k v) info.fullBatchSize kvHeads 1 col) ∧
    ∃ k' v', st'.allocated handle = some (.tensor k', .tensor v') ∧
      Copied h.prefixLength h.cacheReadSourceBhSlice h.cacheWriteDestinationBhSlice k k k' ∧
      Copied h.prefixLength h.cacheReadSourceBhSlice h.cacheWriteDestinationBhSlice v v v' ∧
      ∀ r < info.requestBatch batchSize, r ≠ 1 → ∀ col,
        StoresRow cfg p (slabOf k v) info.fullBatchSize kvHeads r col → ∀ i e,
          k'.data i col e = k.data i col e ∧ v'.data i col e = v.data i col e

/-- A request with a batch that fits a slab of `capacity` rows. -/
structure Request (cfg : BlockConfig) (st : CacheState α) (info : InferenceInfo)
    (batchSize capacity kvHeads : ℕ) (handle : Handle) (k v : Tensor α) : Prop where
  heads : 0 < cfg.attentionHeads
  grouped : 0 < kvHeads ∧ kvHeads ≤ cfg.attentionHeads
  config : info.fullBatchSize = 0 → keyValueHeads cfg = kvHeads
  batch : 2 ≤ info.requestBatch batchSize ∧ info.requestBatch batchSize ≤ capacity
  handles : ∃ rest, info.cacheHandles = handle :: rest
  slab : st.allocated handle = some (.tensor k, .tensor v)
  shape : ∃ seqLen d, k.shape = [seqLen, capacity * cfg.attentionHeads, d]

section Handoff

variable {sha256 : List α → String} {reuseEnv : Bool} {cfg : BlockConfig}
  {p : KVMultiplex.Policy} {st st' : CacheState α} {info : InferenceInfo}
  {batchSize capacity kvHeads : ℕ} {handle : Handle} {k v : Tensor α} {h : ServerHandoff}

theorem Request.reported (hrequest : Request cfg st info batchSize capacity kvHeads handle k v)
    (hreport : maybeRecordRuntimeKvPrefixReuseHandoff sha256 reuseEnv st info batchSize =
      (st', .serverHandoff h)) :
    ∃ width : ℕ, width * info.requestBatch batchSize = capacity * cfg.attentionHeads ∧
      h.cacheReadSourceBhSlice = (0, width) ∧
      h.cacheWriteDestinationBhSlice = (width, width * 2) ∧
      (h.prefixLength : ℤ) = info.kvPrefixReuseCommonPrefixTokenCount ∧
      0 < (slabOf k v).seqLen ∧
      ∃ k' v', st'.allocated handle = some (.tensor k', .tensor v') ∧
        Copied h.prefixLength h.cacheReadSourceBhSlice h.cacheWriteDestinationBhSlice k k k' ∧
        Copied h.prefixLength h.cacheReadSourceBhSlice h.cacheWriteDestinationBhSlice v v v' := by
  obtain ⟨rest, hhandle⟩ := hrequest.handles
  obtain ⟨seqLen, d, hshape⟩ := hrequest.shape
  obtain ⟨width, hne, hwidth, hcopy⟩ := maybeRecord_serverHandoff hreport hhandle hrequest.slab
  obtain ⟨⟨hpositive, hcount⟩, ⟨srcK, srcV, dstK, dstV, srcK', srcV', dstK', dstV', hsrc, hdst, -,
    hdst', hslices, hfits, -, hcopyK, hcopyV, -⟩, -, -⟩ := copyPrefixFromHandle_ok hcopy
  simp only at hsrc hdst hdst' hcount
  obtain ⟨hk, hv⟩ := Prod.mk.inj (Option.some.inj (hsrc.symm.trans hrequest.slab))
  obtain rfl := Value.tensor.inj hk
  obtain rfl := Value.tensor.inj hv
  obtain ⟨hk, hv⟩ := Prod.mk.inj (Option.some.inj (hdst.symm.trans hrequest.slab))
  obtain rfl := Value.tensor.inj hk
  obtain rfl := Value.tensor.inj hv
  have hsliceEq : h.cacheReadSourceBhSlice = (0, width) ∧
      h.cacheWriteDestinationBhSlice = (width, width * 2) := by
    generalize h.cacheReadSourceBhSlice = s, h.cacheWriteDestinationBhSlice = t at hslices
    cases hslices with
    | all hbh hsource hdestination => cases hsource
    | both hbh hsource hdestination hlt hle => cases hsource
    | apart hbh hsource hdestination hlt hle hlt' hle' hw =>
      have hs := Prod.mk.inj (Option.some.inj hsource)
      have hd := Prod.mk.inj (Option.some.inj hdestination)
      exact ⟨Prod.ext (by simp only; omega) (by simp only; omega),
        Prod.ext (by simp only; omega) (by simp only; omega)⟩
  refine ⟨width, ?_, hsliceEq.1, hsliceEq.2, hcount, ?_, dstK', dstV', hdst', hcopyK, hcopyV⟩
  · have hbatch := hrequest.batch.1
    simp only [Value.shape, hshape, rowBhWidthFromCacheShape, List.length_cons, List.length_nil,
      List.getD_cons_succ, List.getD_cons_zero] at hwidth
    rw [if_neg (by omega), if_neg (by omega)] at hwidth
    split_ifs at hwidth with hdvd
    · rw [hwidth, Option.getD_some]
      exact Nat.div_mul_cancel (Nat.dvd_of_mod_eq_zero hdvd.2.2)
    · exact absurd hwidth hne
  · exact Nat.lt_of_lt_of_le hpositive hfits

/-- The columns of a row in the slab of the request. -/
theorem Request.storesRow_iff [Nontrivial α]
    (hrequest : Request cfg st info batchSize capacity kvHeads handle k v)
    (hseq : 0 < (slabOf k v).seqLen) {r : ℕ} (hr : r < info.requestBatch batchSize) (col : ℕ) :
    StoresRow cfg p (slabOf k v) info.fullBatchSize kvHeads r col ↔
      ∃ j < kvHeads, col = r * cfg.attentionHeads + j := by
  obtain ⟨seqLen, d, hshape⟩ := hrequest.shape
  have hbh : (slabOf k v).batch cfg.attentionHeads = capacity := by
    simp only [Cache.batch, Cache.bh, slabOf, KVSlab.Storage.segments, KVSlab.totalWidth, hshape,
      List.getD_cons_succ, List.getD_cons_zero, Nat.add_zero]
    exact Nat.mul_div_cancel _ hrequest.heads
  have hfull : info.fullBatchSize ≤ capacity := by
    have := hrequest.batch.2
    unfold InferenceInfo.requestBatch at this
    split_ifs at this with h0
    · rw [h0]
      exact Nat.zero_le _
    · exact this
  apply PrefixHandoff.storesRow_iff hrequest.heads hrequest.grouped.1 hrequest.grouped.2
    hrequest.config
  · rwa [hbh]
  · rw [hbh]
    exact Nat.lt_of_lt_of_le hr hrequest.batch.2
  · exact hseq

/-- Slices that are the columns of the rows are as wide as the heads of a row. -/
theorem Request.widths [Nontrivial α]
    (hrequest : Request cfg st info batchSize capacity kvHeads handle k v)
    (hreport : maybeRecordRuntimeKvPrefixReuseHandoff sha256 reuseEnv st info batchSize =
      (st', .serverHandoff h)) (hrows : RowsHandedOver cfg p info batchSize kvHeads handle k v st' h) :
    capacity = info.requestBatch batchSize ∧ kvHeads = cfg.attentionHeads := by
  obtain ⟨width, hwidth, hsource, hdestination, -, hseq, -⟩ := hrequest.reported hreport
  obtain ⟨-, hzero, hone, -⟩ := hrows
  have hbatch := hrequest.batch
  have hgrouped := hrequest.grouped
  have hheads := hrequest.heads
  have hzero : ∀ col, col < width ↔ col < kvHeads := by
    intro col
    have := hzero col
    rw [hrequest.storesRow_iff hseq (by omega), hsource] at this
    simp only [Nat.zero_mul, Nat.zero_add, Nat.zero_le, true_and] at this
    rw [this]
    exact ⟨fun ⟨j, hj, hcol⟩ => hcol ▸ hj, fun hcol => ⟨col, hcol, rfl⟩⟩
  have hkv : width = kvHeads := by
    have h₁ := hzero width
    have h₂ := hzero kvHeads
    omega
  -- the destination begins in row 1
  have hstart : width = cfg.attentionHeads := by
    have := hone width
    rw [hrequest.storesRow_iff hseq (by omega), hdestination] at this
    obtain ⟨j, -, hcol⟩ := this.mp ⟨Nat.le_refl width, by simp only; omega⟩
    omega
  refine ⟨?_, by omega⟩
  rw [hstart, Nat.mul_comm] at hwidth
  exact (Nat.eq_of_mul_eq_mul_right hheads hwidth).symm

/-- A handoff that is reported copies row 0 to row 1 exactly when the slab has as many rows as the
batch of the request and as many key-value heads in a row as attention heads. -/
theorem handoff_rows_iff [Nontrivial α]
    (hrequest : Request cfg st info batchSize capacity kvHeads handle k v)
    (hreport : maybeRecordRuntimeKvPrefixReuseHandoff sha256 reuseEnv st info batchSize =
      (st', .serverHandoff h)) :
    RowsHandedOver cfg p info batchSize kvHeads handle k v st' h ↔
      capacity = info.requestBatch batchSize ∧ kvHeads = cfg.attentionHeads := by
  refine ⟨hrequest.widths hreport, ?_⟩
  rintro ⟨hcapacity, hall⟩
  obtain ⟨width, hwidth, hsource, hdestination, hcount, hseq, k', v', hst', hcopyK, hcopyV⟩ :=
    hrequest.reported hreport
  have hbatch := hrequest.batch
  have hrow : ∀ r < info.requestBatch batchSize, ∀ col,
      StoresRow cfg p (slabOf k v) info.fullBatchSize kvHeads r col ↔
        r * width ≤ col ∧ col < r * width + width := by
    intro r hr col
    have hw : width = cfg.attentionHeads := by
      rw [hcapacity, Nat.mul_comm (info.requestBatch batchSize)] at hwidth
      exact Nat.eq_of_mul_eq_mul_right (by omega) hwidth
    rw [hrequest.storesRow_iff hseq hr, hall, ← hw]
    constructor
    · rintro ⟨j, hj, rfl⟩
      omega
    · rintro ⟨hle, hlt⟩
      exact ⟨col - r * width, by omega, by omega⟩
  refine ⟨hcount, fun col => ?_, fun col => ?_, k', v', hst', hcopyK, hcopyV, ?_⟩
  · rw [hrow 0 (by omega), hsource]
    simp only [Nat.zero_mul, Nat.zero_add]
  · rw [hrow 1 (by omega), hdestination]
    simp only [Nat.one_mul, Nat.mul_two]
  · intro r hr hne col hcol i e
    rw [hrow r hr] at hcol
    have hout : ¬(i < h.prefixLength ∧ h.cacheWriteDestinationBhSlice.1 ≤ col ∧
        col < h.cacheWriteDestinationBhSlice.2) := by
      rw [hdestination]
      simp only
      rcases Nat.lt_or_gt_of_ne hne with hlt | hgt
      · obtain rfl : r = 0 := by omega
        omega
      · have := Nat.mul_le_mul_right width hgt
        omega
    exact ⟨hcopyK.kept i col e hout, hcopyV.kept i col e hout⟩

end Handoff

def zeros (width : ℕ) : Tensor ℕ := ⟨[1, width, 1], fun _ _ _ => 0⟩

def zeroState (width : ℕ) : CacheState ℕ where
  allocated := fun h => if h = 7 then some (.tensor (zeros width), .tensor (zeros width)) else none
  currentSizeTokens := 0
  numpyDtype := true

def pairInfo : InferenceInfo where
  cacheHandles := [7]
  kvPrefixReuseEnabled := true
  kvPrefixReuseCommonPrefixTokenCount := 1
  kvPrefixReuseRequestCount := 2
  fullBatchSize := 2

def oneHead : BlockConfig where
  numAttentionHeads := some 1

theorem pair_request {capacity : ℕ} (h : 2 ≤ capacity) :
    Request oneHead (zeroState capacity) pairInfo 2 capacity 1 7 (zeros capacity)
      (zeros capacity) where
  heads := by decide
  grouped := by decide
  config h0 := absurd h0 (by decide)
  batch := ⟨by decide, h⟩
  handles := ⟨[], rfl⟩
  slab := rfl
  shape := ⟨1, 1, by rw [zeros, show oneHead.attentionHeads = 1 from rfl, Nat.mul_one]⟩

def pairHandoff (width : ℕ) : ServerHandoff where
  serverHandleHandoffObserved := true
  cacheReadSourceHandleId := 7
  cacheWriteDestinationHandleId := 7
  serverRecoveredPrefixTokenCount := 1
  prefixLength := 1
  bhSlice := (width, width * 2)
  cacheReadSourceBhSlice := (0, width)
  cacheWriteDestinationBhSlice := (width, width * 2)
  kvPrefixByteChecksumSha256 := ""
  clientClaimedPrefixTokenCount := 1

theorem handoff_rows_iff_pair : ∃ st',
    RowsHandedOver oneHead ⟨2, 1⟩ pairInfo 2 1 7 (zeros 2) (zeros 2) st' (pairHandoff 1) := by
  have hreport : maybeRecordRuntimeKvPrefixReuseHandoff (fun _ => "") true (zeroState 2) pairInfo
      2 = (_, .serverHandoff (pairHandoff 1)) := rfl
  exact ⟨_, (handoff_rows_iff (pair_request (Nat.le_refl 2)) hreport).mpr ⟨rfl, rfl⟩⟩

/-- In a slab of four rows the handoff copies rows 0 and 1 to rows 2 and 3. -/
theorem handoff_of_wide_slab : ¬ ∀ (sha256 : List ℕ → String) (reuseEnv : Bool)
    (cfg : BlockConfig) (p : KVMultiplex.Policy) (st st' : CacheState ℕ) (info : InferenceInfo)
    (batchSize capacity kvHeads : ℕ) (handle : Handle) (k v : Tensor ℕ) (h : ServerHandoff),
    Request cfg st info batchSize capacity kvHeads handle k v →
    maybeRecordRuntimeKvPrefixReuseHandoff sha256 reuseEnv st info batchSize =
      (st', .serverHandoff h) →
    RowsHandedOver cfg p info batchSize kvHeads handle k v st' h := by
  intro hall
  have hreport : maybeRecordRuntimeKvPrefixReuseHandoff (fun _ => "") true (zeroState 4) pairInfo
      2 = (_, .serverHandoff (pairHandoff 2)) := rfl
  have hrequest : Request oneHead (zeroState 4) pairInfo 2 4 1 7 (zeros 4) (zeros 4) :=
    pair_request (by decide)
  have hrows := hall _ _ _ ⟨2, 1⟩ _ _ _ _ _ _ _ _ _ _ hrequest hreport
  exact absurd (hrequest.widths hreport hrows).1 (by decide)

end BloomBee.PrefixHandoff
