import BloomBee.Proofs.KVReorder
import BloomBee.Proofs.PagedRounds

/-! `update_cache_and_async_reorder` returns normally whatever happens in its task. So a round that
fails is dropped without an error, and a round is carried out only where every step of it fits. -/

set_option autoImplicit false

namespace BloomBee.KVSlab

open PagedKV.PagedKVTable (Broadcasts)
open PagedKV (BlockConfig HasRoom Inv NewKvs PagedKVTable RoomAfterRollback inferSeqIds lacking
  rollbackPagedTo seqKeys trackPagedWrite)
open Speculative (cacheLenOf extendIds maxNewLength)

variable {α : Type}

/-! ### What the shim logs -/

section Logged

variable {call : PagedKVTable α → ℤ → PagedKVTable α × Except PagedKV.Raised Unit}

theorem logged_append (t : PagedKVTable α) (seqs seqs' : List ℤ) :
    logged call t (seqs ++ seqs') =
      logged call t seqs ++ logged call (seqs.foldl (fun t seq => (call t seq).1) t) seqs' := by
  induction seqs generalizing t with
  | nil => rfl
  | cons seq seqs ih =>
    simp only [List.cons_append, logged, List.foldl_cons]
    cases (call t seq).2 with
    | error e => rw [ih, List.cons_append]
    | ok => exact ih _

theorem logged_singleton (t : PagedKVTable α) (seq : ℤ) :
    logged call t [seq] = [] ↔ (call t seq).2 = .ok () := by
  simp only [logged]
  cases (call t seq).2 <;> simp

/-- Calls that raise for no registered sequence and leave all of them registered. -/
theorem logged_eq_nil (hcall : ∀ t seq, seq ∈ t.seqs → (call t seq).2 = .ok () ∧
      ∀ seq' ∈ t.seqs, seq' ∈ (call t seq).1.seqs) (seqs : List ℤ) :
    ∀ t : PagedKVTable α, (∀ seq ∈ seqs, seq ∈ t.seqs) → logged call t seqs = [] := by
  induction seqs with
  | nil => exact fun _ _ => rfl
  | cons seq seqs ih =>
    intro t hmem
    obtain ⟨hok, hkept⟩ := hcall t seq (hmem seq List.mem_cons_self)
    simp only [logged, hok]
    exact ih _ fun seq' hseq => hkept seq' (hmem seq' (List.mem_cons_of_mem _ hseq))

end Logged

theorem mem_of_lookup {t t' : PagedKVTable α} {seq : ℤ} {g : PagedKV.SeqState → PagedKV.SeqState}
    (h : ∀ seq', t'.seqs.lookup seq' =
      if seq' = seq then (t.seqs.lookup seq').map g else t.seqs.lookup seq') :
    ∀ seq' ∈ t.seqs, seq' ∈ t'.seqs := by
  intro seq' hmem
  have hsome := AList.lookup_isSome.mpr hmem
  rw [← AList.lookup_isSome, h seq']
  split_ifs
  · rwa [Option.isSome_map]
  · exact hsome

/-- The target of a rollback is cut to what the sequence has committed. -/
theorem logged_rollbackCall (target : ℕ) (t : PagedKVTable α) :
    logged (rollbackCall target) t (seqKeys t) = [] := by
  refine logged_eq_nil (fun t seq hmem => ?_) _ t fun seq hseq => PagedKV.mem_seqKeys.mp hseq
  obtain ⟨st, hl⟩ := Option.isSome_iff_exists.mp (AList.lookup_isSome.mpr hmem)
  have htable : (rollbackCall target t seq).1 = PagedKV.rollbackSeqTo target t seq := by
    simp only [rollbackCall, PagedKV.rollbackSeqTo, hl]
  refine ⟨?_, htable ▸ mem_of_lookup (PagedKV.rollbackSeqTo_lookup target t seq)⟩
  have hle : ¬max 0 (min (target : ℤ) st.lAcc) > st.lAcc := by omega
  have hnonneg : ¬max 0 (min (target : ℤ) st.lAcc) < 0 := by omega
  simp only [rollbackCall, hl, PagedKVTable.rollback, if_neg hle, if_neg hnonneg]

/-- The target of a commit is cut to what the sequence has. -/
theorem logged_commitCall (target : ℕ) (t : PagedKVTable α) :
    logged (commitCall target) t (seqKeys t) = [] := by
  refine logged_eq_nil (fun t seq hmem => ?_) _ t fun seq hseq => PagedKV.mem_seqKeys.mp hseq
  obtain ⟨st, hl⟩ := Option.isSome_iff_exists.mp (AList.lookup_isSome.mpr hmem)
  have htable : (commitCall target t seq).1 = PagedKV.commitSeqTo target t seq := by
    simp only [commitCall, PagedKV.commitSeqTo, hl]
  refine ⟨?_, htable ▸ mem_of_lookup (PagedKV.commitSeqTo_lookup target t seq)⟩
  have hle : ¬min (target : ℤ) st.lSeq > st.lSeq := by omega
  simp only [commitCall, hl, PagedKVTable.commit, Option.getD_some, if_neg hle]
  split_ifs <;> rfl

/-- Tracking logs nothing where every row finds the pages that it lacks. -/
theorem logged_trackWrite (t : PagedKVTable α) (start : ℕ) {n : ℕ} (hn : 0 < n) (commit : Bool)
    (b : ℕ) :
    logged (fun t seq => t.trackWrite seq start n commit) t ((List.range b).map Int.ofNat) = [] ↔
      ∀ i < b, HasRoom t (start + n) i := by
  induction b with
  | zero => exact iff_of_true rfl fun i hi => absurd hi (Nat.not_lt_zero i)
  | succ b ih =>
    obtain ⟨hblock, hfree, hother, -⟩ := PagedKV.trackRows_spec t start hn commit b
    -- row `b` has not been touched yet
    have hlack : lacking (trackPagedWrite t ((List.range b).map Int.ofNat) start n commit)
        (start + n) b = lacking t (start + n) b := by
      have hlookup := hother b fun i hi => by omega
      simp only [lacking, PagedKV.heldPages, hlookup, PagedKVTable.pagesFor, hblock]
    have hlast : logged (fun t seq => t.trackWrite seq start n commit)
        (trackPagedWrite t ((List.range b).map Int.ofNat) start n commit) [(b : ℤ)] = [] ↔
          HasRoom t (start + n) b := by
      rw [logged_singleton, PagedKV.trackWrite_eq _ _ _ hn, PagedKV.capacityOutcome, hlack, hfree,
        HasRoom]
      split_ifs with hroom
      · exact iff_of_true rfl hroom
      · exact iff_of_false (by simp) hroom
    rw [List.range_succ, List.map_append, logged_append, List.append_eq_nil_iff, ih,
      Nat.forall_lt_succ_right]
    exact and_congr_right' hlast

theorem Server.track_logged {cfg : BlockConfig} {s : Server α} {new : NewKvs α}
    (hn : 0 < new.sNew) (start : ℕ) (commit : Bool) :
    (s.track cfg new start commit).2 = [] ↔
      ∀ t ∈ s.tables, ∀ i < (inferSeqIds cfg new.bh).length, HasRoom t (start + new.sNew) i := by
  rw [Server.track, List.flatMap_eq_nil_iff]
  refine forall₂_congr fun t _ => ?_
  rw [PagedKV.inferSeqIds_eq, logged_trackWrite t start hn, List.length_map, List.length_range]

theorem Server.rollbackTo_logged (s : Server α) (target : ℕ) : (s.rollbackTo target).2 = [] :=
  List.flatMap_eq_nil_iff.mpr fun t _ => logged_rollbackCall target t

theorem Server.commitTo_logged (s : Server α) (target : ℕ) : (s.commitTo target).2 = [] :=
  List.flatMap_eq_nil_iff.mpr fun t _ => logged_commitCall target t

/-! ### Snapshots -/

section Snapshots

variable {κ : Type}

def Storage.OnOneDevice : Storage κ → Prop
  | .whole _ => True
  | .mixed _ => False

theorem writeToCache_onOneDevice (c : Cache κ) (start stop bhStart bhEnd : ℕ) (src : Block κ)
    (srcIdx : Option SourceSlice) :
    (writeToCache c start stop bhStart bhEnd src srcIdx).1.storage.OnOneDevice ↔
      c.storage.OnOneDevice := by
  obtain ⟨seqLen, d, storage⟩ := c
  cases storage with
  | mixed segments => exact Iff.rfl
  | whole segment =>
    simp only [writeToCache]
    split <;> exact Iff.rfl

theorem writeRows_onOneDevice (heads sourceHeads bhStart start sNew : ℕ) (src : Block κ) (n : ℕ) :
    ∀ (i : ℕ) (c : Cache κ),
      (writeRows heads sourceHeads bhStart start sNew src n i c).1.storage.OnOneDevice ↔
        c.storage.OnOneDevice := by
  induction n with
  | zero => exact fun _ _ => Iff.rfl
  | succ n ih =>
    intro i c
    have hrow := writeToCache_onOneDevice c start (start + sNew) (bhStart + i * heads)
      (bhStart + i * heads + sourceHeads) src
      (some ⟨sNew, i * sourceHeads, i * sourceHeads + sourceHeads⟩)
    rw [writeRows]
    split
    · next hw =>
      rw [hw] at hrow
      exact hrow
    · next hw =>
      rw [hw] at hrow
      exact (ih _ _).trans hrow

theorem writeKvs_onOneDevice (cfg : BlockConfig) (p : KVMultiplex.Policy) (c : Cache (Cell α))
    (startPosition : ℤ) (mb : MicroBatch) (kvs : PagedKV.Tensor α × PagedKV.Tensor α) :
    (writeKvs cfg p c startPosition mb kvs).1.storage.OnOneDevice ↔ c.storage.OnOneDevice := by
  rw [writeKvs]
  by_cases hheads : cfg.attentionHeads = 0
  · rw [if_pos hheads]
  · rw [if_neg hheads]
    cases unpack c.d kvs with
    | error e => exact Iff.rfl
    | ok new =>
      dsimp only
      split
      · exact Iff.rfl
      · split
        · exact Iff.rfl
        · split
          · exact writeRows_onOneDevice _ _ _ _ _ _ _ _ _
          · exact writeToCache_onOneDevice _ _ _ _ _ _ _

theorem reorderAndWriteCache_onOneDevice [Zero α] (cfg : BlockConfig) (p : KVMultiplex.Policy)
    (c : Cache (Cell α)) (pkv : Pkv (Cell α)) (ids : PositionIds) (mb : MicroBatch) :
    (reorderAndWriteCache cfg p c pkv ids mb).1.storage.OnOneDevice ↔ c.storage.OnOneDevice := by
  rw [reorderAndWriteCache]
  split_ifs
  · exact Iff.rfl
  · exact Iff.rfl
  · exact Iff.rfl
  · exact writeKvs_onOneDevice cfg p c 0 mb _

def Cache.slotWidth (c : Cache κ) (heads : ℕ) (p : KVMultiplex.Policy) (mb : MicroBatch) : ℕ :=
  min ((c.slot heads p mb).batchStart * heads + (c.slot heads p mb).activeBatchSize * heads) c.bh -
    (c.slot heads p mb).batchStart * heads

def Staging.Offloads (st : Staging κ) (c : Cache κ) (heads : ℕ) (mb : MicroBatch) : Prop :=
  c.Multiplexing heads mb ∧ st.onGpu = true ∧ c.storage.OnOneDevice

/-- The positions and the columns of the buffer of a micro-batch. A new one is made to measure. -/
def Staging.bufferShape (st : Staging κ) (mbIndex seqLen width : ℕ) : ℕ × ℕ :=
  ((st.staged mbIndex).map fun b => (b.seqLen, b.segment.width)).getD (seqLen, width)

def Staging.Takes (st : Staging κ) (c : Cache κ) (heads : ℕ) (p : KVMultiplex.Policy)
    (mb : MicroBatch) (tokens : ℕ) : Prop :=
  let n := if tokens = 0 then c.seqLen else tokens
  let shape := st.bufferShape (mb.index p) c.seqLen (c.slotWidth heads p mb)
  Broadcasts (min n c.seqLen) (min n shape.1) ∧ Broadcasts (c.slotWidth heads p mb) shape.2

/-- What the end of a write leaves of the staging when it logs nothing. -/
structure Saved (p : KVMultiplex.Policy) (st st' : Staging κ) (c : Cache κ) (heads : ℕ)
    (mb : MicroBatch) : Prop where
  onGpu : st'.onGpu = st.onGpu
  shape : st'.bufferShape (mb.index p) c.seqLen (c.slotWidth heads p mb) =
    st.bufferShape (mb.index p) c.seqLen (c.slotWidth heads p mb)
  holds : st.Offloads c heads mb → st'.Holds (c.slot heads p mb) (mb.index p)

section

variable {cfg : BlockConfig} {p : KVMultiplex.Policy} {st : Staging κ} {c c' : Cache κ}
  {mb : MicroBatch} {heads tokens : ℕ}

theorem SameShape.slot (h : SameShape c c') : c'.slot heads p mb = c.slot heads p mb := by
  simp only [Cache.slot, Cache.batch, h.bh]

theorem SameShape.multiplexing (h : SameShape c c') :
    c'.Multiplexing heads mb ↔ c.Multiplexing heads mb := by
  simp only [Cache.Multiplexing, Cache.batch, h.bh]

theorem SameShape.slotWidth (h : SameShape c c') :
    c'.slotWidth heads p mb = c.slotWidth heads p mb := by
  simp only [Cache.slotWidth, h.slot, h.bh]

theorem SameShape.takes (h : SameShape c c') :
    st.Takes c' heads p mb tokens ↔ st.Takes c heads p mb tokens := by
  simp only [Staging.Takes, h.slotWidth, h.seqLen]

theorem SameShape.offloads (h : SameShape c c')
    (hdevice : c'.storage.OnOneDevice ↔ c.storage.OnOneDevice) :
    st.Offloads c' heads mb ↔ st.Offloads c heads mb :=
  and_congr h.multiplexing (and_congr_right' hdevice)

theorem Saved.offloads {st' : Staging κ} (h : Saved p st st' c heads mb) :
    st'.Offloads c heads mb ↔ st.Offloads c heads mb := by
  simp only [Staging.Offloads, h.onGpu]

theorem Saved.takes {st' : Staging κ} (h : Saved p st st' c heads mb) :
    st'.Takes c heads p mb tokens ↔ st.Takes c heads p mb tokens := by
  simp only [Staging.Takes, h.shape]

theorem copySlice_columns (x : Segment κ) (src : Block κ) (seqLen n : ℕ) :
    (∃ x', x.copySlice seqLen 0 n 0 x.width src = .ok x' ∧ x'.width = x.width ∧
        Broadcasts src.tokens (min n seqLen) ∧ Broadcasts src.width x.width) ∨
      x.copySlice seqLen 0 n 0 x.width src = .error .runtimeError ∧
        ¬(Broadcasts src.tokens (min n seqLen) ∧ Broadcasts src.width x.width) := by
  rw [Segment.copySlice, Nat.min_self, Nat.sub_zero, Nat.sub_zero]
  split_ifs with h
  · exact .inl ⟨_, rfl, rfl, h⟩
  · exact .inr ⟨rfl, h⟩

/-- `copy_` to the buffer raises unless it takes the snapshot, and `offload_microbatch_kv` logs what
it raises. -/
theorem offloadMicrobatchKv_whole (hcfg : cfg.attentionHeads = heads) {segment : Segment κ}
    (hstorage : c.storage = .whole segment) (hgpu : st.onGpu = true)
    (hwidth : 0 < c.slotWidth heads p mb) :
    let r := offloadMicrobatchKv cfg st c (mb.index p) tokens (c.slot heads p mb)
    (r.2 = .ok () ↔ st.Takes c heads p mb tokens) ∧
      (r.2 = .ok () → r.1.onGpu = st.onGpu ∧ r.1.Holds (c.slot heads p mb) (mb.index p) ∧
        r.1.bufferShape (mb.index p) c.seqLen (c.slotWidth heads p mb) =
          st.bufferShape (mb.index p) c.seqLen (c.slotWidth heads p mb)) := by
  have hbh : c.bh = segment.width := by
    rw [Cache.bh, hstorage]
    exact Nat.add_zero _
  have hne : ¬(st.onGpu = false ∨ min ((c.slot heads p mb).batchStart * heads +
      (c.slot heads p mb).activeBatchSize * heads) segment.width ≤
        (c.slot heads p mb).batchStart * heads) := by
    rw [Cache.slotWidth, hbh] at hwidth
    rintro (h | h)
    · rw [hgpu] at h
      cases h
    · omega
  intro r
  simp only [r, offloadMicrobatchKv, hstorage, hcfg, if_neg hne, Staging.Takes,
    Staging.bufferShape]
  rw [← hbh, ← Cache.slotWidth]
  generalize (if tokens = 0 then c.seqLen else tokens) = n
  cases hbuffer : st.staged (mb.index p) with
  | none =>
    simp only [Option.map_none, Option.getD_none]
    rcases copySlice_columns ⟨c.slotWidth heads p mb, fun s col =>
        segment.data s ((c.slot heads p mb).batchStart * heads + col)⟩
      ⟨min n c.seqLen, c.slotWidth heads p mb, fun s col =>
        segment.data s ((c.slot heads p mb).batchStart * heads + col)⟩ c.seqLen n with
      ⟨x', hcopy, hwidth', htakes⟩ | ⟨hcopy, htakes⟩
    · rw [hcopy]
      exact ⟨iff_of_true rfl htakes, fun _ => ⟨rfl, Function.update_self .., by simp [hwidth']⟩⟩
    · rw [hcopy]
      exact ⟨iff_of_false (fun h => by cases h) htakes, fun h => by cases h⟩
  | some buffer =>
    simp only [Option.map_some, Option.getD_some]
    rcases copySlice_columns buffer.segment
      ⟨min n c.seqLen, c.slotWidth heads p mb, fun s col =>
        segment.data s ((c.slot heads p mb).batchStart * heads + col)⟩ buffer.seqLen n with
      ⟨x', hcopy, hwidth', htakes⟩ | ⟨hcopy, htakes⟩
    · rw [hcopy]
      exact ⟨iff_of_true rfl htakes, fun _ => ⟨rfl, Function.update_self .., by simp [hwidth']⟩⟩
    · rw [hcopy]
      exact ⟨iff_of_false (fun h => by cases h) htakes, fun h => by cases h⟩

theorem offloadWritten_spec (hcfg : cfg.attentionHeads = heads)
    (hwidth : c.Multiplexing heads mb → 0 < c.slotWidth heads p mb) :
    let w := offloadWritten cfg p st c tokens mb
    w.cache = c ∧ w.outcome = .ok () ∧
      (w.logged = [] ↔ (st.Offloads c heads mb → st.Takes c heads p mb tokens)) ∧
      (w.logged = [] → Saved p st w.staging c heads mb) := by
  intro w
  simp only [w, offloadWritten, hcfg]
  by_cases hmux : c.Multiplexing heads mb
  · rw [if_pos hmux]
    by_cases hoff : st.Offloads c heads mb
    · obtain ⟨-, hgpu, hone⟩ := hoff
      cases hstorage : c.storage with
      | mixed segments =>
        rw [hstorage] at hone
        cases hone
      | whole segment =>
        obtain ⟨hok, hsaved⟩ := @offloadMicrobatchKv_whole _ cfg p st c mb heads tokens hcfg segment
          hstorage hgpu (hwidth hmux)
        cases hr : (offloadMicrobatchKv cfg st c (mb.index p) tokens (c.slot heads p mb)) with
        | mk st' outcome =>
          rw [hr] at hok hsaved
          cases outcome with
          | error e =>
            refine ⟨rfl, rfl, iff_of_false (List.cons_ne_nil _ _) fun h => ?_,
              fun h => absurd h (List.cons_ne_nil _ _)⟩
            cases hok.mpr (h ⟨hmux, hgpu, hone⟩)
          | ok =>
            obtain ⟨hst, hholds, hshape⟩ := hsaved rfl
            exact ⟨rfl, rfl, iff_of_true rfl fun _ => hok.mp rfl, fun _ =>
              ⟨hst, hshape, fun _ => hholds⟩⟩
    · -- nothing is offloaded
      have hskip : offloadMicrobatchKv cfg st c (mb.index p) tokens (c.slot heads p mb) =
          (st, .ok ()) := by
        rw [offloadMicrobatchKv]
        cases hstorage : c.storage with
        | mixed segments => rfl
        | whole segment =>
          refine if_pos (.inl ?_)
          by_contra hgpu
          rw [Bool.not_eq_false] at hgpu
          refine hoff ⟨hmux, hgpu, ?_⟩
          rw [hstorage]
          trivial
      rw [hskip]
      exact ⟨rfl, rfl, iff_of_true rfl fun h => absurd h hoff, fun _ =>
        ⟨rfl, rfl, fun h => absurd h hoff⟩⟩
  · rw [if_neg hmux]
    exact ⟨rfl, rfl, iff_of_true rfl fun h => absurd h.1 hmux, fun _ =>
      ⟨rfl, rfl, fun h => absurd h.1 hmux⟩⟩

/-- A slot that has been saved is read as it is. -/
theorem Saved.selectCache {st' : Staging κ} (h : Saved p st st' c heads mb)
    (hcfg : cfg.numAttentionHeads = some heads) (n : ℕ) :
    selectCache cfg p st' c n mb = ((st', c), c.select cfg p n mb) := by
  by_cases hoff : st.Offloads c heads mb
  · exact selectCache_held hcfg fun _ => h.holds hoff
  · simp only [KVSlab.selectCache, hcfg, Option.getD_some]
    split_ifs with hrestore
    · have hskip : prefetchMicrobatchKv cfg p st' c (mb.index p) = (st', c) := by
        rw [prefetchMicrobatchKv]
        split
        · next segment buffer hstorage hbuffer =>
          refine if_pos (.inl ?_)
          by_contra hgpu
          rw [Bool.not_eq_false] at hgpu
          refine hoff ⟨hrestore.2.2.2.2.1, h.onGpu ▸ hgpu, ?_⟩
          rw [hstorage]
          trivial
        · rfl
      rw [hskip]
    · rfl

end

end Snapshots

/-! ### What a round is to do -/

/-- What the callers pass: the keys of `rows` rows with their heads, at least one token, and ids
for the same rows. The slab has columns for whole rows. -/
structure Called (cfg : BlockConfig) (s : Server α) (new : NewKvs α) (ids : Option PositionIds)
    (mb : MicroBatch) (heads kvHeads rows : ℕ) : Prop where
  attentionHeads : cfg.numAttentionHeads = some heads
  heads_pos : 0 < heads
  kvHeads_dvd : kvHeads ∣ heads
  bh : new.bh = rows * kvHeads
  sNew_pos : 0 < new.sNew
  fullBatchSize : 0 < mb.fullBatchSize
  microBatchSize : mb.microBatchSize = rows
  rows_pos : 0 < rows
  ids : 0 < writePosition ids → (givenIds ids).rows.length = rows
  slab : heads ∣ s.cache.bh
  tables : ∀ t ∈ s.tables, Inv t

/-- The new tokens are written, and behind accepted tokens the rows are then packed as their ids
say. -/
def Updated [Zero α] (cfg : BlockConfig) (p : KVMultiplex.Policy) (c : Cache (Cell α))
    (new : NewKvs α) (ids : Option PositionIds) (mb : MicroBatch) (heads kvHeads rows : ℕ)
    (c' : Cache (Cell α)) : Prop :=
  let first := firstRow cfg p c mb
  let ext := extendedIds ids new.sNew
  ∃ c₁, Stores heads (writePosition ids) new.sNew first rows kvHeads (newCell new kvHeads) c c₁ ∧
    (writePosition ids = 0 → c' = c₁) ∧
    (0 < writePosition ids → ∃ pkv : Pkv (Cell α), pkv.batch = rows ∧ pkv.heads = heads ∧
      pkv.len = writePosition ids + new.sNew ∧ RowsOf c₁ heads first pkv ∧
      Stores heads 0 (maxNewLength pkv.len ext.rows) first rows heads (packed pkv ext) c₁ c')

/-- An inner operation has failed: a paged table has raised, a snapshot was not taken, the slab has
raised, or there was nothing to select. -/
def Failed (run : TaskRun α) : Prop :=
  run.logged ≠ [] ∨ run.offloads ≠ [] ∨ (∃ e, run.outcome = .error e) ∨
    run.outcome = .ok .unselected

theorem not_failed {run : TaskRun α} {ended : Ended} (hlogged : run.logged = [])
    (hoffloads : run.offloads = []) (houtcome : run.outcome = .ok ended)
    (hended : ended ≠ .unselected) : ¬Failed run := by
  rintro (h | h | ⟨e, he⟩ | h)
  · exact h hlogged
  · exact h hoffloads
  · rw [houtcome] at he
    cases he
  · rw [houtcome] at h
    exact hended (Except.ok.inj h)

/-- A call that returns normally has updated the slab, and a failure in it reaches the caller. -/
def NeverDropped [Zero α] (cfg : BlockConfig) (p : KVMultiplex.Policy) (s : Server α)
    (new : NewKvs α) (ids : Option PositionIds) (mb : MicroBatch) (heads kvHeads rows : ℕ) :
    Prop :=
  let r := updateCacheAndAsyncReorder cfg p s new ids mb
  (r.2 = .ok () → Updated cfg p s.cache new ids mb heads kvHeads rows r.1.cache) ∧
    (Failed (reorderTask cfg p s new ids mb) → ∃ e, r.2 = .error e)

structure Fits (cfg : BlockConfig) (p : KVMultiplex.Policy) (s : Server α) (new : NewKvs α)
    (ids : Option PositionIds) (mb : MicroBatch) (heads rows : ℕ) : Prop where
  headDim : new.d = s.cache.d
  lastRow : firstRow cfg p s.cache mb + rows ≤ s.cache.batch heads
  tokens : writePosition ids + new.sNew ≤ s.cache.seqLen
  /-- There is a page for every token of the round, once what was speculative is dropped. -/
  pages : ∀ t ∈ s.tables, ∀ i < (inferSeqIds cfg new.bh).length,
    if writePosition ids = 0 then HasRoom t new.sNew i
    else RoomAfterRollback t (writePosition ids) (writePosition ids + new.sNew) i
  /-- The working slot holds the rows that are read back. -/
  slot : 0 < writePosition ids → s.cache.Multiplexing heads mb →
    rows ≤ (s.cache.slot heads p mb).activeBatchSize
  packed : 0 < writePosition ids →
    maxNewLength (writePosition ids + new.sNew) (extendedIds ids new.sNew).rows ≤ s.cache.seqLen
  /-- The buffer of the micro-batch takes the snapshots of the round. -/
  snapshots : s.staging.Offloads s.cache heads mb →
    s.staging.Takes s.cache heads p mb (writePosition ids + new.sNew) ∧
      (0 < writePosition ids → s.staging.Takes s.cache heads p mb
        (maxNewLength (writePosition ids + new.sNew) (extendedIds ids new.sNew).rows))

section Round

variable {cfg : BlockConfig} {p : KVMultiplex.Policy} {s : Server α} {new : NewKvs α}
  {ids : Option PositionIds} {mb : MicroBatch} {heads kvHeads rows : ℕ}

theorem Stores.fits {κ : Type} {c c' : Cache κ} {start n first : ℕ} {value : ℕ → ℕ → ℕ → κ}
    (h : Stores heads start n first rows kvHeads value c c') (hn : 0 < n) (hrows : 0 < rows)
    (hkv : 0 < kvHeads) (hslab : heads ∣ c.bh) :
    start + n ≤ c.seqLen ∧ first + rows ≤ c.batch heads := by
  have hlast := lt_of_cell? (h.stored (rows - 1) (by omega) (kvHeads - 1) (by omega) (n - 1)
    (by omega))
  rw [h.shape.seqLen, h.shape.bh] at hlast
  obtain ⟨batch, hbatch⟩ := hslab
  have hheads : 0 < heads := Nat.pos_of_ne_zero fun h0 => by
    rw [h0, Nat.zero_mul] at hbatch
    omega
  have hcol : (first + (rows - 1)) * heads < batch * heads := by
    rw [Nat.mul_comm batch, ← hbatch]
    omega
  have := Nat.lt_of_mul_lt_mul_right hcol
  rw [Cache.batch, hbatch, Nat.mul_div_cancel_left _ hheads]
  omega

theorem cacheLenOf_extendedIds {n : ℕ} (hpos : 0 < writePosition ids) (hn : 0 < n) :
    cacheLenOf (extendedIds ids n).rows = writePosition ids + n := by
  refine Speculative.cacheLenOf_extendIds (fun h0 => ?_) hn
  rw [writePosition, h0] at hpos
  exact Nat.lt_irrefl 0 hpos

theorem lt_of_mem_extendedIds {n : ℕ} (hpos : 0 < writePosition ids) (hn : 0 < n) {row : List ℤ}
    (hrow : row ∈ (extendedIds ids n).rows) {id : ℤ} (hid : id ∈ row) :
    id < (writePosition ids + n : ℕ) := by
  rcases Int.lt_or_le id 0 with hneg | hvalid
  · omega
  · have := Speculative.lt_cacheLenOf hrow (s := id.toNat) (by rwa [Int.toNat_of_nonneg hvalid])
    rw [cacheLenOf_extendedIds hpos hn] at this
    omega

def treeWritten (cfg : BlockConfig) (s : Server α) (new : NewKvs α) (start : ℕ)
    (w : WriteResult (Cell α)) : Server α × List PagedKV.Raised :=
  Server.track cfg { cache := w.cache
                     staging := w.staging
                     tables := s.tables.map fun t => rollbackPagedTo t start } new start false

theorem endPosition_inRange {seqLen start n : ℕ} (hlt : start < seqLen)
    (hfit : start + n ≤ seqLen) : endPosition seqLen start n = start + n := by
  rw [endPosition, if_pos (by omega)]
  omega

theorem endPosition_zero {seqLen n : ℕ} (hfit : n ≤ seqLen) : endPosition seqLen 0 n = n := by
  rw [endPosition]
  split_ifs <;> omega

/-- The slot of a micro-batch whose rows lie in the slab has columns. -/
theorem slotWidth_pos {κ : Type} {c : Cache κ} (hheads : 0 < heads) (hfull : 0 < mb.fullBatchSize)
    (hmicro : 0 < mb.microBatchSize) (hrows : 0 < rows)
    (hlast : KVMultiplex.writeBatchStart (c.batch heads) mb.batchOffset mb.fullBatchSize
      (c.slot heads p mb) + rows ≤ c.batch heads) (hmux : c.Multiplexing heads mb) :
    0 < c.slotWidth heads p mb := by
  rw [KVMultiplex.writeBatchStart, if_neg hfull.ne', if_pos (show c.batch heads < mb.fullBatchSize
    from hmux)] at hlast
  have hactive : 0 < (c.slot heads p mb).activeBatchSize := by
    simp only [Cache.slot, KVMultiplex.Policy.resolveWorkingSlot,
      KVMultiplex.Policy.workingSlotBatchSize, if_neg hmicro.ne'] at hlast ⊢
    omega
  have hstart : (c.slot heads p mb).batchStart + 1 ≤ c.batch heads := by omega
  have hbh : ((c.slot heads p mb).batchStart + 1) * heads ≤ c.bh :=
    Nat.le_trans (Nat.mul_le_mul_right _ hstart) (Nat.div_mul_le_self _ _)
  have hone : 1 * heads ≤ (c.slot heads p mb).activeBatchSize * heads :=
    Nat.mul_le_mul_right _ hactive
  rw [Nat.add_mul] at hbh
  rw [Cache.slotWidth]
  omega

section Called

variable (hcalled : Called cfg s new ids mb heads kvHeads rows)

include hcalled

theorem Called.kvHeads_pos : 0 < kvHeads :=
  Nat.pos_of_dvd_of_pos hcalled.kvHeads_dvd hcalled.heads_pos

theorem Called.slotWidth_pos (hlast : firstRow cfg p s.cache mb + rows ≤ s.cache.batch heads)
    (hmux : s.cache.Multiplexing heads mb) : 0 < s.cache.slotWidth heads p mb := by
  rw [firstRow, attentionHeads_eq hcalled.attentionHeads] at hlast
  exact KVSlab.slotWidth_pos hcalled.heads_pos hcalled.fullBatchSize
    (hcalled.microBatchSize ▸ hcalled.rows_pos) hcalled.rows_pos hlast hmux

/-- The tree is written, and it is logged whether the snapshot was taken. -/
theorem Called.write (hd : new.d = s.cache.d)
    (hlast : firstRow cfg p s.cache mb + rows ≤ s.cache.batch heads)
    (hfit : writePosition ids + new.sNew ≤ s.cache.seqLen) {w : WriteResult (Cell α)}
    (hw : writeAndOffload cfg p s.staging s.cache (writePosition ids : ℕ) mb new = w) :
    w.outcome = .ok () ∧
      Stores heads (writePosition ids) new.sNew (firstRow cfg p s.cache mb) rows kvHeads
        (newCell new kvHeads) s.cache w.cache ∧
      (w.cache.storage.OnOneDevice ↔ s.cache.storage.OnOneDevice) ∧
      (w.logged = [] ↔ (s.staging.Offloads s.cache heads mb →
        s.staging.Takes s.cache heads p mb (writePosition ids + new.sNew))) ∧
      (w.logged = [] → Saved p s.staging w.staging w.cache heads mb) := by
  have hattention := attentionHeads_eq hcalled.attentionHeads
  have hlt : writePosition ids < s.cache.seqLen := by
    have := hcalled.sNew_pos
    omega
  obtain ⟨c, hwrite, hstores⟩ := writeKvs_rows hcalled.attentionHeads hcalled.heads_pos
    hcalled.kvHeads_dvd hcalled.bh hd hcalled.fullBatchSize hcalled.microBatchSize hcalled.rows_pos
    hlast hlt hfit
  have hdevice := writeKvs_onOneDevice cfg p s.cache (writePosition ids : ℕ) mb (tensors new)
  rw [hwrite] at hdevice
  obtain ⟨hcache, hok, hlogged, hsaved⟩ := @offloadWritten_spec _ cfg p s.staging c mb heads
    (writePosition ids + new.sNew) hattention fun hmux => by
      rw [hstores.shape.slotWidth]
      exact hcalled.slotWidth_pos hlast (hstores.shape.multiplexing.mp hmux)
  rw [writeAndOffload, hwrite] at hw
  simp only [hstores.shape.seqLen, endPosition_inRange hlt hfit] at hw
  subst hw
  rw [hcache]
  rw [hstores.shape.offloads hdevice, hstores.shape.takes] at hlogged
  exact ⟨hok, hstores, hdevice, hlogged, hsaved⟩

theorem Called.treeWritten_logged (w : WriteResult (Cell α)) :
    (treeWritten cfg s new (writePosition ids) w).2 = [] ↔
      ∀ t ∈ s.tables, ∀ i < (inferSeqIds cfg new.bh).length,
        RoomAfterRollback t (writePosition ids) (writePosition ids + new.sNew) i := by
  rw [treeWritten, Server.track_logged hcalled.sNew_pos, List.forall_mem_map]
  exact forall₂_congr fun t ht => forall₂_congr fun i _ =>
    PagedKV.hasRoom_rolledBack (hcalled.tables t ht) _ _ i

/-- The rows are read back, as far as the working slot goes: all of them, if it holds them. -/
theorem Called.readBack (hlast : firstRow cfg p s.cache mb + rows ≤ s.cache.batch heads)
    (hfit : writePosition ids + new.sNew ≤ s.cache.seqLen) (hpos : 0 < writePosition ids)
    {c : Cache (Cell α)} {st : Staging (Cell α)} (hshape : SameShape s.cache c)
    (hsaved : Saved p s.staging st c heads mb) :
    ∃ pkv, selectCache cfg p st c (cacheLenOf (extendedIds ids new.sNew).rows) mb =
        ((st, c), .ok (some pkv)) ∧
      pkv.batch = (if s.cache.Multiplexing heads mb then
        (s.cache.slot heads p mb).activeBatchSize else rows) ∧
      ((s.cache.Multiplexing heads mb → rows ≤ (s.cache.slot heads p mb).activeBatchSize) →
        pkv.batch = rows) ∧
      pkv.heads = heads ∧ pkv.len = writePosition ids + new.sNew ∧ pkv.d = s.cache.d ∧
      RowsOf c heads (firstRow cfg p s.cache mb) pkv := by
  rw [cacheLenOf_extendedIds hpos hcalled.sNew_pos, hsaved.selectCache hcalled.attentionHeads]
  obtain ⟨hle, pkv, hselect, hbatch, hrest⟩ := select_rows hcalled.attentionHeads
    hcalled.heads_pos hcalled.fullBatchSize hcalled.microBatchSize hcalled.rows_pos hlast hshape
    (by omega) hfit
  refine ⟨pkv, by rw [hselect], hbatch, fun hslot => ?_, hrest⟩
  refine Nat.le_antisymm (hbatch.trans_le hle) (hbatch ▸ ?_)
  split_ifs with hmux
  · exact hslot hmux
  · exact Nat.le_refl _

theorem Called.extendedIds_length (hpos : 0 < writePosition ids) :
    (extendedIds ids new.sNew).rows.length = rows := by
  simp only [extendedIds, PositionIds.extend, extendIds, List.length_map, hcalled.ids hpos]

end Called

variable [Zero α]

theorem neverDropped_iff_updated :
    NeverDropped cfg p s new ids mb heads kvHeads rows ↔
      ¬Failed (reorderTask cfg p s new ids mb) ∧
        Updated cfg p s.cache new ids mb heads kvHeads rows
          (reorderTask cfg p s new ids mb).server.cache := by
  simp only [NeverDropped, updateCacheAndAsyncReorder, reduceCtorEq, exists_false, true_imp_iff]
  exact and_comm

/-! ### The run of a round -/

theorem reorderTask_error {c : Cache (Cell α)} {e : Raised}
    (hw : writeKvs cfg p s.cache (writePosition ids : ℕ) mb (tensors new) = (c, .error e)) :
    (reorderTask cfg p s new ids mb).outcome = .error e := by
  by_cases h0 : writePosition ids = 0
  · rw [h0, Int.natCast_zero] at hw
    simp only [reorderTask, if_pos h0, writeAndOffload, hw]
  · simp only [reorderTask, if_neg h0, Server.rollbackTo, writeAndOffload, hw]

theorem reorderTask_prefill {w : WriteResult (Cell α)} (h0 : writePosition ids = 0)
    (hw : writeAndOffload cfg p s.staging s.cache (writePosition ids : ℕ) mb new = w)
    (hok : w.outcome = .ok ()) :
    let tracked := Server.track cfg { s with cache := w.cache, staging := w.staging } new 0 true
    reorderTask cfg p s new ids mb = ⟨tracked.1, tracked.2, w.logged, .ok .written⟩ := by
  rw [h0, Int.natCast_zero] at hw
  simp only [reorderTask, if_pos h0, hw, hok]

theorem reorderTask_tree {w : WriteResult (Cell α)} (hpos : 0 < writePosition ids)
    (hw : writeAndOffload cfg p s.staging s.cache (writePosition ids : ℕ) mb new = w)
    (hok : w.outcome = .ok ()) :
    reorderTask cfg p s new ids mb =
      reorderBack cfg p (treeWritten cfg s new (writePosition ids) w).1 (extendedIds ids new.sNew)
        mb (treeWritten cfg s new (writePosition ids) w).2 w.logged := by
  have hcache : (s.rollbackTo (writePosition ids)).1.cache = s.cache := rfl
  have hstaging : (s.rollbackTo (writePosition ids)).1.staging = s.staging := rfl
  simp only [reorderTask, if_neg hpos.ne', hcache, hstaging, hw, hok, Server.rollbackTo_logged,
    List.nil_append]
  rfl

theorem reorderBack_logged {ids : PositionIds} {log : List PagedKV.Raised}
    {offloads : List Raised} {run : TaskRun α}
    (hrun : reorderBack cfg p s ids mb log offloads = run) (hlog : run.logged = [])
    (hoff : run.offloads = []) : log = [] ∧ offloads = [] := by
  rw [reorderBack] at hrun
  split at hrun
  · subst hrun
    exact ⟨hlog, hoff⟩
  · subst hrun
    exact ⟨hlog, hoff⟩
  · split at hrun
    · subst hrun
      exact ⟨hlog, hoff⟩
    · subst hrun
      exact ⟨(List.append_eq_nil_iff.mp hlog).1, (List.append_eq_nil_iff.mp hoff).1⟩

theorem reorderBack_ok {pkv : Pkv (Cell α)} {c : Cache (Cell α)} {newLen : ℕ} {lengths : List ℕ}
    {ids : PositionIds} (log : List PagedKV.Raised) (offloads : List Raised)
    (hselect : selectCache cfg p s.staging s.cache (cacheLenOf ids.rows) mb =
      ((s.staging, s.cache), .ok (some pkv)))
    (hreorder : reorderAndWriteCache cfg p s.cache pkv ids mb = (c, .ok (newLen, lengths))) :
    let run := reorderBack cfg p s ids mb log offloads
    let w := offloadWritten cfg p s.staging c (endPosition c.seqLen 0 newLen) mb
    run.server.cache = w.cache ∧ run.logged = log ∧ run.offloads = offloads ++ w.logged ∧
      run.outcome = .ok .reordered := by
  simp only [reorderBack, hselect, hreorder]
  refine ⟨rfl, ?_, trivial, trivial⟩
  rw [Server.commitTo_logged, List.append_nil]

theorem reorderBack_error {pkv : Pkv (Cell α)} {c : Cache (Cell α)} {e : Raised}
    {ids : PositionIds} (log : List PagedKV.Raised) (offloads : List Raised)
    (hselect : selectCache cfg p s.staging s.cache (cacheLenOf ids.rows) mb =
      ((s.staging, s.cache), .ok (some pkv)))
    (hreorder : reorderAndWriteCache cfg p s.cache pkv ids mb = (c, .error e)) :
    (reorderBack cfg p s ids mb log offloads).outcome = .error e := by
  simp only [reorderBack, hselect, hreorder]

theorem reorderAndWriteCache_otherRows {c : Cache (Cell α)} {pkv : Pkv (Cell α)}
    {ids : PositionIds} (h : ids.rows.length ≠ pkv.batch) :
    ∃ e, reorderAndWriteCache cfg p c pkv ids mb = (c, .error e) := by
  simp only [reorderAndWriteCache]
  split_ifs with h0 h1
  · exact ⟨_, rfl⟩
  · exact ⟨_, rfl⟩
  · exact absurd (.inl h) h1
  · exact absurd (.inl h) h1

theorem Called.refused (hcalled : Called cfg s new ids mb heads kvHeads rows)
    (hd : new.d ≠ s.cache.d)
    (hlast : firstRow cfg p s.cache mb + rows ≤ s.cache.batch heads) :
    ∃ e, (reorderTask cfg p s new ids mb).outcome = .error e := by
  have hrows := (sourceRows_eq hcalled.attentionHeads hcalled.heads_pos hcalled.kvHeads_dvd
    hcalled.bh hcalled.fullBatchSize hcalled.microBatchSize hcalled.rows_pos).2
  have hinside : firstRow cfg p s.cache mb + new.bh / mb.sourceHeads cfg new.bh ≤
      s.cache.batch cfg.attentionHeads := by
    rwa [hrows, attentionHeads_eq hcalled.attentionHeads]
  obtain ⟨e, he⟩ := writeKvs_refused (writePosition ids : ℕ) hinside fun h => hd h.headDim
  exact ⟨e, reorderTask_error he⟩

/-! ### When a round is carried out -/

/-- What was read of all the rows is packed and written back, and it is logged whether the snapshot
was taken. -/
theorem packsBack (hcalled : Called cfg s new ids mb heads kvHeads rows)
    (hlast : firstRow cfg p s.cache mb + rows ≤ s.cache.batch heads)
    (hpos : 0 < writePosition ids)
    (hpacked : maxNewLength (writePosition ids + new.sNew) (extendedIds ids new.sNew).rows ≤
      s.cache.seqLen)
    {c : Cache (Cell α)} {st : Staging (Cell α)} (hshape : SameShape s.cache c)
    (hdevice : c.storage.OnOneDevice ↔ s.cache.storage.OnOneDevice)
    (hsaved : Saved p s.staging st c heads mb) {pkv : Pkv (Cell α)}
    (hrows : pkv.batch = rows) (hheads : pkv.heads = heads)
    (hlen : pkv.len = writePosition ids + new.sNew) (hd : pkv.d = s.cache.d) :
    let ext := extendedIds ids new.sNew
    ∃ c' newLen lengths, reorderAndWriteCache cfg p c pkv ext mb = (c', .ok (newLen, lengths)) ∧
      Stores heads 0 (maxNewLength pkv.len ext.rows) (firstRow cfg p s.cache mb) rows heads
        (packed pkv ext) c c' ∧
      ∀ w, offloadWritten cfg p st c' (endPosition c'.seqLen 0 newLen) mb = w →
        w.cache = c' ∧
          (w.logged = [] ↔ (s.staging.Offloads s.cache heads mb → s.staging.Takes s.cache heads p mb
            (maxNewLength (writePosition ids + new.sNew) ext.rows))) := by
  intro ext
  have hids : ∀ row ∈ ext.rows, ∀ id ∈ row, id < (pkv.len : ℤ) := by
    intro row hrow id hid
    rw [hlen]
    exact lt_of_mem_extendedIds hpos hcalled.sNew_pos hrow hid
  have hwidth : 0 < ext.width := Nat.lt_of_lt_of_le hcalled.sNew_pos (Nat.le_add_left _ _)
  have hlength : ext.rows.length = rows := hcalled.extendedIds_length hpos
  have hattention := attentionHeads_eq hcalled.attentionHeads
  have hfit : (pkv.reordered ext).len ≤ c.seqLen := by
    rw [reordered_len, hlen, hshape.seqLen]
    exact hpacked
  have hlast' : firstRow cfg p c mb + pkv.batch ≤ c.batch heads := by
    rw [hshape.firstRow, hrows, hshape.batch]
    exact hlast
  have hsource : mb.sourceHeads cfg (pkv.batch * heads) = heads := by
    rw [hrows]
    exact sourceHeads_eq hcalled.fullBatchSize hcalled.microBatchSize hcalled.rows_pos
      hcalled.heads_pos hattention.ge
  obtain ⟨c', hreorder, hstores⟩ := reorderAndWriteCache_stores hattention hcalled.heads_pos hheads
    (hd.trans hshape.d.symm) (hrows ▸ hcalled.rows_pos) (hlength.trans hrows.symm) hwidth hids hfit
    hsource hlast'
  have hshape' : SameShape s.cache c' := hshape.trans hstores.shape
  have hdevice' := reorderAndWriteCache_onOneDevice cfg p c pkv ext mb
  rw [hreorder] at hdevice'
  rw [hshape.firstRow, hrows, reordered_len] at hstores
  refine ⟨c', _, _, hreorder,
    hstores.congr fun b hb h _ t ht => reordered_cell hids (hlength.symm ▸ hb) ht, fun w hw => ?_⟩
  have hend : endPosition c'.seqLen 0 (pkv.reordered ext).len =
      maxNewLength (writePosition ids + new.sNew) ext.rows := by
    rw [reordered_len, hlen, hshape'.seqLen, endPosition_zero hpacked]
  rw [hend] at hw
  obtain ⟨hcache, -, hlogged, -⟩ := @offloadWritten_spec _ cfg p st c' mb heads
    (maxNewLength (writePosition ids + new.sNew) ext.rows) hattention fun hmux => by
      rw [hshape'.slotWidth]
      exact hcalled.slotWidth_pos hlast (hshape'.multiplexing.mp hmux)
  rw [hw] at hcache hlogged
  refine ⟨hcache, hlogged.trans (imp_congr ?_ ?_)⟩
  · rw [hstores.shape.offloads hdevice', hsaved.offloads, hshape.offloads hdevice]
  · rw [hstores.shape.takes, hsaved.takes, hshape.takes]

/-- The ids are for all the rows, and fewer are refused. -/
theorem Called.slot_of_reordered (hcalled : Called cfg s new ids mb heads kvHeads rows)
    (hpos : 0 < writePosition ids) {c : Cache (Cell α)} {pkv : Pkv (Cell α)}
    (hbatch : pkv.batch = if s.cache.Multiplexing heads mb then
      (s.cache.slot heads p mb).activeBatchSize else rows)
    (hok : ∀ e, reorderAndWriteCache cfg p c pkv (extendedIds ids new.sNew) mb ≠ (c, .error e))
    (hmux : s.cache.Multiplexing heads mb) :
    rows ≤ (s.cache.slot heads p mb).activeBatchSize := by
  by_contra hslot
  rw [if_pos hmux] at hbatch
  have hother : (extendedIds ids new.sNew).rows.length ≠ pkv.batch := by
    rw [hcalled.extendedIds_length hpos, hbatch]
    omega
  obtain ⟨e, he⟩ : ∃ e, reorderAndWriteCache cfg p c pkv (extendedIds ids new.sNew) mb =
      (c, .error e) := reorderAndWriteCache_otherRows hother
  exact hok e he

theorem Updated.maxNewLength_le (hcalled : Called cfg s new ids mb heads kvHeads rows)
    {c' : Cache (Cell α)} (hup : Updated cfg p s.cache new ids mb heads kvHeads rows c')
    (hpos : 0 < writePosition ids) :
    maxNewLength (writePosition ids + new.sNew) (extendedIds ids new.sNew).rows ≤
      s.cache.seqLen := by
  obtain ⟨c₁, htree, -, hpacked⟩ := hup
  obtain ⟨pkv, -, -, hlen, -, hstores⟩ := hpacked hpos
  rw [hlen] at hstores
  rcases Nat.eq_zero_or_pos (maxNewLength (writePosition ids + new.sNew)
    (extendedIds ids new.sNew).rows) with hmax | hmax
  · rw [hmax]
    exact Nat.zero_le _
  · have hslab : heads ∣ c₁.bh := htree.shape.bh ▸ hcalled.slab
    have hfit := (hstores.fits hmax hcalled.rows_pos hcalled.heads_pos hslab).1
    rwa [Nat.zero_add, htree.shape.seqLen] at hfit

theorem fits_of_updated (hcalled : Called cfg s new ids mb heads kvHeads rows)
    (hok : ¬Failed (reorderTask cfg p s new ids mb))
    (hup : Updated cfg p s.cache new ids mb heads kvHeads rows
      (reorderTask cfg p s new ids mb).server.cache) :
    Fits cfg p s new ids mb heads rows := by
  simp only [Failed, not_or, not_not, not_exists] at hok
  obtain ⟨hlogged, hoffloads, hraised, -⟩ := hok
  obtain ⟨c₁, htree, -⟩ := id hup
  obtain ⟨htokens, hlast⟩ :=
    htree.fits hcalled.sNew_pos hcalled.rows_pos hcalled.kvHeads_pos hcalled.slab
  have hd : new.d = s.cache.d := by
    by_contra hd
    obtain ⟨e, he⟩ := Called.refused (p := p) hcalled hd hlast
    exact hraised e he
  obtain ⟨hwok, hstores, hdevice, hsnapshot, hsaved⟩ := hcalled.write hd hlast htokens rfl
  generalize hw : writeAndOffload cfg p s.staging s.cache (writePosition ids : ℕ) mb new = w at *
  rcases Nat.eq_zero_or_pos (writePosition ids) with h0 | hpos
  · rw [reorderTask_prefill h0 hw hwok] at hlogged hoffloads
    rw [Server.track_logged hcalled.sNew_pos, Nat.zero_add] at hlogged
    refine ⟨hd, hlast, htokens, fun t ht i hi => ?_, ?_, ?_, fun hoff => ⟨?_, ?_⟩⟩
    · rw [if_pos h0]
      exact hlogged t ht i hi
    · exact fun hpos => absurd h0 hpos.ne'
    · exact fun hpos => absurd h0 hpos.ne'
    · exact hsnapshot.mp hoffloads hoff
    · exact fun hpos => absurd h0 hpos.ne'
  · rw [reorderTask_tree hpos hw hwok] at hlogged hoffloads hraised
    obtain ⟨htables, hwrite⟩ := reorderBack_logged rfl hlogged hoffloads
    obtain ⟨pkv, hselect, hbatch, hrows, hheads, hlen, hpkvd, -⟩ :=
      hcalled.readBack hlast htokens hpos hstores.shape (hsaved hwrite)
    have hslot := hcalled.slot_of_reordered hpos hbatch fun e he =>
      hraised e (reorderBack_error _ _ hselect he)
    have hmax := hup.maxNewLength_le hcalled hpos
    obtain ⟨c', newLen, lengths, hreorder, -, hback⟩ := packsBack hcalled hlast hpos hmax
      hstores.shape hdevice (hsaved hwrite) (hrows hslot) hheads hlen hpkvd
    obtain ⟨-, -, hoff, -⟩ := reorderBack_ok (s := (treeWritten cfg s new (writePosition ids) w).1)
      (treeWritten cfg s new (writePosition ids) w).2 w.logged hselect hreorder
    rw [hoff] at hoffloads
    refine ⟨hd, hlast, htokens, fun t ht i hi => ?_, fun _ => hslot, fun _ => hmax,
      fun hoffloading => ⟨hsnapshot.mp hwrite hoffloading, fun _ => ?_⟩⟩
    · rw [if_neg hpos.ne']
      exact (hcalled.treeWritten_logged w).mp htables t ht i hi
    · exact (hback _ rfl).2.mp (List.append_eq_nil_iff.mp hoffloads).2 hoffloading

theorem updated_of_fits (hcalled : Called cfg s new ids mb heads kvHeads rows)
    (hfits : Fits cfg p s new ids mb heads rows) :
    ¬Failed (reorderTask cfg p s new ids mb) ∧
      Updated cfg p s.cache new ids mb heads kvHeads rows
        (reorderTask cfg p s new ids mb).server.cache := by
  obtain ⟨hwok, hstores, hdevice, hsnapshot, hsaved⟩ :=
    hcalled.write hfits.headDim hfits.lastRow hfits.tokens rfl
  generalize hw : writeAndOffload cfg p s.staging s.cache (writePosition ids : ℕ) mb new = w at *
  have hwrite : w.logged = [] := hsnapshot.mpr fun hoff => (hfits.snapshots hoff).1
  rcases Nat.eq_zero_or_pos (writePosition ids) with h0 | hpos
  · have hlogged : (Server.track cfg { s with cache := w.cache, staging := w.staging } new 0
        true).2 = [] := by
      rw [Server.track_logged hcalled.sNew_pos, Nat.zero_add]
      intro t ht i hi
      have hroom := hfits.pages t ht i hi
      rwa [if_pos h0] at hroom
    rw [reorderTask_prefill h0 hw hwok]
    exact ⟨not_failed hlogged hwrite rfl (by decide), w.cache, hstores, fun _ => rfl,
      fun hpos => absurd h0 hpos.ne'⟩
  · have hlogged : (treeWritten cfg s new (writePosition ids) w).2 = [] := by
      rw [hcalled.treeWritten_logged]
      intro t ht i hi
      have hroom := hfits.pages t ht i hi
      rwa [if_neg hpos.ne'] at hroom
    obtain ⟨pkv, hselect, -, hrows, hheads, hlen, hd, hrowsOf⟩ :=
      hcalled.readBack hfits.lastRow hfits.tokens hpos hstores.shape (hsaved hwrite)
    have hrows := hrows (hfits.slot hpos)
    obtain ⟨c', newLen, lengths, hreorder, hpacked, hback⟩ := packsBack hcalled hfits.lastRow hpos
      (hfits.packed hpos) hstores.shape hdevice (hsaved hwrite) hrows hheads hlen hd
    obtain ⟨hcache, hlog, hoff, houtcome⟩ := reorderBack_ok (s := (treeWritten cfg s new
      (writePosition ids) w).1) (treeWritten cfg s new (writePosition ids) w).2 w.logged hselect
      hreorder
    obtain ⟨hsame, hback⟩ := hback _ rfl
    have hoffloads := hback.mpr fun hoff => (hfits.snapshots hoff).2 hpos
    rw [reorderTask_tree hpos hw hwok]
    refine ⟨not_failed (hlog.trans hlogged) (hoff.trans ?_) houtcome (by decide), w.cache, hstores,
      fun h0 => absurd h0 hpos.ne', fun _ => ⟨pkv, hrows, hheads, hlen, hrowsOf, ?_⟩⟩
    · rw [hwrite, List.nil_append]
      exact hoffloads
    · rw [hcache]
      exact hsame.symm ▸ hpacked

end Round

def acceptedIds : PositionIds where
  width := 3
  rows := [[0, 1, -1]]
  rows_width := by decide

def oneRow : Server ℕ :=
  ⟨twoSegments 4 1 1, ⟨true, fun _ => none, fun _ => none⟩, [PagedKV.smallTable]⟩

theorem oneRow_called {n : ℕ} (hn : 0 < n) :
    Called groupedHeads oneRow (constantKvs 1 n) (some acceptedIds) ⟨0, 1, 1⟩ 2 1 1 where
  attentionHeads := rfl
  heads_pos := by decide
  kvHeads_dvd := ⟨2, rfl⟩
  bh := rfl
  sNew_pos := hn
  fullBatchSize := by decide
  microBatchSize := rfl
  rows_pos := by decide
  ids _ := rfl
  slab := ⟨1, rfl⟩
  tables t ht := List.mem_singleton.mp ht ▸ PagedKV.inv_init PagedKV.smallTable_init

end BloomBee.KVSlab
