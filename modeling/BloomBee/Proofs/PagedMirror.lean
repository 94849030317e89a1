import BloomBee.Sanity.PagedShim
import Mathlib.Order.Interval.Finset.Nat

/-! The paged table against the slab that it is aliased onto. The slab holds position `p` of every
batch row in its row `p`, and the table hands each page of the slab to one sequence only. A handle
with a single batch row takes its pages in order, so the table mirrors the slab
(`mirrors_of_oneRow`); a second row reads other rows of the slab than it was written to. -/

set_option autoImplicit false

namespace BloomBee.PagedKV

open PagedKVTable Paging

variable {α : Type}

/-- The slab rows that the calls have written for batch row `b`, the last call being the first of
the list. -/
def slotsWritten (cfg : BlockConfig) (b : ℕ) : List (UpdateCall α) → Finset ℕ
  | [] => ∅
  | call :: calls =>
    if call.firstRow ≤ b ∧ b < call.firstRow + call.sourceBatchSize cfg then
      Finset.Ico call.startPosition (call.startPosition + call.new.sNew) ∪
        slotsWritten cfg b calls
    else slotsWritten cfg b calls

/-- Batch row `b`: its sequence is registered with as many tokens as the slab holds for the row,
and `gather_prefix` returns these rows of the slab. -/
def RowMirrored [Inhabited α] (cfg : BlockConfig) (t : PagedKVTable α)
    (done : List (UpdateCall α)) (b : ℕ) : Prop :=
  ∃ st K V, t.seqs.lookup (b : ℤ) = some st ∧ st.lAcc = (slotsWritten cfg b done).card ∧
    t.gatherPrefix b ((b * cfg.attentionHeads : ℕ), ((b + 1) * cfg.attentionHeads : ℕ)) =
      .ok (K, V) ∧
    K.shape = [st.lAcc, cfg.attentionHeads, t.d] ∧ V.shape = [st.lAcc, cfg.attentionHeads, t.d] ∧
    ∀ p < st.lAcc, ∀ c < cfg.attentionHeads, ∀ e,
      K.data p c e = t.k p (b * cfg.attentionHeads + c) e ∧
        V.data p c e = t.v p (b * cfg.attentionHeads + c) e

def Mirrors [Inhabited α] (cfg : BlockConfig) (t : PagedKVTable α) (done : List (UpdateCall α)) :
    Prop :=
  ∀ b < t.bh / cfg.attentionHeads, RowMirrored cfg t done b

def RunMirrors [Inhabited α] (cfg : BlockConfig) :
    PagedKVTable α → List (UpdateCall α) → List (UpdateCall α) → Prop
  | _, _, [] => True
  | t, done, call :: calls =>
    Mirrors cfg (updateCache cfg t call) (call :: done) ∧
      RunMirrors cfg (updateCache cfg t call) (call :: done) calls

/-- A call that brings tokens for the only row of the handle, leaves no gap behind what the row has,
and is tracked as one sequence. -/
def OneRow (cfg : BlockConfig) (done : List (UpdateCall α)) (call : UpdateCall α) : Prop :=
  0 < call.new.bh ∧ 0 < call.new.sNew ∧ (inferSeqIds cfg call.new.bh).length = 1 ∧
    call.startPosition ≤ (slotsWritten cfg 0 done).card

instance (cfg : BlockConfig) (done : List (UpdateCall α)) (call : UpdateCall α) :
    Decidable (OneRow cfg done call) := inferInstanceAs (Decidable (_ ∧ _ ∧ _ ∧ _))

def OneRowRun (cfg : BlockConfig) : List (UpdateCall α) → List (UpdateCall α) → Prop
  | _, [] => True
  | done, call :: calls => OneRow cfg done call ∧ OneRowRun cfg (call :: done) calls

/-! ### One call -/

/-- `_write_kvs` moves bytes only. -/
theorem writeKvs_books (cfg : BlockConfig) (t : PagedKVTable α) (call : UpdateCall α) :
    ∃ k v, writeKvs cfg t call = { t with k := k, v := v } := by
  unfold writeKvs
  simp only
  split_ifs
  · induction call.sourceBatchSize cfg with
    | zero => exact ⟨t.k, t.v, rfl⟩
    | succ n ih =>
      obtain ⟨k, v, hkv⟩ := ih
      rw [List.range_succ, List.foldl_append, List.foldl_cons, List.foldl_nil, hkv]
      exact ⟨_, _, rfl⟩
  · exact ⟨_, _, rfl⟩

/-- Sequence 0 has taken its pages in the order of the slab, and `n` tokens of it are
committed. -/
structure Linear (t : PagedKVTable α) (n : ℕ) : Prop where
  inv : Inv t
  pages : ((t.seqs.lookup 0).getD {}).pages ++ t.free = List.range t.numPages
  lAcc : lAccOf t 0 = n

theorem Linear.with_bytes {t : PagedKVTable α} {n : ℕ} (h : Linear t n) (k v : ℕ → ℕ → ℕ → α) :
    Linear { t with k := k, v := v } n :=
  ⟨⟨h.inv.pages, h.inv.fits⟩, h.pages, h.lAcc⟩

/-- A tracked write that fits into the slab finds its pages. -/
theorem Linear.track {t : PagedKVTable α} {n start sNew : ℕ} (h : Linear t n) (hpos : 0 < sNew)
    (hfit : start + sNew ≤ t.numPages * t.blockSize) :
    Linear (t.trackWrite 0 start sNew true).1 (max n (start + sNew)) ∧
      (0 : ℤ) ∈ (t.trackWrite 0 start sNew true).1.seqs := by
  have hheld : heldPages t 0 = ((t.seqs.lookup 0).getD {}).pages.length := by
    rw [heldPages]
    cases t.seqs.lookup 0 <;> rfl
  have hcount := congrArg List.length h.pages
  rw [List.length_append, List.length_range, ← hheld] at hcount
  have hroom : lacking t (start + sNew) 0 ≤ t.free.length := by
    have := @pagesFor_le α t (start + sNew) t.numPages hfit
    rw [lacking]
    omega
  have hinv := inv_apply h.inv (.trackWrite 0 start sNew true)
  rw [Op.apply, trackWrite_eq t 0 start hpos true] at hinv
  rw [trackWrite_eq t 0 start hpos true]
  refine ⟨⟨hinv, ?_, ?_⟩, (AList.mem_insert _).mpr (.inl rfl)⟩
  · simp only [AList.lookup_insert, Option.getD_some, trackedState, if_pos hroom, advance]
    rw [List.append_assoc, List.take_append_drop, h.pages]
  · have hacc : ((t.seqs.lookup 0).getD {}).lAcc = n := by
      rw [← h.lAcc, lAccOf]
      cases t.seqs.lookup 0 <;> rfl
    simp only [lAccOf, AList.lookup_insert, Option.elim_some, trackedState, if_pos hroom, advance,
      hacc, Bool.true_and, decide_eq_true_eq]
    split_ifs <;> omega

/-- A call for the only row of a handle that holds one. -/
theorem sourceBatchSize_one {cfg : BlockConfig} {t : PagedKVTable α} {call : UpdateCall α}
    (hin : call.InRange cfg t) (hbh : t.bh = cfg.attentionHeads) (hpos : 0 < call.new.bh) :
    call.firstRow = 0 ∧ call.sourceBatchSize cfg = 1 := by
  obtain ⟨hheads, -, hdiv, -, hfit, -⟩ := hin
  have hle : call.firstRow + call.sourceBatchSize cfg ≤ 1 := by
    rw [hbh] at hfit
    exact Nat.le_of_mul_le_mul_right (by rwa [Nat.one_mul]) hheads
  have hbatch : call.sourceBatchSize cfg ≠ 0 := by
    intro hzero
    have := Nat.div_add_mod call.new.bh (call.sourceHeads cfg)
    rw [UpdateCall.sourceBatchSize] at hzero
    rw [hzero, hdiv] at this
    omega
  omega

theorem Linear.updateCache {cfg : BlockConfig} {t : PagedKVTable α} {done : List (UpdateCall α)}
    {call : UpdateCall α} {n : ℕ} (h : Linear t n) (hin : call.InRange cfg t)
    (hone : OneRow cfg done call) :
    Linear (updateCache cfg t call) (max n (call.startPosition + call.new.sNew)) ∧
      (0 : ℤ) ∈ (updateCache cfg t call).seqs ∧ (updateCache cfg t call).bh = t.bh ∧
      (updateCache cfg t call).d = t.d ∧ (updateCache cfg t call).numPages = t.numPages ∧
      (updateCache cfg t call).blockSize = t.blockSize := by
  obtain ⟨k, v, hkv⟩ := writeKvs_books cfg t call
  obtain ⟨-, hpos, hseq, -⟩ := hone
  have hids : inferSeqIds cfg call.new.bh = [0] := by
    rw [inferSeqIds_eq, hseq]
    rfl
  have h' := h.with_bytes k v
  have hkept := Kept.apply h'.inv (.trackWrite 0 call.startPosition call.new.sNew true)
  rw [BloomBee.PagedKV.updateCache, hids, hkv, trackPagedWrite, List.foldl_cons, List.foldl_nil]
  obtain ⟨hlin, hmem⟩ := h'.track hpos hin.2.2.2.2.2.2
  exact ⟨hlin, hmem, hkept.bh, hkept.d, hkept.numPages, hkept.blockSize⟩

/-! ### The slots -/

/-- Without gaps the slots that are written are those below the number of tokens. -/
theorem slotsWritten_range {cfg : BlockConfig} {done : List (UpdateCall α)}
    {call : UpdateCall α} {n : ℕ} (hfirst : call.firstRow = 0)
    (hsize : call.sourceBatchSize cfg = 1) (hslots : slotsWritten cfg 0 done = Finset.range n)
    (hstart : call.startPosition ≤ n) :
    slotsWritten cfg 0 (call :: done) =
      Finset.range (max n (call.startPosition + call.new.sNew)) := by
  rw [slotsWritten, if_pos ⟨by omega, by omega⟩, hslots]
  ext p
  simp only [Finset.mem_union, Finset.mem_Ico, Finset.mem_range]
  omega

/-- Pages in the order of the slab are read as they lie. -/
theorem addr_range {bs m p : ℕ} (hp : p < m * bs) : addr bs (List.range m) p = p := by
  have hlt : p / bs < (List.range m).length := div_lt_length (by rwa [List.length_range])
  rw [addr, List.getD_eq_getElem _ _ hlt, List.getElem_range, Nat.mul_comm, Nat.div_add_mod]

theorem Linear.mirrors [Inhabited α] {cfg : BlockConfig} {t : PagedKVTable α}
    {done : List (UpdateCall α)} {n : ℕ} (h : Linear t n) (hmem : (0 : ℤ) ∈ t.seqs)
    (hbh : t.bh = cfg.attentionHeads) (hslots : slotsWritten cfg 0 done = Finset.range n) :
    Mirrors cfg t done := by
  intro b hb
  have hzero : b = 0 := by
    rw [hbh] at hb
    have : cfg.attentionHeads / cfg.attentionHeads ≤ 1 := Nat.div_le_of_le_mul (by omega)
    omega
  subst hzero
  obtain ⟨st, hl⟩ := Option.isSome_iff_exists.mp (AList.lookup_isSome.mpr hmem)
  have hacc : st.lAcc = n := by
    rw [← h.lAcc, lAccOf, hl, Option.elim_some]
  have hpages : st.pages = List.range st.pages.length := by
    have hp := h.pages
    rw [hl, Option.getD_some] at hp
    have htake := congrArg (List.take st.pages.length) hp
    have hle : st.pages.length ≤ t.numPages := by
      have := congrArg List.length hp
      rw [List.length_append, List.length_range] at this
      omega
    rwa [List.take_left, List.take_range, Nat.min_eq_left hle] at htake
  obtain ⟨hfit, hlen⟩ := h.inv.fits 0 st hl
  obtain ⟨K, V, hok, hK, hV, hdata⟩ := gatherPrefix_eq h.inv hl (Nat.zero_le t.bh) (Nat.le_refl _)
  rw [hbh] at hok hK hV hdata
  refine ⟨st, K, V, hl, ?_, ?_, ?_, ?_, ?_⟩
  · rw [hslots, Finset.card_range, hacc]
  · simpa using hok
  · simpa using hK
  · simpa using hV
  · intro p hp c hc e
    have hread := hdata p hp c (by omega) e
    rw [hpages, addr_range (by omega)] at hread
    simpa using hread

/-! ### Runs -/

theorem runMirrors_of_linear [Inhabited α] {cfg : BlockConfig} (calls : List (UpdateCall α)) :
    ∀ {t : PagedKVTable α} {done : List (UpdateCall α)} {n : ℕ}, Linear t n →
      t.bh = cfg.attentionHeads → slotsWritten cfg 0 done = Finset.range n →
      (∀ call ∈ calls, call.InRange cfg t) → OneRowRun cfg done calls →
      RunMirrors cfg t done calls := by
  induction calls with
  | nil => exact fun _ _ _ _ _ => trivial
  | cons call calls ih =>
    intro t done n h hbh hslots hin hone
    obtain ⟨hcall, hrest⟩ := hone
    have hrange := hin call List.mem_cons_self
    obtain ⟨h', hmem, hbh', hd', hn', hbs'⟩ := h.updateCache hrange hcall
    obtain ⟨hfirst, hsize⟩ := sourceBatchSize_one hrange hbh hcall.1
    have hstart := hcall.2.2.2
    rw [hslots, Finset.card_range] at hstart
    have hslots' := slotsWritten_range hfirst hsize hslots hstart
    refine ⟨h'.mirrors hmem (hbh'.trans hbh) hslots', ih h' (hbh'.trans hbh) hslots' ?_ hrest⟩
    intro call' hc'
    have := hin call' (List.mem_cons_of_mem call hc')
    rwa [UpdateCall.InRange, hbh', hd', hn', hbs']

/-- The table of a handle with one batch row mirrors the slab after every call of a run that leaves
no gap and whose calls are tracked as one sequence each. -/
theorem mirrors_of_oneRow [Inhabited α] {cfg : BlockConfig} {backingK backingV : Tensor α}
    {blockSize : ℕ} {t : PagedKVTable α} (h : init backingK backingV blockSize = .ok t)
    {calls : List (UpdateCall α)} (hin : ∀ call ∈ calls, call.InRange cfg t)
    (hbh : t.bh = cfg.attentionHeads) (hone : OneRowRun cfg [] calls) :
    RunMirrors cfg t [] calls := by
  obtain ⟨hfree, hseqs⟩ := init_fresh h
  have hstart : Linear t 0 := by
    refine ⟨inv_init h, ?_, ?_⟩
    · rw [hseqs, AList.lookup_empty, Option.getD_none, hfree, List.nil_append]
    · rw [lAccOf, hseqs, AList.lookup_empty, Option.elim_none]
  exact runMirrors_of_linear calls hstart hbh rfl hin hone

def groupedHeads : BlockConfig where
  numAttentionHeads := some 2
  numKeyValueHeads := some 1

def rowCall (start n : ℕ) : UpdateCall ℕ where
  new :=
    { bh := 1, d := 1, sNew := n, key := fun _ _ s => start + s, value := fun _ s _ => start + s }
  startPosition := start

theorem mirrors_of_oneRow_grouped :
    RunMirrors groupedHeads smallTable [] [rowCall 0 3, rowCall 3 1] :=
  mirrors_of_oneRow smallTable_init (by decide) rfl ⟨by decide, by decide, trivial⟩

def pairTable : PagedKVTable ℕ where
  k := fun s _ _ => s
  v := fun s _ _ => s
  bh := 2
  d := 1
  blockSize := BLOCK_SIZE
  numPages := 2
  free := [0, 1]
  seqs := ∅
  blockSize_pos := by decide

def pairCall : UpdateCall ℕ where
  new := { bh := 2, d := 1, sNew := 1, key := fun r _ _ => 100 + r, value := fun r _ _ => 200 + r }
  startPosition := 0

/-- The token of the second row is in row 0 of the slab, and `gather_prefix` reads row 16. -/
theorem secondRow_elsewhere :
    init ⟨[32, 2, 1], fun s _ _ => s⟩ ⟨[32, 2, 1], fun s _ _ => s⟩ = .ok pairTable ∧
      pairCall.InRange { numAttentionHeads := some 1 } pairTable ∧
      (updateCache { numAttentionHeads := some 1 } pairTable pairCall).k 0 1 0 = 101 ∧
      (∃ K V, (updateCache { numAttentionHeads := some 1 } pairTable pairCall).gatherPrefix 1
        (1, 2) = .ok (K, V) ∧ K.data 0 0 0 = 16) ∧
      ¬RunMirrors { numAttentionHeads := some 1 } pairTable [] [pairCall] := by
  have hslab : (updateCache { numAttentionHeads := some 1 } pairTable pairCall).k 0 1 0 = 101 := rfl
  refine ⟨rfl, by decide, hslab, ⟨_, _, rfl, rfl⟩, ?_⟩
  intro hrun
  obtain ⟨st, K, V, hl, -, hok, -, -, hdata⟩ := hrun.1 1 (by decide)
  cases hl
  cases hok
  obtain ⟨hread, -⟩ := hdata 0 (by decide) 0 (by decide) 0
  exact absurd hread (by decide)

end BloomBee.PagedKV
