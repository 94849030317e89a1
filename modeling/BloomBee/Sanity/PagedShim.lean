import BloomBee.Proofs.PagedKV
import BloomBee.Spec.PagedShim
import Mathlib.Algebra.BigOperators.Intervals

/-! What the shim's calls leave in the paged table. Rolling back and committing change every
registered sequence on its own. Tracking a write takes pages for the rows in turn, and whether a
row gets its pages depends on what the rows before it took. -/

set_option autoImplicit false

namespace BloomBee.PagedKV

open PagedKVTable Speculative

variable {α : Type}

/-- `l_acc` of a sequence, 0 before it is registered. -/
def lAccOf (t : PagedKVTable α) (seq : ℤ) : ℕ := (t.seqs.lookup seq).elim 0 SeqState.lAcc

/-! ### Tracking -/

theorem inferSeqIds_eq (cfg : BlockConfig) (bh : ℕ) :
    inferSeqIds cfg bh = (List.range (inferSeqIds cfg bh).length).map Int.ofNat := by
  simp only [inferSeqIds]
  generalize sourceHeadsPerBatch _ _ _ _ _ = sourceHeads
  split_ifs
  · rfl
  · rw [List.length_map, List.length_range]

/-- The rows up to `i` find the pages that they lack. A row that finds too few leaves none. -/
def HasRoom (t : PagedKVTable α) (endPos i : ℕ) : Prop :=
  lacking t endPos i ≤ t.free.length - ∑ j ∈ Finset.range i, lacking t endPos j

instance (t : PagedKVTable α) (endPos i : ℕ) : Decidable (HasRoom t endPos i) := Nat.decLe _ _

def TrackedTo (t : PagedKVTable α) (i endPos : ℕ) (commit : Bool) (st' : SeqState) : Prop :=
  ∃ pages, st' = { (t.seqs.lookup (i : ℤ)).getD {} with pages := pages } ∧ ¬HasRoom t endPos i ∨
    st' = advance { (t.seqs.lookup (i : ℤ)).getD {} with pages := pages } endPos commit ∧
      HasRoom t endPos i

/-- Tracking a write of the rows below `b`. -/
theorem trackRows_spec (t : PagedKVTable α) (start : ℕ) {n : ℕ} (hn : 0 < n) (commit : Bool)
    (b : ℕ) :
    let t' := trackPagedWrite t ((List.range b).map Int.ofNat) start n commit
    t'.blockSize = t.blockSize ∧
      t'.free.length = t.free.length - ∑ j ∈ Finset.range b, lacking t (start + n) j ∧
      (∀ seq : ℤ, (∀ i < b, seq ≠ (i : ℕ)) → t'.seqs.lookup seq = t.seqs.lookup seq) ∧
      ∀ i < b, ∃ st', t'.seqs.lookup (i : ℤ) = some st' ∧
        TrackedTo t i (start + n) commit st' := by
  induction b with
  | zero =>
    refine ⟨rfl, by simp [trackPagedWrite], fun _ _ => rfl, ?_⟩
    intro i hi
    exact absurd hi (Nat.not_lt_zero i)
  | succ b ih =>
    obtain ⟨hbs, hfree, hother, hrows⟩ := ih
    simp only [trackPagedWrite, List.range_succ, List.map_append, List.foldl_append,
      List.map_cons, List.map_nil, List.foldl_cons, List.foldl_nil] at hbs hfree hother hrows ⊢
    generalize ((List.range b).map Int.ofNat).foldl
      (fun t seq => (t.trackWrite seq start n commit).1) t = t₁ at hbs hfree hother hrows ⊢
    -- row `b` has not been touched yet
    have hold : t₁.seqs.lookup (b : ℤ) = t.seqs.lookup (b : ℤ) :=
      hother b fun i hi => by omega
    have hneed : lacking t₁ (start + n) b = lacking t (start + n) b := by
      simp only [lacking, heldPages, hold, pagesFor, hbs]
    rw [show Int.ofNat b = (b : ℤ) from rfl, trackWrite_eq t₁ b start hn commit]
    refine ⟨hbs, ?_, ?_, ?_⟩
    · rw [List.length_drop, hfree, hneed, Finset.sum_range_succ]
      omega
    · intro seq hseq
      rw [AList.lookup_insert_ne (hseq b (Nat.lt_succ_self b))]
      exact hother seq fun i hi => hseq i (Nat.lt_succ_of_lt hi)
    · intro i hi
      rcases Nat.lt_succ_iff_lt_or_eq.mp hi with hlt | rfl
      · rw [AList.lookup_insert_ne (by omega)]
        exact hrows i hlt
      · refine ⟨_, AList.lookup_insert _, ?_⟩
        simp only [trackedState, hneed, hold, TrackedTo, HasRoom, ← hfree]
        split_ifs with hroom
        · exact ⟨_, .inr ⟨rfl, hroom⟩⟩
        · exact ⟨_, .inl ⟨rfl, hroom⟩⟩

/-! ### The invariant -/

structure Kept (t t' : PagedKVTable α) : Prop where
  inv : Inv t'
  numPages : t'.numPages = t.numPages
  blockSize : t'.blockSize = t.blockSize
  bh : t'.bh = t.bh
  d : t'.d = t.d

theorem Kept.refl {t : PagedKVTable α} (h : Inv t) : Kept t t := ⟨h, rfl, rfl, rfl, rfl⟩

theorem Kept.apply {t : PagedKVTable α} (h : Inv t) (op : Op α) : Kept t (op.apply t).1 := by
  have he : Effect t op (op.apply t).1 (op.apply t).2 := apply_effect h rfl
  obtain ⟨hn, hbs, hbh, hd⟩ := he.same
  exact ⟨inv_apply h op, hn, hbs, hbh, hd⟩

theorem Kept.trans {t t₁ t₂ : PagedKVTable α} (h₁ : Kept t t₁) (h₂ : Kept t₁ t₂) : Kept t t₂ :=
  ⟨h₂.inv, h₂.numPages.trans h₁.numPages, h₂.blockSize.trans h₁.blockSize, h₂.bh.trans h₁.bh,
    h₂.d.trans h₁.d⟩

theorem Kept.foldl {f : PagedKVTable α → ℤ → PagedKVTable α}
    (hf : ∀ t seq, Inv t → Kept t (f t seq)) (seqs : List ℤ) :
    ∀ {t : PagedKVTable α}, Inv t → Kept t (seqs.foldl f t) := by
  induction seqs with
  | nil => exact Kept.refl
  | cons seq seqs ih =>
    intro t h
    exact (hf t seq h).trans (ih (hf t seq h).inv)

theorem trackPagedWrite_kept {t : PagedKVTable α} (h : Inv t) (seqIds : List ℤ) (start sNew : ℕ)
    (commit : Bool) : Kept t (trackPagedWrite t seqIds start sNew commit) :=
  Kept.foldl (fun _ seq ht => Kept.apply ht (.trackWrite seq start sNew commit)) seqIds h

/-! ### Rolling back and committing -/

theorem mem_seqKeys {t : PagedKVTable α} {seq : ℤ} : seq ∈ seqKeys t ↔ seq ∈ t.seqs := by
  rw [seqKeys, List.mem_insertionSort, AList.mem_keys]

theorem seqKeys_nodup (t : PagedKVTable α) : (seqKeys t).Nodup :=
  (List.perm_insertionSort _ _).nodup_iff.mpr t.seqs.keys_nodup

/-- A loop over the registered sequences whose body changes its own sequence by `g`. -/
theorem seqLoop_lookup {f : PagedKVTable α → ℤ → PagedKVTable α} {g : SeqState → SeqState}
    {P : PagedKVTable α → Prop} (hP : ∀ t seq, P t → P (f t seq))
    (hf : ∀ t seq, P t → ∀ seq', (f t seq).seqs.lookup seq' =
      if seq' = seq then (t.seqs.lookup seq').map g else t.seqs.lookup seq')
    {t : PagedKVTable α} (ht : P t) (seq : ℤ) :
    ((seqKeys t).foldl f t).seqs.lookup seq = (t.seqs.lookup seq).map g := by
  rw [Dict.look_foldl (fun t seq => t.seqs.lookup seq) hP hf (seqKeys_nodup t) ht seq]
  split_ifs with hm
  · rfl
  · rw [AList.lookup_eq_none.mpr (fun hs => hm (mem_seqKeys.mpr hs)), Option.map_none]

def rolledTo (blockSize target : ℕ) (st : SeqState) : SeqState where
  pages := st.pages.take ((min target st.lAcc + blockSize - 1) / blockSize)
  lAcc := min target st.lAcc
  lSeq := min target st.lAcc

theorem rollbackSeqTo_of_some {t : PagedKVTable α} {seq : ℤ} {st : SeqState} (target : ℕ)
    (hl : t.seqs.lookup seq = some st) :
    rollbackSeqTo target t seq =
      { t with
        free := st.pages.drop (t.pagesFor (min target st.lAcc)) ++ t.free
        seqs := t.seqs.insert seq (rolledTo t.blockSize target st) } := by
  have htarget : max 0 (min (target : ℤ) st.lAcc) = (min target st.lAcc : ℕ) := by omega
  have hle : ¬((min target st.lAcc : ℕ) : ℤ) > st.lAcc := by omega
  have hnonneg : ¬((min target st.lAcc : ℕ) : ℤ) < 0 := by omega
  simp only [rollbackSeqTo, hl, htarget, rollback, if_neg hle, if_neg hnonneg, Int.toNat_natCast,
    dropPages_reverse, List.reverse_reverse, rolledTo, pagesFor]

theorem rollbackSeqTo_kept {t : PagedKVTable α} (h : Inv t) (target seq : ℤ) :
    Kept t (rollbackSeqTo target t seq) := by
  unfold rollbackSeqTo
  split
  · exact Kept.refl h
  · exact Kept.apply h (.rollback seq _)

theorem rollbackSeqTo_lookup (target : ℕ) (t : PagedKVTable α) (seq seq' : ℤ) :
    (rollbackSeqTo target t seq).seqs.lookup seq' =
      if seq' = seq then (t.seqs.lookup seq').map (rolledTo t.blockSize target)
      else t.seqs.lookup seq' := by
  cases hl : t.seqs.lookup seq with
  | none =>
    simp only [rollbackSeqTo, hl]
    split_ifs with heq
    · rw [heq, hl, Option.map_none]
    · rfl
  | some st =>
    rw [rollbackSeqTo_of_some target hl]
    simp only [Dict.lookup_insert_eq]
    split_ifs with heq
    · rw [heq, hl, Option.map_some]
    · rfl

theorem rollbackPagedTo_kept {t : PagedKVTable α} (h : Inv t) (target : ℤ) :
    Kept t (rollbackPagedTo t target) :=
  Kept.foldl (fun _ seq ht => rollbackSeqTo_kept ht target seq) (seqKeys t) h

theorem rollbackPagedTo_lookup {t : PagedKVTable α} (h : Inv t) (target : ℕ) (seq : ℤ) :
    (rollbackPagedTo t target).seqs.lookup seq =
      (t.seqs.lookup seq).map (rolledTo t.blockSize target) :=
  seqLoop_lookup (P := Kept t)
    (fun _ seq ht' => ht'.trans (rollbackSeqTo_kept ht'.inv target seq))
    (fun t' seq ht' seq' => by rw [rollbackSeqTo_lookup, ht'.blockSize]) (Kept.refl h) seq

/-- After a rollback no sequence holds more pages than its committed prefix needs. -/
theorem rollbackPagedTo_heldPages {t : PagedKVTable α} (h : Inv t) (target : ℕ) (seq : ℤ) :
    heldPages (rollbackPagedTo t target) seq = t.pagesFor (min target (lAccOf t seq)) := by
  rw [heldPages, rollbackPagedTo_lookup h, lAccOf]
  cases hl : t.seqs.lookup seq with
  | none =>
    have hpos := t.blockSize_pos
    rw [Option.map_none, Option.elim_none, Option.elim_none, Nat.min_zero, pagesFor,
      Nat.div_eq_of_lt (by omega)]
  | some st =>
    obtain ⟨hacc, hseq⟩ := h.fits seq st hl
    have hfit : t.pagesFor (min target st.lAcc) ≤ st.pages.length := pagesFor_le (by omega)
    simp only [Option.map_some, Option.elim_some, rolledTo, List.length_take]
    exact Nat.min_eq_left hfit

/-- How many pages are free once every sequence is rolled back to `target`. -/
def freeAfterRollback (t : PagedKVTable α) (target : ℕ) : ℕ :=
  t.numPages - ∑ seq ∈ t.seqs.keys.toFinset, t.pagesFor (min target (lAccOf t seq))

theorem rollbackPagedTo_free {t : PagedKVTable α} (h : Inv t) (target : ℕ) :
    (rollbackPagedTo t target).free.length = freeAfterRollback t target := by
  have hkept := rollbackPagedTo_kept h target
  have hkeys : (rollbackPagedTo t target).seqs.keys.toFinset = t.seqs.keys.toFinset := by
    ext seq
    rw [List.mem_toFinset, List.mem_toFinset, ← AList.mem_keys, ← AList.mem_keys,
      ← AList.lookup_isSome, ← AList.lookup_isSome, rollbackPagedTo_lookup h, Option.isSome_map]
  have hcount := hkept.inv.pages.length_eq
  rw [List.length_append, List.length_range, seqPages, Dict.length_collect, hkeys,
    hkept.numPages] at hcount
  have hsum : ∑ seq ∈ t.seqs.keys.toFinset, heldPages (rollbackPagedTo t target) seq =
      ∑ seq ∈ t.seqs.keys.toFinset, t.pagesFor (min target (lAccOf t seq)) :=
    Finset.sum_congr rfl fun seq _ => rollbackPagedTo_heldPages h target seq
  simp only [heldPages] at hsum
  rw [hsum] at hcount
  rw [freeAfterRollback]
  omega

def committedTo (target : ℕ) (st : SeqState) : SeqState :=
  { st with lAcc := max st.lAcc (min target st.lSeq) }

theorem commitSeqTo_lookup (target : ℕ) (t : PagedKVTable α) (seq seq' : ℤ) :
    (commitSeqTo target t seq).seqs.lookup seq' =
      if seq' = seq then (t.seqs.lookup seq').map (committedTo target)
      else t.seqs.lookup seq' := by
  cases hl : t.seqs.lookup seq with
  | none =>
    simp only [commitSeqTo, hl]
    split_ifs with heq
    · rw [heq, hl, Option.map_none]
    · rfl
  | some st =>
    have hle : ¬min (target : ℤ) st.lSeq > st.lSeq := by omega
    simp only [commitSeqTo, hl, PagedKVTable.commit, Option.getD_some, if_neg hle]
    by_cases hgt : min (target : ℤ) st.lSeq > st.lAcc
    · have hmax : max st.lAcc (min target st.lSeq) = (min (target : ℤ) st.lSeq).toNat := by omega
      rw [if_pos hgt]
      simp only [Dict.lookup_insert_eq]
      split_ifs with heq
      · rw [heq, hl, Option.map_some, committedTo, hmax]
      · rfl
    · have hmax : max st.lAcc (min target st.lSeq) = st.lAcc := by omega
      rw [if_neg hgt]
      split_ifs with heq
      · rw [heq, hl, Option.map_some, committedTo, hmax]
      · rfl

theorem commitPagedTo_lookup (t : PagedKVTable α) (target : ℕ) (seq : ℤ) :
    (commitPagedTo t target).seqs.lookup seq = (t.seqs.lookup seq).map (committedTo target) :=
  seqLoop_lookup (P := fun _ => True) (fun _ _ _ => trivial)
    (fun t' seq _ seq' => commitSeqTo_lookup target t' seq seq') trivial seq

theorem commitPagedTo_kept {t : PagedKVTable α} (h : Inv t) (target : ℤ) :
    Kept t (commitPagedTo t target) := by
  refine Kept.foldl (fun t seq ht => ?_) (seqKeys t) h
  unfold commitSeqTo
  split
  · exact Kept.refl ht
  · exact Kept.apply ht (.commit seq _)

end BloomBee.PagedKV
