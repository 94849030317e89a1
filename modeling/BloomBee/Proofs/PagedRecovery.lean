import BloomBee.Proofs.PagedReads
import Mathlib.Algebra.Order.Floor.Div

/-! What is left after a call that raises, and after a rollback. The checks of the paged table
come before its changes, but `_ensure_capacity` moves pages before it finds that there are too
few, and `track_write` registers its sequence before that. A rollback to a length of the
committed prefix undoes what was written behind that length. -/

namespace BloomBee.PagedKV

open PagedKVTable Paging

variable {α : Type}

/-! ### Calls that raise -/

/-- `t'` has the free stack, the sequences with their pages and lengths, and the bytes of `t`. -/
structure Unchanged (t t' : PagedKVTable α) : Prop where
  free : t'.free = t.free
  seqs : ∀ s, t'.seqs.lookup s = t.seqs.lookup s
  k : t'.k = t.k
  v : t'.v = t.v

theorem Unchanged.refl (t : PagedKVTable α) : Unchanged t t := ⟨rfl, fun _ => rfl, rfl, rfl⟩

/-- The call leaves the table as it was if it raises `PagedKVError`. -/
def FailsAtomically (t : PagedKVTable α) (op : Op α) : Prop :=
  ∀ e, (op.apply t).2 = .error (.pagedKV e) → Unchanged t (op.apply t).1

/-- The call reaches `_ensure_capacity` and lacks more pages than are free. -/
def RunsOut (t : PagedKVTable α) : Op α → Prop
  | .write seq start kNew vNew _ _ =>
    kNew.shape = vNew.shape ∧ seq ∈ t.seqs ∧ ∃ sNew w dNew, kNew.shape = [sNew, w, dNew] ∧
      0 < sNew ∧ t.free.length < lacking t (start + sNew) seq
  | .trackWrite seq start sNew _ =>
    0 < sNew ∧ t.free.length < lacking t (start + sNew.toNat) seq
  | _ => False

/-- Moving more pages than are free changes nothing only when none is free. -/
theorem grow_unchanged_iff {t : PagedKVTable α} {seq : ℤ} {st : SeqState} {m : ℕ}
    (hl : t.seqs.lookup seq = some st) (hm : t.free.length < m) :
    Unchanged t (t.grow seq st m) ↔ t.free = [] := by
  constructor
  · intro h
    rw [← h.free]
    exact List.drop_of_length_le hm.le
  · intro hnil
    refine ⟨by simp [grow, hnil], ?_, rfl, rfl⟩
    intro s
    rcases eq_or_ne s seq with rfl | hne
    · rw [grow_lookup, hl, hnil, List.take_nil, List.append_nil]
    · exact AList.lookup_insert_ne hne

theorem write_failsAtomically_iff {t : PagedKVTable α} (h : Inv t) (seq : ℤ) (start : ℕ)
    (kNew vNew : Tensor α) (bhSlice : ℤ × ℤ) (commit : Bool) :
    FailsAtomically t (.write seq start kNew vNew bhSlice commit) ↔
      ¬RunsOut t (.write seq start kNew vNew bhSlice commit) ∨ t.free = [] ∧ seq ∈ t.seqs := by
  have hmem : ∀ st, t.seqs.lookup seq = some st → seq ∈ t.seqs := fun st hl =>
    AList.lookup_isSome.mp (Option.isSome_of_eq_some hl)
  simp only [FailsAtomically, RunsOut, Op.apply]
  generalize hw : t.write seq start kNew vNew bhSlice commit = w
  obtain ⟨t', r⟩ := w
  cases write_outcome h hw with
  | shapesDiffer hne =>
    exact iff_of_true (fun _ _ => Unchanged.refl t) (.inl fun hout => hne hout.1)
  | notThreeDim hs =>
    refine iff_of_true (fun _ _ => Unchanged.refl t) (.inl ?_)
    rintro ⟨-, -, sNew, w, dNew, hs', -⟩
    exact hs sNew w dNew hs'
  | empty hs =>
    refine iff_of_true (fun _ hok => by cases hok) (.inl ?_)
    rintro ⟨-, -, sNew, w, dNew, hs', hpos, -⟩
    obtain rfl : (0 : ℕ) = sNew := (List.cons.inj (hs.symm.trans hs')).1
    exact Nat.lt_irrefl 0 hpos
  | unregistered hl =>
    refine iff_of_true (fun _ hok => by cases hok) (.inl fun hout => ?_)
    exact absurd hout.2.1 (AList.lookup_eq_none.mp hl)
  | outOfPages heq hs hpos hl hlt =>
    rw [or_iff_right (not_not.mpr ⟨heq, hmem _ hl, _, _, _, hs, hpos, hlt⟩)]
    constructor
    · intro hall
      exact ⟨(grow_unchanged_iff hl hlt).mp (hall _ rfl), hmem _ hl⟩
    · rintro ⟨hnil, -⟩ e -
      exact (grow_unchanged_iff hl hlt).mpr hnil
  | refused hs hl hroom | stored hs hl hroom =>
    refine iff_of_true (fun _ hok => by cases hok) (.inl ?_)
    rintro ⟨-, -, sNew, w, dNew, hs', -, hlt⟩
    obtain rfl := (List.cons.inj (hs.symm.trans hs')).1
    exact absurd hroom (Nat.not_le.mpr hlt)

theorem trackWrite_failsAtomically_iff (t : PagedKVTable α) (seq : ℤ) (start : ℕ) (sNew : ℤ)
    (commit : Bool) :
    FailsAtomically t (.trackWrite seq start sNew commit) ↔
      ¬RunsOut t (.trackWrite seq start sNew commit) ∨ t.free = [] ∧ seq ∈ t.seqs := by
  simp only [FailsAtomically, RunsOut, Op.apply]
  by_cases hpos : 0 < sNew
  · obtain ⟨n, rfl⟩ := Int.eq_ofNat_of_zero_le hpos.le
    rw [trackWrite_eq t seq start (by omega), capacityOutcome, Int.toNat_natCast]
    by_cases hroom : lacking t (start + n) seq ≤ t.free.length
    · rw [if_pos hroom]
      refine iff_of_true (fun _ hok => by cases hok) (.inl fun hout => ?_)
      exact absurd hroom (Nat.not_le.mpr hout.2)
    · rw [if_neg hroom, or_iff_right (not_not.mpr ⟨hpos, Nat.lt_of_not_le hroom⟩)]
      constructor
      · intro hall
        have hun := hall _ rfl
        refine ⟨?_, ?_⟩
        · rw [← hun.free]
          exact List.drop_of_length_le (Nat.le_of_lt (Nat.lt_of_not_le hroom))
        · have hl := hun.seqs seq
          rw [AList.lookup_insert] at hl
          exact AList.lookup_isSome.mp (Option.isSome_of_eq_some hl.symm)
      · rintro ⟨hnil, hm⟩ e -
        obtain ⟨st, hl⟩ := Option.isSome_iff_exists.mp (AList.lookup_isSome.mpr hm)
        refine ⟨by simp [hnil], ?_, rfl, rfl⟩
        intro s
        rcases eq_or_ne s seq with rfl | hne
        · rw [AList.lookup_insert, trackedState, if_neg hroom, hl, Option.getD_some, hnil,
            List.take_nil, List.append_nil]
        · exact AList.lookup_insert_ne hne
  · rw [trackWrite, if_pos (Int.not_lt.mp hpos)]
    exact iff_of_true (fun _ hok => by cases hok) (.inl fun hout => hpos hout.1)

/-- In every reachable table, a call that raises `PagedKVError` leaves the table as it was unless
it runs out of pages; and then only if no page is free and its sequence is registered. -/
theorem failsAtomically_iff {backingK backingV : Tensor α} {blockSize : ℕ} {t₀ : PagedKVTable α}
    (h : init backingK backingV blockSize = .ok t₀) (ops : List (Op α)) (op : Op α) :
    let t := runOps t₀ ops
    FailsAtomically t op ↔ ¬RunsOut t op ∨ t.free = [] ∧ op.seq ∈ t.seqs := by
  have hinv := inv_runOps (inv_init h) ops
  cases op with
  | write seq start kNew vNew bhSlice commit =>
    exact write_failsAtomically_iff hinv seq start kNew vNew bhSlice commit
  | trackWrite seq start sNew commit =>
    exact trackWrite_failsAtomically_iff _ seq start sNew commit
  | registerSequence seq =>
    refine iff_of_true (fun e herr => ?_) (.inl not_false)
    simp only [Op.apply, registerSequence] at herr ⊢
    split_ifs at herr ⊢
    exact Unchanged.refl _
  | releaseSequence seq =>
    refine iff_of_true (fun e herr => ?_) (.inl not_false)
    simp only [Op.apply, releaseSequence] at herr
    split at herr <;> cases herr
  | commit seq upTo =>
    refine iff_of_true (fun e herr => ?_) (.inl not_false)
    simp only [Op.apply, PagedKVTable.commit] at herr ⊢
    split at herr
    · cases herr
    · split_ifs at herr ⊢
      exact Unchanged.refl _
  | rollback seq target =>
    refine iff_of_true (fun e herr => ?_) (.inl not_false)
    simp only [Op.apply, rollback] at herr ⊢
    split at herr
    · cases herr
    · split_ifs at herr ⊢ <;> exact Unchanged.refl _

def registeredTable : PagedKVTable ℕ := runOps smallTable [.registerSequence 7]

def fiveTokens : Op ℕ :=
  .write 7 0 ⟨[5, 2, 1], fun _ _ _ => 1⟩ ⟨[5, 2, 1], fun _ _ _ => 2⟩ (0, 2) true

/-- The write raises, and the sequence holds both pages afterwards. -/
theorem fiveTokens_keeps_pages :
    (fiveTokens.apply registeredTable).2 = .error (.pagedKV (.outOfPages 3 2 7 0)) ∧
      registeredTable.free = [0, 1] ∧ registeredTable.seqs.lookup 7 = some {} ∧
      (fiveTokens.apply registeredTable).1.free = [] ∧
      (fiveTokens.apply registeredTable).1.seqs.lookup 7 = some { pages := [0, 1] } ∧
      ¬FailsAtomically registeredTable fiveTokens := by
  have hout : (fiveTokens.apply registeredTable).2 =
      .error (.pagedKV (.outOfPages 3 2 7 0)) := by decide
  refine ⟨hout, rfl, rfl, rfl, rfl, fun hall => ?_⟩
  exact absurd (hall _ hout).free (by decide)

/-- The same write a second time finds no page to move. -/
theorem failsAtomically_iff_fiveTokens :
    ¬FailsAtomically (runOps smallTable [.registerSequence 7]) fiveTokens ∧
      FailsAtomically (runOps smallTable [.registerSequence 7, fiveTokens]) fiveTokens := by
  refine ⟨fun hall => ?_, ?_⟩
  · rcases (failsAtomically_iff smallTable_init [.registerSequence 7] fiveTokens).mp hall with
      hin | ⟨hnil, -⟩
    · exact hin ⟨rfl, by decide, 5, 2, 1, rfl, by decide, by decide⟩
    · exact absurd hnil (by decide)
  · exact (failsAtomically_iff smallTable_init [.registerSequence 7, fiveTokens] fiveTokens).mpr
      (.inr ⟨rfl, by decide⟩)

/-! ### Rollbacks -/

theorem rollback_eq {t : PagedKVTable α} {seq : ℤ} {st : SeqState}
    (hl : t.seqs.lookup seq = some st) {target : ℕ} (hle : target ≤ st.lAcc) :
    t.rollback seq target =
      ({ t with
          free := st.pages.drop (t.pagesFor target) ++ t.free
          seqs := t.seqs.insert seq
            { pages := st.pages.take (t.pagesFor target), lAcc := target, lSeq := target } },
        .ok ()) := by
  simp only [rollback, hl, Int.toNat_natCast]
  rw [if_neg (by omega), if_neg (by omega), dropPages_reverse, List.reverse_reverse]

/-- `t'` has the sequences of `t`, each with its committed rows, perhaps on other pages. -/
structure KeepsCommitted (t t' : PagedKVTable α) : Prop where
  same : t'.blockSize = t.blockSize ∧ t'.bh = t.bh ∧ t'.d = t.d
  unregistered : ∀ s, t.seqs.lookup s = none → t'.seqs.lookup s = none
  rows : ∀ s st, t.seqs.lookup s = some st → ∃ st', t'.seqs.lookup s = some st' ∧
    st'.lAcc = st.lAcc ∧ SameRows t t' st.pages st'.pages st.lAcc

theorem KeepsCommitted.trans {t t' t'' : PagedKVTable α} (h : KeepsCommitted t t')
    (h' : KeepsCommitted t' t'') : KeepsCommitted t t'' := by
  obtain ⟨hbs, hbh, hd⟩ := h.same
  obtain ⟨hbs', hbh', hd'⟩ := h'.same
  refine ⟨⟨hbs'.trans hbs, hbh'.trans hbh, hd'.trans hd⟩,
    fun s hl => h'.unregistered s (h.unregistered s hl), ?_⟩
  intro s st hl
  obtain ⟨st', hl', hacc, hrows⟩ := h.rows s st hl
  obtain ⟨st'', hl'', hacc', hrows'⟩ := h'.rows s st' hl'
  refine ⟨st'', hl'', hacc'.trans hacc, ?_⟩
  intro p hp c e
  have hstep := hrows' p (by omega) c e
  rw [hbs] at hstep
  exact ⟨hstep.1.trans (hrows p hp c e).1, hstep.2.trans (hrows p hp c e).2⟩

theorem KeepsCommitted.gatherPrefix [Inhabited α] {t t' : PagedKVTable α} (h : Inv t) (h' : Inv t')
    (hk : KeepsCommitted t t') (s : ℤ) (bhSlice : ℤ × ℤ) (length : Option ℤ) :
    t'.gatherPrefix s bhSlice length = t.gatherPrefix s bhSlice length := by
  obtain ⟨hbs, hbh, hd⟩ := hk.same
  cases hl : t.seqs.lookup s with
  | none => simp only [PagedKVTable.gatherPrefix, hl, hk.unregistered s hl]
  | some st =>
    obtain ⟨st', hl', hacc, hrows⟩ := hk.rows s st hl
    exact gatherPrefix_congr h h' hbs hbh hd hl hl' hacc hrows bhSlice length

/-- A call leaves the other sequences alone, so only its own has to be looked at. -/
theorem Effect.keepsCommitted {t t' : PagedKVTable α} {op : Op α} {r : Except Raised Unit}
    (h : Inv t) (he : Effect t op t' r) {st st' : SeqState} (hl : t.seqs.lookup op.seq = some st)
    (hl' : t'.seqs.lookup op.seq = some st') (hacc : st'.lAcc = st.lAcc)
    (hrows : SameRows t t' st.pages st'.pages st.lAcc) : KeepsCommitted t t' := by
  obtain ⟨-, hbs, hbh, hd⟩ := he.same
  refine ⟨⟨hbs, hbh, hd⟩, ?_, ?_⟩
  · intro s hnone
    have hne : s ≠ op.seq := by
      rintro rfl
      exact absurd (hnone.symm.trans hl) (by simp)
    rw [he.lookup_ne hne, hnone]
  · intro s x hx
    rcases eq_or_ne s op.seq with rfl | hne
    · obtain rfl : st = x := Option.some.inj (hl.symm.trans hx)
      exact ⟨st', hl', hacc, hrows⟩
    · refine ⟨x, (he.lookup_ne hne).trans hx, rfl, fun p hp c e => ?_⟩
      have hfit := h.fits s x hx
      exact he.bytes_ne h hne hx (lt_of_lt_of_le hp (le_trans hfit.1 hfit.2)) c e

/-- A rollback to `l_acc` drops nothing that was committed. -/
theorem keepsCommitted_rollback {t : PagedKVTable α} (h : Inv t) {seq : ℤ} {st : SeqState}
    (hl : t.seqs.lookup seq = some st) : KeepsCommitted t (t.rollback seq st.lAcc).1 := by
  have he := rollback_effect (rollback_eq hl (Nat.le_refl st.lAcc))
  rw [rollback_eq hl (Nat.le_refl st.lAcc)]
  refine he.keepsCommitted h hl (AList.lookup_insert _) rfl fun p hp c e => ?_
  have hfit := h.fits seq st hl
  rw [addr_take (lt_of_lt_of_le hp (le_pagesFor_mul t st.lAcc))
    (lt_of_lt_of_le hp (le_trans hfit.1 hfit.2))]
  exact ⟨rfl, rfl⟩

/-- A speculative write behind the committed prefix keeps it, whatever the write returns. -/
theorem keepsCommitted_write {t : PagedKVTable α} (h : Inv t) {seq : ℤ} {st : SeqState}
    (hl : t.seqs.lookup seq = some st) {start : ℕ} (hstart : st.lAcc ≤ start)
    (kNew vNew : Tensor α) (bhSlice : ℤ × ℤ) :
    KeepsCommitted t (t.write seq start kNew vNew bhSlice false).1 := by
  have hfit := h.fits seq st hl
  have hin : ∀ p < st.lAcc, p < st.pages.length * t.blockSize := fun p hp =>
    lt_of_lt_of_le hp (le_trans hfit.1 hfit.2)
  generalize hw : t.write seq start kNew vNew bhSlice false = w
  obtain ⟨t', r⟩ := w
  have he := write_effect h hw
  cases write_outcome h hw with
  | shapesDiffer | notThreeDim | empty | unregistered =>
    exact he.keepsCommitted h hl hl rfl fun p hp c e => ⟨rfl, rfl⟩
  | outOfPages _ _ _ hl₀ | refused _ hl₀ =>
    obtain rfl := Option.some.inj (hl.symm.trans hl₀)
    refine he.keepsCommitted h hl grow_lookup rfl fun p hp c e => ?_
    rw [addr_append (hin p hp)]
    exact ⟨rfl, rfl⟩
  | @stored sNew w dNew st₀ pages k v hs hl₀ hroom hpages hr hk hv =>
    obtain rfl : st = st₀ := Option.some.inj (hl.symm.trans hl₀)
    refine he.keepsCommitted h hl (AList.lookup_insert _) rfl fun p hp c e => ?_
    have hn : pages.Nodup := hpages ▸ h.nodup_grow hl (lacking t (start + sNew) seq)
    have hp' : p < pages.length * t.blockSize :=
      lt_of_lt_of_le (hin p hp) (Nat.mul_le_mul_right _ (by simp [hpages]))
    have haddr : addr t.blockSize pages p = addr t.blockSize st.pages p := by
      rw [hpages, addr_append (hin p hp)]
    -- the write starts behind the prefix
    have hbehind : ∀ n lo hi, ¬(start ≤ p ∧ p < start + n ∧ lo ≤ c ∧ c < hi) := by omega
    have hk' := hk.kept_of_notMem t.blockSize_pos hn hr hp' (hbehind _ _ _) (e := e)
    have hv' := hv.kept_of_notMem t.blockSize_pos hn hr hp' (hbehind _ _ _) (e := e)
    rw [haddr] at hk' hv'
    simp only [advance, haddr]
    exact ⟨hk', hv'⟩

/-- A shorter read returns the first of the rows that a longer one returns. -/
theorem gatherPrefix_take [Inhabited α] {t : PagedKVTable α} (h : Inv t) {seq : ℤ} {st : SeqState}
    (hl : t.seqs.lookup seq = some st) {n : ℕ} (hn : n ≤ st.lAcc) {bhSlice : ℤ × ℤ}
    {K V : Tensor α} (hok : t.gatherPrefix seq bhSlice = .ok (K, V)) :
    ∃ K' V', t.gatherPrefix seq bhSlice (some n) = .ok (K', V') ∧
      K'.shape = n :: K.shape.tail ∧ V'.shape = n :: V.shape.tail ∧
      ∀ p < n, ∀ c e, K'.data p c e = K.data p c e ∧ V'.data p c e = V.data p c e := by
  rw [gatherPrefix_whole h hl bhSlice rfl (Nat.le_refl _)] at hok
  rw [gatherPrefix_whole h hl bhSlice (Option.getD_some ..) hn]
  simp only at hok ⊢
  split_ifs at hok with hrefused
  cases hok
  rw [if_neg (fun hbad => hrefused (hbad.imp_right fun hpos => ⟨by omega, hpos.2⟩))]
  refine ⟨_, _, rfl, rfl, rfl, fun p hp c e => ?_⟩
  simp only [loaded, Nat.zero_le, hp, lt_of_lt_of_le hp hn, true_and, and_self]

/-- `t'` is `t` after `seq`, whose state was `st`, went back to `target` tokens. -/
structure RolledBackTo [Inhabited α] (t t' : PagedKVTable α) (seq : ℤ) (st : SeqState)
    (target : ℕ) : Prop where
  state : t'.seqs.lookup seq =
    some { pages := st.pages.take (target ⌈/⌉ t.blockSize), lAcc := target, lSeq := target }
  enough : target ⌈/⌉ t.blockSize ≤ st.pages.length
  freed : t'.free = st.pages.drop (target ⌈/⌉ t.blockSize) ++ t.free
  once : ∀ page ∈ st.pages.drop (target ⌈/⌉ t.blockSize), t'.free.count page = 1
  others : ∀ s ≠ seq, t'.seqs.lookup s = t.seqs.lookup s
  bytes : t'.k = t.k ∧ t'.v = t.v
  reads : ∀ bhSlice K V, t.gatherPrefix seq bhSlice = .ok (K, V) →
    ∃ K' V', t'.gatherPrefix seq bhSlice = .ok (K', V') ∧
      K'.shape = target :: K.shape.tail ∧ V'.shape = target :: V.shape.tail ∧
      ∀ p < target, ∀ c e, K'.data p c e = K.data p c e ∧ V'.data p c e = V.data p c e

theorem rollback_rolledBackTo [Inhabited α] {t : PagedKVTable α} (h : Inv t) {seq : ℤ}
    {st : SeqState} (hl : t.seqs.lookup seq = some st) {target : ℕ} (hle : target ≤ st.lAcc) :
    RolledBackTo t (t.rollback seq target).1 seq st target := by
  have hceil : target ⌈/⌉ t.blockSize = t.pagesFor target := Nat.ceilDiv_eq_add_pred_div _ _
  have hfit := h.fits seq st hl
  have heq := rollback_eq hl hle
  have hinv : Inv (t.rollback seq target).1 := inv_apply h (.rollback seq target)
  have hnodup : (t.rollback seq target).1.free.Nodup :=
    (List.nodup_append.mp (hinv.pages.nodup_iff.mpr List.nodup_range)).1
  rw [heq] at hinv hnodup ⊢
  refine ⟨?_, ?_, ?_, ?_, fun s hne => AList.lookup_insert_ne hne, ⟨rfl, rfl⟩, ?_⟩
  · rw [hceil]
    exact AList.lookup_insert _
  · rw [hceil]
    exact pagesFor_le (le_trans hle (le_trans hfit.1 hfit.2))
  · rw [hceil]
  · intro page hpage
    rw [hceil] at hpage
    exact List.count_eq_one_of_mem hnodup (List.mem_append_left _ hpage)
  · intro bhSlice K V hok
    obtain ⟨K', V', hok', hshapes⟩ := gatherPrefix_take h hl hle hok
    refine ⟨K', V', ?_, hshapes⟩
    rw [← hok']
    refine gatherPrefix_sameRows h hinv rfl rfl rfl hl (AList.lookup_insert _)
      (Option.getD_some ..) rfl hle (Nat.le_refl _) (fun p hp c e => ?_) bhSlice
    rw [addr_take (lt_of_lt_of_le hp (le_pagesFor_mul t target))
      (lt_of_lt_of_le hp (le_trans hle (le_trans hfit.1 hfit.2)))]
    exact ⟨rfl, rfl⟩

/-- In every reachable table a rollback to a length of the committed prefix is exact, and it undoes
a speculative write behind the prefix in what every sequence reads, whatever the write returned. -/
theorem rollback_exact [Inhabited α] {backingK backingV : Tensor α} {blockSize : ℕ}
    {t₀ : PagedKVTable α} (h : init backingK backingV blockSize = .ok t₀) (ops : List (Op α))
    {seq : ℤ} {st : SeqState} (hl : (runOps t₀ ops).seqs.lookup seq = some st) :
    let t := runOps t₀ ops
    (∀ target : ℕ, target ≤ st.lAcc → (t.rollback seq target).2 = .ok () ∧
      RolledBackTo t (t.rollback seq target).1 seq st target) ∧
    ∀ start kNew vNew bhSlice, st.lAcc ≤ start →
      ((t.write seq start kNew vNew bhSlice false).1.rollback seq st.lAcc).2 = .ok () ∧
      ∀ s slice length,
        ((t.write seq start kNew vNew bhSlice false).1.rollback seq st.lAcc).1.gatherPrefix s slice
          length = t.gatherPrefix s slice length := by
  intro t
  have hinv : Inv t := inv_runOps (inv_init h) ops
  refine ⟨fun target hle => ⟨?_, rollback_rolledBackTo hinv hl hle⟩, ?_⟩
  · rw [rollback_eq hl hle]
  · intro start kNew vNew bhSlice hstart
    have hkept := keepsCommitted_write hinv hl hstart kNew vNew bhSlice
    have hinv₁ : Inv (t.write seq start kNew vNew bhSlice false).1 :=
      inv_apply hinv (.write seq start kNew vNew bhSlice false)
    obtain ⟨st₁, hl₁, hacc, -⟩ := hkept.rows seq st hl
    have hback := keepsCommitted_rollback hinv₁ hl₁
    have hinv₂ := inv_apply hinv₁ (.rollback seq st₁.lAcc)
    rw [hacc] at hback hinv₂
    refine ⟨?_, fun s slice length => (hkept.trans hback).gatherPrefix hinv hinv₂ s slice length⟩
    rw [rollback_eq hl₁ hacc.ge]

def threeTokens : List (Op ℕ) :=
  [.registerSequence 7,
   .write 7 0 ⟨[3, 2, 1], fun s c _ => 10 * s + c⟩ ⟨[3, 2, 1], fun s c _ => 20 * s + c⟩ (0, 2) true]

/-- A rollback to one token, and one behind a speculative token on the second page. -/
theorem rollback_exact_threeTokens :
    RolledBackTo (runOps smallTable threeTokens) ((runOps smallTable threeTokens).rollback 7 1).1 7
        { pages := [0, 1], lAcc := 3, lSeq := 3 } 1 ∧
      (runOps smallTable (threeTokens ++
          [.write 7 3 ⟨[1, 2, 1], fun _ _ _ => 5⟩ ⟨[1, 2, 1], fun _ _ _ => 6⟩ (0, 2) false,
           .rollback 7 3])).gatherPrefix 7 (0, 2) =
        (runOps smallTable threeTokens).gatherPrefix 7 (0, 2) := by
  have hl : (runOps smallTable threeTokens).seqs.lookup 7 =
      some { pages := [0, 1], lAcc := 3, lSeq := 3 } := rfl
  obtain ⟨hback, hundo⟩ := rollback_exact smallTable_init threeTokens hl
  exact ⟨(hback 1 (by decide)).2, (hundo 3 _ _ _ (Nat.le_refl _)).2 7 (0, 2) none⟩

end BloomBee.PagedKV
