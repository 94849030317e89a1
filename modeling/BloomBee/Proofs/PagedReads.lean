import BloomBee.Proofs.PagedKV

/-! What `gather_prefix` exposes. A sequence whose writes never leave a gap has written every
position below `l_seq` since it last rolled back below it (`Covered`), so its committed prefix
holds its own bytes only. A write that starts past `l_seq` is accepted all the same, and the
positions that it skips are then read as they are. -/

namespace BloomBee.PagedKV

open PagedKVTable Paging

variable {α : Type}

/-- The calls that claim to move bytes: all but the bookkeeping of `track_write`. -/
def Op.copies : Op α → Bool
  | .trackWrite .. => false
  | _ => true

/-- An accepted write of `seq` that lengthens it starts at or before its end and covers the
columns `a` to `b`. -/
def GapFree (seq : ℤ) (a b : ℕ) (t : PagedKVTable α) : Op α → Prop
  | .write s start kNew vNew bhSlice commit =>
    s = seq → (t.write s start kNew vNew bhSlice commit).2 = .ok () →
      ∀ st, t.seqs.lookup seq = some st →
        ∀ sNew w dNew, kNew.shape = [sNew, w, dNew] → st.lSeq < start + sNew →
          start ≤ st.lSeq ∧ sliceBound t.bh bhSlice.1 ≤ a ∧ b ≤ sliceBound t.bh bhSlice.2
  | _ => True

/-- All calls of a run meet the condition in the state they are made in. -/
def GapFreeRun (seq : ℤ) (a b : ℕ) : PagedKVTable α → List (Op α) → Prop
  | _, [] => True
  | t, op :: ops => GapFree seq a b t op ∧ GapFreeRun seq a b (op.apply t).1 ops

/-! ### Lengths -/

/-- `write` keeps the lengths of its sequence, or advances them to the end of what it wrote. -/
theorem write_lengths {t : PagedKVTable α} (h : Inv t) {seq : ℤ} {start : ℕ}
    {kNew vNew : Tensor α} {bhSlice : ℤ × ℤ} {commit : Bool} {st' : SeqState}
    (hl' : (t.write seq start kNew vNew bhSlice commit).1.seqs.lookup seq = some st') :
    ∃ st, t.seqs.lookup seq = some st ∧
      (st' = { st with pages := st'.pages } ∨
        ∃ sNew w dNew, kNew.shape = [sNew, w, dNew] ∧
          (t.write seq start kNew vNew bhSlice commit).2 = .ok () ∧
          st' = advance { st with pages := st'.pages } (start + sNew) commit) := by
  generalize hw : t.write seq start kNew vNew bhSlice commit = w at hl' ⊢
  obtain ⟨t', r⟩ := w
  cases write_outcome h hw with
  | shapesDiffer | notThreeDim | empty => exact ⟨st', hl', .inl rfl⟩
  | unregistered hl => exact absurd (hl.symm.trans hl') (by simp)
  | outOfPages heq hs hpos hl =>
    rw [grow_lookup, Option.some.injEq] at hl'
    exact ⟨_, hl, .inl (by rw [← hl'])⟩
  | refused hs hl =>
    rw [grow_lookup, Option.some.injEq] at hl'
    exact ⟨_, hl, .inl (by rw [← hl'])⟩
  | stored hs hl =>
    rw [AList.lookup_insert, Option.some.injEq] at hl'
    exact ⟨_, hl, .inr ⟨_, _, _, hs, rfl, by rw [← hl']; rfl⟩⟩

/-- `write` keeps `l_seq`, or raises it to the end of what it wrote. -/
theorem write_lSeq {t : PagedKVTable α} (h : Inv t) {seq : ℤ} {start : ℕ} {kNew vNew : Tensor α}
    {bhSlice : ℤ × ℤ} {commit : Bool} {st' : SeqState}
    (hl' : (t.write seq start kNew vNew bhSlice commit).1.seqs.lookup seq = some st') :
    ∃ st, t.seqs.lookup seq = some st ∧
      (st'.lSeq = st.lSeq ∨
        ∃ sNew w dNew, kNew.shape = [sNew, w, dNew] ∧
          (t.write seq start kNew vNew bhSlice commit).2 = .ok () ∧
          st.lSeq < start + sNew ∧ st'.lSeq = start + sNew) := by
  obtain ⟨st, hl, hkept | ⟨sNew, w, dNew, hs, hok, hst⟩⟩ := write_lengths h hl'
  · exact ⟨st, hl, .inl (by rw [hkept])⟩
  · have hlen : st'.lSeq = if start + sNew > st.lSeq then start + sNew else st.lSeq := by
      rw [hst, advance]
    split_ifs at hlen with hlt
    · exact ⟨st, hl, .inr ⟨sNew, w, dNew, hs, hok, hlt, hlen⟩⟩
    · exact ⟨st, hl, .inl hlen⟩

theorem commit_lSeq {t : PagedKVTable α} {seq : ℤ} {upTo : Option ℤ} {st' : SeqState}
    (hl' : (t.commit seq upTo).1.seqs.lookup seq = some st') :
    ∃ st, t.seqs.lookup seq = some st ∧ st'.lSeq = st.lSeq := by
  simp only [PagedKVTable.commit] at hl'
  split at hl'
  · exact ⟨st', hl', rfl⟩
  · rename_i st hl
    split_ifs at hl'
    · exact ⟨st', hl', rfl⟩
    · rw [AList.lookup_insert, Option.some.injEq] at hl'
      exact ⟨st, hl, by rw [← hl']⟩
    · exact ⟨st', hl', rfl⟩

/-- `rollback` sets `l_seq` to its target, or raises and keeps it. -/
theorem rollback_lSeq {t : PagedKVTable α} {seq target : ℤ} {st' : SeqState}
    (hl' : (t.rollback seq target).1.seqs.lookup seq = some st') :
    (∃ st, t.seqs.lookup seq = some st ∧ st'.lSeq ≤ st.lAcc ∧ (st'.lSeq : ℤ) = target) ∨
      ∃ e, (t.rollback seq target).2 = .error e ∧ t.seqs.lookup seq = some st' := by
  simp only [rollback] at hl' ⊢
  split at hl'
  · exact .inr ⟨_, rfl, hl'⟩
  · rename_i st hl
    split_ifs at hl' ⊢ with h1 h2
    · exact .inr ⟨_, rfl, hl'⟩
    · exact .inr ⟨_, rfl, hl'⟩
    · rw [AList.lookup_insert, Option.some.injEq] at hl'
      refine .inl ⟨st, hl, ?_, ?_⟩
      · rw [← hl']
        simp only
        omega
      · rw [← hl']
        simp only
        omega

/-! ### Coverage -/

/-- Every position of `seq` below `l_seq` was written in the columns `a` to `b`, and has not been
rolled back since. -/
def Covered (t : PagedKVTable α) (seq : ℤ) (a b : ℕ) (log : List (Op α × Except Raised Unit)) :
    Prop :=
  ∀ st, t.seqs.lookup seq = some st → ∀ p < st.lSeq, ∀ c, a ≤ c → c < b → ∀ e,
    ∃ x, lastWritten t.bh seq p c e log = some x

/-- A call that does not erase position `p` leaves something there. -/
theorem lastWritten_cons_of_some {bh p c e : ℕ} {seq : ℤ} {op : Op α} {r : Except Raised Unit}
    {log : List (Op α × Except Raised Unit)} (herase : r = .ok () → op.erases p = false)
    (h : ∃ x, lastWritten bh seq p c e log = some x) :
    ∃ x, lastWritten bh seq p c e ((op, r) :: log) = some x := by
  obtain ⟨x, hx⟩ := h
  cases r with
  | error _ => exact ⟨x, hx⟩
  | ok _ =>
    simp only [lastWritten, herase rfl, if_false, Bool.false_eq_true, hx]
    split_ifs
    · cases op.wrote bh p c e with
      | none => exact ⟨x, rfl⟩
      | some y => exact ⟨y, rfl⟩
    · exact ⟨x, rfl⟩

theorem write_covered {t : PagedKVTable α} (h : Inv t) {seq : ℤ} {a b start : ℕ} {kNew vNew : Tensor α}
    {bhSlice : ℤ × ℤ} {commit : Bool} {log : List (Op α × Except Raised Unit)}
    (hbh : (t.write seq start kNew vNew bhSlice commit).1.bh = t.bh)
    (hcov : Covered t seq a b log)
    (hfree : GapFree seq a b t (.write seq start kNew vNew bhSlice commit)) :
    Covered (t.write seq start kNew vNew bhSlice commit).1 seq a b
      ((.write seq start kNew vNew bhSlice commit,
        (t.write seq start kNew vNew bhSlice commit).2) :: log) := by
  intro st' hl' p hp c hac hcb e
  rw [hbh]
  obtain ⟨st, hl, hsame | ⟨sNew, w, dNew, hs, hok, hlt, hend⟩⟩ := write_lSeq h hl'
  · rw [hsame] at hp
    exact lastWritten_cons_of_some (fun _ => rfl) (hcov st hl p hp c hac hcb e)
  · rcases Nat.lt_or_ge p st.lSeq with hold | hnew
    · exact lastWritten_cons_of_some (fun _ => rfl) (hcov st hl p hold c hac hcb e)
    · -- a new position: the write starts before it and covers the column
      obtain ⟨hstart, hlo, hhi⟩ := hfree rfl hok st hl sNew w dNew hs hlt
      rw [hok]
      simp only [lastWritten, Op.seq, Op.erases, Op.wrote, hs, if_true, if_false,
        Bool.false_eq_true]
      rw [if_pos ⟨by omega, by omega, by omega, by omega⟩]
      exact ⟨_, rfl⟩

theorem covered_apply {t : PagedKVTable α} {seq : ℤ} {a b : ℕ}
    {log : List (Op α × Except Raised Unit)} (h : Inv t) {op : Op α} (hcopies : op.copies = true)
    (hcov : Covered t seq a b log) (hfree : GapFree seq a b t op) :
    Covered (op.apply t).1 seq a b ((op, (op.apply t).2) :: log) := by
  have he : Effect t op (op.apply t).1 (op.apply t).2 := apply_effect h rfl
  have hbh := he.same.2.2.1
  by_cases hne : op.seq = seq
  · subst hne
    cases op with
    | registerSequence seq =>
      intro st' hl' p hp c hac hcb e
      simp only [Op.apply, registerSequence] at hl' ⊢
      split_ifs at hl' ⊢ with hm
      · exact lastWritten_cons_of_some (fun _ => rfl) (hcov st' hl' p hp c hac hcb e)
      · rw [Op.seq, AList.lookup_insert, Option.some.injEq] at hl'
        subst hl'
        exact absurd hp (Nat.not_lt_zero p)
    | releaseSequence seq =>
      intro st' hl'
      simp only [Op.apply, Op.seq, releaseSequence] at hl'
      split at hl'
      · rename_i hnone
        exact absurd (hnone.symm.trans hl') (by simp)
      · exact absurd hl' (by simp)
    | write seq start kNew vNew bhSlice commit => exact write_covered h hbh hcov hfree
    | trackWrite seq start sNew commit => cases hcopies
    | commit seq upTo =>
      intro st' hl' p hp c hac hcb e
      obtain ⟨st, hl, hsame⟩ := commit_lSeq hl'
      rw [hbh]
      rw [hsame] at hp
      exact lastWritten_cons_of_some (fun _ => rfl) (hcov st hl p hp c hac hcb e)
    | rollback seq target =>
      intro st' hl' p hp c hac hcb e
      rw [hbh]
      rcases rollback_lSeq hl' with ⟨st, hl, hle, htarget⟩ | ⟨err, herr, hl⟩
      · have hfit := (h.fits seq st hl).1
        refine lastWritten_cons_of_some (fun _ => decide_eq_false ?_)
          (hcov st hl p (by omega) c hac hcb e)
        omega
      · refine lastWritten_cons_of_some (fun hok => ?_) (hcov st' hl p hp c hac hcb e)
        exact absurd (herr.symm.trans hok) (by simp)
  · intro st' hl' p hp c hac hcb e
    rw [he.lookup_ne (Ne.symm hne)] at hl'
    rw [hbh, lastWritten_cons_ne hne]
    exact hcov st' hl' p hp c hac hcb e

theorem covered_run {seq : ℤ} {a b : ℕ} (ops : List (Op α)) :
    ∀ {t : PagedKVTable α} {log : List (Op α × Except Raised Unit)}, Inv t →
      (∀ op ∈ ops, op.copies = true) → Covered t seq a b log → GapFreeRun seq a b t ops →
      Covered (runOps t ops) seq a b
        (ops.foldl (fun s op => ((op.apply s.1).1, (op, (op.apply s.1).2) :: s.2)) (t, log)).2 := by
  induction ops with
  | nil => exact fun _ _ hcov _ => hcov
  | cons op ops ih =>
    intro t log h hcopies hcov hfree
    exact ih (inv_apply h op) (fun o ho => hcopies o (List.mem_cons_of_mem _ ho))
      (covered_apply h (hcopies op List.mem_cons_self) hcov hfree.1) hfree.2

/-! ### Reads -/

/-- `gather_prefix` returns the committed rows of `seq`, and every byte of them was written by
`seq` and has not been rolled back since. -/
def ReadsOwnBytes [Inhabited α] (t : PagedKVTable α) (log : List (Op α × Except Raised Unit))
    (seq : ℤ) (a b : ℕ) : Prop :=
  ∃ st K V, t.seqs.lookup seq = some st ∧ t.gatherPrefix seq (a, b) = .ok (K, V) ∧
    K.shape = [st.lAcc, b - a, t.d] ∧ V.shape = [st.lAcc, b - a, t.d] ∧
    ∀ p < st.lAcc, ∀ c, a ≤ c → c < b → ∀ e,
      lastWritten t.bh seq p c e log = some (K.data p (c - a) e, V.data p (c - a) e)

/-- After every run whose calls leave no gap in a sequence, the sequence reads its own bytes. -/
theorem gatherPrefix_reads_own [Inhabited α] {backingK backingV : Tensor α} {blockSize : ℕ}
    {t : PagedKVTable α} (h : init backingK backingV blockSize = .ok t) {ops : List (Op α)}
    (hcopies : ∀ op ∈ ops, op.copies = true) {seq : ℤ} {a b : ℕ} (hab : a ≤ b) (hb : b ≤ t.bh)
    (hfree : GapFreeRun seq a b t ops) (hreg : seq ∈ (runOps t ops).seqs) :
    ReadsOwnBytes (runOps t ops) (runLog t ops).2 seq a b := by
  have hinv := inv_runOps (inv_init h) ops
  obtain ⟨-, -, hbh, -⟩ := runOps_same (inv_init h) ops
  obtain ⟨st, hl⟩ := Option.isSome_iff_exists.mp (AList.lookup_isSome.mpr hreg)
  obtain ⟨K, V, hok, hK, hV, hdata⟩ := gatherPrefix_eq hinv hl hab (by rw [hbh]; exact hb)
  have hstart : Covered t seq a b [] := by
    intro st hl
    rw [(init_fresh h).2, AList.lookup_empty] at hl
    cases hl
  have hcov := covered_run ops (inv_init h) hcopies hstart hfree
  have hagree : Agrees (runOps t ops) (runLog t ops).2 :=
    agrees_run (inv_init h) (fun _ _ _ _ _ hx => by simp [lastWritten] at hx) ops
  refine ⟨st, K, V, hl, hok, hK, hV, ?_⟩
  intro p hp c hac hcb e
  have hfit := (hinv.fits seq st hl).1
  obtain ⟨x, hx⟩ := hcov st hl p (by omega) c hac hcb e
  obtain ⟨st₀, hl₀, -, rfl⟩ := hagree seq p c e x hx
  obtain rfl : st = st₀ := Option.some.inj (hl.symm.trans hl₀)
  obtain ⟨hk, hv⟩ := hdata p hp (c - a) (by omega) e
  rw [hk, hv, Nat.add_sub_cancel' hac]
  exact hx

/-- A speculative write behind the prefix, rolled back, and the position written again. -/
def retriedRun : List (Op ℕ) :=
  [.registerSequence 7,
   .write 7 0 ⟨[1, 2, 1], fun _ c _ => c⟩ ⟨[1, 2, 1], fun _ c _ => c⟩ (0, 2) true,
   .write 7 1 ⟨[2, 2, 1], fun _ _ _ => 5⟩ ⟨[2, 2, 1], fun _ _ _ => 6⟩ (0, 2) false,
   .rollback 7 1,
   .write 7 1 ⟨[1, 2, 1], fun _ _ _ => 8⟩ ⟨[1, 2, 1], fun _ _ _ => 9⟩ (0, 2) true]

theorem gatherPrefix_reads_own_retriedRun :
    ReadsOwnBytes (runOps smallTable retriedRun) (runLog smallTable retriedRun).2 7 0 2 := by
  refine gatherPrefix_reads_own smallTable_init (by decide) (by decide) (by decide) ?_ (by decide)
  refine ⟨trivial, ?_, ?_, trivial, ?_, trivial⟩
  all_goals
    intro _ _ st hl sNew w dNew hs _
    cases hl
    cases hs
    decide

/-- Three tokens, a rollback to one, and a committed write of the third position. -/
def skippedRun : List (Op ℕ) :=
  [.registerSequence 7,
   .write 7 0 ⟨[3, 2, 1], fun s c _ => 10 * s + c⟩ ⟨[3, 2, 1], fun s c _ => 20 * s + c⟩ (0, 2) true,
   .rollback 7 1,
   .write 7 2 ⟨[1, 2, 1], fun _ _ _ => 8⟩ ⟨[1, 2, 1], fun _ _ _ => 9⟩ (0, 2) true]

/-- Position 1 is read as it was before the rollback. -/
theorem rolledBack_exposed :
    (∃ K V, (runOps smallTable skippedRun).gatherPrefix 7 (0, 2) = .ok (K, V) ∧
      K.data 1 1 0 = 11 ∧ V.data 1 1 0 = 21) ∧
      lastWritten 2 7 1 1 0 (runLog smallTable skippedRun).2 = none ∧
      ¬ReadsOwnBytes (runOps smallTable skippedRun) (runLog smallTable skippedRun).2 7 0 2 := by
  have hlost : lastWritten 2 7 1 1 0 (runLog smallTable skippedRun).2 = none := rfl
  refine ⟨⟨_, _, rfl, rfl, rfl⟩, hlost, ?_⟩
  rintro ⟨st, K, V, hl, -, -, -, hdata⟩
  cases hl
  have hread := hdata 1 (by decide) 1 (by decide) (by decide) 0
  exact absurd (hlost.symm.trans hread) (by simp)

end BloomBee.PagedKV
