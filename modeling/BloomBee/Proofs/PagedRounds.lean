import BloomBee.Sanity.PagedShim
import BloomBee.Sanity.SpeDecTree

/-! The committed lengths over rounds of speculative decoding. A verification round rolls every
sequence back to the write position, which lies behind the whole tree of the last round, and then
commits the tree that it has just written (`verify_lAcc`). So `l_acc` is the accepted prefix only
in rounds that commit nothing. -/

set_option autoImplicit false

namespace BloomBee.PagedKV

open PagedKVTable Speculative

variable {α : Type}

/-- The tokens of a row that are accepted: those before the root, and the valid ids, of which the
root is the first. -/
def acceptedLength (ids : List ℤ) : ℕ :=
  (rootPosition ids).toNat + (ids.filter fun p => 0 ≤ p).length

/-- A call of `_do_reorder_task`: the position ids, the key shape (`bh`, `treeLen`), and how far the
slab gets. `promptLens` are the prompt tokens of the rows of a prefill, which has no valid id.
The valid ids of a row are an accepted path. -/
structure Round where
  ids : List (List ℤ)
  promptLens : List ℕ := []
  batchOffset : ℕ := 0
  bh : ℕ
  treeLen : ℕ
  outcome : SlabOutcome
  paths : cacheLenOf ids ≠ 0 → ∀ r ∈ ids,
    (∃ p ∈ r, 0 ≤ p) ∧ (r.filter fun p => 0 ≤ p).Pairwise (· < ·)

namespace Round

def writePosition (round : Round) : ℕ := cacheLenOf round.ids

def IsPrefill (round : Round) : Prop := round.writePosition = 0

instance (round : Round) : Decidable round.IsPrefill :=
  inferInstanceAs (Decidable (round.writePosition = 0))

def rows (round : Round) : ℕ :=
  if round.IsPrefill then round.promptLens.length else round.ids.length

/-- The accepted prefix of row `b`, before the tree of this round is verified. -/
def accepted (round : Round) (b : ℕ) : ℕ :=
  if round.IsPrefill then round.promptLens.getD b 0 else acceptedLength (round.ids.getD b [])

def run (cfg : BlockConfig) (t : PagedKVTable α) (round : Round) : PagedKVTable α :=
  pagedReorderTask cfg t round.ids round.bh round.treeLen round.outcome

/-- The sequence of batch row `s` is among those whose write is tracked. -/
def Tracks (cfg : BlockConfig) (round : Round) (s : ℕ) : Prop :=
  round.outcome ≠ .raised ∧ 0 < round.treeLen ∧ s < (inferSeqIds cfg round.bh).length

instance (cfg : BlockConfig) (round : Round) (s : ℕ) : Decidable (round.Tracks cfg s) :=
  inferInstanceAs (Decidable (_ ∧ _ ∧ _))

end Round

/-- The committed prefix of a sequence is the accepted one, and `gather_prefix` reads no more than
that. -/
def Exposes [Inhabited α] (t : PagedKVTable α) (seq : ℤ) (accepted : ℕ) : Prop :=
  (t.seqs.lookup seq).map SeqState.lAcc = some accepted ∧
    ∀ a b : ℕ, a ≤ b → b ≤ t.bh → ∃ K V, t.gatherPrefix seq (a, b) = .ok (K, V) ∧
      K.shape = [accepted, b - a, t.d] ∧ V.shape = [accepted, b - a, t.d]

def RoundExact [Inhabited α] (cfg : BlockConfig) (t : PagedKVTable α) (round : Round) : Prop :=
  ∀ b < round.rows,
    Exposes (round.run cfg t) ((round.batchOffset + b : ℕ) : ℤ) (round.accepted b)

def RunExact [Inhabited α] (cfg : BlockConfig) : PagedKVTable α → List Round → Prop
  | _, [] => True
  | t, round :: rounds => RoundExact cfg t round ∧ RunExact cfg (round.run cfg t) rounds

/-! ### The condition -/

/-- The rows up to `i` find the pages that they lack for `endPos` tokens once every sequence is
rolled back to `target`. -/
def RoomAfterRollback (t : PagedKVTable α) (target endPos i : ℕ) : Prop :=
  t.pagesFor endPos - t.pagesFor (min target (lAccOf t i)) ≤
    freeAfterRollback t target -
      ∑ j ∈ Finset.range i, (t.pagesFor endPos - t.pagesFor (min target (lAccOf t j)))

instance (t : PagedKVTable α) (target endPos i : ℕ) :
    Decidable (RoomAfterRollback t target endPos i) := Nat.decLe _ _

/-- The round commits its own tree for batch row `s`. -/
def CommitsTree (cfg : BlockConfig) (t : PagedKVTable α) (round : Round) (s : ℕ) : Prop :=
  round.outcome = .compacted ∧ round.Tracks cfg s ∧
    RoomAfterRollback t round.writePosition (round.writePosition + round.treeLen) s

instance (cfg : BlockConfig) (t : PagedKVTable α) (round : Round) (s : ℕ) :
    Decidable (CommitsTree cfg t round s) := inferInstanceAs (Decidable (_ ∧ _ ∧ _))

/-- A verification round: the tree is not committed for any row, and the prefix committed before,
cut at the write position, is the accepted one. -/
def VerifyQuiet (cfg : BlockConfig) (t : PagedKVTable α) (round : Round) : Prop :=
  ∀ b < round.rows, ¬CommitsTree cfg t round (round.batchOffset + b) ∧
    (((round.batchOffset + b : ℕ) : ℤ) ∈ t.seqs ∨ round.Tracks cfg (round.batchOffset + b)) ∧
    min round.writePosition (lAccOf t (round.batchOffset + b : ℕ)) = round.accepted b

/-- A prefill: a row that is tracked brings its prompt and nothing more, and any other row has its
prompt committed. -/
def PrefillQuiet (cfg : BlockConfig) (t : PagedKVTable α) (round : Round) : Prop :=
  ∀ b < round.rows,
    (round.Tracks cfg (round.batchOffset + b) ∧ HasRoom t round.treeLen (round.batchOffset + b) →
      max (lAccOf t (round.batchOffset + b : ℕ)) round.treeLen = round.accepted b) ∧
    (¬(round.Tracks cfg (round.batchOffset + b) ∧
        HasRoom t round.treeLen (round.batchOffset + b)) →
      (((round.batchOffset + b : ℕ) : ℤ) ∈ t.seqs ∨ round.Tracks cfg (round.batchOffset + b)) ∧
        lAccOf t (round.batchOffset + b : ℕ) = round.accepted b)

def Quiet (cfg : BlockConfig) (t : PagedKVTable α) (round : Round) : Prop :=
  (round.IsPrefill → PrefillQuiet cfg t round) ∧ (¬round.IsPrefill → VerifyQuiet cfg t round)

instance (cfg : BlockConfig) (t : PagedKVTable α) (round : Round) :
    Decidable (VerifyQuiet cfg t round) := Nat.decidableBallLT _ _

instance (cfg : BlockConfig) (t : PagedKVTable α) (round : Round) :
    Decidable (PrefillQuiet cfg t round) := Nat.decidableBallLT _ _

instance (cfg : BlockConfig) (t : PagedKVTable α) (round : Round) :
    Decidable (Quiet cfg t round) := inferInstanceAs (Decidable (_ ∧ _))

/-- All rounds of a run meet the condition in the state they start in. -/
def RunQuiet (cfg : BlockConfig) : PagedKVTable α → List Round → Prop
  | _, [] => True
  | t, round :: rounds => Quiet cfg t round ∧ RunQuiet cfg (round.run cfg t) rounds

/-! ### Accepted paths -/

/-- An increasing path ends at least as far from its root as it is long. -/
theorem head_add_length_le {M : ℤ} (l : List ℤ) :
    ∀ {a : ℤ}, (a :: l).Pairwise (· < ·) → (∀ x ∈ a :: l, x < M) → a + (l.length + 1) ≤ M := by
  induction l with
  | nil =>
    intro a _ hlt
    have := hlt a List.mem_cons_self
    simp only [List.length_nil]
    omega
  | cons x l ih =>
    intro a hsorted hlt
    obtain ⟨hhead, htail⟩ := List.pairwise_cons.mp hsorted
    have hrest := ih htail fun y hy => hlt y (List.mem_cons_of_mem a hy)
    have hstep := hhead x List.mem_cons_self
    rw [List.length_cons]
    push_cast
    omega

theorem accepted_le {round : Round} (hverify : ¬round.IsPrefill) {b : ℕ} (hb : b < round.rows) :
    round.accepted b ≤ round.writePosition := by
  rw [Round.rows, if_neg hverify] at hb
  have hrow : round.ids.getD b [] ∈ round.ids := by
    rw [List.getD_eq_getElem _ _ hb]
    exact List.getElem_mem hb
  rw [Round.accepted, if_neg hverify]
  generalize round.ids.getD b [] = r at hrow
  obtain ⟨⟨p, hp, hpos⟩, hsorted⟩ := round.paths hverify r hrow
  have hroot : r.find? (fun p => decide (0 ≤ p)) = (r.filter fun p => 0 ≤ p).head? :=
    List.head?_filter.symm
  have hvalid : p ∈ r.filter fun p => 0 ≤ p := List.mem_filter.mpr ⟨hp, by simpa using hpos⟩
  have hlt : ∀ x ∈ r.filter fun p => 0 ≤ p, 0 ≤ x ∧ x < round.writePosition := by
    intro x hx
    obtain ⟨hx, hnonneg⟩ := List.mem_filter.mp hx
    obtain ⟨n, rfl⟩ := Int.eq_ofNat_of_zero_le (by simpa using hnonneg)
    have := lt_cacheLenOf hrow hx
    rw [Round.writePosition]
    omega
  rw [acceptedLength, rootPosition, hroot]
  generalize r.filter (fun p => 0 ≤ p) = valid at hsorted hvalid hlt
  cases valid with
  | nil => exact absurd hvalid List.not_mem_nil
  | cons a l =>
    have hend := head_add_length_le l hsorted fun x hx => (hlt x hx).2
    have ha := (hlt a List.mem_cons_self).1
    rw [List.head?_cons, Option.getD_some, List.length_cons]
    omega

/-! ### One round -/

theorem trackPagedWrite_lookup (cfg : BlockConfig) (t : PagedKVTable α) (bh start n : ℕ)
    (commit : Bool) (s : ℕ) :
    (0 < n ∧ s < (inferSeqIds cfg bh).length → ∃ st',
      (trackPagedWrite t (inferSeqIds cfg bh) start n commit).seqs.lookup (s : ℤ) = some st' ∧
        TrackedTo t s (start + n) commit st') ∧
    (¬(0 < n ∧ s < (inferSeqIds cfg bh).length) →
      (trackPagedWrite t (inferSeqIds cfg bh) start n commit).seqs.lookup (s : ℤ) =
        t.seqs.lookup (s : ℤ)) := by
  rcases Nat.eq_zero_or_pos n with rfl | hn
  · refine ⟨fun h => absurd h.1 (Nat.lt_irrefl 0), fun _ => ?_⟩
    have hnone : trackPagedWrite t (inferSeqIds cfg bh) start 0 commit = t := by
      unfold trackPagedWrite
      induction inferSeqIds cfg bh with
      | nil => rfl
      | cons seq seqs ih =>
        rw [List.foldl_cons, trackWrite, if_pos (by simp)]
        exact ih
    rw [hnone]
  · rw [inferSeqIds_eq, List.length_map, List.length_range]
    obtain ⟨-, -, hother, hrows⟩ := trackRows_spec t start hn commit (inferSeqIds cfg bh).length
    refine ⟨fun h => hrows s h.2, fun h => hother s fun i hi heq => h ⟨hn, ?_⟩⟩
    omega

theorem hasRoom_rolledBack {t : PagedKVTable α} (h : Inv t) (target endPos i : ℕ) :
    HasRoom (rollbackPagedTo t target) endPos i ↔ RoomAfterRollback t target endPos i := by
  have hlack : ∀ seq, lacking (rollbackPagedTo t target) endPos seq =
      t.pagesFor endPos - t.pagesFor (min target (lAccOf t seq)) := by
    intro seq
    rw [lacking, rollbackPagedTo_heldPages h, pagesFor, (rollbackPagedTo_kept h _).blockSize]
    rfl
  simp only [HasRoom, hlack, rollbackPagedTo_free h, RoomAfterRollback]

theorem lengths_rolledBack {t : PagedKVTable α} (h : Inv t) (target s : ℕ) :
    (((rollbackPagedTo t target).seqs.lookup (s : ℤ)).getD {}).lAcc = min target (lAccOf t s) ∧
      (((rollbackPagedTo t target).seqs.lookup (s : ℤ)).getD {}).lSeq =
        min target (lAccOf t s) := by
  rw [rollbackPagedTo_lookup h, lAccOf]
  cases t.seqs.lookup (s : ℤ) with
  | none => exact ⟨(Nat.min_zero target).symm, (Nat.min_zero target).symm⟩
  | some st => exact ⟨rfl, rfl⟩

theorem map_lAcc_of_mem {t : PagedKVTable α} {seq : ℤ} (hm : seq ∈ t.seqs) :
    (t.seqs.lookup seq).map SeqState.lAcc = some (lAccOf t seq) := by
  obtain ⟨st, hl⟩ := Option.isSome_iff_exists.mp (AList.lookup_isSome.mpr hm)
  rw [lAccOf, hl]
  rfl

theorem prefill_lAcc (cfg : BlockConfig) (t : PagedKVTable α) {round : Round}
    (hprefill : round.IsPrefill) (s : ℕ) :
    ((round.Tracks cfg s ∧ HasRoom t round.treeLen s) ∧
      ((round.run cfg t).seqs.lookup (s : ℤ)).map SeqState.lAcc =
        some (max (lAccOf t s) round.treeLen)) ∨
    (¬(round.Tracks cfg s ∧ HasRoom t round.treeLen s) ∧ ((s : ℤ) ∈ t.seqs ∨ round.Tracks cfg s) ∧
      ((round.run cfg t).seqs.lookup (s : ℤ)).map SeqState.lAcc = some (lAccOf t s)) ∨
    (¬(round.Tracks cfg s ∧ HasRoom t round.treeLen s) ∧ ¬((s : ℤ) ∈ t.seqs ∨ round.Tracks cfg s) ∧
      ((round.run cfg t).seqs.lookup (s : ℤ)).map SeqState.lAcc = none) := by
  obtain ⟨htracked, hkept⟩ :=
    trackPagedWrite_lookup cfg t round.bh 0 round.treeLen true s
  rw [Nat.zero_add] at htracked
  have hwp : cacheLenOf round.ids = 0 := hprefill
  simp only [Round.run, pagedReorderTask, hwp, if_true]
  by_cases htr : round.Tracks cfg s
  · obtain ⟨hret, hn, hs⟩ := htr
    have hbase : ((t.seqs.lookup (s : ℤ)).getD {}).lAcc = lAccOf t s := by
      rw [lAccOf]
      cases t.seqs.lookup (s : ℤ) <;> rfl
    rw [if_neg hret]
    obtain ⟨st', hl', pages, ⟨rfl, hroom⟩ | ⟨rfl, hroom⟩⟩ := htracked ⟨hn, hs⟩
    · refine .inr (.inl ⟨fun hc => hroom hc.2, .inr ⟨hret, hn, hs⟩, ?_⟩)
      rw [hl', Option.map_some, hbase]
    · refine .inl ⟨⟨⟨hret, hn, hs⟩, hroom⟩, ?_⟩
      rw [hl', Option.map_some, Option.some.injEq]
      simp only [advance, hbase, Bool.true_and, decide_eq_true_eq]
      split_ifs <;> omega
  · have hsame : (if round.outcome = .raised then t
        else trackPagedWrite t (inferSeqIds cfg round.bh) 0 round.treeLen true).seqs.lookup
          (s : ℤ) = t.seqs.lookup (s : ℤ) := by
      split_ifs with hret
      · rfl
      · exact hkept fun hc => htr ⟨hret, hc⟩
    rw [hsame]
    by_cases hm : (s : ℤ) ∈ t.seqs
    · exact .inr (.inl ⟨fun hc => htr hc.1, .inl hm, map_lAcc_of_mem hm⟩)
    · refine .inr (.inr ⟨fun hc => htr hc.1, not_or.mpr ⟨hm, htr⟩, ?_⟩)
      rw [AList.lookup_eq_none.mpr hm, Option.map_none]

theorem verify_tracked (cfg : BlockConfig) {t : PagedKVTable α} (h : Inv t) {round : Round}
    (hverify : ¬round.IsPrefill) {s : ℕ} (htr : round.Tracks cfg s) :
    (CommitsTree cfg t round s ∧
      ((round.run cfg t).seqs.lookup (s : ℤ)).map SeqState.lAcc =
        some (round.writePosition + round.treeLen)) ∨
    (¬CommitsTree cfg t round s ∧
      ((round.run cfg t).seqs.lookup (s : ℤ)).map SeqState.lAcc =
        some (min round.writePosition (lAccOf t s))) := by
  have hne : round.ids ≠ [] := by
    intro hnil
    exact hverify (by rw [Round.IsPrefill, Round.writePosition, hnil]; rfl)
  have hwp : ¬cacheLenOf round.ids = 0 := hverify
  obtain ⟨hacc, hseq⟩ := lengths_rolledBack h round.writePosition s
  obtain ⟨htracked, -⟩ := trackPagedWrite_lookup cfg (rollbackPagedTo t round.writePosition)
    round.bh round.writePosition round.treeLen false s
  obtain ⟨hret, hn, hs⟩ := htr
  have hend : cacheLenOf (extendIds round.ids round.writePosition round.treeLen) =
      round.writePosition + round.treeLen := cacheLenOf_extendIds hne hn
  simp only [Round.run, pagedReorderTask, if_neg hwp, if_neg hret]
  rw [← Round.writePosition, hend]
  obtain ⟨st', hl', pages, ⟨rfl, hroom⟩ | ⟨rfl, hroom⟩⟩ := htracked ⟨hn, hs⟩
  · -- too few pages: only the rollback shows
    rw [hasRoom_rolledBack h] at hroom
    refine .inr ⟨fun hc => hroom hc.2.2, ?_⟩
    split_ifs
    · rw [hl', Option.map_some, hacc]
    · rw [commitPagedTo_lookup, hl', Option.map_some, Option.map_some, Option.some.injEq]
      simp only [committedTo, hacc, hseq]
      omega
  · rw [hasRoom_rolledBack h] at hroom
    split_ifs with hwritten
    · refine .inr ⟨fun hc => absurd (hwritten.symm.trans hc.1) (by decide), ?_⟩
      rw [hl', Option.map_some, Option.some.injEq]
      simp only [advance, hacc, Bool.false_and, Bool.false_eq_true, if_false]
    · have hcompacted : round.outcome = .compacted := by
        cases hout : round.outcome with
        | raised => exact absurd hout hret
        | written => exact absurd hout hwritten
        | compacted => rfl
      refine .inl ⟨⟨hcompacted, ⟨hret, hn, hs⟩, hroom⟩, ?_⟩
      rw [commitPagedTo_lookup, hl', Option.map_some, Option.map_some, Option.some.injEq]
      simp only [committedTo, advance, hacc, hseq, Bool.false_and, Bool.false_eq_true, if_false]
      split_ifs <;> omega

theorem verify_untracked (cfg : BlockConfig) {t : PagedKVTable α} (h : Inv t) {round : Round}
    (hverify : ¬round.IsPrefill) {s : ℕ} (htr : ¬round.Tracks cfg s) :
    ((round.run cfg t).seqs.lookup (s : ℤ)).map SeqState.lAcc =
      ((rollbackPagedTo t round.writePosition).seqs.lookup (s : ℤ)).map SeqState.lAcc := by
  have hwp : ¬cacheLenOf round.ids = 0 := hverify
  obtain ⟨-, hkept⟩ := trackPagedWrite_lookup cfg (rollbackPagedTo t round.writePosition)
    round.bh round.writePosition round.treeLen false s
  simp only [Round.run, pagedReorderTask, if_neg hwp]
  rw [← Round.writePosition]
  split_ifs with hret hwritten
  · rfl
  · rw [hkept fun hc => htr ⟨hret, hc⟩]
  · rw [commitPagedTo_lookup, hkept fun hc => htr ⟨hret, hc⟩, rollbackPagedTo_lookup h]
    cases t.seqs.lookup (s : ℤ) with
    | none => rfl
    | some st =>
      simp only [Option.map_some, committedTo, rolledTo, Option.some.injEq]
      omega

/-- What a verification round commits: all that is cached, the tree of this round included. -/
theorem verify_lAcc (cfg : BlockConfig) {t : PagedKVTable α} (h : Inv t) {round : Round}
    (hverify : ¬round.IsPrefill) (s : ℕ) :
    (CommitsTree cfg t round s ∧
      ((round.run cfg t).seqs.lookup (s : ℤ)).map SeqState.lAcc =
        some (round.writePosition + round.treeLen)) ∨
    (¬CommitsTree cfg t round s ∧ ((s : ℤ) ∈ t.seqs ∨ round.Tracks cfg s) ∧
      ((round.run cfg t).seqs.lookup (s : ℤ)).map SeqState.lAcc =
        some (min round.writePosition (lAccOf t s))) ∨
    (¬CommitsTree cfg t round s ∧ ¬((s : ℤ) ∈ t.seqs ∨ round.Tracks cfg s) ∧
      ((round.run cfg t).seqs.lookup (s : ℤ)).map SeqState.lAcc = none) := by
  by_cases htr : round.Tracks cfg s
  · rcases verify_tracked cfg h hverify htr with hcommits | ⟨hnot, hl⟩
    · exact .inl hcommits
    · exact .inr (.inl ⟨hnot, .inr htr, hl⟩)
  · have hnot : ¬CommitsTree cfg t round s := fun hc => htr hc.2.1
    rw [verify_untracked cfg h hverify htr, rollbackPagedTo_lookup h]
    by_cases hm : (s : ℤ) ∈ t.seqs
    · refine .inr (.inl ⟨hnot, .inl hm, ?_⟩)
      obtain ⟨st, hl⟩ := Option.isSome_iff_exists.mp (AList.lookup_isSome.mpr hm)
      rw [lAccOf, hl]
      rfl
    · refine .inr (.inr ⟨hnot, not_or.mpr ⟨hm, htr⟩, ?_⟩)
      rw [AList.lookup_eq_none.mpr hm, Option.map_none, Option.map_none]

theorem run_kept (cfg : BlockConfig) {t : PagedKVTable α} (h : Inv t) (round : Round) :
    Kept t (round.run cfg t) := by
  simp only [Round.run, pagedReorderTask]
  have hback := rollbackPagedTo_kept h (cacheLenOf round.ids : ℕ)
  have htrack := hback.trans (trackPagedWrite_kept hback.inv (inferSeqIds cfg round.bh)
    (cacheLenOf round.ids) round.treeLen false)
  split_ifs
  · exact Kept.refl h
  · exact trackPagedWrite_kept h _ 0 round.treeLen true
  · exact hback
  · exact htrack
  · exact htrack.trans (commitPagedTo_kept htrack.inv _)

theorem exposes_iff [Inhabited α] {t : PagedKVTable α} (h : Inv t) (seq : ℤ) (accepted : ℕ) :
    Exposes t seq accepted ↔ (t.seqs.lookup seq).map SeqState.lAcc = some accepted := by
  refine ⟨fun he => he.1, fun hacc => ⟨hacc, ?_⟩⟩
  obtain ⟨st, hl, rfl⟩ := Option.map_eq_some_iff.mp hacc
  intro a b hab hb
  obtain ⟨K, V, hok, hK, hV, -⟩ := gatherPrefix_eq h hl hab hb
  exact ⟨K, V, hok, hK, hV⟩

theorem prefillExact_iff [Inhabited α] (cfg : BlockConfig) {t : PagedKVTable α} (h : Inv t)
    {round : Round} (hprefill : round.IsPrefill) :
    RoundExact cfg t round ↔ PrefillQuiet cfg t round := by
  apply forall₂_congr
  intro b _
  rw [exposes_iff (run_kept cfg h round).inv]
  rcases prefill_lAcc cfg t hprefill (round.batchOffset + b) with
    ⟨hgrows, hl⟩ | ⟨hnot, hknown, hl⟩ | ⟨hnot, hunknown, hl⟩
  · rw [hl, Option.some.injEq]
    exact ⟨fun heq => ⟨fun _ => heq, fun hn => absurd hgrows hn⟩, fun hq => hq.1 hgrows⟩
  · rw [hl, Option.some.injEq]
    exact ⟨fun heq => ⟨fun hg => absurd hg hnot, fun _ => ⟨hknown, heq⟩⟩, fun hq => (hq.2 hnot).2⟩
  · rw [hl]
    exact ⟨fun heq => by simp at heq, fun hq => absurd (hq.2 hnot).1 hunknown⟩

theorem verifyExact_iff [Inhabited α] (cfg : BlockConfig) {t : PagedKVTable α} (h : Inv t)
    {round : Round} (hverify : ¬round.IsPrefill) :
    RoundExact cfg t round ↔ VerifyQuiet cfg t round := by
  apply forall₂_congr
  intro b hb
  rw [exposes_iff (run_kept cfg h round).inv]
  rcases verify_lAcc cfg h hverify (round.batchOffset + b) with
    ⟨hcommits, hl⟩ | ⟨hnot, hknown, hl⟩ | ⟨hnot, hunknown, hl⟩
  · -- the tree ends behind the accepted prefix
    have hle := accepted_le hverify hb
    have hpos := hcommits.2.1.2.1
    rw [hl, Option.some.injEq]
    exact ⟨fun heq => by omega, fun hq => absurd hcommits hq.1⟩
  · rw [hl, Option.some.injEq]
    exact ⟨fun heq => ⟨hnot, hknown, heq⟩, fun hq => hq.2.2⟩
  · rw [hl]
    exact ⟨fun heq => by simp at heq, fun hq => absurd hq.2.1 hunknown⟩

/-- A round leaves the accepted prefixes committed and nothing else, exactly if it commits
nothing. -/
theorem roundExact_iff [Inhabited α] (cfg : BlockConfig) {t : PagedKVTable α} (h : Inv t)
    (round : Round) : RoundExact cfg t round ↔ Quiet cfg t round := by
  by_cases hprefill : round.IsPrefill
  · rw [prefillExact_iff cfg h hprefill]
    exact ⟨fun hq => ⟨fun _ => hq, fun hn => absurd hprefill hn⟩, fun hq => hq.1 hprefill⟩
  · rw [verifyExact_iff cfg h hprefill]
    exact ⟨fun hq => ⟨fun hp => absurd hp hprefill, fun _ => hq⟩, fun hq => hq.2 hprefill⟩

/-! ### Runs -/

theorem runExact_of_inv [Inhabited α] (cfg : BlockConfig) (rounds : List Round) :
    ∀ {t : PagedKVTable α}, Inv t → (RunExact cfg t rounds ↔ RunQuiet cfg t rounds) := by
  induction rounds with
  | nil => exact fun _ => Iff.rfl
  | cons round rounds ih =>
    intro t h
    rw [RunExact, RunQuiet, roundExact_iff cfg h round, ih (run_kept cfg h round).inv]

/-- The committed lengths are the accepted prefixes throughout a run of rounds on a handle exactly
if no round of it commits what it has just written. -/
theorem runExact_iff [Inhabited α] (cfg : BlockConfig) {backingK backingV : Tensor α}
    {blockSize : ℕ} {t : PagedKVTable α} (h : init backingK backingV blockSize = .ok t)
    (rounds : List Round) : RunExact cfg t rounds ↔ RunQuiet cfg t rounds :=
  runExact_of_inv cfg rounds (inv_init h)

def oneHead : BlockConfig where
  numAttentionHeads := some 1

def promptRound (b : ℕ) : Round where
  ids := []
  promptLens := List.replicate b 2
  bh := b
  treeLen := 2
  outcome := .written
  paths := fun h => absurd rfl h

/-- Two rows that bring one token each, when the prompts have taken all pages. -/
def crowdedRound : Round where
  ids := [[1], [1]]
  bh := 2
  treeLen := 1
  outcome := .compacted
  paths := by decide

theorem runExact_iff_crowded : RunExact oneHead smallTable [promptRound 2, crowdedRound] :=
  (runExact_iff oneHead smallTable_init [promptRound 2, crowdedRound]).mpr
    ⟨by decide, by decide, trivial⟩

def promptSlab : RpcInference.Slab ℕ where
  seqLen := 4
  batch := 1
  row := fun _ => [10, 11, 0, 0]
  row_length := fun _ => rfl

def treeRound : Round where
  ids := [[1]]
  bh := 1
  treeLen := 2
  outcome := slabOutcome 0 promptSlab 0 [[1]] 2 [[20, 21]]
  paths := by decide

/-- Two tokens are accepted, and four are committed. -/
theorem tree_committed :
    treeRound.outcome = .compacted ∧ treeRound.accepted 0 = 2 ∧
      lAccOf (treeRound.run oneHead ((promptRound 1).run oneHead smallTable)) 0 = 4 ∧
      ¬RunExact oneHead smallTable [promptRound 1, treeRound] := by
  have hacc : treeRound.accepted 0 = 2 := by decide
  have hcommitted :
      lAccOf (treeRound.run oneHead ((promptRound 1).run oneHead smallTable)) 0 = 4 := by decide
  refine ⟨by decide, hacc, hcommitted, ?_⟩
  intro hexact
  obtain ⟨hl, -⟩ := hexact.2.1 0 (by decide)
  obtain ⟨st, hst, hlen⟩ := Option.map_eq_some_iff.mp hl
  have hexposed : lAccOf (treeRound.run oneHead ((promptRound 1).run oneHead smallTable)) 0 =
      treeRound.accepted 0 := by
    rw [← hlen]
    exact congrArg (fun o => Option.elim o 0 SeqState.lAcc) hst
  omega

end BloomBee.PagedKV
