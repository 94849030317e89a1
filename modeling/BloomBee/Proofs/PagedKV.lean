import BloomBee.Sanity.PagedKVCalls

/-! The paged KV table over whole runs: pages are conserved, and every sequence reads back
its own array whatever the other sequences do. -/

namespace BloomBee.PagedKV

open PagedKVTable Paging

variable {α : Type}

/-- After any run of calls, raising ones included, the free stack and the page lists of the
registered sequences are a permutation of all pages, and every sequence satisfies
`l_acc ≤ l_seq ≤ len(pages) * block_size`. -/
theorem runOps_pages_conserved {backingK backingV : Tensor α} {blockSize : ℕ}
    {t : PagedKVTable α} (h : init backingK backingV blockSize = .ok t) (ops : List (Op α)) :
    ((runOps t ops).free ++ Dict.collect SeqState.pages (runOps t ops).seqs).Perm
        (List.range t.numPages) ∧
      ∀ seq st, (runOps t ops).seqs.lookup seq = some st →
        st.lAcc ≤ st.lSeq ∧ st.lSeq ≤ st.pages.length * t.blockSize := by
  have hinv := inv_runOps (inv_init h) ops
  obtain ⟨hn, hb, -⟩ := runOps_same (inv_init h) ops
  refine ⟨?_, ?_⟩
  · rw [← hn]; exact hinv.pages
  · intro seq st hl
    rw [← hb]; exact hinv.fits seq st hl

def smallTable : PagedKVTable ℕ where
  k := fun _ _ _ => 0
  v := fun _ _ _ => 0
  bh := 2
  d := 1
  blockSize := 2
  numPages := 2
  free := [0, 1]
  seqs := ∅
  blockSize_pos := by decide

/-- Two sequences; the write of the second one runs out of pages. -/
def smallRun : List (Op ℕ) :=
  [.registerSequence 7, .registerSequence 8,
   .write 7 0 ⟨[2, 2, 1], fun s c _ => 10 * s + c⟩ ⟨[2, 2, 1], fun s c _ => 20 * s + c⟩ (0, 2) true,
   .write 8 0 ⟨[3, 2, 1], fun _ _ _ => 5⟩ ⟨[3, 2, 1], fun _ _ _ => 6⟩ (0, 2) true]

theorem smallTable_init :
    init ⟨[4, 2, 1], fun _ _ _ => 0⟩ ⟨[4, 2, 1], fun _ _ _ => 0⟩ 2 = .ok smallTable := rfl

theorem runOps_pages_conserved_smallRun :
    ((runOps smallTable smallRun).free ++
        Dict.collect SeqState.pages (runOps smallTable smallRun).seqs).Perm (List.range 2) ∧
      (runOps smallTable smallRun).seqs.lookup 8 = some { pages := [1] } :=
  ⟨(runOps_pages_conserved smallTable_init smallRun).1, rfl⟩

/-! Isolation. -/

theorem Inv.disjoint {t : PagedKVTable α} (h : Inv t) {seq seq' : ℤ} {st st' : SeqState}
    (hl : t.seqs.lookup seq = some st) (hl' : t.seqs.lookup seq' = some st') (hne : seq' ≠ seq) :
    st.pages.Disjoint st'.pages := by
  have hall : (seqPages t).Nodup :=
    (List.nodup_append.mp (h.pages.nodup_iff.mpr List.nodup_range)).2.1
  exact Dict.disjoint_of_nodup SeqState.pages hall hl hl' hne

theorem Extended.lookup_new {t t' : PagedKVTable α} {seq : ℤ} {st st' : SeqState} {m : ℕ}
    (hx : Extended t t' seq st st' m) : t'.seqs.lookup seq = some st' := by
  rw [hx.rest]; simp

theorem Extended.lookup_ne {t t' : PagedKVTable α} {seq s : ℤ} {st st' : SeqState} {m : ℕ}
    (hx : Extended t t' seq st st' m) (hne : s ≠ seq) :
    t'.seqs.lookup s = t.seqs.lookup s := by
  rw [hx.rest]; exact AList.lookup_insert_ne hne

theorem Effect.lookup_ne {t t' : PagedKVTable α} {op : Op α} {r : Except Raised Unit}
    (he : Effect t op t' r) {s : ℤ} (hne : s ≠ op.seq) :
    t'.seqs.lookup s = t.seqs.lookup s := by
  cases he with
  | unchanged => rfl
  | registered => exact AList.lookup_insert_ne hne
  | released => exact AList.lookup_erase_ne hne
  | extended hw hx => exact hx.lookup_ne hne
  | tracked hm hx => exact (hx.lookup_ne hne).trans (AList.lookup_insert_ne hne)
  | written hx => exact hx.lookup_ne hne
  | rolledBack => exact AList.lookup_insert_ne hne

theorem Effect.bytes_ne {t t' : PagedKVTable α} {op : Op α} {r : Except Raised Unit} (h : Inv t)
    (he : Effect t op t' r) {s : ℤ} {st : SeqState} (hne : s ≠ op.seq)
    (hl : t.seqs.lookup s = some st) {p : ℕ} (hp : p < st.pages.length * t.blockSize) (c e : ℕ) :
    t'.k (addr t.blockSize st.pages p) c e = t.k (addr t.blockSize st.pages p) c e ∧
      t'.v (addr t.blockSize st.pages p) c e = t.v (addr t.blockSize st.pages p) c e := by
  cases he with
  | unchanged | registered | released | rolledBack => exact ⟨rfl, rfl⟩
  | extended hw hx hk hv => rw [hk, hv]; exact ⟨rfl, rfl⟩
  | tracked hm hx hk hv => rw [hk, hv]; exact ⟨rfl, rfl⟩
  | written hx hs hr hk hv =>
    have hd := (hx.inv h).disjoint hx.lookup_new ((hx.lookup_ne hne).trans hl) hne
    exact ⟨hk.kept_of_disjoint t.blockSize_pos hd hr hp c e,
      hv.kept_of_disjoint t.blockSize_pos hd hr hp c e⟩

/-- `gather_prefix` of a registered sequence in closed form. -/
theorem gatherPrefix_whole [Inhabited α] {t : PagedKVTable α} (h : Inv t) {seq : ℤ} {st : SeqState}
    (hl : t.seqs.lookup seq = some st) (bhSlice : ℤ × ℤ) {length : Option ℤ} {len : ℕ}
    (hlen : length.getD st.lAcc = len) (hle : len ≤ st.lAcc) :
    t.gatherPrefix seq bhSlice length =
      let lo := sliceBound t.bh bhSlice.1
      let hi := sliceBound t.bh bhSlice.2
      let width := (bhSlice.2 - bhSlice.1).toNat
      if bhSlice.2 - bhSlice.1 < 0 ∨ 0 < len ∧ ¬Broadcasts (hi - lo) width then .error .runtimeError
      else .ok (⟨[len, width, t.d],
                  loaded t.blockSize st.pages lo hi width len 0 t.k fun _ _ _ => default⟩,
                ⟨[len, width, t.d],
                  loaded t.blockSize st.pages lo hi width len 0 t.v fun _ _ _ => default⟩) := by
  have hfit := h.fits seq st hl
  simp only [gatherPrefix, hl, hlen, Int.toNat_natCast]
  rw [if_neg (by omega), gatherLoop_whole t (le_trans hle (le_trans hfit.1 hfit.2))]
  by_cases hneg : bhSlice.2 - bhSlice.1 < 0
  · rw [if_pos (.inr hneg), if_pos (.inl hneg)]
  · rw [if_neg (by omega)]
    split_ifs with h1 h2 h2
    · rfl
    · exact absurd (.inr h1) h2
    · exact absurd (h2.resolve_left hneg) h1
    · rfl

def SameRows (t t' : PagedKVTable α) (pages pages' : List ℕ) (n : ℕ) : Prop :=
  ∀ p < n, ∀ c e,
    t'.k (addr t.blockSize pages' p) c e = t.k (addr t.blockSize pages p) c e ∧
      t'.v (addr t.blockSize pages' p) c e = t.v (addr t.blockSize pages p) c e

/-- Tables with the same geometry and the same rows return the same ones, however long the two
sequences are. -/
theorem gatherPrefix_sameRows [Inhabited α] {t t' : PagedKVTable α} (h : Inv t) (h' : Inv t')
    (hbs : t'.blockSize = t.blockSize) (hbh : t'.bh = t.bh) (hd : t'.d = t.d) {s : ℤ}
    {st st' : SeqState} (hl : t.seqs.lookup s = some st) (hl' : t'.seqs.lookup s = some st')
    {length length' : Option ℤ} {n : ℕ} (hn : length.getD st.lAcc = n)
    (hn' : length'.getD st'.lAcc = n) (hle : n ≤ st.lAcc) (hle' : n ≤ st'.lAcc)
    (hrows : SameRows t t' st.pages st'.pages n) (bhSlice : ℤ × ℤ) :
    t'.gatherPrefix s bhSlice length' = t.gatherPrefix s bhSlice length := by
  rw [gatherPrefix_whole h hl bhSlice hn hle, gatherPrefix_whole h' hl' bhSlice hn' hle']
  simp only [hbh, hd, hbs]
  split_ifs
  · rfl
  · congr 3 <;> funext p c e <;> simp only [loaded] <;> split_ifs with hp
    · exact (hrows p hp.2.1 _ e).1
    · rfl
    · exact (hrows p hp.2.1 _ e).2
    · rfl

/-- `gather_prefix` reads the committed rows of its sequence and nothing else. -/
theorem gatherPrefix_congr [Inhabited α] {t t' : PagedKVTable α} (h : Inv t) (h' : Inv t')
    (hbs : t'.blockSize = t.blockSize) (hbh : t'.bh = t.bh) (hd : t'.d = t.d) {s : ℤ}
    {st st' : SeqState} (hl : t.seqs.lookup s = some st) (hl' : t'.seqs.lookup s = some st')
    (hacc : st'.lAcc = st.lAcc) (hrows : SameRows t t' st.pages st'.pages st.lAcc)
    (bhSlice : ℤ × ℤ) (length : Option ℤ) :
    t'.gatherPrefix s bhSlice length = t.gatherPrefix s bhSlice length := by
  generalize hlen : length.getD st.lAcc = len
  have hlen' : length.getD st'.lAcc = len := by rw [hacc, hlen]
  by_cases hgt : len > st.lAcc
  · simp only [gatherPrefix, hl, hl', hlen, hacc, if_pos hgt]
  · by_cases hneg : len < 0
    · simp only [gatherPrefix, hl, hl', hlen, hacc, if_neg hgt, if_pos (Or.inl hneg)]
    · obtain ⟨n, rfl⟩ := Int.eq_ofNat_of_zero_le (Int.not_lt.mp hneg)
      refine gatherPrefix_sameRows h h' hbs hbh hd hl hl' hlen hlen' (by omega) (by omega) ?_ bhSlice
      exact fun p hp => hrows p (by omega)

/-- Another sequence's call does not change what `gather_prefix` returns. -/
theorem gatherPrefix_frame [Inhabited α] {t : PagedKVTable α} (h : Inv t) {op : Op α} {s : ℤ}
    (hne : op.seq ≠ s) (bhSlice : ℤ × ℤ) (length : Option ℤ) :
    (op.apply t).1.gatherPrefix s bhSlice length = t.gatherPrefix s bhSlice length := by
  have he : Effect t op (op.apply t).1 (op.apply t).2 := apply_effect h rfl
  obtain ⟨-, hbs, hbh, hd⟩ := he.same
  have hlook := he.lookup_ne hne.symm
  cases hl : t.seqs.lookup s with
  | none =>
    rw [hl] at hlook
    simp only [gatherPrefix, hl, hlook]
  | some st =>
    rw [hl] at hlook
    refine gatherPrefix_congr h (he.inv h) hbs hbh hd hl hlook rfl ?_ bhSlice length
    intro p hp c e
    have hfit := h.fits s st hl
    exact he.bytes_ne h hne.symm hl (lt_of_lt_of_le hp (le_trans hfit.1 hfit.2)) c e

/-! Every sequence reads its own array. -/

theorem lastWritten_cons_ne {bh p c e : ℕ} {seq : ℤ} {op : Op α} {r : Except Raised Unit}
    {log : List (Op α × Except Raised Unit)} (hne : op.seq ≠ seq) :
    lastWritten bh seq p c e ((op, r) :: log) = lastWritten bh seq p c e log := by
  cases r with
  | error _ => rfl
  | ok _ => simp only [lastWritten, if_neg hne]

/-- A call that writes nothing here can only take a value away. -/
theorem lastWritten_of_wrote_none {bh p c e : ℕ} {op : Op α} {r : Except Raised Unit}
    {log : List (Op α × Except Raised Unit)} {x : α × α}
    (hw : r = .ok () → op.wrote bh p c e = none)
    (hx : lastWritten bh op.seq p c e ((op, r) :: log) = some x) :
    lastWritten bh op.seq p c e log = some x := by
  cases r with
  | error _ => exact hx
  | ok _ =>
    simp only [lastWritten, if_true, hw rfl, Option.none_or] at hx
    split_ifs at hx
    exact hx

def HoldsAt (t : PagedKVTable α) (seq : ℤ) (p c e : ℕ) (x : α × α) : Prop :=
  ∃ st, t.seqs.lookup seq = some st ∧ p < st.pages.length * t.blockSize ∧
    (t.k (addr t.blockSize st.pages p) c e, t.v (addr t.blockSize st.pages p) c e) = x

/-- The bytes of the table agree with the array every sequence wrote. -/
def Agrees (t : PagedKVTable α) (log : List (Op α × Except Raised Unit)) : Prop :=
  ∀ seq p c e x, lastWritten t.bh seq p c e log = some x → HoldsAt t seq p c e x

/-- More pages at the end of a sequence do not move the bytes it holds. -/
theorem Extended.holdsAt {t t' : PagedKVTable α} {seq : ℤ} {st st' : SeqState} {m p c e : ℕ}
    {x : α × α} (hx : Extended t t' seq st st' m) (hold : HoldsAt t seq p c e x)
    (hk : t'.k (addr t.blockSize st'.pages p) c e = t.k (addr t.blockSize st'.pages p) c e)
    (hv : t'.v (addr t.blockSize st'.pages p) c e = t.v (addr t.blockSize st'.pages p) c e) :
    HoldsAt t' seq p c e x := by
  obtain ⟨st₀, hl, hp, rfl⟩ := hold
  obtain rfl : st = st₀ := Option.some.inj (hx.lookup.symm.trans hl)
  have hbs : t'.blockSize = t.blockSize := by rw [hx.rest]
  refine ⟨st', hx.lookup_new, ?_, ?_⟩
  · rw [hbs, hx.pages, List.length_append, Nat.add_mul]
    omega
  · rw [hbs, hk, hv, hx.pages, addr_append hp]

theorem Effect.agrees {t t' : PagedKVTable α} {op : Op α} {r : Except Raised Unit}
    {log : List (Op α × Except Raised Unit)} (h : Inv t) (hlog : Agrees t log)
    (he : Effect t op t' r) : Agrees t' ((op, r) :: log) := by
  obtain ⟨-, hbs, hbh, -⟩ := he.same
  intro seq p c e x hx
  rw [hbh] at hx
  by_cases hne : op.seq = seq
  · subst hne
    cases he with
    | unchanged hw => exact hlog _ _ _ _ _ (lastWritten_of_wrote_none (fun hr => hw hr p c e) hx)
    | registered hm =>
      obtain ⟨st, hl, -⟩ := hlog _ _ _ _ _ (lastWritten_of_wrote_none (fun _ => rfl) hx)
      exact absurd (AList.lookup_isSome.mp (Option.isSome_of_eq_some hl)) hm
    | released hl => simp [lastWritten, Op.erases] at hx
    | extended hw hx' hk hv =>
      have hold := hlog _ _ _ _ _ (lastWritten_of_wrote_none (fun hr => hw hr p c e) hx)
      exact hx'.holdsAt hold (by rw [hk]) (by rw [hv])
    | tracked hm hx' hk hv =>
      obtain ⟨st, hl, -⟩ := hlog _ _ _ _ _ (lastWritten_of_wrote_none (fun _ => rfl) hx)
      exact absurd (AList.lookup_isSome.mp (Option.isSome_of_eq_some hl)) hm
    | written hx' hs hr hk hv =>
      rename_i seq start kNew vNew bhSlice cm sNew w dNew st st' m
      have hn : st'.pages.Nodup := hx'.pages ▸ h.nodup_grow hx'.lookup m
      simp only [lastWritten, Op.seq, Op.erases, Op.wrote, hs, if_true, if_false,
        Bool.false_eq_true] at hx
      split_ifs at hx with hin
      · -- this write covers the position
        obtain ⟨i, rfl⟩ := Nat.exists_eq_add_of_le hin.1
        simp only [Option.some_or, Option.some.injEq] at hx
        refine ⟨st', hx'.lookup_new, by rw [hbs]; omega, ?_⟩
        rw [hbs, hk.copied i c e (by omega) hin.2.2.1 hin.2.2.2,
          hv.copied i c e (by omega) hin.2.2.1 hin.2.2.2, ← hx, Nat.add_sub_cancel_left]
      · have hold := hlog _ _ _ _ _ (by simpa using hx)
        have hp : p < st'.pages.length * t.blockSize := by
          obtain ⟨st₀, hl, hp, -⟩ := hold
          obtain rfl : st = st₀ := Option.some.inj (hx'.lookup.symm.trans hl)
          rw [hx'.pages, List.length_append, Nat.add_mul]
          omega
        exact hx'.holdsAt hold (hk.kept_of_notMem t.blockSize_pos hn hr hp hin)
          (hv.kept_of_notMem t.blockSize_pos hn hr hp hin)
    | rolledBack hl hle =>
      rename_i seq st target
      have hold := hlog _ _ _ _ _ (lastWritten_of_wrote_none (fun _ => rfl) hx)
      obtain ⟨st₀, hl₀, hp, rfl⟩ := hold
      obtain rfl : st = st₀ := Option.some.inj (hl.symm.trans hl₀)
      have hlt : p < target := by
        by_contra hge
        simp [lastWritten, Op.erases, Nat.le_of_not_lt hge] at hx
      have hkeep : p < t.pagesFor target * t.blockSize :=
        lt_of_lt_of_le hlt (le_pagesFor_mul t target)
      refine ⟨_, AList.lookup_insert _, ?_, ?_⟩
      · rw [List.length_take]
        rcases Nat.le_total (t.pagesFor target) st.pages.length with hm | hm
        · rwa [Nat.min_eq_left hm]
        · rwa [Nat.min_eq_right hm]
      · rw [addr_take hkeep hp]
  · rw [lastWritten_cons_ne hne] at hx
    obtain ⟨st, hl, hp, rfl⟩ := hlog seq p c e x hx
    obtain ⟨hk, hv⟩ := he.bytes_ne h (Ne.symm hne) hl hp c e
    refine ⟨st, (he.lookup_ne (Ne.symm hne)).trans hl, by rw [hbs]; exact hp, ?_⟩
    rw [hbs, hk, hv]

theorem agrees_run {t : PagedKVTable α} {log : List (Op α × Except Raised Unit)} (h : Inv t)
    (hlog : Agrees t log) (ops : List (Op α)) :
    Agrees (runOps t ops)
      (ops.foldl (fun s op => ((op.apply s.1).1, (op, (op.apply s.1).2) :: s.2)) (t, log)).2 := by
  induction ops generalizing t log with
  | nil => exact hlog
  | cons op ops ih => exact ih (inv_apply h op) ((apply_effect h rfl).agrees h hlog)

/-- `gather_prefix` of a registered sequence over a slice inside the columns. -/
theorem gatherPrefix_eq [Inhabited α] {t : PagedKVTable α} (h : Inv t) {seq : ℤ} {st : SeqState}
    (hl : t.seqs.lookup seq = some st) {a b : ℕ} (hab : a ≤ b) (hb : b ≤ t.bh) :
    ∃ K V, t.gatherPrefix seq (a, b) = .ok (K, V) ∧
      K.shape = [st.lAcc, b - a, t.d] ∧ V.shape = [st.lAcc, b - a, t.d] ∧
      ∀ p < st.lAcc, ∀ c < b - a, ∀ e,
        K.data p c e = t.k (addr t.blockSize st.pages p) (a + c) e ∧
          V.data p c e = t.v (addr t.blockSize st.pages p) (a + c) e := by
  have hlo : sliceBound t.bh a = a := by simp only [sliceBound]; split_ifs <;> omega
  have hhi : sliceBound t.bh b = b := by simp only [sliceBound]; split_ifs <;> omega
  have hwidth : ((b : ℤ) - a).toNat = b - a := by omega
  rw [gatherPrefix_whole h hl (a, b) rfl (Nat.le_refl _)]
  simp only [hlo, hhi, hwidth]
  rw [if_neg (by rintro (hneg | ⟨-, hb⟩); exacts [by omega, hb (.inl rfl)])]
  refine ⟨_, _, rfl, rfl, rfl, ?_⟩
  intro p hp c hc e
  have hbi : broadcastIndex (b - a) c = c := by
    simp only [broadcastIndex]; split_ifs <;> omega
  simp only [loaded, hbi, Nat.zero_le, hp, hc, and_self, if_true]

/-- After any run of calls, `gather_prefix` of a registered sequence returns `l_acc` rows
with, at every position and column of the slice that the sequence wrote and has not rolled
back since, the value written there last. A call of another sequence changes nothing in
what it returns. -/
theorem gatherPrefix_reads_lastWritten [Inhabited α] {backingK backingV : Tensor α} {blockSize : ℕ}
    {t : PagedKVTable α} (h : init backingK backingV blockSize = .ok t) (ops : List (Op α))
    {seq : ℤ} {st : SeqState} (hl : (runOps t ops).seqs.lookup seq = some st) :
    (∀ a b : ℕ, a ≤ b → b ≤ t.bh →
      ∃ K V, (runOps t ops).gatherPrefix seq (a, b) = .ok (K, V) ∧
        K.shape = [st.lAcc, b - a, t.d] ∧ V.shape = [st.lAcc, b - a, t.d] ∧
        ∀ p < st.lAcc, ∀ c, a ≤ c → c < b → ∀ e x,
          lastWritten t.bh seq p c e (runLog t ops).2 = some x →
            (K.data p (c - a) e, V.data p (c - a) e) = x) ∧
      ∀ op : Op α, op.seq ≠ seq → ∀ bhSlice length,
        (op.apply (runOps t ops)).1.gatherPrefix seq bhSlice length =
          (runOps t ops).gatherPrefix seq bhSlice length := by
  have hinv := inv_runOps (inv_init h) ops
  obtain ⟨-, -, hbh, hd⟩ := runOps_same (inv_init h) ops
  have hagree : Agrees (runOps t ops) (runLog t ops).2 :=
    agrees_run (inv_init h) (fun _ _ _ _ _ hx => by simp [lastWritten] at hx) ops
  refine ⟨?_, ?_⟩
  · intro a b hab hb
    obtain ⟨K, V, hok, hK, hV, hdata⟩ := gatherPrefix_eq hinv hl hab (by rw [hbh]; exact hb)
    refine ⟨K, V, hok, hd ▸ hK, hd ▸ hV, ?_⟩
    intro p hp c hac hcb e x hx
    obtain ⟨st₀, hl₀, -, rfl⟩ := hagree seq p c e x (by rw [hbh]; exact hx)
    obtain rfl : st = st₀ := Option.some.inj (hl.symm.trans hl₀)
    obtain ⟨hk, hv⟩ := hdata p hp (c - a) (by omega) e
    rw [hk, hv, Nat.add_sub_cancel' hac]
  · intro op hne bhSlice length
    exact gatherPrefix_frame hinv hne bhSlice length

theorem gatherPrefix_reads_lastWritten_smallRun :
    lastWritten 2 7 1 1 0 (runLog smallTable smallRun).2 = some (11, 21) ∧
      ∃ K V, (runOps smallTable smallRun).gatherPrefix 7 (0, 2) = .ok (K, V) ∧
        K.data 1 1 0 = 11 ∧ V.data 1 1 0 = 21 := by
  have hw : lastWritten 2 7 1 1 0 (runLog smallTable smallRun).2 = some (11, 21) := rfl
  have hl : (runOps smallTable smallRun).seqs.lookup 7 =
      some { pages := [0], lAcc := 2, lSeq := 2 } := rfl
  obtain ⟨hread, -⟩ := gatherPrefix_reads_lastWritten smallTable_init smallRun hl
  obtain ⟨K, V, hok, -, -, hdata⟩ := hread 0 2 (by decide) (by decide)
  have hx := hdata 1 (by decide) 1 (by decide) (by decide) 0 (11, 21) hw
  exact ⟨hw, K, V, hok, congrArg Prod.fst hx, congrArg Prod.snd hx⟩

end BloomBee.PagedKV
