import BloomBee.Spec.KVMultiplex

/-! An operation on one cache reads and writes only the entries of its own id. -/

set_option autoImplicit false

namespace BloomBee.KVMultiplex

open RpcInference

variable {κ : Type} {p : Policy} {m m' : Manager κ} {c : CacheTensor κ} {id : ℕ}

def SameFor (id : ℕ) (m m' : Manager κ) : Prop :=
  (∀ k, m.staged id k = m'.staged id k) ∧ ∀ k, m.current id k = m'.current id k

theorem SameFor.refl (id : ℕ) (m : Manager κ) : SameFor id m m := ⟨fun _ => rfl, fun _ => rfl⟩

theorem SameFor.symm (h : SameFor id m m') : SameFor id m' m :=
  ⟨fun k => (h.1 k).symm, fun k => (h.2 k).symm⟩

theorem SameFor.trans {m'' : Manager κ} (h : SameFor id m m') (h' : SameFor id m' m'') :
    SameFor id m m'' :=
  ⟨fun k => (h.1 k).trans (h'.1 k), fun k => (h.2 k).trans (h'.2 k)⟩

theorem staged_insert_self (m : Manager κ) (current) (id mb : ℕ) (st : Staged κ) (k : ℕ) :
    Manager.staged ⟨m.mbCpuStaging.insert (id, mb) st, current⟩ id k =
      if k = mb then some st else m.staged id k := by
  unfold Manager.staged
  split
  · next h => rw [h, AList.lookup_insert]
  · next h => rw [AList.lookup_insert_ne fun he => h (congrArg Prod.snd he)]

theorem current_insert_self (m : Manager κ) (staging) (id slot mb k : ℕ) :
    (⟨staging, m.currentGpuMb.insert (id, slot) mb⟩ : Manager κ).current id k =
      if k = slot then some mb else m.current id k := by
  unfold Manager.current
  split
  · next h => rw [h, AList.lookup_insert]
  · next h => rw [AList.lookup_insert_ne fun he => h (congrArg Prod.snd he)]

theorem staged_insert_other (m : Manager κ) (current) {id id' : ℕ} (h : id' ≠ id) (mb : ℕ)
    (st : Staged κ) (k : ℕ) :
    Manager.staged ⟨m.mbCpuStaging.insert (id, mb) st, current⟩ id' k = m.staged id' k :=
  AList.lookup_insert_ne fun he => h (congrArg Prod.fst he)

theorem current_insert_other (m : Manager κ) (staging) {id id' : ℕ} (h : id' ≠ id)
    (slot mb k : ℕ) :
    (⟨staging, m.currentGpuMb.insert (id, slot) mb⟩ : Manager κ).current id' k =
      m.current id' k :=
  AList.lookup_insert_ne fun he => h (congrArg Prod.fst he)

theorem offloadMicrobatchKv_sameFor (h : SameFor c.id m m') (mbIndex prefixLength : ℕ)
    (slot : WorkingSlot) :
    SameFor c.id (offloadMicrobatchKv m c mbIndex prefixLength slot)
      (offloadMicrobatchKv m' c mbIndex prefixLength slot) := by
  simp only [offloadMicrobatchKv, h.1 mbIndex]
  generalize (if prefixLength = 0 then c.seqLen else prefixLength) = n
  split
  · exact h
  · split
    · constructor
      · intro k; rw [staged_insert_self, staged_insert_self, h.1 k]
      · intro k; rw [current_insert_self, current_insert_self, h.2 k]
    · exact h

theorem offloadMicrobatchKv_other (hid : id ≠ c.id) (mbIndex prefixLength : ℕ)
    (slot : WorkingSlot) :
    SameFor id (offloadMicrobatchKv m c mbIndex prefixLength slot) m := by
  simp only [offloadMicrobatchKv]
  generalize (if prefixLength = 0 then c.seqLen else prefixLength) = n
  split
  · exact SameFor.refl id m
  · split
    · exact ⟨staged_insert_other m _ hid _ _, current_insert_other m _ hid _ _⟩
    · exact SameFor.refl id m

theorem prefetchMicrobatchKv_sameFor (h : SameFor c.id m m') (mbIndex : ℕ) :
    (prefetchMicrobatchKv p m c mbIndex).2 = (prefetchMicrobatchKv p m' c mbIndex).2 ∧
      SameFor c.id (prefetchMicrobatchKv p m c mbIndex).1
        (prefetchMicrobatchKv p m' c mbIndex).1 := by
  simp only [prefetchMicrobatchKv, h.1 mbIndex]
  split
  · exact ⟨rfl, h⟩
  · split
    · exact ⟨rfl, h⟩
    · refine ⟨rfl, h.1, fun k => ?_⟩
      rw [current_insert_self, current_insert_self, h.2 k]

theorem prefetchMicrobatchKv_other (hid : id ≠ c.id) (mbIndex : ℕ) :
    SameFor id (prefetchMicrobatchKv p m c mbIndex).1 m := by
  simp only [prefetchMicrobatchKv]
  split
  · exact SameFor.refl id m
  · split
    · exact SameFor.refl id m
    · exact ⟨fun _ => rfl, current_insert_other m _ hid _ _⟩

theorem prefetchMicrobatchKv_id (mbIndex : ℕ) :
    (prefetchMicrobatchKv p m c mbIndex).2.id = c.id := by
  simp only [prefetchMicrobatchKv]
  split
  · rfl
  · split <;> rfl

section

variable {prefixLength batchOffset fullBatchSize microBatchSize : ℕ}

/-- `select_cache` fails in both managers, or gives the same rows and the same cache. -/
theorem selectCache_sameFor (h : SameFor c.id m m')
    (prefixLength batchOffset fullBatchSize microBatchSize : ℕ) :
    (∃ e, selectCache p m c prefixLength batchOffset fullBatchSize microBatchSize = .error e ∧
      selectCache p m' c prefixLength batchOffset fullBatchSize microBatchSize = .error e) ∨
    ∃ past m1 m1' c1,
      selectCache p m c prefixLength batchOffset fullBatchSize microBatchSize =
        .ok (past, m1, c1) ∧
      selectCache p m' c prefixLength batchOffset fullBatchSize microBatchSize =
        .ok (past, m1', c1) ∧ c1.id = c.id ∧ SameFor c.id m1 m1' := by
  simp only [selectCache, h.2]
  split
  · exact .inr ⟨_, m, m', c, rfl, rfl, rfl, h⟩
  · split
    · exact .inl ⟨_, rfl, rfl⟩
    · split
      · split
        · split
          · exact .inr ⟨_, m, m', c, rfl, rfl, rfl, h⟩
          · obtain ⟨hc, hm⟩ := prefetchMicrobatchKv_sameFor (p := p) h
              (p.computeMicrobatchIndex batchOffset microBatchSize fullBatchSize)
            exact .inr ⟨_, _, _, _, rfl, by rw [hc], prefetchMicrobatchKv_id _, hm⟩
        · exact .inr ⟨_, m, m', c, rfl, rfl, rfl, h⟩
      · exact .inr ⟨_, m, m', c, rfl, rfl, rfl, h⟩

theorem selectCache_id {past : Option (List (List κ))} {m1 : Manager κ} {c1 : CacheTensor κ}
    (hsel : selectCache p m c prefixLength batchOffset fullBatchSize microBatchSize =
      .ok (past, m1, c1)) : c1.id = c.id := by
  rcases selectCache_sameFor (SameFor.refl c.id m) _ _ _ _ with ⟨e, he, -⟩ | ⟨_, _, _, _, hok, -, hid, -⟩
  · cases hsel.symm.trans he
  · cases hsel.symm.trans hok
    exact hid

theorem selectCache_other {past : Option (List (List κ))} {m1 : Manager κ} {c1 : CacheTensor κ}
    (hsel : selectCache p m c prefixLength batchOffset fullBatchSize microBatchSize =
      .ok (past, m1, c1)) (hid : id ≠ c.id) : SameFor id m1 m := by
  simp only [selectCache] at hsel
  split at hsel
  · cases hsel; exact SameFor.refl id m
  · split at hsel
    · cases hsel
    · split at hsel
      · split at hsel
        · split at hsel
          · cases hsel; exact SameFor.refl id m
          · cases hsel; exact prefetchMicrobatchKv_other hid _
        · cases hsel; exact SameFor.refl id m
      · cases hsel; exact SameFor.refl id m

variable {startPosition : ℕ} {new : Batch κ}

theorem writeKvs_sameFor (h : SameFor c.id m m')
    (startPosition batchOffset fullBatchSize microBatchSize : ℕ) (new : Batch κ) :
    (∃ e, writeKvs p m c startPosition batchOffset fullBatchSize microBatchSize new = .error e ∧
      writeKvs p m' c startPosition batchOffset fullBatchSize microBatchSize new = .error e) ∨
    ∃ m1 m1' c1,
      writeKvs p m c startPosition batchOffset fullBatchSize microBatchSize new = .ok (m1, c1) ∧
      writeKvs p m' c startPosition batchOffset fullBatchSize microBatchSize new =
        .ok (m1', c1) ∧ c1.id = c.id ∧ SameFor c.id m1 m1' := by
  simp only [writeKvs]
  split
  · exact .inl ⟨_, rfl, rfl⟩
  · split
    · exact .inl ⟨_, rfl, rfl⟩
    · split
      · refine .inr ⟨_, _, _, rfl, rfl, rfl, ?_⟩
        apply offloadMicrobatchKv_sameFor
        exact h
      · exact .inr ⟨_, _, _, rfl, rfl, rfl, h⟩

theorem writeKvs_id {m1 : Manager κ} {c1 : CacheTensor κ}
    (hw : writeKvs p m c startPosition batchOffset fullBatchSize microBatchSize new =
      .ok (m1, c1)) : c1.id = c.id := by
  rcases writeKvs_sameFor (SameFor.refl c.id m) _ _ _ _ _ with ⟨e, he, -⟩ | ⟨_, _, _, hok, -, hid, -⟩
  · cases hw.symm.trans he
  · cases hw.symm.trans hok
    exact hid

theorem writeKvs_other {m1 : Manager κ} {c1 : CacheTensor κ}
    (hw : writeKvs p m c startPosition batchOffset fullBatchSize microBatchSize new =
      .ok (m1, c1)) (hid : id ≠ c.id) : SameFor id m1 m := by
  simp only [writeKvs] at hw
  split at hw
  · cases hw
  · split at hw
    · cases hw
    · split at hw
      · cases hw
        apply offloadMicrobatchKv_other
        exact hid
      · cases hw; exact SameFor.refl id m

end

/-! ### One session among others -/

section

variable {ι : Type} [DecidableEq ι]

theorem sameFor_of_vacant (h : m.Vacant id) : SameFor id m .init := by
  constructor
  · intro k
    exact AList.lookup_eq_none.mpr fun hk => h.1 (id, k) hk rfl
  · intro k
    exact AList.lookup_eq_none.mpr fun hk => h.2 (id, k) hk rfl

def World.Distinct (w : World ι κ) : Prop :=
  ∀ s s' c c', s ≠ s' → w.phase s = .live c → w.phase s' = .live c' → c.id ≠ c'.id

structure Sees (s : ι) (w w' : World ι κ) : Prop where
  phase : w'.phase s = w.phase s
  entries : ∀ c, w.phase s = .live c → SameFor c.id w.manager w'.manager
  fresh : w.phase s = .waiting → w'.manager = .init

omit [DecidableEq ι] in
theorem sees_init (s : ι) : Sees s (.init : World ι κ) .init :=
  ⟨rfl, fun c _ => SameFor.refl c.id _, fun _ => rfl⟩

/-- What an event of session `t` can change: the phase of `t` and the entries of its cache,
whose identity stays. -/
structure Touches (t : ι) (w w1 : World ι κ) (e : Event ι κ) (rs : List (Reply ι κ)) : Prop where
  phase : ∀ s, s ≠ t → w1.phase s = w.phase s
  replies : ∀ r ∈ rs, r.1 = t
  entries : ∀ id, (∀ c, w.phase t = .live c → id ≠ c.id) → SameFor id w1.manager w.manager
  id : ∀ c1, w1.phase t = .live c1 →
    e = .allocate t c1 ∨ ∃ c, w.phase t = .live c ∧ c1.id = c.id

theorem touches_update {t : ι} {w : World ι κ} {e : Event ι κ} {ph : Phase κ} {m1 : Manager κ}
    {rs : List (Reply ι κ)} (hrs : ∀ r ∈ rs, r.1 = t)
    (hm : ∀ id, (∀ c, w.phase t = .live c → id ≠ c.id) → SameFor id m1 w.manager)
    (hid : ∀ c1, ph = .live c1 → e = .allocate t c1 ∨ ∃ c, w.phase t = .live c ∧ c1.id = c.id) :
    Touches t w ⟨m1, Function.update w.phase t ph⟩ e rs where
  phase _ hs := Function.update_of_ne hs _ _
  replies := hrs
  entries := hm
  id c1 hc1 := hid c1 ((Function.update_self t ph w.phase).symm.trans hc1)

theorem step_touches {w w1 : World ι κ} {e : Event ι κ} {rs : List (Reply ι κ)} {t : ι}
    (he : e.session = some t) (hstep : w.step p e = some (w1, rs)) : Touches t w w1 e rs := by
  have hself : ∀ rs : List (Reply ι κ), (∀ r ∈ rs, r.1 = t) → Touches t w w e rs := fun rs hrs =>
    ⟨fun _ _ => rfl, hrs, fun id _ => SameFor.refl id _, fun c1 hc1 => .inr ⟨c1, hc1, rfl⟩⟩
  cases e with
  | clearOffloadState => cases he
  | allocate s c =>
    cases he
    cases hph : w.phase t with
    | waiting =>
      simp only [World.step, hph, Option.some.injEq, Prod.mk.injEq] at hstep
      obtain ⟨rfl, rfl⟩ := hstep
      exact touches_update (by simp) (fun id _ => SameFor.refl id _)
        fun c1 hc1 => .inl (by cases hc1; rfl)
    | live c => simp [World.step, hph] at hstep
    | closed => simp [World.step, hph] at hstep
  | select s a b f k =>
    cases he
    cases hph : w.phase t with
    | waiting => simp [World.step, hph] at hstep
    | closed => simp [World.step, hph] at hstep
    | live c =>
      simp only [World.step, hph] at hstep
      split at hstep
      · cases hstep; exact hself _ (by simp)
      · next past m1 c1 hsel =>
        cases hstep
        refine touches_update (by simp) (fun id hid => selectCache_other hsel (hid c hph)) ?_
        rintro c2 ⟨⟩
        exact .inr ⟨c, hph, selectCache_id hsel⟩
  | write s a b f k new =>
    cases he
    cases hph : w.phase t with
    | waiting => simp [World.step, hph] at hstep
    | closed => simp [World.step, hph] at hstep
    | live c =>
      simp only [World.step, hph] at hstep
      split at hstep
      · cases hstep; exact hself _ (by simp)
      · next m1 c1 hw =>
        cases hstep
        refine touches_update (by simp) (fun id hid => writeKvs_other hw (hid c hph)) ?_
        rintro c2 ⟨⟩
        exact .inr ⟨c, hph, writeKvs_id hw⟩
  | free s =>
    cases he
    cases hph : w.phase t with
    | waiting => simp [World.step, hph] at hstep
    | closed => simp [World.step, hph] at hstep
    | live c =>
      simp only [World.step, hph, Option.some.injEq, Prod.mk.injEq] at hstep
      obtain ⟨rfl, rfl⟩ := hstep
      exact touches_update (by simp) (fun id _ => SameFor.refl id _) (by rintro c1 ⟨⟩)

omit [DecidableEq ι] in
theorem eq_clear_of_session_none {e : Event ι κ} (he : e.session = none) :
    e = .clearOffloadState := by
  cases e with
  | clearOffloadState => rfl
  | allocate s c => cases he
  | select s a b f k => cases he
  | write s a b f k new => cases he
  | free s => cases he

theorem distinct_step {w w1 : World ι κ} {e : Event ι κ} {rs : List (Reply ι κ)}
    (hd : w.Distinct) (hp : e.Possible w) (hstep : w.step p e = some (w1, rs)) : w1.Distinct := by
  cases he : e.session with
  | none =>
    cases eq_clear_of_session_none he
    cases hstep
    exact hd
  | some t =>
    have ht := step_touches he hstep
    -- the new cache of `t` against the one of another session
    have hkey : ∀ s c c1, s ≠ t → w.phase s = .live c → w1.phase t = .live c1 → c.id ≠ c1.id := by
      intro s c c1 hs hc hc1
      rcases ht.id c1 hc1 with rfl | ⟨c0, hc0, hid⟩
      · intro h
        exact hp s (by rw [hc, ← h]; rfl)
      · rw [hid]; exact hd s t c c0 hs hc hc0
    intro s s' c c' hne hc hc'
    by_cases hs : s = t
    · subst hs
      rw [ht.phase s' (Ne.symm hne)] at hc'
      exact (hkey s' c' c (Ne.symm hne) hc' hc).symm
    · rw [ht.phase s hs] at hc
      by_cases hs' : s' = t
      · subst hs'; exact hkey s c c' hne hc hc'
      · rw [ht.phase s' hs'] at hc'
        exact hd s s' c c' hne hc hc'

/-- An event of another session or a cleanup is not seen. -/
theorem sees_other {s : ι} {w w' w1 : World ι κ} {e : Event ι κ} {rs : List (Reply ι κ)}
    (hsees : Sees s w w') (hd : w.Distinct) (hu : e.Undisturbed w) (he : e.session ≠ some s)
    (hstep : w.step p e = some (w1, rs)) :
    Sees s w1 w' ∧ rs.filter (fun r => r.1 = s) = [] := by
  cases hsess : e.session with
  | none =>
    cases eq_clear_of_session_none hsess
    cases hstep
    refine ⟨⟨hsees.phase, ?_, hsees.fresh⟩, rfl⟩
    intro c hc
    have hvac := sameFor_of_vacant (hu s c.id (by rw [hc]; rfl))
    exact hvac.symm.trans (hsees.entries c hc)
  | some t =>
    have hst : s ≠ t := by rintro rfl; exact he hsess
    have ht := step_touches hsess hstep
    refine ⟨⟨?_, ?_, ?_⟩, ?_⟩
    · rw [ht.phase s hst]; exact hsees.phase
    · intro c hc
      rw [ht.phase s hst] at hc
      refine (ht.entries c.id ?_).trans (hsees.entries c hc)
      intro c' hc'
      exact hd s t c c' hst hc hc'
    · intro hw
      rw [ht.phase s hst] at hw
      exact hsees.fresh hw
    · rw [List.filter_eq_nil_iff]
      intro r hr
      simpa [ht.replies r hr] using Ne.symm hst

theorem sees_update {s : ι} {w w' : World ι κ} {m1 m1' : Manager κ} {ph : Phase κ}
    (hne : ph ≠ .waiting) (h : ∀ c, ph = .live c → SameFor c.id m1 m1') :
    Sees s ⟨m1, Function.update w.phase s ph⟩ ⟨m1', Function.update w'.phase s ph⟩ := by
  have hph : ∀ w : World ι κ, Function.update w.phase s ph s = ph := fun w =>
    Function.update_self s ph w.phase
  refine ⟨(hph w').trans (hph w).symm, ?_, ?_⟩
  · intro c hc
    exact h c ((hph w).symm.trans hc)
  · intro hw
    exact absurd ((hph w).symm.trans hw) hne

/-- An event of the session itself gives the same replies alone. -/
theorem sees_own {s : ι} {w w' w1 : World ι κ} {e : Event ι κ} {rs : List (Reply ι κ)}
    (hsees : Sees s w w') (hu : e.Undisturbed w) (he : e.session = some s)
    (hstep : w.step p e = some (w1, rs)) :
    ∃ w1', w'.step p e = some (w1', rs) ∧ Sees s w1 w1' := by
  have hph' := hsees.phase
  cases e with
  | clearOffloadState => cases he
  | allocate t c =>
    cases he
    cases hph : w.phase s with
    | live c => simp [World.step, hph] at hstep
    | closed => simp [World.step, hph] at hstep
    | waiting =>
      rw [hph] at hph'
      simp only [World.step, hph, Option.some.injEq, Prod.mk.injEq] at hstep
      obtain ⟨rfl, rfl⟩ := hstep
      refine ⟨⟨w'.manager, Function.update w'.phase s (.live c)⟩,
        by simp only [World.step, hph'], sees_update (by simp) ?_⟩
      rintro c1 ⟨⟩
      rw [hsees.fresh hph]
      exact sameFor_of_vacant hu
  | select t a b f k =>
    cases he
    cases hph : w.phase s with
    | waiting => simp [World.step, hph] at hstep
    | closed => simp [World.step, hph] at hstep
    | live c =>
      rw [hph] at hph'
      simp only [World.step, hph] at hstep
      rcases selectCache_sameFor (p := p) (hsees.entries c hph) a b f k with
        ⟨er, h1, h2⟩ | ⟨past, m1, m1', c1, h1, h2, hid, hsame⟩
      · rw [h1] at hstep
        cases hstep
        exact ⟨w', by simp only [World.step, hph', h2], hsees⟩
      · rw [h1] at hstep
        cases hstep
        refine ⟨⟨m1', Function.update w'.phase s (.live c1)⟩,
          by simp only [World.step, hph', h2], sees_update (by simp) ?_⟩
        rintro c2 ⟨⟩
        rw [hid]
        exact hsame
  | write t a b f k new =>
    cases he
    cases hph : w.phase s with
    | waiting => simp [World.step, hph] at hstep
    | closed => simp [World.step, hph] at hstep
    | live c =>
      rw [hph] at hph'
      simp only [World.step, hph] at hstep
      rcases writeKvs_sameFor (p := p) (hsees.entries c hph) a b f k new with
        ⟨er, h1, h2⟩ | ⟨m1, m1', c1, h1, h2, hid, hsame⟩
      · rw [h1] at hstep
        cases hstep
        exact ⟨w', by simp only [World.step, hph', h2], hsees⟩
      · rw [h1] at hstep
        cases hstep
        refine ⟨⟨m1', Function.update w'.phase s (.live c1)⟩,
          by simp only [World.step, hph', h2], sees_update (by simp) ?_⟩
        rintro c2 ⟨⟩
        rw [hid]
        exact hsame
  | free t =>
    cases he
    cases hph : w.phase s with
    | waiting => simp [World.step, hph] at hstep
    | closed => simp [World.step, hph] at hstep
    | live c =>
      rw [hph] at hph'
      simp only [World.step, hph, Option.some.injEq, Prod.mk.injEq] at hstep
      obtain ⟨rfl, rfl⟩ := hstep
      exact ⟨⟨w'.manager, Function.update w'.phase s .closed⟩, by simp only [World.step, hph'],
        sees_update (by simp) (by rintro c1 ⟨⟩)⟩

end

end BloomBee.KVMultiplex
