import BloomBee.Sanity.LateArrival
import Mathlib.Algebra.Order.BigOperators.Group.Finset
import Mathlib.Data.Fin.VecNotation
import Mathlib.Data.Fintype.Card

/-! The scheduler ends, serves every row once at each tick from its arrival until its tokens are
complete, and gives it the tokens of decoding it alone (`lateArrivalGenerate_eq_alone`). The
invariant is a closed form in the tick: after tick `t` a row has the first `t - arrival` tokens
of its own decoding. -/

set_option autoImplicit false

namespace BloomBee.LateArrival

open Loop

variable {n : ℕ} {σ ε : Type}

/-- Row `r` has arrived at tick `t` and has tokens left, if it was served at every tick since
its arrival. -/
def Due (next : List ℕ → ℕ) (c : Request n) (t : ℕ) (r : Fin n) : Prop :=
  c.arrivalTicks r ≤ t ∧ t - c.arrivalTicks r < (alone next c r).length

theorem alone_length_le (next : List ℕ → ℕ) (c : Request n) (r : Fin n) :
    (alone next c r).length ≤ c.maxNewTokens :=
  greedy_length_le next c.eosSet c.maxNewTokens [c.inputIds r]

/-! ### The log -/

structure Served (next : List ℕ → ℕ) (c : Request n) (e : TickRecord n) : Prop where
  increasing : e.groups.flatten.Pairwise (· < ·)
  mem : ∀ r, r ∈ e.groups.flatten ↔ Due next c e.tick r
  mask : ∀ r, e.activeMask r = true ↔ r ∈ e.groups.flatten
  groups : ∀ g ∈ e.groups, IsGroup (fun r => (e.rows r).position) g
  position : ∀ r, (e.rows r).position =
    min (e.tick - c.arrivalTicks r) (alone next c r).length

structure Logged (next : List ℕ → ℕ) (c : Request n) (log : List (TickRecord n)) (tick : ℕ) :
    Prop where
  increasing : log.Pairwise fun a b => a.tick < b.tick
  before : ∀ e ∈ log, e.tick < tick
  served : ∀ e ∈ log, Served next c e
  complete : ∀ t < tick, ∀ r, Due next c t r → ∃ e ∈ log, e.tick = t

section

variable {next : List ℕ → ℕ} {c : Request n}

theorem logged_append {log : List (TickRecord n)} {e : TickRecord n}
    (hl : Logged next c log e.tick) (he : Served next c e) :
    Logged next c (log ++ [e]) (e.tick + 1) where
  increasing := by
    rw [List.pairwise_append]
    refine ⟨hl.increasing, List.pairwise_singleton _ _, ?_⟩
    intro a ha b hb
    rw [List.mem_singleton.mp hb]
    exact hl.before a ha
  before := by
    intro a ha
    rcases List.mem_append.mp ha with ha | ha
    · exact Nat.lt_succ_of_lt (hl.before a ha)
    · rw [List.mem_singleton.mp ha]
      exact Nat.lt_succ_self _
  served := by
    intro a ha
    rcases List.mem_append.mp ha with ha | ha
    · exact hl.served a ha
    · rw [List.mem_singleton.mp ha]
      exact he
  complete := by
    intro t ht r hd
    rcases Nat.lt_succ_iff_lt_or_eq.mp ht with hlt | rfl
    · obtain ⟨a, ha, hat⟩ := hl.complete t hlt r hd
      exact ⟨a, List.mem_append_left _ ha, hat⟩
    · exact ⟨e, List.mem_append_right _ (List.mem_singleton_self e), rfl⟩

theorem logged_skip {log : List (TickRecord n)} {tick tick' : ℕ} (hl : Logged next c log tick)
    (hle : tick ≤ tick') (hidle : ∀ t, tick ≤ t → t < tick' → ∀ r, ¬Due next c t r) :
    Logged next c log tick' where
  increasing := hl.increasing
  before e he := (hl.before e he).trans_le hle
  served := hl.served
  complete := by
    intro t ht r hd
    by_cases hlt : t < tick
    · exact hl.complete t hlt r hd
    · exact absurd hd (hidle t (by omega) ht r)

/-- A complete log has each row once at each tick it is due. -/
theorem serves_eq {log : List (TickRecord n)} {tick : ℕ} (hl : Logged next c log tick)
    (hend : ∀ t, tick ≤ t → ∀ r, ¬Due next c t r) (t : ℕ) (r : Fin n) :
    (Due next c t r → serves log t r = 1) ∧ (¬Due next c t r → serves log t r = 0) := by
  constructor
  · intro hd
    have hlt : t < tick := by
      by_contra hge
      exact hend t (by omega) r hd
    obtain ⟨e, he, rfl⟩ := hl.complete t hlt r hd
    -- the entry of the tick is the only one
    have honly : log.filter (·.tick = e.tick) = [e] := by
      obtain ⟨l₁, l₂, rfl⟩ := List.append_of_mem he
      obtain ⟨-, h2, h12⟩ := List.pairwise_append.mp hl.increasing
      have hl₁ : l₁.filter (·.tick = e.tick) = [] := by
        rw [List.filter_eq_nil_iff]
        intro a ha
        have := h12 a ha e List.mem_cons_self
        simp only [decide_eq_true_eq]
        omega
      have hl₂ : l₂.filter (·.tick = e.tick) = [] := by
        rw [List.filter_eq_nil_iff]
        intro a ha
        have := (List.pairwise_cons.mp h2).1 a ha
        simp only [decide_eq_true_eq]
        omega
      rw [List.filter_append, hl₁, List.filter_cons_of_pos (by simp), hl₂, List.nil_append]
    have hs := hl.served e he
    have hnd : e.groups.flatten.Nodup := hs.increasing.imp (fun h => ne_of_lt h)
    rw [serves, honly, List.flatMap_singleton]
    exact List.count_eq_one_of_mem hnd ((hs.mem r).mpr hd)
  · intro hd
    rw [serves, List.count_eq_zero, List.mem_flatMap]
    rintro ⟨e, he, hr⟩
    obtain ⟨he', ht⟩ := List.mem_filter.mp he
    rw [decide_eq_true_eq] at ht
    subst ht
    exact hd (((hl.served e he').mem r).mp hr)

theorem received_eq {log : List (TickRecord n)} {tick : ℕ} (hl : Logged next c log tick)
    (hend : ∀ t, tick ≤ t → ∀ r, ¬Due next c t r) (t : ℕ) (r : Fin n) :
    received log t r = min (t - c.arrivalTicks r) (alone next c r).length := by
  induction t with
  | zero => simp [received]
  | succ t ih =>
    rw [received, Finset.sum_range_succ, ← received, ih]
    obtain ⟨h1, h0⟩ := serves_eq hl hend t r
    by_cases hd : Due next c t r
    · rw [h1 hd]
      obtain ⟨ha, hb⟩ := hd
      omega
    · rw [h0 hd]
      rw [Due] at hd
      omega

end

/-! ### The invariant -/

/-- The part of the invariant that does not look at the queues. -/
structure Core (next : List ℕ → ℕ) (fed : σ → Fin n → List ℕ) (c : Request n) (s : State n σ) :
    Prop where
  session : ∀ r, fed s.session r = fedBefore c s.generatedByRow r
  generated : ∀ r, s.generatedByRow r = (alone next c r).take (s.tick - c.arrivalTicks r)
  done : ∀ r, s.done r = true →
    c.arrivalTicks r < s.tick ∧ (alone next c r).length ≤ s.tick - c.arrivalTicks r
  log : Logged next c s.log s.tick

structure Inv (next : List ℕ → ℕ) (fed : σ → Fin n → List ℕ) (c : Request n) (s : State n σ) :
    Prop extends Core next fed c s where
  pending_sorted : s.pending.Pairwise fun a b => c.arrivalTicks a ≤ c.arrivalTicks b
  pending_mem : ∀ r, r ∈ s.pending ↔ s.tick ≤ c.arrivalTicks r
  active_nodup : s.active.Nodup
  active_mem : ∀ r, r ∈ s.active ↔ c.arrivalTicks r < s.tick ∧ Due next c s.tick r
  activeSet : s.activeSet = s.active.toFinset

instance (c : Request n) : IsTrans (Fin n) c.before where
  trans a b d := by
    rintro (h | ⟨h, h'⟩) (k | ⟨k, k'⟩)
    · exact Or.inl (h.trans k)
    · exact Or.inl (k ▸ h)
    · exact Or.inl (h ▸ k)
    · exact Or.inr ⟨h.trans k, h'.trans k'⟩

instance (c : Request n) : Std.Total c.before where
  total a b := by
    rcases lt_trichotomy (c.arrivalTicks a) (c.arrivalTicks b) with h | h | h
    · exact Or.inl (Or.inl h)
    · rcases le_total a b with h' | h'
      · exact Or.inl (Or.inr ⟨h, h'⟩)
      · exact Or.inr (Or.inr ⟨h.symm, h'⟩)
    · exact Or.inr (Or.inl h)

theorem init_tick_le (c : Request n) (session : σ) (r : Fin n) :
    (State.init c session).tick ≤ c.arrivalTicks r := by
  have hmem : c.arrivalTicks r ∈ (List.finRange n).map c.arrivalTicks :=
    List.mem_map_of_mem (List.mem_finRange r)
  change ((List.finRange n).map c.arrivalTicks).min?.getD 0 ≤ _
  cases hmin : ((List.finRange n).map c.arrivalTicks).min? with
  | none => exact Nat.zero_le _
  | some m => exact (List.min?_eq_some_iff.mp hmin).2 _ hmem

section

variable {step : σ → GroupStep n → Except ε (σ × List ℕ)} {next : List ℕ → ℕ}
  {fed : σ → Fin n → List ℕ} {maxLength : ℕ} {c : Request n}

theorem inv_init {session : σ} (hfresh : ∀ r, fed session r = []) :
    Inv next fed c (State.init c session) where
  session := hfresh
  generated r := by
    rw [Nat.sub_eq_zero_of_le (init_tick_le c session r), List.take_zero]
    rfl
  done r h := by cases h
  log :=
    { increasing := List.Pairwise.nil
      before := by intro e he; cases he
      served := by intro e he; cases he
      complete := by
        rintro t ht r ⟨ha, -⟩
        have := init_tick_le c session r
        omega }
  pending_sorted := by
    refine (List.pairwise_insertionSort c.before (List.finRange n)).imp ?_
    rintro a b (h | ⟨h, -⟩)
    · exact h.le
    · exact h.le
  pending_mem r := by
    change r ∈ (List.finRange n).insertionSort c.before ↔ _
    rw [List.mem_insertionSort]
    exact ⟨fun _ => init_tick_le c session r, fun _ => List.mem_finRange r⟩
  active_nodup := List.nodup_nil
  active_mem r := by
    have := init_tick_le c session r
    constructor
    · intro h; cases h
    · rintro ⟨h, -⟩; omega
  activeSet := rfl

/-- The queues after the inner loop: the rows that are due, and those yet to arrive. -/
theorem moveArrived_due {s : State n σ} (hi : Inv next fed c s) (hpos : 0 < c.maxNewTokens) {q : Queues n}
    (hq : moveArrived c s.tick s.done s.pending s.active s.activeSet = q) :
    q.active.Nodup ∧ q.activeSet = q.active.toFinset ∧
      (∀ r, r ∈ q.active ↔ Due next c s.tick r) ∧
      q.pending.Pairwise (fun a b => c.arrivalTicks a ≤ c.arrivalTicks b) ∧
      ∀ r, r ∈ q.pending ↔ s.tick < c.arrivalTicks r := by
  have hdone : ∀ r ∈ s.pending, s.done r = false := by
    intro r hr
    have := (hi.pending_mem r).mp hr
    by_contra hd
    have := (hi.done r (by simpa using hd)).1
    omega
  rw [hi.activeSet] at hq
  obtain ⟨h1, h2, h3, h4, h5⟩ :=
    moveArrived_spec c s.tick s.done s.pending s.active hi.pending_sorted hi.active_nodup hdone
  rw [hq] at h1 h2 h3 h4 h5
  refine ⟨h1, h2, ?_, h4, ?_⟩
  · intro r
    rw [h3 r, hi.active_mem r, hi.pending_mem r]
    constructor
    · rintro (⟨-, h⟩ | ⟨hp, ha⟩)
      · exact h
      · refine ⟨ha, ?_⟩
        have : 0 < (alone next c r).length := greedy_length_pos next c.eosSet hpos _
        omega
    · intro hd
      by_cases ha : c.arrivalTicks r < s.tick
      · exact Or.inl ⟨ha, hd⟩
      · exact Or.inr ⟨by omega, hd.1⟩
  · intro r
    rw [h5 r, hi.pending_mem r]
    omega

/-- A row that is not due at a tick after its arrival has all its tokens. -/
theorem length_le_of_not_due {t : ℕ} {r : Fin n} (hd : ¬Due next c t r)
    (ha : c.arrivalTicks r ≤ t) : (alone next c r).length ≤ t - c.arrivalTicks r := by
  rw [Due, not_and, not_lt] at hd
  exact hd ha

theorem inv_idle {s s' : State n σ} (hi : Core next fed c s) (hnone : ∀ r, ¬Due next c s.tick r)
    (hsort : s'.pending.Pairwise fun a b => c.arrivalTicks a ≤ c.arrivalTicks b)
    (hpend : ∀ r, r ∈ s'.pending ↔ s.tick < c.arrivalTicks r)
    (hle : ∀ r ∈ s'.pending, s'.tick ≤ c.arrivalTicks r) (hlt : s.tick < s'.tick)
    (hsession : s'.session = s.session) (hgen : s'.generatedByRow = s.generatedByRow)
    (hdone : s'.done = s.done) (hlog : s'.log = s.log) (hactive : s'.active = [])
    (hset : s'.activeSet = ∅) : Inv next fed c s' := by
  -- a row that arrived before the new tick has all its tokens
  have hover : ∀ r, c.arrivalTicks r < s'.tick →
      (alone next c r).length ≤ s.tick - c.arrivalTicks r := by
    intro r hr
    have harr : c.arrivalTicks r ≤ s.tick := by
      by_contra hgt
      have := hle r ((hpend r).mpr (by omega))
      omega
    exact length_le_of_not_due (hnone r) harr
  exact
    { session := by rw [hsession, hgen]; exact hi.session
      generated := by
        intro r
        rw [hgen, hi.generated r]
        by_cases hr : c.arrivalTicks r < s'.tick
        · have := hover r hr
          rw [List.take_of_length_le this, List.take_of_length_le (by omega)]
        · rw [show s.tick - c.arrivalTicks r = 0 by omega,
            show s'.tick - c.arrivalTicks r = 0 by omega]
      done := by
        intro r hr
        rw [hdone] at hr
        obtain ⟨h1, h2⟩ := hi.done r hr
        omega
      log := by
        rw [hlog]
        refine logged_skip hi.log hlt.le ?_
        rintro t h1 h2 r ⟨ha, hb⟩
        have := hover r (by omega)
        omega
      pending_sorted := hsort
      pending_mem := by
        intro r
        refine ⟨hle r, fun h => (hpend r).mpr (by omega)⟩
      active_nodup := by rw [hactive]; exact List.nodup_nil
      active_mem := by
        intro r
        rw [hactive]
        constructor
        · intro h; cases h
        · rintro ⟨h, -, hd⟩
          have := hover r h
          omega
      activeSet := by rw [hset, hactive]; rfl }

theorem Core.done_eq_false {s : State n σ} (hi : Core next fed c s) {r : Fin n}
    (hd : Due next c s.tick r) : s.done r = false := by
  by_contra hdone
  have := (hi.done r (by simpa using hdone)).2
  have := hd.2
  omega

/-- What the next step gives a due row: the next token of its own decoding. -/
theorem next_eq {s : State n σ} (hi : Core next fed c s) {r : Fin n}
    (hd : Due next c s.tick r) :
    s.generatedByRow r ++ [next (c.inputIds r :: s.generatedByRow r)] =
        (alone next c r).take (s.tick + 1 - c.arrivalTicks r) ∧
      (s.generatedByRow r).length = s.tick - c.arrivalTicks r ∧
      (s.tick + 1 - c.arrivalTicks r < (alone next c r).length ↔
        next (c.inputIds r :: s.generatedByRow r) ∉ c.eosSet ∧
          s.tick + 1 - c.arrivalTicks r < c.maxNewTokens) := by
  obtain ⟨ha, hk⟩ := hd
  have hsucc : s.tick + 1 - c.arrivalTicks r = s.tick - c.arrivalTicks r + 1 := by omega
  obtain ⟨h1, h2⟩ := greedy_getElem next c.eosSet c.maxNewTokens [c.inputIds r] _ hk
  have htok : next (c.inputIds r :: s.generatedByRow r) =
      (alone next c r)[s.tick - c.arrivalTicks r] := by
    rw [hi.generated r]
    exact h1.symm
  refine ⟨?_, ?_, ?_⟩
  · rw [htok, hi.generated r, hsucc, List.take_succ_eq_append_getElem hk]
  · rw [hi.generated r, List.length_take]
    omega
  · rw [htok, hsucc]
    exact h2

/-- The rows after a tick that served `rows`. -/
def committed (c : Request n) (s : State n σ) (rows : List (Fin n)) (output : Fin n → ℕ) :
    Progress n :=
  rows.foldl (commitRow c output) ⟨s.generatedByRow, s.done, [], ∅⟩

def afterServe (c : Request n) (s : State n σ) (pending rows : List (Fin n)) (session : σ)
    (output : Fin n → ℕ) : State n σ :=
  { generatedByRow := (committed c s rows output).generatedByRow
    done := (committed c s rows output).done
    pending := pending
    active := (committed c s rows output).active
    activeSet := (committed c s rows output).activeSet
    tick := s.tick + 1
    session := session
    log := s.log ++
      [⟨s.tick, liveRow c s.generatedByRow s.tick, maskOf rows, output,
        computeGroups (fun r => (s.generatedByRow r).length) rows⟩] }

/-- A tick for the rows that are due runs, and its output is the next token of each. -/
theorem serve_eq (h : RowByRow step next fed maxLength) (hcap : c.maxNewTokens ≤ maxLength)
    {s : State n σ} (hi : Core next fed c s) (pending : List (Fin n)) {rows : List (Fin n)}
    (hne : rows ≠ []) (hnd : rows.Nodup) (hrows : ∀ r, r ∈ rows ↔ Due next c s.tick r) :
    ∃ session output,
      serve step c s ⟨pending, [], ∅⟩ rows = .next (afterServe c s pending rows session output) ∧
      (∀ r ∈ rows, output r = next (c.inputIds r :: s.generatedByRow r)) ∧
      ∀ r, fed session r =
        if r ∈ rows then c.inputIds r :: s.generatedByRow r else fed s.session r := by
  obtain ⟨hgroups, hflat⟩ := computeGroups_spec (fun r => (s.generatedByRow r).length) rows
  have hshort : ∀ r ∈ rows, (s.generatedByRow r).length < maxLength := by
    intro r hr
    obtain ⟨-, hlen, -⟩ := next_eq hi ((hrows r).mp hr)
    have := ((hrows r).mp hr).2
    have := alone_length_le next c r
    omega
  obtain ⟨session, output, hrun, hout, -, hfed⟩ := runGroups_spec s.tick h _ s.session
    (inputToken c s.generatedByRow) hgroups (by rw [hflat]; exact hnd)
    (fun r _ => hi.session r) (fun r hr => hshort r (by rwa [hflat] at hr))
  rw [hflat] at hout hfed
  have hgne : computeGroups (fun r => (s.generatedByRow r).length) rows ≠ [] := by
    intro hnil
    rw [hnil] at hflat
    exact hne hflat.symm
  refine ⟨session, output, ?_, hout, hfed⟩
  rw [serve, hrun]
  simp only
  rw [if_neg hgne]
  rfl

/-- The invariant after a tick for the rows that are due. -/
theorem inv_afterServe {s : State n σ} (hi : Core next fed c s) {pending rows : List (Fin n)}
    (hsort : pending.Pairwise fun a b => c.arrivalTicks a ≤ c.arrivalTicks b)
    (hpend : ∀ r, r ∈ pending ↔ s.tick < c.arrivalTicks r) (hinc : rows.Pairwise (· < ·))
    (hrows : ∀ r, r ∈ rows ↔ Due next c s.tick r) {session : σ} {output : Fin n → ℕ}
    (hout : ∀ r ∈ rows, output r = next (c.inputIds r :: s.generatedByRow r))
    (hfed : ∀ r, fed session r =
      if r ∈ rows then c.inputIds r :: s.generatedByRow r else fed s.session r) :
    Inv next fed c (afterServe c s pending rows session output) := by
  have hnd : rows.Nodup := hinc.imp (fun h => ne_of_lt h)
  obtain ⟨hgroups, hflat⟩ := computeGroups_spec (fun r => (s.generatedByRow r).length) rows
  obtain ⟨h1, h2, h3, h4, h5⟩ := foldl_commitRow c output rows
    ⟨s.generatedByRow, s.done, [], ∅⟩ hnd rfl List.nodup_nil (fun r _ => List.not_mem_nil)
  have hserved : Served next c ⟨s.tick, liveRow c s.generatedByRow s.tick, maskOf rows, output,
      computeGroups (fun r => (s.generatedByRow r).length) rows⟩ :=
    { increasing := by rw [hflat]; exact hinc
      mem := by intro r; rw [hflat]; exact hrows r
      mask := by intro r; rw [hflat]; simp [maskOf]
      groups := hgroups
      position := by
        intro r
        change (s.generatedByRow r).length = _
        rw [hi.generated r, List.length_take] }
  exact
    { session := by
        intro r
        change fed session r = (c.inputIds r :: (committed c s rows output).generatedByRow r).dropLast
        rw [hfed r, committed, h1 r]
        by_cases hr : r ∈ rows
        · rw [if_pos hr, if_pos hr, ← List.cons_append, List.dropLast_concat]
        · rw [if_neg hr, if_neg hr]
          exact hi.session r
      generated := by
        intro r
        refine (h1 r).trans ?_
        change _ = (alone next c r).take (s.tick + 1 - c.arrivalTicks r)
        by_cases hr : r ∈ rows
        · rw [if_pos hr, hout r hr]
          exact (next_eq hi ((hrows r).mp hr)).1
        · rw [if_neg hr]
          have hnd : ¬Due next c s.tick r := fun hd => hr ((hrows r).mpr hd)
          change s.generatedByRow r = _
          rw [hi.generated r]
          by_cases ha : c.arrivalTicks r ≤ s.tick
          · have := length_le_of_not_due hnd ha
            rw [List.take_of_length_le this, List.take_of_length_le (by omega)]
          · rw [show s.tick - c.arrivalTicks r = 0 by omega,
              show s.tick + 1 - c.arrivalTicks r = 0 by omega]
      done := by
        intro r hr
        change c.arrivalTicks r < s.tick + 1 ∧ _ ≤ s.tick + 1 - _
        rcases (h2 r).mp hr with hr | ⟨hr, heos⟩
        · obtain ⟨ha, hb⟩ := hi.done r hr
          omega
        · have hd := (hrows r).mp hr
          rw [hout r hr] at heos
          obtain ⟨-, -, hmore⟩ := next_eq hi hd
          refine ⟨Nat.lt_succ_of_le hd.1, ?_⟩
          by_contra hlt
          exact (hmore.mp (by omega)).1 heos
      log := logged_append hi.log hserved
      pending_sorted := hsort
      pending_mem := by
        intro r
        change r ∈ pending ↔ s.tick + 1 ≤ _
        rw [hpend r]
        omega
      active_nodup := h4
      active_mem := by
        intro r
        change r ∈ (committed c s rows output).active ↔ _ < s.tick + 1 ∧ Due next c (s.tick + 1) r
        rw [committed, h5 r]
        simp only [List.not_mem_nil, false_or]
        constructor
        · rintro ⟨hr, -, heos, hlt⟩
          have hd := (hrows r).mp hr
          obtain ⟨-, hlen, hmore⟩ := next_eq hi hd
          rw [hout r hr] at heos
          change (s.generatedByRow r).length + 1 < _ at hlt
          have := hd.1
          exact ⟨by omega, by omega, hmore.mpr ⟨heos, by omega⟩⟩
        · rintro ⟨ha, ha', hlt⟩
          have hd : Due next c s.tick r := ⟨by omega, by omega⟩
          have hr := (hrows r).mpr hd
          obtain ⟨-, hlen, hmore⟩ := next_eq hi hd
          obtain ⟨heos, hmax⟩ := hmore.mp hlt
          refine ⟨hr, hi.done_eq_false hd, ?_, ?_⟩
          · rw [hout r hr]
            exact heos
          · change (s.generatedByRow r).length + 1 < _
            omega
      activeSet := h3 }

/-! ### The loop -/

def horizon (c : Request n) : ℕ :=
  ∑ r, (c.arrivalTicks r + c.maxNewTokens)

theorem le_horizon (c : Request n) (r : Fin n) :
    c.arrivalTicks r + c.maxNewTokens ≤ horizon c :=
  Finset.single_le_sum (f := fun r => c.arrivalTicks r + c.maxNewTokens)
    (fun _ _ => Nat.zero_le _) (Finset.mem_univ r)

structure Final (next : List ℕ → ℕ) (c : Request n) (s : State n σ) : Prop where
  generated : ∀ r, s.generatedByRow r = alone next c r
  log : Logged next c s.log s.tick
  nothing_due : ∀ t, s.tick ≤ t → ∀ r, ¬Due next c t r

theorem final_of_length_le {s : State n σ}
    (hgen : ∀ r, s.generatedByRow r = (alone next c r).take (s.tick - c.arrivalTicks r))
    (hlog : Logged next c s.log s.tick)
    (hall : ∀ r, (alone next c r).length ≤ s.tick - c.arrivalTicks r) : Final next c s where
  generated r := by rw [hgen r, List.take_of_length_le (hall r)]
  log := hlog
  nothing_due := by
    rintro t ht r ⟨-, hd⟩
    have := hall r
    omega

theorem insertionSort_increasing {rows : List (Fin n)} (hnd : rows.Nodup) :
    (rows.insertionSort (· ≤ ·)).Pairwise (· < ·) := by
  have hnd' := (List.perm_insertionSort (· ≤ ·) rows).symm.nodup hnd
  exact ((List.pairwise_insertionSort (· ≤ ·) rows).and hnd').imp fun h => lt_of_le_of_ne h.1 h.2

theorem turn_spec (h : RowByRow step next fed maxLength) (hcap : c.maxNewTokens ≤ maxLength)
    (s : State n σ) (hi : Inv next fed c s) :
    (∃ s', turn step c s = .next s' ∧ Inv next fed c s' ∧
      horizon c - s'.tick < horizon c - s.tick) ∨
    ∃ s', turn step c s = .stop s' ∧ Final next c s' := by
  rw [turn]
  by_cases hmore : ∃ r, (s.generatedByRow r).length < c.maxNewTokens
  · rw [if_pos hmore]
    obtain ⟨r₀, hr₀⟩ := hmore
    have hpos : 0 < c.maxNewTokens := by omega
    generalize hq : moveArrived c s.tick s.done s.pending s.active s.activeSet = q
    obtain ⟨hnd, hset, hact, hsort, hpend⟩ := moveArrived_due hi hpos hq
    have hcore : Core next fed c
        { s with pending := q.pending, active := q.active, activeSet := q.activeSet } :=
      ⟨hi.session, hi.generated, hi.done, hi.log⟩
    simp only
    by_cases hempty : q.active = []
    · rw [if_pos hempty]
      have hnone : ∀ r, ¬Due next c s.tick r := by
        intro r hd
        have := (hact r).mpr hd
        rw [hempty] at this
        cases this
      cases hp : q.pending with
      | cons r rest =>
        refine Or.inl ⟨_, rfl, ?_, ?_⟩
        · rw [hp] at hsort hpend
          refine inv_idle hi.toCore hnone hsort hpend ?_ ?_ rfl rfl rfl rfl hempty
            (by rw [hset, hempty]; rfl)
          · -- the first pending row is the next to arrive
            intro r' hr'
            have hlt := (hpend r').mp hr'
            have hle : c.arrivalTicks r ≤ c.arrivalTicks r' := by
              rcases List.mem_cons.mp hr' with rfl | hin
              · exact Nat.le_refl _
              · exact (List.pairwise_cons.mp hsort).1 r' hin
            exact Nat.max_le.mpr ⟨hlt, hle⟩
          · exact Nat.lt_of_lt_of_le (Nat.lt_succ_self _) (Nat.le_max_left _ _)
        · have hlt := (hpend r).mp (by rw [hp]; exact List.mem_cons_self)
          have := le_horizon c r
          change horizon c - max (s.tick + 1) (c.arrivalTicks r) < _
          omega
      | nil =>
        refine Or.inr ⟨_, rfl, final_of_length_le hi.generated hi.log ?_⟩
        intro r
        refine length_le_of_not_due (hnone r) ?_
        by_contra hgt
        have := (hpend r).mpr (Nat.lt_of_not_le hgt)
        rw [hp] at this
        cases this
    · rw [if_neg hempty]
      -- every row in the queue is taken
      have hlen : q.active.length ≤ n := by
        have := hnd.length_le_card
        rwa [Fintype.card_fin] at this
      have hnotdone : ∀ r ∈ q.active, s.done r = false := fun r hr =>
        hi.toCore.done_eq_false ((hact r).mp hr)
      rw [hset, popRows_all s.done q.active n [] hlen hnd hnotdone, List.nil_append]
      simp only
      rw [if_neg hempty]
      have hperm := List.perm_insertionSort (· ≤ ·) q.active
      have hne : q.active.insertionSort (· ≤ ·) ≠ [] := fun hnil =>
        hempty (by rw [hnil] at hperm; exact hperm.symm.eq_nil)
      have hnd' : (q.active.insertionSort (· ≤ ·)).Nodup := hperm.symm.nodup hnd
      have hinc := insertionSort_increasing hnd
      have hrows : ∀ r, r ∈ q.active.insertionSort (· ≤ ·) ↔ Due next c s.tick r := fun r => by
        rw [List.mem_insertionSort]
        exact hact r
      obtain ⟨session, output, hserve, hout, hfed⟩ :=
        serve_eq h hcap hcore q.pending hne hnd' hrows
      rw [hset] at hserve
      refine Or.inl ⟨_, hserve, inv_afterServe hcore hsort hpend hinc hrows hout hfed, ?_⟩
      obtain ⟨r, hr⟩ := List.exists_mem_of_ne_nil _ hempty
      obtain ⟨ha, hd⟩ := (hact r).mp hr
      have := le_horizon c r
      have := alone_length_le next c r
      change horizon c - (s.tick + 1) < _
      omega
  · rw [if_neg hmore]
    push Not at hmore
    refine Or.inr ⟨s, rfl, final_of_length_le hi.generated hi.log ?_⟩
    intro r
    have h1 := hmore r
    have h2 := alone_length_le next c r
    rw [hi.generated r, List.length_take] at h1
    omega

theorem outputRow_eq {generatedByRow : Fin n → List ℕ} {r : Fin n}
    (hlen : (generatedByRow r).length ≤ c.maxNewTokens) :
    outputRow c generatedByRow r = c.inputIds r :: (generatedByRow r ++
      List.replicate (c.maxNewTokens - (generatedByRow r).length) (c.inputIds r)) := by
  simp only [outputRow]
  split
  · rw [List.take_of_length_le (by simp; omega)]
  · rw [show c.maxNewTokens - (generatedByRow r).length = 0 by omega, List.replicate_zero,
      List.append_nil, List.take_of_length_le hlen]

/-- The scheduler, for any session that decodes row by row: it ends, each row is served once at
every tick from its arrival on while tokens are left and never otherwise, the groups of a tick
partition the rows it serves into consecutive rows with one position, and every row gets the
tokens of decoding it alone. -/
theorem lateArrivalGenerate_eq_alone (h : RowByRow step next fed maxLength)
    (hcap : c.maxNewTokens ≤ maxLength) (session : σ) (hfresh : ∀ r, fed session r = []) :
    ∃ (s : State n σ) (output : Fin n → List ℕ),
      (∃ bound, ∀ fuel > bound,
        lateArrivalGenerate step c session fuel = some (.ok (s, output))) ∧
      (∀ r, s.generatedByRow r = alone next c r ∧
        output r = c.inputIds r :: (alone next c r ++
          List.replicate (c.maxNewTokens - (alone next c r).length) (c.inputIds r))) ∧
      (∀ t r, serves s.log t r =
        if c.arrivalTicks r ≤ t ∧ received s.log t r < (alone next c r).length then 1 else 0) ∧
      ∀ e ∈ s.log,
        e.groups.flatten.Pairwise (· < ·) ∧
        (∀ r, e.activeMask r = true ↔ r ∈ e.groups.flatten) ∧
        ∀ g ∈ e.groups, g ≠ [] ∧ (g.IsChain fun a b => b.val = a.val + 1) ∧
          ∀ r ∈ g, c.arrivalTicks r ≤ e.tick ∧ (e.rows r).position = received s.log e.tick r ∧
            ∀ r' ∈ g, (e.rows r).position = (e.rows r').position := by
  obtain ⟨s, hfinal, hrun⟩ := run_total (fun s => horizon c - s.tick) (turn_spec h hcap) _ _
    (inv_init hfresh) le_rfl
  have hserves := serves_eq hfinal.log hfinal.nothing_due
  have hreceived := received_eq hfinal.log hfinal.nothing_due
  refine ⟨s, outputRow c s.generatedByRow,
    ⟨horizon c - (State.init c session).tick, fun fuel hf => ?_⟩, ?_, ?_, ?_⟩
  · rw [lateArrivalGenerate, hrun fuel hf]
    rfl
  · intro r
    have hgen := hfinal.generated r
    refine ⟨hgen, ?_⟩
    rw [← hgen]
    exact outputRow_eq (by rw [hgen]; exact alone_length_le next c r)
  · intro t r
    obtain ⟨h1, h0⟩ := hserves t r
    rw [hreceived t r]
    by_cases hd : Due next c t r
    · rw [h1 hd, if_pos ⟨hd.1, by have := hd.2; omega⟩]
    · rw [h0 hd, if_neg (fun hc => hd ⟨hc.1, by have := hc.2; omega⟩)]
  · intro e he
    have hs := hfinal.log.served e he
    refine ⟨hs.increasing, hs.mask, fun g hg => ⟨(hs.groups g hg).nonempty,
      (hs.groups g hg).contiguous, fun r hr => ⟨?_, ?_, (hs.groups g hg).samePosition r hr⟩⟩⟩
    · exact ((hs.mem r).mp (List.mem_flatten.mpr ⟨g, hg, hr⟩)).1
    · rw [hreceived, hs.position]

end

/-! ### A session that decodes row by row -/

/-- The tokens fed to each row, and the length check of `InferenceSession.step`. -/
def maskedStep (next : List ℕ → ℕ) (maxLength : ℕ) (fed : Fin n → List ℕ) (g : GroupStep n) :
    Except String ((Fin n → List ℕ) × List ℕ) :=
  if maxLength < g.prefillLength.headD 0 + 1 then .error "Maximum length exceeded"
  else
    .ok (fun r => if g.activeMask r then fed r ++ [(g.rows r).inputTokenId] else fed r,
      ((List.finRange n).filter g.activeMask).map fun r => next (fed r ++ [(g.rows r).inputTokenId]))

theorem maskedStep_rowByRow (next : List ℕ → ℕ) (maxLength : ℕ) :
    RowByRow (n := n) (maskedStep next maxLength) next id maxLength where
  returns fed g rows hf := by
    have hlt : rows.Pairwise (· < ·) := by
      have hchain : rows.IsChain (· < ·) := hf.contiguous.imp fun a b hab => by
        rw [Fin.lt_def]
        omega
      exact hchain.pairwise
    have hrows : (List.finRange n).filter g.activeMask = rows := by
      refine List.Perm.eq_of_pairwise (fun a b _ _ hab hba => absurd hba (lt_asymm hab))
        ((List.pairwise_lt_finRange n).filter _) hlt ?_
      rw [List.perm_ext_iff_of_nodup ((List.nodup_finRange n).filter _)
        (hlt.imp fun h => ne_of_lt h)]
      intro r
      simp [hf.mask r]
    refine ⟨fun r => if g.activeMask r then fed r ++ [(g.rows r).inputTokenId] else fed r, [], ?_,
      ?_⟩
    · obtain ⟨a, rest, rfl⟩ := List.exists_cons_of_ne_nil hf.nonempty
      have hlen : (fed a).length < maxLength := hf.length a List.mem_cons_self
      have hhead : g.prefillLength.headD 0 = (fed a).length := by
        rw [hf.prefill]
        rfl
      rw [maskedStep, if_neg (by rw [hhead]; omega), hrows, List.append_nil]
      rfl
    · intro r
      have := hf.mask r
      simp only [id_eq, this]

/-- Three rows: two arrive after the other one is over, and one of them ends at an EOS. -/
theorem lateArrivalGenerate_eq_alone_gap :
    ∃ (s : State 3 (Fin 3 → List ℕ)) (output : Fin 3 → List ℕ) (c : Request 3)
      (next : List ℕ → ℕ),
      c = ⟨![5, 6, 7], 3, [9], ![4, 0, 4]⟩ ∧ next = (fun h => h.headD 0 + h.length) ∧
      (∃ bound, ∀ fuel > bound,
        lateArrivalGenerate (maskedStep next 4) c (fun _ => []) fuel = some (.ok (s, output))) ∧
      (∀ r, s.generatedByRow r = ![[6, 7, 8], [7, 8, 9], [8, 9]] r) ∧
      ∀ t r, serves s.log t r =
        if c.arrivalTicks r ≤ t ∧ received s.log t r < (alone next c r).length then 1 else 0 := by
  obtain ⟨s, output, hrun, hgen, hserves, -⟩ := lateArrivalGenerate_eq_alone
    (maskedStep_rowByRow (fun h => h.headD 0 + h.length) 4)
    (c := ⟨![5, 6, 7], 3, [9], ![4, 0, 4]⟩) (by decide) (fun _ => []) (fun _ => rfl)
  refine ⟨s, output, _, _, rfl, rfl, hrun, ?_, hserves⟩
  intro r
  rw [(hgen r).1]
  revert r
  decide

end BloomBee.LateArrival
