import BloomBee.Spec.MemoryCache
import Mathlib.Algebra.BigOperators.Group.Finset.Basic
import Mathlib.Algebra.Order.BigOperators.Group.Finset

/-! The cache budget. The size check and the increment are apart: tokens that passed the
check are pending until they are counted. A run stays within the budget when every check
that succeeds leaves room for the pending tokens too, and a check that does not leave it
opens a run that exceeds the budget. -/

namespace BloomBee.MemoryCache

variable {ι : Type} [DecidableEq ι]

def Phase.pending : Phase → ℕ
  | .passed n | .admitted n | .dequeued n => n
  | _ => 0

def Phase.checked : Act → Phase → Option ℕ
  | .checkSize, .locked n _ => some n
  | .checkWait, .waiting n => some n
  | _, _ => none

theorem goto_phase (s : State ι) (i : ι) (p : Phase) : (s.goto i p).phase i = p :=
  Function.update_self ..

theorem Reaches.trans {maxSizeTokens : ℕ} {s t u : State ι} (h : Reaches maxSizeTokens s t)
    (h' : Reaches maxSizeTokens t u) : Reaches maxSizeTokens s u := by
  induction h' with
  | refl => exact h
  | step _ hs ih => exact ih.step hs

theorem reaches_of_run {maxSizeTokens : ℕ} {s s' : State ι} {sched : List (ι × Act)}
    (h : run maxSizeTokens s sched = some s') : Reaches maxSizeTokens s s' := by
  induction sched generalizing s with
  | nil => rw [run, Option.some.injEq] at h; exact h ▸ .refl
  | cons ia sched ih =>
    obtain ⟨s₁, hs, hrun⟩ := Option.bind_eq_some_iff.mp h
    exact (Reaches.refl.step hs).trans (ih hrun)

theorem pending_of_checked {a : Act} {p : Phase} {n : ℕ} (h : p.checked a = some n) :
    p.pending = 0 := by
  unfold Phase.checked at h
  split at h
  · rfl
  · rfl
  · cases h

theorem step_of_checked {maxSizeTokens : ℕ} {s : State ι} {i : ι} {a : Act} {n : ℕ}
    (h : (s.phase i).checked a = some n) (hfit : s.currentSizeTokens + n ≤ maxSizeTokens) :
    step maxSizeTokens s i a = some (s.goto i (.passed n)) := by
  unfold Phase.checked at h
  split at h
  · rename_i hq
    obtain rfl := Option.some.inj h
    simp only [step, hq, gt_iff_lt, if_neg (Nat.not_lt.mpr hfit)]
  · rename_i hq
    obtain rfl := Option.some.inj h
    simp only [step, hq, gt_iff_lt, if_neg (Nat.not_lt.mpr hfit)]
  · cases h

variable [Fintype ι]

def State.pending (s : State ι) : ℕ := ∑ i, (s.phase i).pending

/-- A size check that succeeds also leaves room for all pending tokens. -/
def CheckFits (maxSizeTokens : ℕ) (s : State ι) (i : ι) (a : Act) : Prop :=
  ∀ n, (s.phase i).checked a = some n → s.currentSizeTokens + n ≤ maxSizeTokens →
    s.currentSizeTokens + s.pending + n ≤ maxSizeTokens

/-- The states of the runs whose steps all meet `CheckFits`. -/
inductive FittingRun (maxSizeTokens : ℕ) : State ι → Prop where
  | init : FittingRun maxSizeTokens State.init
  | step {s s' : State ι} {i : ι} {a : Act} (h : FittingRun maxSizeTokens s)
      (hc : CheckFits maxSizeTokens s i a) (hs : MemoryCache.step maxSizeTokens s i a = some s') :
      FittingRun maxSizeTokens s'

theorem pending_goto {s t : State ι} (ht : t.phase = s.phase) (i : ι) (p : Phase) :
    (t.goto i p).pending + (s.phase i).pending = s.pending + p.pending := by
  have h := Finset.add_sum_erase Finset.univ (fun j => (s.phase j).pending) (Finset.mem_univ i)
  have h' := Finset.add_sum_erase Finset.univ
    (fun j => (Function.update s.phase i p j).pending) (Finset.mem_univ i)
  have heq : ∑ j ∈ Finset.univ.erase i, (Function.update s.phase i p j).pending =
      ∑ j ∈ Finset.univ.erase i, (s.phase j).pending := by
    refine Finset.sum_congr rfl fun j hj => ?_
    rw [Function.update_of_ne (Finset.ne_of_mem_erase hj)]
  simp only [Function.update_self] at h'
  simp only [State.pending, State.goto, ht]
  omega

/-- A move that takes as much out of the pending tokens as it adds to the counted ones. -/
theorem total_goto_le {s t : State ι} {i : ι} {p q : Phase} (ht : t.phase = s.phase)
    (hq : s.phase i = q)
    (hc : t.currentSizeTokens + p.pending ≤ s.currentSizeTokens + q.pending) :
    (t.goto i p).currentSizeTokens + (t.goto i p).pending ≤ s.currentSizeTokens + s.pending := by
  have h := pending_goto ht i p
  have hcur : (t.goto i p).currentSizeTokens = t.currentSizeTokens := rfl
  rw [hq] at h
  omega

theorem pending_goto_passed {s : State ι} {i : ι} {q : Phase} (n : ℕ) (hq : s.phase i = q)
    (h0 : q.pending = 0) : (s.goto i (.passed n)).pending = s.pending + n := by
  have h := pending_goto (t := s) rfl i (.passed n)
  rw [hq, h0] at h
  exact h

/-- What a step does to the counted and the pending tokens: only a size check that succeeds
adds to their sum, and it adds what it checked. -/
theorem step_total {maxSizeTokens : ℕ} {s s' : State ι} {i : ι} {a : Act}
    (hs : step maxSizeTokens s i a = some s') :
    s'.currentSizeTokens + s'.pending ≤ s.currentSizeTokens + s.pending ∨
      ∃ n, (s.phase i).checked a = some n ∧ s.currentSizeTokens + n ≤ maxSizeTokens ∧
        s'.currentSizeTokens = s.currentSizeTokens ∧ s'.pending = s.pending + n := by
  unfold step at hs
  split at hs <;> rename_i hq
  · obtain rfl := Option.some.inj hs
    exact .inl (total_goto_le rfl hq (by split_ifs <;> simp [Phase.pending]))
  · obtain rfl := Option.some.inj hs
    exact .inl (total_goto_le rfl hq (Nat.le_refl _))
  · obtain rfl := Option.some.inj hs
    exact .inl (total_goto_le rfl hq (by split_ifs <;> simp [Phase.pending]))
  · split_ifs at hs
    obtain rfl := Option.some.inj hs
    exact .inl (total_goto_le rfl hq (Nat.le_refl _))
  · rename_i n now
    split_ifs at hs with hfull hgive
    · obtain rfl := Option.some.inj hs
      exact .inl (total_goto_le rfl hq (Nat.le_refl _))
    · obtain rfl := Option.some.inj hs
      exact .inl (total_goto_le rfl hq (Nat.le_refl _))
    · obtain rfl := Option.some.inj hs
      exact .inr ⟨n, by rw [hq]; rfl, Nat.le_of_not_lt hfull, rfl, pending_goto_passed n hq rfl⟩
  · rename_i n
    split_ifs at hs with hfull
    · obtain rfl := Option.some.inj hs
      exact .inl (total_goto_le rfl hq (Nat.le_refl _))
    · obtain rfl := Option.some.inj hs
      exact .inr ⟨n, by rw [hq]; rfl, Nat.le_of_not_lt hfull, rfl, pending_goto_passed n hq rfl⟩
  · split_ifs at hs
    obtain rfl := Option.some.inj hs
    exact .inl (total_goto_le rfl hq (Nat.le_refl _))
  case h_17 => cases hs
  -- the increment moves its tokens from pending to counted, and a free only gives back
  all_goals
    obtain rfl := Option.some.inj hs
    refine .inl (total_goto_le rfl hq ?_)
    simp only [Phase.pending]
    omega

def Inv (maxSizeTokens : ℕ) (s : State ι) : Prop := s.currentSizeTokens + s.pending ≤ maxSizeTokens

theorem inv_step {maxSizeTokens : ℕ} {s s' : State ι} {i : ι} {a : Act} (h : Inv maxSizeTokens s)
    (hc : CheckFits maxSizeTokens s i a) (hs : step maxSizeTokens s i a = some s') :
    Inv maxSizeTokens s' := by
  rcases step_total hs with hle | ⟨n, hn, hfit, hcur, hpend⟩
  · exact le_trans hle h
  · have := hc n hn hfit
    rw [Inv, hcur, hpend, ← Nat.add_assoc]
    exact this

theorem inv_run {maxSizeTokens : ℕ} {s : State ι} (h : FittingRun maxSizeTokens s) :
    Inv maxSizeTokens s := by
  induction h with
  | init => simp [Inv, State.pending, State.init, Phase.pending]
  | step _ hc hs ih => exact inv_step ih hc hs

/-- Some run from `s` counts what caller `i` has pending and does nothing else. -/
def Counts (maxSizeTokens : ℕ) (s : State ι) (i : ι) : Prop :=
  ∃ s', Reaches maxSizeTokens s s' ∧ (s'.phase i).pending = 0 ∧
    (∀ j ≠ i, s'.phase j = s.phase j) ∧
    s'.currentSizeTokens + s'.pending = s.currentSizeTokens + s.pending

theorem Counts.of_goto {maxSizeTokens : ℕ} {s t : State ι} {i : ι} {a : Act} {p : Phase}
    (hs : step maxSizeTokens s i a = some (t.goto i p)) (ht : t.phase = s.phase)
    (hc : t.currentSizeTokens + p.pending = s.currentSizeTokens + (s.phase i).pending)
    (h : Counts maxSizeTokens (t.goto i p) i) : Counts maxSizeTokens s i := by
  obtain ⟨s', hrun, hzero, hrest, htotal⟩ := h
  refine ⟨s', (Reaches.refl.step hs).trans hrun, hzero, ?_, ?_⟩
  · intro j hj
    rw [hrest j hj, ← ht]
    exact Function.update_of_ne hj ..
  · have hgo := pending_goto ht i p
    have hcur : (t.goto i p).currentSizeTokens = t.currentSizeTokens := rfl
    omega

/-- A caller that passed the check can always go on until its tokens are counted. -/
theorem counts (maxSizeTokens : ℕ) (s : State ι) (i : ι) : Counts maxSizeTokens s i := by
  have done : ∀ s : State ι, (s.phase i).pending = 0 → Counts maxSizeTokens s i :=
    fun s h => ⟨s, .refl, h, fun _ _ => rfl, rfl⟩
  have dequeued : ∀ (s : State ι) n, s.phase i = .dequeued n → Counts maxSizeTokens s i := by
    intro s n h
    have hs : step maxSizeTokens s i .increment =
        some ({ s with currentSizeTokens := s.currentSizeTokens + n }.goto i (.holding n)) := by
      simp only [step, h]
    exact Counts.of_goto hs rfl (by rw [h]; rfl) (done _ (by rw [goto_phase]; rfl))
  have admitted : ∀ (s : State ι) n, s.phase i = .admitted n → Counts maxSizeTokens s i := by
    intro s n h
    have hs : step maxSizeTokens s i .dequeue =
        some ({ s with enqueuedSizeTokens := s.enqueuedSizeTokens - n }.goto i (.dequeued n)) := by
      simp only [step, h]
    exact Counts.of_goto hs rfl (by rw [h]; rfl) (dequeued _ n (goto_phase _ _ _))
  cases h : s.phase i with
  | passed n =>
    have hs : step maxSizeTokens s i .release =
        some ({ s with lock := none }.goto i (.admitted n)) := by
      simp only [step, h]
    exact Counts.of_goto hs rfl (by rw [h]; rfl) (admitted _ n (goto_phase _ _ _))
  | admitted n => exact admitted s n h
  | dequeued n => exact dequeued s n h
  | _ => exact done s (by rw [h]; rfl)

/-- Letting every caller count what it has pending makes the whole sum visible. -/
theorem reaches_total (maxSizeTokens : ℕ) (s : State ι) :
    ∃ s', Reaches maxSizeTokens s s' ∧ s'.currentSizeTokens = s.currentSizeTokens + s.pending := by
  have hsome : ∀ t : Finset ι, ∃ s', Reaches maxSizeTokens s s' ∧
      (∀ i ∈ t, (s'.phase i).pending = 0) ∧
      s'.currentSizeTokens + s'.pending = s.currentSizeTokens + s.pending := by
    intro t
    induction t using Finset.induction_on with
    | empty => exact ⟨s, .refl, by simp, rfl⟩
    | insert i t _ ih =>
      obtain ⟨s₁, hrun, hzero, htotal⟩ := ih
      obtain ⟨s₂, hrun', hi, hrest, htotal'⟩ := counts maxSizeTokens s₁ i
      refine ⟨s₂, hrun.trans hrun', ?_, htotal'.trans htotal⟩
      intro j hj
      by_cases hji : j = i
      · rw [hji]; exact hi
      · rw [hrest j hji]
        exact hzero j (Finset.mem_of_mem_insert_of_ne hj hji)
  obtain ⟨s', hrun, hzero, htotal⟩ := hsome Finset.univ
  refine ⟨s', hrun, ?_⟩
  have hnone : s'.pending = 0 := Finset.sum_eq_zero fun i hi => hzero i hi
  omega

/-- The cache budget over runs. Along a run in which every size check that succeeds leaves
room for the pending tokens, `current_size_tokens` never exceeds the budget. After a check
that does not, some interleaving exceeds it. -/
theorem current_le_max_of_fitting (ι : Type) [DecidableEq ι] [Fintype ι] (maxSizeTokens : ℕ) :
    (∀ s : State ι, FittingRun maxSizeTokens s → s.currentSizeTokens ≤ maxSizeTokens) ∧
      ∀ (s s' : State ι) (i : ι) (a : Act), step maxSizeTokens s i a = some s' →
        ¬CheckFits maxSizeTokens s i a →
          ∃ s'', Reaches maxSizeTokens s' s'' ∧ maxSizeTokens < s''.currentSizeTokens := by
  refine ⟨?_, ?_⟩
  · intro s h
    exact le_trans (Nat.le_add_right _ _) (inv_run h)
  · intro s s' i a hs hbad
    simp only [CheckFits, not_forall, not_le] at hbad
    obtain ⟨n, hn, hfit, hover⟩ := hbad
    rw [step_of_checked hn hfit] at hs
    obtain rfl := Option.some.inj hs
    obtain ⟨s'', hrun, htotal⟩ := reaches_total maxSizeTokens (s.goto i (.passed n))
    refine ⟨s'', hrun, ?_⟩
    rw [htotal, pending_goto_passed n rfl (pending_of_checked hn)]
    exact lt_of_lt_of_eq hover (Nat.add_assoc ..)

/-- One allocation of six tokens out of ten, up to its size check and beyond. -/
theorem current_le_max_of_fitting_single :
    ∃ s : State (Fin 2), FittingRun 10 s ∧ s.currentSizeTokens = 6 ∧ s.currentSizeTokens ≤ 10 := by
  have h₀ : FittingRun (ι := Fin 2) 10 State.init := .init
  have h₁ := h₀.step (i := 0) (a := .enqueue 6 false) (by intro n hn; cases hn) rfl
  have h₂ := h₁.step (i := 0) (a := .acquire) (by intro n hn; cases hn) rfl
  have h₃ := h₂.step (i := 0) (a := .checkSize) (by intro n hn _; cases hn; decide) rfl
  have h₄ := h₃.step (i := 0) (a := .release) (by intro n hn; cases hn) rfl
  have h₅ := h₄.step (i := 0) (a := .dequeue) (by intro n hn; cases hn) rfl
  have h₆ := h₅.step (i := 0) (a := .increment) (by intro n hn; cases hn) rfl
  exact ⟨_, h₆, rfl, (current_le_max_of_fitting (Fin 2) 10).1 _ h₆⟩

def doubleAdmission : List (Fin 2 × Act) :=
  [(0, .enqueue 6 false), (0, .acquire), (0, .checkSize), (0, .release),
   (1, .enqueue 6 false), (1, .acquire), (1, .checkSize), (1, .release),
   (0, .dequeue), (0, .increment), (1, .dequeue), (1, .increment)]

theorem current_exceeds_max_doubleAdmission :
    ¬∀ s : State (Fin 2), Reaches 10 State.init s → s.currentSizeTokens ≤ 10 := by
  intro h
  have hrun : (run 10 State.init doubleAdmission).map State.currentSizeTokens = some 12 := rfl
  obtain ⟨s, hs, hcur⟩ := Option.map_eq_some_iff.mp hrun
  have := h s (reaches_of_run hs)
  omega

end BloomBee.MemoryCache
