import BloomBee.Sanity.KVMultiplex
import BloomBee.Sanity.KVSessions

/-! The multiplexed cache reads as a cache with rows for every micro-batch
(`runVisits_reads_own_rows`), and micro-batches of one request have different keys exactly
when they are at least as large as the policy's (`microBatchIndex_injective_iff`). Sessions do
not see each other as long as no cleanup and no reused identity meets a live one
(`run_isolated`). -/

set_option autoImplicit false

namespace BloomBee.KVMultiplex

open RpcInference

variable {κ : Type}

/-! ### Any order of visits -/

/-- The cache has the rows of every micro-batch, in its working slots and staging buffers or
for the full batch. -/
def Keeps (p : Policy) (batchSize : ℕ) (m : Manager κ) (c : CacheTensor κ)
    (own : ℕ → Batch κ) : Prop :=
  if c.batch < batchSize then Agrees p batchSize m c own else Direct p batchSize c own

theorem keeps_noRows (p : Policy) (batchSize : ℕ) (c : CacheTensor κ) :
    Keeps p batchSize .init c (noRows p batchSize) := by
  unfold Keeps
  split
  · exact
      { rows := fun i _ => List.length_replicate
        staged_none := fun _ _ _ => rfl
        staged_some := fun _ _ _ h => by cases h
        current := fun _ _ h => by cases h }
  · refine ⟨fun i _ => List.length_replicate, fun i _ r row hr => ?_⟩
    have hnil : row = [] := List.eq_of_mem_replicate (List.mem_of_getElem? hr)
    rw [hnil]
    rfl

theorem keeps_step {p : Policy} {batchSize : ℕ} {m : Manager κ} {c : CacheTensor κ}
    {own : ℕ → Batch κ} (hcap : p.Multiple c.batch) (hk : Keeps p batchSize m c own) {i : ℕ}
    (hi : i * p.workingSlotBatchSize < batchSize) {new : Batch κ}
    (hnew : new.rows.length = p.microBatchRows batchSize i) (hstart : (own i).width < c.seqLen)
    (hfit : (own i).width + new.width ≤ c.seqLen) :
    ∃ m' c', microBatchStep p m c (own i).width (i * p.workingSlotBatchSize) batchSize new =
        .ok (if (own i).width = 0 then none else some (own i).rows, m', c') ∧
      Keeps p batchSize m' c' (Function.update own i (extend (own i) new)) ∧
      c'.seqLen = c.seqLen ∧ c'.batch = c.batch := by
  unfold Keeps at hk ⊢
  split at hk
  · next hB =>
    obtain ⟨m', c', hstep, hag, hseq, hbatch⟩ :=
      microBatchStep_spec hcap hB hk hi hnew hstart hfit
    exact ⟨m', c', hstep, by rw [hbatch, if_pos hB]; exact hag, hseq, hbatch⟩
  · next hB =>
    obtain ⟨c', hstep, hd, hseq, hbatch⟩ :=
      microBatchStep_direct (m := m) (not_lt.mp hB) hk hi hnew hstart hfit
    exact ⟨m, c', hstep, by rw [hbatch, if_neg hB]; exact hd, hseq, hbatch⟩

/-- Induction on the visits: the prefixes are the widths of the rows written so far. -/
theorem runVisits_of_keeps {p : Policy} {batchSize : ℕ} (vs : List (Visit κ)) :
    ∀ (m : Manager κ) (c : CacheTensor κ) (own : ℕ → Batch κ), p.Multiple c.batch →
      Keeps p batchSize m c own → OwnFits p batchSize c.seqLen own vs →
      ∃ m' c', runVisits p batchSize m c (fun i => (own i).width) vs =
        .ok (ownReads own vs, m', c') := by
  induction vs with
  | nil => intro m c own _ _ _; exact ⟨m, c, rfl⟩
  | cons v vs ih =>
    intro m c own hcap hk hfits
    obtain ⟨⟨hi, hnew, hstart, hfit⟩, hrest⟩ := hfits
    obtain ⟨m1, c1, hstep, hk1, hseq, hbatch⟩ := keeps_step hcap hk hi hnew hstart hfit
    rw [← hseq] at hrest
    rw [← hbatch] at hcap
    obtain ⟨m2, c2, hrun⟩ := ih m1 c1 _ hcap hk1 hrest
    have hprefix : Function.update (fun i => (own i).width) v.microBatch
        ((own v.microBatch).width + v.new.width) =
          fun i => (Function.update own v.microBatch (extend (own v.microBatch) v.new) i).width := by
      funext i
      by_cases hiv : i = v.microBatch
      · subst hiv; rw [Function.update_self, Function.update_self]; rfl
      · rw [Function.update_of_ne hiv, Function.update_of_ne hiv]
    refine ⟨m2, c2, ?_⟩
    simp only [runVisits, hstep, hprefix, hrun, bind, Except.bind]
    rfl

/-- In any order of micro-batch steps every step reads exactly the rows its micro-batch has
written. -/
theorem runVisits_reads_own_rows (p : Policy) (batchSize : ℕ) (c : CacheTensor κ)
    (hcap : p.Multiple c.batch) (vs : List (Visit κ))
    (hfits : OwnFits p batchSize c.seqLen (noRows p batchSize) vs) :
    ∃ m' c', runVisits p batchSize .init c (fun _ => 0) vs =
      .ok (ownReads (noRows p batchSize) vs, m', c') :=
  runVisits_of_keeps vs .init c (noRows p batchSize) hcap (keeps_noRows p batchSize c) hfits

/-- Three micro-batches, the last one short, take turns in one slot. -/
theorem runVisits_reads_own_rows_one_slot :
    let c : CacheTensor ℕ := ⟨7, 3, 2, fun _ _ => 0⟩
    let vs : List (Visit ℕ) :=
      [⟨0, ⟨1, [[1], [2]], by decide⟩⟩, ⟨1, ⟨1, [[3], [4]], by decide⟩⟩, ⟨2, ⟨2, [[5, 6]], by decide⟩⟩,
        ⟨0, ⟨1, [[7], [8]], by decide⟩⟩, ⟨2, ⟨1, [[9]], by decide⟩⟩, ⟨0, ⟨1, [[10], [11]], by decide⟩⟩]
    (∃ m' c', runVisits ⟨2, 1⟩ 5 .init c (fun _ => 0) vs =
      .ok (ownReads (noRows ⟨2, 1⟩ 5) vs, m', c')) ∧
    ownReads (noRows ⟨2, 1⟩ 5) vs =
      [none, none, none, some [[1], [2]], some [[5, 6]], some [[1, 7], [2, 8]]] :=
  ⟨runVisits_reads_own_rows ⟨2, 1⟩ 5 _ ⟨by decide, by decide⟩ _ (by decide), by decide⟩

/-! ### Micro-batch keys -/

/-- A micro-batch before the last one is numbered by its position. -/
theorem microBatchIndex_before_last {p : Policy} {batchSize m k : ℕ} (hm : 0 < m)
    (hk : k * m + m < batchSize) : p.microBatchIndex batchSize m k = k := by
  have hmin : min m (batchSize - k * m) = m := by omega
  have hdiv : k * m / m = k := Nat.mul_div_cancel _ hm
  rw [Policy.microBatchIndex, Policy.computeMicrobatchIndex, hmin, if_pos hm]
  split
  · rw [max_eq_right hm, hdiv]
  · next h =>
    -- not the tail, so the sizes are equal
    have hp : m = max 1 p.gpuBatchSize := by
      by_contra hne
      exact h ⟨hne, fun htail => by omega⟩
    rw [← hp, max_eq_right hm, hdiv]

/-- Micro-batches at least as large as the policy's are numbered by their position or
higher. -/
theorem le_microBatchIndex {p : Policy} {batchSize m k : ℕ} (hp : max 1 p.gpuBatchSize ≤ m)
    (hk : k * m < batchSize) : k ≤ p.microBatchIndex batchSize m k := by
  have hle : ∀ d, 0 < d → d ≤ m → k ≤ k * m / d := by
    intro d hd hdm
    rw [Nat.le_div_iff_mul_le hd]
    exact Nat.mul_le_mul_left k hdm
  rw [Policy.microBatchIndex, Policy.computeMicrobatchIndex,
    if_pos (show 0 < min m (batchSize - k * m) by omega)]
  split
  · exact hle _ (by omega) (by omega)
  · exact hle _ (by omega) (by omega)

/-- The last of several micro-batches smaller than the policy's has the index of an earlier
one. -/
theorem microBatchIndex_last_collides {p : Policy} {batchSize m : ℕ} (hm : 0 < m)
    (hp : m < p.gpuBatchSize) (hB : m < batchSize) :
    ∃ i j, i * m < batchSize ∧ j * m < batchSize ∧ i ≠ j ∧
      p.microBatchIndex batchSize m i = p.microBatchIndex batchSize m j := by
  have hn1 : 1 ≤ (batchSize - 1) / m := by
    rw [Nat.le_div_iff_mul_le hm]; omega
  have hn2 : (batchSize - 1) / m * m ≤ batchSize - 1 := Nat.div_mul_le_self _ _
  have hn3 : batchSize - 1 < (batchSize - 1) / m * m + m := by
    have := Nat.lt_div_mul_add hm (a := batchSize - 1)
    omega
  generalize (batchSize - 1) / m = n at hn1 hn2 hn3
  have hlast : p.microBatchIndex batchSize m n = n * m / p.gpuBatchSize := by
    rw [Policy.microBatchIndex, Policy.computeMicrobatchIndex,
      if_pos (show 0 < min m (batchSize - n * m) by omega), if_neg]
    · congr 1; omega
    · intro h
      exact h.2 ⟨by omega, by omega, by omega⟩
  have hq : n * m / p.gpuBatchSize < n := by
    rw [Nat.div_lt_iff_lt_mul (by omega)]
    exact Nat.mul_lt_mul_of_pos_left hp hn1
  have hqm : n * m / p.gpuBatchSize * m + m ≤ n * m := by
    rw [← Nat.succ_mul]
    exact Nat.mul_le_mul_right m hq
  refine ⟨n * m / p.gpuBatchSize, n, by omega, by omega, Nat.ne_of_lt hq, ?_⟩
  rw [hlast, microBatchIndex_before_last hm (by omega)]

/-- The micro-batches of a request have different keys exactly when they are not smaller than
the policy's or there is only one. -/
theorem microBatchIndex_injective_iff (p : Policy) (batchSize m : ℕ) (hm : 1 ≤ m) :
    (∀ i j, i * m < batchSize → j * m < batchSize →
      p.microBatchIndex batchSize m i = p.microBatchIndex batchSize m j → i = j) ↔
    p.gpuBatchSize ≤ m ∨ batchSize ≤ m := by
  constructor
  · intro hinj
    by_contra hcon
    push Not at hcon
    obtain ⟨i, j, hi, hj, hne, heq⟩ := microBatchIndex_last_collides hm hcon.1 hcon.2
    exact hne (hinj i j hi hj heq)
  · have hlt : p.gpuBatchSize ≤ m → ∀ i j, j * m < batchSize → i < j →
        p.microBatchIndex batchSize m i < p.microBatchIndex batchSize m j := by
      intro hp i j hj hij
      have hstep : i * m + m ≤ j * m := by
        rw [← Nat.succ_mul]; exact Nat.mul_le_mul_right m hij
      rw [microBatchIndex_before_last hm (by omega)]
      exact lt_of_lt_of_le hij (le_microBatchIndex (by omega) hj)
    rintro (hp | hB) i j hi hj heq
    · rcases Nat.lt_trichotomy i j with hij | hij | hij
      · exact absurd heq (Nat.ne_of_lt (hlt hp i j hj hij))
      · exact hij
      · exact absurd heq.symm (Nat.ne_of_lt (hlt hp j i hi hij))
    · have hzero : ∀ k, k * m < batchSize → k = 0 := by
        intro k hk
        by_contra hne
        have := Nat.le_mul_of_pos_left m (Nat.pos_of_ne_zero hne)
        omega
      rw [hzero i hi, hzero j hj]

theorem microBatchIndex_injective_iff_seven :
    1 ≤ 3 ∧ ((∀ i j, i * 3 < 7 → j * 3 < 7 →
      Policy.microBatchIndex ⟨2, 1⟩ 7 3 i = Policy.microBatchIndex ⟨2, 1⟩ 7 3 j → i = j) ↔
    2 ≤ 3 ∨ 7 ≤ 3) :=
  ⟨by decide, microBatchIndex_injective_iff ⟨2, 1⟩ 7 3 (by decide)⟩

/-- Two micro-batches of two rows under a policy of four share their staging buffer. -/
theorem microBatchIndex_shared :
    ¬ ∀ i j, i * 2 < 4 → j * 2 < 4 →
      Policy.microBatchIndex ⟨4, 1⟩ 4 2 i = Policy.microBatchIndex ⟨4, 1⟩ 4 2 j → i = j := by
  intro h
  exact absurd (h 0 1 (by decide) (by decide) (by decide)) (by decide)

/-! ### Sessions -/

section

variable {ι : Type} [DecidableEq ι] {p : Policy}

theorem run_cons_some {w w2 : World ι κ} {e : Event ι κ} {es : List (Event ι κ)}
    {rs : List (Reply ι κ)} (h : World.run p w (e :: es) = some (w2, rs)) :
    ∃ w1 rs1 rs2, w.step p e = some (w1, rs1) ∧ World.run p w1 es = some (w2, rs2) ∧
      rs = rs1 ++ rs2 := by
  rw [World.run] at h
  obtain ⟨⟨w1, rs1⟩, hstep, h⟩ := Option.bind_eq_some_iff.mp h
  obtain ⟨⟨w2', rs2⟩, hrun, h⟩ := Option.bind_eq_some_iff.mp h
  cases h
  exact ⟨w1, rs1, rs2, hstep, hrun, rfl⟩

/-- Induction on the events, with the world of session `s` alone beside the whole one. -/
theorem run_of_sees (s : ι) (es : List (Event ι κ)) :
    ∀ (w w' w2 : World ι κ) (rs : List (Reply ι κ)), Sees s w w' → w.Distinct →
      World.run p w es = some (w2, rs) → World.Along p (fun w e => e.Possible w) w es →
      World.Along p (fun w e => e.Undisturbed w) w es →
      ∃ w2', World.run p w' (es.filter fun e => e.session = some s) =
        some (w2', rs.filter fun r => r.1 = s) := by
  induction es with
  | nil =>
    intro w w' w2 rs _ _ hrun _ _
    cases hrun
    exact ⟨w', rfl⟩
  | cons e es ih =>
    intro w w' w2 rs hsees hd hrun hp hu
    obtain ⟨w1, rs1, rs2, hstep, hrest, rfl⟩ := run_cons_some hrun
    have hd1 := distinct_step hd hp.1 hstep
    by_cases he : e.session = some s
    · obtain ⟨w1', hstep', hsees1⟩ := sees_own hsees hu.1 he hstep
      obtain ⟨w2', hrun'⟩ := ih w1 w1' w2 rs2 hsees1 hd1 hrest (hp.2 _ hstep) (hu.2 _ hstep)
      have hall : rs1.filter (fun r => r.1 = s) = rs1 := by
        rw [List.filter_eq_self]
        intro r hr
        simpa using (step_touches he hstep).replies r hr
      refine ⟨w2', ?_⟩
      rw [List.filter_cons_of_pos (by simpa using he), List.filter_append, hall]
      simp only [World.run, hstep', hrun', Option.bind_eq_bind, Option.bind_some]
      rfl
    · obtain ⟨hsees1, hnone⟩ := sees_other hsees hd hu.1 he hstep
      obtain ⟨w2', hrun'⟩ := ih w1 w' w2 rs2 hsees1 hd1 hrest (hp.2 _ hstep) (hu.2 _ hstep)
      refine ⟨w2', ?_⟩
      rw [List.filter_cons_of_neg (by simpa using he), List.filter_append, hnone, List.nil_append]
      exact hrun'

/-- What `select_cache` gives a session is what it gives when no other session exists. -/
def Isolated (p : Policy) (es : List (Event ι κ)) (s : ι) : Prop :=
  (World.run p .init es).map (fun r => r.2.filter fun r => r.1 = s) =
    (World.run p .init (es.filter fun e => e.session = some s)).map Prod.snd

/-- Sessions are isolated in every run without a cleanup beside a live cache that has entries
and without an identity that still has some. -/
theorem run_isolated (p : Policy) (es : List (Event ι κ))
    (hrun : (World.run p .init es).isSome)
    (hp : World.Along p (fun w e => e.Possible w) .init es)
    (hu : World.Along p (fun w e => e.Undisturbed w) .init es) (s : ι) : Isolated p es s := by
  obtain ⟨⟨w, rs⟩, hrun⟩ := Option.isSome_iff_exists.mp hrun
  have hd : (World.init : World ι κ).Distinct := by rintro s s' c c' - ⟨⟩
  obtain ⟨w', hrun'⟩ := run_of_sees s es .init .init w rs (sees_init s) hd hrun hp hu
  rw [Isolated, hrun, hrun']
  rfl

end

theorem singleton_width (k : ℕ) : ∀ r ∈ [[k]], r.length = 1 := by
  intro r hr
  rw [List.mem_singleton.mp hr]
  rfl

def oneToken (s : Bool) (k offset batchSize : ℕ) : Event Bool ℕ :=
  .write s 0 offset batchSize 1 ⟨1, [[k]], singleton_width k⟩

/-- Both sessions stage two micro-batches, and the first one closes after the second. -/
def orderlyEvents : List (Event Bool ℕ) :=
  [.allocate true ⟨1, 2, 1, fun _ _ => 0⟩, oneToken true 10 0 2, oneToken true 20 1 2,
    .allocate false ⟨2, 2, 1, fun _ _ => 0⟩, oneToken false 30 0 2, oneToken false 40 1 2,
    .select true 1 0 2 1, .select false 1 0 2 1, .free false, .select true 1 1 2 1, .free true,
    .clearOffloadState]

theorem run_isolated_orderly :
    Isolated ⟨1, 1⟩ orderlyEvents true ∧
    (World.run ⟨1, 1⟩ .init orderlyEvents).map Prod.snd =
      some [(true, .ok (some [[10]])), (false, .ok (some [[30]])), (true, .ok (some [[20]]))] :=
  ⟨run_isolated ⟨1, 1⟩ orderlyEvents (by decide) (by decide) (by decide) true, rfl⟩

/-- The first session has two micro-batches staged when the cleanup of the second one runs. -/
def cleanupEvents : List (Event Bool ℕ) :=
  [.allocate true ⟨1, 2, 1, fun _ _ => 0⟩, .allocate false ⟨2, 2, 1, fun _ _ => 0⟩,
    oneToken true 10 0 2, oneToken true 20 1 2, .free false, .clearOffloadState,
    .select true 1 0 2 1]

/-- The second session gets the identity of the first one's freed tensor and is longer: its
snapshots do not fit the old staging buffers, and the old ones come back. -/
def reuseEvents : List (Event Bool ℕ) :=
  [.allocate true ⟨1, 1, 1, fun _ _ => 0⟩, oneToken true 10 0 2, oneToken true 20 1 2, .free true,
    .allocate false ⟨1, 3, 1, fun _ _ => 0⟩, .write false 0 0 2 1 ⟨2, [[30, 31]], by decide⟩,
    .write false 0 1 2 1 ⟨2, [[40, 41]], by decide⟩, .select false 2 0 2 1]

/-- Another session's cleanup, and an identity used again, change what a session reads. -/
theorem not_isolated :
    (World.Along ⟨1, 1⟩ (fun w e => e.Possible w) .init cleanupEvents ∧
      ¬ Isolated ⟨1, 1⟩ cleanupEvents true) ∧
    (World.Along ⟨1, 1⟩ (fun w e => e.Possible w) .init reuseEvents ∧
      ¬ Isolated ⟨1, 1⟩ reuseEvents false) := by
  refine ⟨⟨by decide, ?_⟩, by decide, ?_⟩
  · intro h
    exact absurd (congrArg (Option.map (List.map fun r => r.2.toOption)) h) (by decide)
  · intro h
    exact absurd (congrArg (Option.map (List.map fun r => r.2.toOption)) h) (by decide)

end BloomBee.KVMultiplex
