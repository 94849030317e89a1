import BloomBee.Lib.Dict
import BloomBee.Sanity.InferenceSteps
import BloomBee.Sanity.RpcSlices
import Mathlib.Data.Finset.Card
import Mathlib.Data.Finset.Range

/-! Streaming a step as micro-batches against sending it whole. The micro-batches of a step
may be cut anywhere and arrive in any order; while the step fits the session, the response,
the caches and the next prefix length are those of the full-batch request. -/

set_option autoImplicit false

namespace BloomBee.RpcInference

variable {σ τ κ : Type}

structure Step (σ τ : Type) where
  stepId : σ
  startFromPosition : Option ℕ
  hidden : Batch τ
  keepIndices : Batch ℤ
  keep_rows : keepIndices.rows.length = hidden.rows.length

def Step.full (s : Step σ τ) : Item σ τ :=
  .full ⟨s.stepId, s.startFromPosition, 0, s.hidden, s.keepIndices⟩

def rangeOf (ranges : List (ℕ × ℕ)) (j : ℕ) : ℕ × ℕ := ranges.getD j (0, 0)

def Step.microBatch (s : Step σ τ) (ranges : List (ℕ × ℕ)) (j : ℕ) : MicroBatch σ τ :=
  let r := rangeOf ranges j
  ⟨s.stepId, j, ranges.length, r.1, s.startFromPosition,
    some (s.hidden.slice r.1 r.2, s.keepIndices.slice r.1 r.2)⟩

/-- A turn of the loop, or a sweep of stale accumulators before it. -/
inductive Turn (σ τ : Type) where
  | item (i : Item σ τ)
  | sweep (stepId : σ)

def Turn.item? : Turn σ τ → Option (Item σ τ)
  | .item i => some i
  | .sweep _ => none

/-- The step arrives as micro-batches: its rows are cut into consecutive ranges, all of them
come in some order, and its accumulator is not swept between them. -/
def Streams (s : Step σ τ) (turns : List (Turn σ τ)) : Prop :=
  ∃ ranges, ranges ≠ [] ∧ Tiles 0 s.hidden.rows.length ranges ∧
    (turns.filterMap Turn.item?).Perm
      ((List.range ranges.length).map fun j => .microBatch (s.microBatch ranges j)) ∧
    .sweep s.stepId ∉ turns

def Step.position (s : Step σ τ) (st : State σ τ κ) : ℕ := s.startFromPosition.getD st.prefixLength

def Step.response (s : Step σ τ) (bs : List (Backend τ κ)) (prefixLength : ℕ) : Response σ τ :=
  ⟨s.stepId, outBatch bs prefixLength 0 s.hidden, outKeep bs.length s.hidden s.keepIndices⟩

def Step.after (s : Step σ τ) (bs : List (Backend τ κ)) (prefixLength : ℕ) :
    List (Backend τ κ) :=
  passRows prefixLength bs (rowsIn s.hidden [(0, s.hidden.rows.length)])

theorem rangeOf_eq {ranges : List (ℕ × ℕ)} {j : ℕ} (h : j < ranges.length) :
    rangeOf ranges j = ranges[j] := by
  simp [rangeOf, h]

theorem rangeOf_mem {ranges : List (ℕ × ℕ)} {j : ℕ} (h : j < ranges.length) :
    rangeOf ranges j ∈ ranges := by
  rw [rangeOf_eq h]
  exact List.getElem_mem h

theorem map_rangeOf {γ : Type} (ranges : List (ℕ × ℕ)) (f : ℕ × ℕ → γ) :
    ((List.range ranges.length).map fun j => f (rangeOf ranges j)) = ranges.map f := by
  refine List.ext_getElem (by simp) fun i h₁ h₂ => ?_
  simp only [List.length_map, List.length_range] at h₁
  simp [rangeOf, h₁]

theorem rangeOf_disjoint {ranges : List (ℕ × ℕ)} {a c i j : ℕ} (ht : Tiles a c ranges)
    (hi : i < ranges.length) (hj : j < ranges.length) (hne : i ≠ j) :
    (rangeOf ranges i).2 ≤ (rangeOf ranges j).1 ∨ (rangeOf ranges j).2 ≤ (rangeOf ranges i).1 := by
  have hp := List.pairwise_iff_getElem.mp ht.pairwise
  rw [rangeOf_eq hi, rangeOf_eq hj]
  rcases Nat.lt_or_gt_of_ne hne with h | h
  · exact .inl (hp i j hi hj h)
  · exact .inr (hp j i hj hi h)

def Collected (s : Step σ τ) (ranges : List (ℕ × ℕ)) (bs : List (Backend τ κ))
    (prefixLength : ℕ) (done : List ℕ) (a : Accum τ) : Prop :=
  a.expected = ranges.length ∧ a.tokenIncrement = s.hidden.width ∧
    a.results.keys.toFinset = done.toFinset ∧
    ∀ j ∈ done, a.results.lookup j =
      some (sliceResult bs prefixLength s.hidden s.keepIndices (rangeOf ranges j))

theorem Collected.add {s : Step σ τ} {ranges : List (ℕ × ℕ)} {bs : List (Backend τ κ)}
    {prefixLength j : ℕ} {done : List ℕ} {a : Accum τ}
    (h : Collected s ranges bs prefixLength done a) :
    Collected s ranges bs prefixLength (j :: done) (a.add j s.hidden.width
      (sliceResult bs prefixLength s.hidden s.keepIndices (rangeOf ranges j))) := by
  obtain ⟨he, htok, hkeys, hlook⟩ := h
  refine ⟨he, by simp [Accum.add, htok], ?_, ?_⟩
  · simp only [Accum.add]
    rw [Dict.keys_insert_toFinset, hkeys, List.toFinset_cons]
  · intro i hi
    simp only [Accum.add]
    rw [Dict.lookup_insert_eq]
    split_ifs with hij
    · rw [hij]
    · exact hlook i ((List.mem_cons.mp hi).resolve_left hij)

theorem Collected.length {s : Step σ τ} {ranges : List (ℕ × ℕ)} {bs : List (Backend τ κ)}
    {prefixLength : ℕ} {done : List ℕ} {a : Accum τ}
    (h : Collected s ranges bs prefixLength done a) (hd : done.Nodup) :
    a.results.keys.length = done.length := by
  rw [← List.toFinset_card_of_nodup a.results.keys_nodup, h.2.2.1,
    List.toFinset_card_of_nodup hd]

/-- The batch that a turn submits, of a micro-batch with a tensor. -/
def Turn.batch? : Turn σ τ → Option (Batch τ)
  | .item (.microBatch m) => m.payload.map Prod.fst
  | _ => none

def Step.parts (cfg : Config) (s : Step σ τ) : List (Batch τ) :=
  (submittedRanges cfg s.hidden.rows.length).map fun r => s.hidden.slice r.1 r.2

/-- Every step fits between its position and the maximum length of the session, and every batch
that it submits, whole or streamed, runs in a single chunk. -/
def Fit (cfg : Config) (bs : List (Backend τ κ)) : ℕ → List (Step σ τ × List (Turn σ τ)) → Prop
  | _, [] => True
  | prefixLength, (s, turns) :: steps =>
    let position := s.startFromPosition.getD prefixLength
    position + s.hidden.width ≤ cfg.maxLength ∧
      (∀ b ∈ s.parts cfg ++ turns.filterMap Turn.batch?, SingleChunk bs position b) ∧
      Fit cfg bs (position + s.hidden.width) steps

theorem Fit.of_chunkConfig {cfg : Config} {bs bs' : List (Backend τ κ)} {prefixLength : ℕ}
    {steps : List (Step σ τ × List (Turn σ τ))} (h : Fit cfg bs prefixLength steps)
    (heq : bs'.map Backend.chunkConfig = bs.map Backend.chunkConfig) :
    Fit cfg bs' prefixLength steps := by
  induction steps generalizing prefixLength with
  | nil => trivial
  | cons x steps ih => exact ⟨h.1, fun b hb => (h.2.1 b hb).of_chunkConfig heq, ih h.2.2⟩

/-- The caches of the session: as many slots as its maximum length, rows for every step. -/
def CachesHold (maxLength : ℕ) (bs : List (Backend τ κ)) (steps : List (Step σ τ)) : Prop :=
  ∀ B ∈ bs, B.slab.seqLen = maxLength ∧ ∀ s ∈ steps, s.hidden.rows.length ≤ B.slab.batch

theorem after_cachesHold {maxLength prefixLength : ℕ} {bs : List (Backend τ κ)} {s : Step σ τ}
    {steps : List (Step σ τ)} (h : CachesHold maxLength bs steps) :
    CachesHold maxLength (s.after bs prefixLength) steps := by
  rw [Step.after]
  generalize rowsIn s.hidden _ = rows
  induction bs generalizing rows with
  | nil => exact h
  | cons B bs ih =>
    intro B' hB'
    rcases List.mem_cons.mp hB' with rfl | hB'
    · exact h B List.mem_cons_self
    · exact ih (fun B hB => h B (List.mem_cons_of_mem _ hB)) _ B' hB'

variable [Inhabited τ]

/-- A complete accumulator merges to the response of the whole step. -/
theorem Collected.merge {s : Step σ τ} {ranges : List (ℕ × ℕ)} {bs : List (Backend τ κ)}
    {prefixLength : ℕ} {done : List ℕ} {a : Accum τ}
    (h : Collected s ranges bs prefixLength done a)
    (ht : Tiles 0 s.hidden.rows.length ranges) (hne : ranges ≠ [])
    (hall : done.Perm (List.range ranges.length)) :
    a.merge s.stepId = s.response bs prefixLength := by
  obtain ⟨-, -, hkeys, hlook⟩ := h
  have hperm : a.results.keys.Perm (List.range ranges.length) := by
    refine (List.perm_of_nodup_nodup_toFinset_eq a.results.keys_nodup ?_ hkeys).trans hall
    exact hall.nodup_iff.mpr List.nodup_range
  have hsort : (a.results.keys.mergeSort fun i j => i ≤ j) = List.range ranges.length := by
    refine List.Perm.eq_of_pairwise (fun i j _ _ h₁ h₂ => Nat.le_antisymm h₁ h₂) ?_
      List.pairwise_le_range ((List.mergeSort_perm _ _).trans hperm)
    refine (List.pairwise_mergeSort ?_ ?_ _).imp (by simp)
    · simpa using fun a b c => Nat.le_trans
    · simpa using Nat.le_total
  have hres : (List.range ranges.length).filterMap a.results.lookup =
      ranges.map (sliceResult bs prefixLength s.hidden s.keepIndices) := by
    rw [← map_rangeOf, ← List.filterMap_eq_map']
    refine List.filterMap_congr fun j hj => ?_
    exact hlook j (hall.mem_iff.mpr hj)
  have hout : Tiles 0 (outBatch bs prefixLength 0 s.hidden).rows.length ranges := by
    simpa [outBatch] using ht
  simp only [Accum.merge, hsort, hres, List.map_map, Step.response]
  congr 1
  · exact merge_slices hout hne
  · exact merge_keep s.keep_rows ht hne

variable [DecidableEq σ]

def runTurns (cfg : Config) (st : State σ τ κ) :
    List (Turn σ τ) → Except Error (State σ τ κ × List (Response σ τ))
  | [] => .ok (st, [])
  | .sweep t :: turns => runTurns cfg (expire st t) turns
  | .item i :: turns => do
    let (st, response) ← process cfg st i
    let (st, responses) ← runTurns cfg st turns
    return (st, response.toList ++ responses)

theorem process_full {cfg : Config} {st : State σ τ κ} {s : Step σ τ}
    (hroom : Roomy st.backends (s.position st + s.hidden.width) s.hidden.rows.length)
    (hone : ∀ b ∈ s.parts cfg, SingleChunk st.backends (s.position st) b)
    (hfit : s.position st + s.hidden.width ≤ cfg.maxLength) :
    process cfg st s.full =
      .ok ({ st with
          prefixLength := s.position st + s.hidden.width
          backends := s.after st.backends (s.position st) },
        some (s.response st.backends (s.position st))) := by
  set r : FullRequest σ τ := ⟨s.stepId, s.startFromPosition, 0, s.hidden, s.keepIndices⟩ with hr
  have hcomp : computeFull cfg st.backends (s.position st) r = _ :=
    computeFull_of_fits hroom (fun q hq => hone _ (List.mem_map_of_mem hq)) s.keep_rows rfl
  have hpos : r.startFromPosition.getD st.prefixLength = s.position st := rfl
  have hw : r.hidden.width = s.hidden.width := rfl
  rw [show process cfg st s.full = processFull cfg st r from rfl, processFull]
  simp only [hpos, hw, hcomp, gt_iff_lt, Nat.not_lt.mpr hfit, if_false, bind, Except.bind, pure,
    Except.pure]
  rfl

/-- In the middle of a step that began with the backends `bs` at `prefixLength`. -/
structure Midway (s : Step σ τ) (ranges : List (ℕ × ℕ)) (bs : List (Backend τ κ))
    (prefixLength : ℕ) (done : List ℕ) (st : State σ τ κ) : Prop where
  position : s.position st = prefixLength
  backends : st.backends =
    passRows prefixLength bs (rowsIn s.hidden (done.map (rangeOf ranges)))
  accum : (done = [] ∧ st.accums.lookup s.stepId = none) ∨
    ∃ a, st.accums.lookup s.stepId = some a ∧ Collected s ranges bs prefixLength done a

omit [Inhabited τ] in
theorem lookup_expire_none {st : State σ τ κ} {t u : σ} (h : st.accums.lookup u = none) :
    (expire st t).accums.lookup u = none := by
  simp only [expire]
  by_cases htu : u = t
  · rw [htu]
    exact AList.lookup_erase _ _
  · rw [AList.lookup_erase_ne htu]
    exact h

omit [Inhabited τ] in
/-- A sweep of another step. -/
theorem Midway.expire {s : Step σ τ} {ranges : List (ℕ × ℕ)} {bs : List (Backend τ κ)}
    {prefixLength : ℕ} {done : List ℕ} {st : State σ τ κ} {t : σ}
    (h : Midway s ranges bs prefixLength done st) (hne : s.stepId ≠ t) :
    Midway s ranges bs prefixLength done (expire st t) where
  position := h.position
  backends := h.backends
  accum := by simpa only [RpcInference.expire, AList.lookup_erase_ne hne] using h.accum

omit [Inhabited τ] in
/-- The accumulator with one more result. -/
theorem Midway.collected {s : Step σ τ} {ranges : List (ℕ × ℕ)} {bs : List (Backend τ κ)}
    {prefixLength j : ℕ} {done : List ℕ} {st : State σ τ κ}
    (h : Midway s ranges bs prefixLength done st) :
    Collected s ranges bs prefixLength (j :: done)
      (((st.accums.lookup s.stepId).getD ⟨ranges.length, ∅, s.hidden.width⟩).add j s.hidden.width
        (sliceResult bs prefixLength s.hidden s.keepIndices (rangeOf ranges j))) := by
  rcases h.accum with ⟨rfl, hnone⟩ | ⟨a₀, hsome, hcol⟩
  · rw [hnone, Option.getD_none]
    exact Collected.add ⟨rfl, rfl, rfl, by simp⟩
  · rw [hsome, Option.getD_some]
    exact hcol.add

theorem perm_range_of_le {k : ℕ} {l : List ℕ} (hl : l.Nodup) (hlt : ∀ i ∈ l, i < k)
    (hk : k ≤ l.length) : l.Perm (List.range k) := by
  have hsub : l.toFinset ⊆ Finset.range k := by
    intro i hi
    exact Finset.mem_range.mpr (hlt i (List.mem_toFinset.mp hi))
  have heq : l.toFinset = Finset.range k := by
    refine Finset.eq_of_subset_of_card_le hsub ?_
    rwa [Finset.card_range, List.toFinset_card_of_nodup hl]
  refine (List.perm_ext_iff_of_nodup hl List.nodup_range).mpr fun i => ?_
  rw [← List.mem_toFinset, heq, Finset.mem_range, List.mem_range]

/-- One more micro-batch: the step goes on, or it is complete. -/
theorem process_midway (cfg : Config) {s : Step σ τ} {ranges : List (ℕ × ℕ)}
    {bs : List (Backend τ κ)} {prefixLength j : ℕ} {done : List ℕ} {st : State σ τ κ}
    (hmid : Midway s ranges bs prefixLength done st)
    (hroom : Roomy bs (prefixLength + s.hidden.width) s.hidden.rows.length)
    (hone : SingleChunk bs prefixLength
      (s.hidden.slice (rangeOf ranges j).1 (rangeOf ranges j).2))
    (ht : Tiles 0 s.hidden.rows.length ranges) (hnd : (j :: done).Nodup)
    (hlt : ∀ i ∈ j :: done, i < ranges.length) :
    ∃ st' response, process cfg st (.microBatch (s.microBatch ranges j)) = .ok (st', response) ∧
      if done.length + 1 < ranges.length then
        response = none ∧ Midway s ranges bs prefixLength (j :: done) st'
      else response = some (s.response bs prefixLength) ∧
        st'.prefixLength = prefixLength + s.hidden.width ∧
        st'.backends = s.after bs prefixLength ∧ st'.accums.lookup s.stepId = none := by
  have hcollected := hmid.collected (j := j)
  obtain ⟨hpos, hbs, -⟩ := hmid
  obtain ⟨hj, hnd'⟩ := List.nodup_cons.mp hnd
  have hjlt := hlt j List.mem_cons_self
  obtain ⟨-, hle, hr⟩ := ht.mem (rangeOf_mem hjlt)
  have hdisj : ∀ q ∈ done.map (rangeOf ranges),
      (rangeOf ranges j).2 ≤ q.1 ∨ q.2 ≤ (rangeOf ranges j).1 := by
    intro q hq
    obtain ⟨i, hi, rfl⟩ := List.mem_map.mp hq
    exact rangeOf_disjoint ht hjlt (hlt i (List.mem_cons_of_mem _ hi)) fun h => hj (h ▸ hi)
  have hcomp := computeMicroBatch_slice hroom hone s.keep_rows hle hr hdisj
  rw [← hbs, ← List.map_cons] at hcomp
  set a := ((st.accums.lookup s.stepId).getD ⟨ranges.length, ∅, s.hidden.width⟩).add j
    s.hidden.width (sliceResult bs prefixLength s.hidden s.keepIndices (rangeOf ranges j)) with ha
  have hproc : process cfg st (.microBatch (s.microBatch ranges j)) =
      .ok (accumulate ⟨prefixLength, passRows prefixLength bs
        (rowsIn s.hidden ((j :: done).map (rangeOf ranges))), st.accums⟩ (s.microBatch ranges j)
        s.hidden.width (sliceResult bs prefixLength s.hidden s.keepIndices (rangeOf ranges j))) := by
    rw [show process cfg st (.microBatch (s.microBatch ranges j)) =
      processMicroBatch st (s.microBatch ranges j) from rfl, processMicroBatch]
    simp only [Step.microBatch]
    rw [show s.startFromPosition.getD st.prefixLength = prefixLength from hpos, hcomp]
    rfl
  have hlen := hcollected.length hnd
  simp only [accumulate] at hproc
  rw [show (s.microBatch ranges j).stepId = s.stepId from rfl,
    show (s.microBatch ranges j).expectedNumMb = ranges.length from rfl,
    show (s.microBatch ranges j).mbIdx = j from rfl, ← ha, hcollected.1, hlen,
    List.length_cons] at hproc
  by_cases hk : done.length + 1 < ranges.length
  · rw [if_neg (Nat.not_le.mpr hk)] at hproc
    refine ⟨_, _, hproc, ?_⟩
    rw [if_pos hk]
    refine ⟨rfl, ?_, rfl, .inr ⟨a, AList.lookup_insert _, hcollected⟩⟩
    simp only [Step.position] at hpos ⊢
    cases hs : s.startFromPosition with
    | none => rfl
    | some p => rw [hs] at hpos; exact hpos
  · rw [if_pos (Nat.not_lt.mp hk)] at hproc
    refine ⟨_, _, hproc, ?_⟩
    rw [if_neg hk]
    have hperm := perm_range_of_le hnd hlt (Nat.not_lt.mp hk)
    have hne : ranges ≠ [] := by
      rintro rfl
      exact absurd hjlt (Nat.not_lt_zero j)
    have hranges : ((j :: done).map (rangeOf ranges)).Perm ranges := by
      refine (hperm.map _).trans ?_
      rw [map_rangeOf ranges fun r => r, List.map_id']
    refine ⟨congrArg some (hcollected.merge ht hne hperm), ?_, ?_,
      AList.lookup_erase _ _⟩
    · rw [hcollected.2.1]
    · rw [Step.after, rowsIn_perm hranges, rowsIn_tiles ht]

theorem runTurns_sweeps (cfg : Config) {turns : List (Turn σ τ)}
    (h : turns.filterMap Turn.item? = []) (st : State σ τ κ) :
    ∃ accums, runTurns cfg st turns = .ok ({ st with accums }, []) ∧
      ∀ t, st.accums.lookup t = none → accums.lookup t = none := by
  induction turns generalizing st with
  | nil => exact ⟨st.accums, rfl, fun _ h => h⟩
  | cons turn turns ih =>
    cases turn with
    | item i => simp [Turn.item?] at h
    | sweep t =>
      obtain ⟨accums, hrun, hnone⟩ := ih (by simpa [Turn.item?] using h) (expire st t)
      exact ⟨accums, hrun, fun u hu => hnone u (lookup_expire_none hu)⟩

theorem runTurns_midway (cfg : Config) {s : Step σ τ} {ranges : List (ℕ × ℕ)}
    {bs : List (Backend τ κ)} {prefixLength : ℕ}
    (hroom : Roomy bs (prefixLength + s.hidden.width) s.hidden.rows.length)
    (ht : Tiles 0 s.hidden.rows.length ranges) {turns : List (Turn σ τ)}
    (hone : ∀ b ∈ turns.filterMap Turn.batch?, SingleChunk bs prefixLength b)
    (hsweep : .sweep s.stepId ∉ turns) {done rest : List ℕ} {st : State σ τ κ}
    (hmid : Midway s ranges bs prefixLength done st) (hrest : rest ≠ [])
    (hitems : (turns.filterMap Turn.item?).Perm
      (rest.map fun j => .microBatch (s.microBatch ranges j)))
    (hall : (done ++ rest).Perm (List.range ranges.length)) :
    ∃ accums, runTurns cfg st turns =
        .ok (⟨prefixLength + s.hidden.width, s.after bs prefixLength, accums⟩,
          [s.response bs prefixLength]) ∧
      ∀ t, t = s.stepId ∨ st.accums.lookup t = none → accums.lookup t = none := by
  induction turns generalizing st done rest with
  | nil =>
    rw [List.filterMap_nil] at hitems
    exact absurd (List.map_eq_nil_iff.mp hitems.symm.eq_nil) hrest
  | cons turn turns ih =>
    have hsweep' : .sweep s.stepId ∉ turns := fun h => hsweep (List.mem_cons_of_mem _ h)
    cases turn with
    | sweep t =>
      have hne : s.stepId ≠ t := by
        rintro rfl
        exact hsweep List.mem_cons_self
      obtain ⟨accums, hrun, hnone⟩ := ih hone hsweep' (hmid.expire hne) hrest hitems hall
      exact ⟨accums, hrun, fun u hu => hnone u (hu.imp_right lookup_expire_none)⟩
    | item i =>
      simp only [List.filterMap_cons, Turn.item?] at hitems
      obtain ⟨j, hj, rfl⟩ := List.mem_map.mp (hitems.mem_iff.mp List.mem_cons_self)
      simp only [List.filterMap_cons, Turn.batch?, Step.microBatch, Option.map_some] at hone
      -- take `j` out of the rest
      have hrest' : rest.Perm (j :: rest.erase j) := List.perm_cons_erase hj
      have hitems' : (turns.filterMap Turn.item?).Perm
          ((rest.erase j).map fun j => .microBatch (s.microBatch ranges j)) :=
        (hitems.trans (hrest'.map _)).cons_inv
      have hall' : (j :: done ++ rest.erase j).Perm (List.range ranges.length) :=
        List.perm_middle.symm.trans ((hrest'.symm.append_left done).trans hall)
      have hnd : (j :: done).Nodup :=
        (List.nodup_append.mp (hall'.nodup_iff.mpr List.nodup_range)).1
      have hlt : ∀ i ∈ j :: done, i < ranges.length := fun i hi =>
        List.mem_range.mp (hall'.mem_iff.mp (List.mem_append_left _ hi))
      have hlen : done.length + 1 + (rest.erase j).length = ranges.length := by
        have hl := hall'.length_eq
        simp only [List.cons_append, List.length_cons, List.length_append, List.length_range] at hl
        omega
      obtain ⟨st', response, hproc, hres⟩ := process_midway cfg hmid hroom
        (hone _ List.mem_cons_self) ht hnd hlt
      have hframe : ∀ t, t ≠ s.stepId → st.accums.lookup t = none → st'.accums.lookup t = none :=
        fun t hts ht => ((InferenceSteps.process_frame hproc).1 t hts).trans ht
      rw [runTurns, hproc]
      by_cases hlast : rest.erase j = []
      · -- the last micro-batch: only sweeps can follow
        rw [hlast, List.length_nil] at hlen
        rw [if_neg (by omega)] at hres
        obtain ⟨rfl, hpre, hbs, hown⟩ := hres
        rw [hlast, List.map_nil] at hitems'
        obtain ⟨accums, hrun, hnone⟩ := runTurns_sweeps cfg hitems'.eq_nil st'
        refine ⟨accums, ?_, ?_⟩
        · simp only [bind, Except.bind, hrun, pure, Except.pure, hpre, hbs, Option.toList_some,
            List.append_nil]
        · rintro t (rfl | ht')
          · exact hnone _ hown
          · by_cases hts : t = s.stepId
            · exact hnone t (hts ▸ hown)
            · exact hnone t (hframe t hts ht')
      · have hpos : 0 < (rest.erase j).length := List.length_pos_of_ne_nil hlast
        rw [if_pos (by omega)] at hres
        obtain ⟨rfl, hmid'⟩ := hres
        obtain ⟨accums, hrun, hnone⟩ := ih (fun b hb => hone b (List.mem_cons_of_mem _ hb))
          hsweep' hmid' hlast hitems' hall'
        refine ⟨accums, ?_, ?_⟩
        · simp only [bind, Except.bind, hrun, pure, Except.pure, Option.toList_none,
            List.nil_append]
        · rintro t (rfl | ht')
          · exact hnone _ (.inl rfl)
          · by_cases hts : t = s.stepId
            · exact hnone t (.inl hts)
            · exact hnone t (.inr (hframe t hts ht'))

theorem runTurns_streams (cfg : Config) {s : Step σ τ} {turns : List (Turn σ τ)}
    (h : Streams s turns) {st : State σ τ κ} (hacc : st.accums.lookup s.stepId = none)
    (hroom : Roomy st.backends (s.position st + s.hidden.width) s.hidden.rows.length)
    (hone : ∀ b ∈ turns.filterMap Turn.batch?, SingleChunk st.backends (s.position st) b) :
    ∃ accums, runTurns cfg st turns =
        .ok (⟨s.position st + s.hidden.width, s.after st.backends (s.position st), accums⟩,
          [s.response st.backends (s.position st)]) ∧
      ∀ t, st.accums.lookup t = none → accums.lookup t = none := by
  obtain ⟨ranges, hne, ht, hitems, hsweep⟩ := h
  have hmid : Midway s ranges st.backends (s.position st) [] st := by
    refine ⟨rfl, ?_, .inl ⟨rfl, hacc⟩⟩
    rw [List.map_nil, rowsIn_nil, passRows_none]
  have hrest : List.range ranges.length ≠ [] := by
    simpa using hne
  obtain ⟨accums, hrun, hnone⟩ := runTurns_midway cfg hroom ht hone hsweep hmid hrest hitems
    (.refl _)
  exact ⟨accums, hrun, fun t h => hnone t (.inr h)⟩

theorem runTurns_append {cfg : Config} {st st' : State σ τ κ} {turns turns' : List (Turn σ τ)}
    {responses : List (Response σ τ)} (h : runTurns cfg st turns = .ok (st', responses)) :
    runTurns cfg st (turns ++ turns') =
      (runTurns cfg st' turns').map fun x => (x.1, responses ++ x.2) := by
  induction turns generalizing st responses with
  | nil =>
    obtain ⟨rfl, rfl⟩ := Prod.mk.inj (Except.ok.inj h)
    cases hr : runTurns cfg st turns' <;> simp [Except.map, hr]
  | cons turn turns ih =>
    cases turn with
    | sweep t => exact ih h
    | item i =>
      rw [runTurns] at h
      rw [List.cons_append, runTurns]
      cases hp : process cfg st i with
      | error e => simp [hp, bind, Except.bind] at h
      | ok x =>
        simp only [hp, bind, Except.bind, pure, Except.pure] at h ⊢
        cases hr : runTurns cfg x.1 turns with
        | error e => simp [hr] at h
        | ok y =>
          simp only [hr, Except.ok.injEq, Prod.mk.injEq] at h
          obtain ⟨rfl, rfl⟩ := h
          rw [ih hr]
          cases runTurns cfg y.1 turns' <;> simp [Except.map]

section Example

open InferenceSteps (echoBackend)

def twoRows (stepId : ℕ) (xs : List ℕ) : Step ℕ ℕ where
  stepId := stepId
  startFromPosition := none
  hidden := ⟨xs.length, [xs, xs], by simp⟩
  keepIndices := ⟨0, [[], []], by simp⟩
  keep_rows := rfl

def rowByRow (s : Step ℕ ℕ) : List (Turn ℕ ℕ) :=
  [.item (.microBatch (s.microBatch [(0, 1), (1, 2)] 1)), .sweep (s.stepId + 1),
    .item (.microBatch (s.microBatch [(0, 1), (1, 2)] 0))]

theorem streams_rowByRow (stepId : ℕ) (xs : List ℕ) :
    Streams (twoRows stepId xs) (rowByRow (twoRows stepId xs)) := by
  refine ⟨[(0, 1), (1, 2)], by simp, .cons (Nat.zero_le 1) (.cons (Nat.le_succ 1) (.nil 2)), ?_, ?_⟩
  · exact List.Perm.swap _ _ _
  · simp [rowByRow]

end Example

end BloomBee.RpcInference
