import BloomBee.Sanity.LengthGuard

/-! The maximum length of a session. A step that would end behind `max_length` is to raise before
it writes, and no write is to reach behind `max_length` or to be put elsewhere. A full-batch request
is checked against `prefix_length` and its tokens, a streamed micro-batch is not, and neither the
positions of live rows nor the slots of a tree are part of the check. `guard_holds` says that a
session keeps to its length as long as its items do where the check does not look. -/

set_option autoImplicit false

namespace BloomBee.LengthGuard

open RpcInference (Config Error Slab shouldSplitBatch computeMicroBatchRanges
  tiles_computeMicroBatchRanges)
open LiveDecode (InferenceInfo activeMaskList rowPositionList liveActiveMask cacheSlots
  selectPrefixLength_plain shouldSplitBatch_iff)
open BackendStep (ChunkConfig ChunkKvs OneChunk estimateMaxChunkLength estimateMaxChunkLength_pos
  oneChunk_iff_le runUncut_eq_some)
open Speculative (cacheLenOf extendIds maxNewLength)

variable {σ κ : Type}

/-- What a submission of `rows` rows writes ends at `max_length`: the rows that have a position of
their own, the others, and a tree where it is written and where it is compacted. -/
def Submission.Fits (cfg : Config) (rows width : ℕ) : Submission → Prop
  | .plain info =>
    info.prefixLength + width ≤ cfg.maxLength ∧
      ∀ mask positions, activeMaskList info.activeMask rows = some mask →
        rowPositionList info.prefillLength rows = some positions →
        ∀ position, (true, position) ∈ mask.zip positions → position + width ≤ cfg.maxLength
  | .tree _ _ ids hasMask =>
    hasMask = true → cacheLenOf ids + width ≤ cfg.maxLength ∧
      (cacheLenOf ids ≠ 0 →
        maxNewLength (cacheLenOf (extendIds ids (cacheLenOf ids) width))
          (extendIds ids (cacheLenOf ids) width) ≤ cfg.maxLength)

/-- When a cache with the slots of the session raises on a micro-batch that is too long for it. -/
def MicroBatchPush.TurnedAway (cfg : Config) (chunks : ℕ → ChunkConfig) (st : State σ κ)
    (m : MicroBatchPush σ κ) (p : Payload κ) : Prop :=
  m.isSpecDec = true ∨ cacheSlots cfg < st.start (.microBatch m) ∨
    (1 < p.width ∧ p.width < cacheSlots cfg ∧
      OneChunk (chunks 0) p.rows p.width (st.start (.microBatch m)) ∧
      ∀ mask, activeMaskList (m.rawMask.bind fun raw =>
        liveActiveMask raw m.batchOffset m.microBatchSize m.fullBatchSize) p.rows = some mask →
        true ∈ mask)

/-- The caches hold the full batch, and the rows of the item are among theirs. -/
def InCache (st : State σ κ) : Item σ κ → Prop
  | .full r => ∀ slab ∈ st.slabs, r.batchOffset + r.rows ≤ slab.batch
  | .microBatch m => ∀ p, m.payload = some p → ∀ slab ∈ st.slabs,
    m.fullBatchSize ≤ slab.batch ∧ m.offset + p.rows ≤ slab.batch
  | .expire _ => True

/-- Where the check does not look, the item keeps to the length of the session. -/
def Keeps (cfg : Config) (chunks : ℕ → ChunkConfig) (st : State σ κ) : Item σ κ → Prop
  | .full r =>
    cfg.maxLength < st.start (.full r) + r.tokenIncrement ∨ r.numel = 0 ∨
      ∀ s ∈ r.submissions cfg (st.start (.full r)), s.2.Fits cfg (s.1.2 - s.1.1) r.width
  | .microBatch m =>
    ∀ p, m.payload = some p →
      st.start (.microBatch m) + p.width ≤ cfg.maxLength ∨
        p.numel ≠ 0 ∧ m.TurnedAway cfg chunks st p
  | .expire _ => True

def Meets (cfg : Config) (chunks : ℕ → ChunkConfig) (st : State σ κ) (item : Item σ κ) : Prop :=
  InCache st item ∧ Keeps cfg chunks st item

/-- The step would end behind `max_length`. -/
def OverLong (cfg : Config) (st : State σ κ) : Item σ κ → Prop
  | .full r => cfg.maxLength < st.start (.full r) + r.tokenIncrement
  | .microBatch m => ∃ p, m.payload = some p ∧ cfg.maxLength < st.start (.microBatch m) + p.width
  | .expire _ => False

/-- A step that is too long raises before any write, and every write stays below `max_length`. -/
structure GuardHolds [DecidableEq σ] (cfg : Config) (chunks : ℕ → ChunkConfig) (zero : κ)
    (st : State σ κ) (item : Item σ κ) : Prop where
  raises : OverLong cfg st item → (process cfg chunks zero st item).Refused
  inRange : ∀ w ∈ (process cfg chunks zero st item).log, w.InRange cfg.maxLength

/-- The caches of a session: it has a block, and all caches have the slots of its length. -/
structure Caches (cfg : Config) (slabs : List (Slab κ)) : Prop where
  nonempty : slabs ≠ []
  slots : ∀ slab ∈ slabs, slab.seqLen = cacheSlots cfg

/-! ### Submissions -/

section

variable {cfg : Config} {zero : κ} {width rows : ℕ}

/-- What the loop leaves: for every row the tokens of a chunk, all of them for a tree. -/
theorem Submission.newKvs_spec (s : Submission) {computed : ChunkKvs κ rows width} {m : ℕ}
    {new : List (List κ)} (hm : 0 < m) (h : s.newKvs computed m = some new) :
    new.length = rows ∧ ∃ n ≤ width, (∀ kv ∈ new, kv.length = n) ∧
      ∀ prefixLength batchOffset ids hasMask,
        s = .tree prefixLength batchOffset ids hasMask → n = width := by
  cases s with
  | plain info =>
    obtain ⟨hlength, n, hn, hwidth⟩ := computed.newKvs_spec h
    exact ⟨hlength, n, hn, hwidth, fun _ _ _ _ heq => by cases heq⟩
  | tree prefixLength batchOffset ids hasMask =>
    obtain ⟨-, -, rfl⟩ := (runUncut_eq_some hm).mp h
    exact ⟨computed.chunk_length computed.chunk_whole, width, Nat.le_refl _,
      computed.chunk_width computed.chunk_whole, fun _ _ _ _ _ => rfl⟩

/-- A submission with the tokens of a chunk, all of them for a tree. -/
theorem onBlock_satisfies {s : Submission} {slab : Slab κ} {new : List (List κ)} {n : ℕ}
    (hslots : slab.seqLen = cacheSlots cfg) (hwidth : ∀ kv ∈ new, kv.length = n) (hn : n ≤ width)
    (htree : ∀ prefixLength batchOffset ids hasMask,
      s = .tree prefixLength batchOffset ids hasMask → n = width)
    (hfits : s.Fits cfg new.length width) :
    (s.onBlock zero width slab new).Satisfies (Write.InRange cfg.maxLength)
      (fun slab' => slab'.seqLen = cacheSlots cfg) := by
  cases s with
  | plain info =>
    refine logUpdate_satisfies hslots hwidth (by have := hfits.1; omega) ?_
    intro mask positions hmask hpositions position hmem
    have := hfits.2 mask positions hmask hpositions position hmem
    omega
  | tree prefixLength batchOffset ids hasMask =>
    rw [htree _ _ _ _ rfl] at hwidth
    rw [Submission.onBlock]
    generalize (if noIds ids = true then prefixLength else Speculative.selectLen ids) = window
    split_ifs with hwin hmask hrows
    · exact Logged.satisfies_fail _
    · exact Logged.satisfies_fail _
    · exact Logged.satisfies_fail _
    · obtain ⟨hfit, hcompact⟩ := hfits (by simpa using hmask)
      exact logReorder_satisfies zero hslots hwidth hfit hcompact

theorem slice_length {l : List (List κ)} {range : ℕ × ℕ} (h : range.2 ≤ l.length) :
    ((l.drop range.1).take (range.2 - range.1)).length = range.2 - range.1 := by
  rw [List.length_take, List.length_drop]
  omega

theorem runBlock_satisfies {s : Submission} {chunks : ChunkConfig} {range : ℕ × ℕ}
    {computed : ChunkKvs κ rows width} {slab : Slab κ} (hrange : range.2 ≤ rows)
    (hslots : slab.seqLen = cacheSlots cfg) (hfits : s.Fits cfg (range.2 - range.1) width) :
    (s.runBlock zero chunks range computed slab).Satisfies (Write.InRange cfg.maxLength)
      (fun slab' => slab'.seqLen = cacheSlots cfg) := by
  rw [Submission.runBlock]
  cases hest : estimateMaxChunkLength chunks (range.2 - range.1) width s.prefixLength with
  | none => exact Logged.satisfies_fail _
  | some m =>
    dsimp only
    split_ifs
    · exact Logged.satisfies_fail _
    · cases hnew : s.newKvs computed m with
      | none => exact Logged.satisfies_fail _
      | some new =>
        obtain ⟨hlength, n, hn, hwidth, htree⟩ :=
          s.newKvs_spec (estimateMaxChunkLength_pos hest).1 hnew
        have hslice : ((new.drop range.1).take (range.2 - range.1)).length =
            range.2 - range.1 := slice_length (by omega)
        exact onBlock_satisfies hslots
          (fun kv hkv => hwidth kv (List.mem_of_mem_drop (List.mem_of_mem_take hkv))) hn htree
          (by rw [hslice]; exact hfits)

theorem submit_satisfies {s : Submission} {range : ℕ × ℕ} (hrange : range.2 ≤ rows)
    (hfits : s.Fits cfg (range.2 - range.1) width) (slabs : List (Slab κ)) :
    ∀ {chunks : ℕ → ChunkConfig} {computed : ℕ → ChunkKvs κ rows width},
      (∀ slab ∈ slabs, slab.seqLen = cacheSlots cfg) →
      (submit zero s range chunks computed slabs).Satisfies (Write.InRange cfg.maxLength)
        (fun slabs' => slabs'.length = slabs.length ∧
          ∀ slab ∈ slabs', slab.seqLen = cacheSlots cfg) := by
  induction slabs with
  | nil => exact fun hslots => Logged.satisfies_pure ⟨rfl, hslots⟩
  | cons slab slabs ih =>
    intro chunks computed hslots
    rw [submit]
    refine (runBlock_satisfies hrange (hslots slab List.mem_cons_self) hfits).bind
      fun slab₁ hslab₁ => ?_
    have hrest := @ih (fun i => chunks (i + 1)) (fun i => computed (i + 1))
      (fun slab' h => hslots slab' (List.mem_cons_of_mem _ h))
    refine hrest.bind fun slabs₁ hslabs₁ => Logged.satisfies_pure ⟨?_, ?_⟩
    · rw [List.length_cons, List.length_cons, hslabs₁.1]
    · intro slab' h
      rcases List.mem_cons.mp h with rfl | h
      · exact hslab₁
      · exact hslabs₁.2 slab' h

theorem submitAll_satisfies {chunks : ℕ → ChunkConfig} {computed : ℕ → ChunkKvs κ rows width}
    (subs : List ((ℕ × ℕ) × Submission))
    (hsubs : ∀ s ∈ subs, s.1.2 ≤ rows ∧ s.2.Fits cfg (s.1.2 - s.1.1) width) :
    ∀ {slabs : List (Slab κ)}, Caches cfg slabs →
      (submitAll zero chunks computed subs slabs).Satisfies (Write.InRange cfg.maxLength)
        (Caches cfg) := by
  induction subs with
  | nil => exact fun h => Logged.satisfies_pure h
  | cons sub subs ih =>
    intro slabs h
    obtain ⟨range, s⟩ := sub
    obtain ⟨hrange, hfits⟩ := hsubs (range, s) List.mem_cons_self
    rw [submitAll]
    refine (submit_satisfies hrange hfits slabs h.slots).bind fun slabs₁ hslabs₁ => ?_
    refine ih (fun s hs => hsubs s (List.mem_cons_of_mem _ hs)) ⟨fun hnil => h.nonempty ?_,
      hslabs₁.2⟩
    rw [hnil] at hslabs₁
    exact List.eq_nil_of_length_eq_zero hslabs₁.1.symm

theorem submissions_bounds {prefixLength : ℕ} {r : FullBatch κ} {s : (ℕ × ℕ) × Submission}
    (hs : s ∈ r.submissions cfg prefixLength) : s.1.2 ≤ r.rows := by
  have hranges : shouldSplitBatch cfg r.rows = true →
      ∀ q ∈ computeMicroBatchRanges (cfg.microBatchSize.getD 0) r.rows, q.2 ≤ r.rows := by
    intro hsplit q hq
    obtain ⟨hpos, hlt⟩ := shouldSplitBatch_iff.mp hsplit
    exact ((tiles_computeMicroBatchRanges hpos (by omega)).1.mem hq).2.2
  rw [FullBatch.submissions] at hs
  cases hmode : r.mode with
  | decode rawMask prefillLength =>
    rw [hmode] at hs
    dsimp only at hs
    split_ifs at hs with hsplit
    · obtain ⟨q, hq, rfl⟩ := List.mem_map.mp hs
      exact hranges hsplit q hq
    · rw [List.mem_singleton] at hs
      rw [hs]
    · rw [List.mem_singleton] at hs
      rw [hs]
  | speculative ids hasMask aligned =>
    rw [hmode] at hs
    dsimp only at hs
    split_ifs at hs with hsplit
    · obtain ⟨q, hq, rfl⟩ := List.mem_map.mp hs
      exact hranges hsplit q hq
    · rw [List.mem_singleton] at hs
      rw [hs]

end

/-! ### Items -/

section

variable {cfg : Config} {chunks : ℕ → ChunkConfig} {zero : κ} {st : State σ κ}

theorem processFull_guard {r : FullBatch κ} (h : Caches cfg st.slabs)
    (hmeets : Meets cfg chunks st (.full r)) :
    (OverLong cfg st (.full r) → (processFull cfg chunks zero st r).Refused) ∧
      (processFull cfg chunks zero st r).Satisfies (Write.InRange cfg.maxLength)
        (fun st' => Caches cfg st'.slabs) := by
  rw [processFull]
  by_cases hlong : cfg.maxLength < st.start (.full r) + r.tokenIncrement
  · rw [if_pos hlong]
    exact ⟨fun _ => Logged.refused_fail _, Logged.satisfies_fail _⟩
  · rw [if_neg hlong]
    refine ⟨fun hover => absurd hover hlong, ?_⟩
    have hsubmit : (if r.numel = 0 then Logged.pure st.slabs
        else submitAll zero chunks r.computed (r.submissions cfg (st.start (.full r)))
          st.slabs : Logged Write Error (List (Slab κ))).Satisfies
          (Write.InRange cfg.maxLength) (Caches cfg) := by
      split_ifs with hnumel
      · exact Logged.satisfies_pure h
      · have hfits := (hmeets.2.resolve_left hlong).resolve_left hnumel
        exact submitAll_satisfies _ (fun s hs => ⟨submissions_bounds hs, hfits s hs⟩) h
    exact hsubmit.bind fun slabs hslabs => Logged.satisfies_pure hslabs

/-- A block that raises stops a submission before anything is written. -/
theorem submit_refused {s : Submission} {rows width : ℕ} {range : ℕ × ℕ}
    {computed : ℕ → ChunkKvs κ rows width} {slab : Slab κ} {slabs : List (Slab κ)}
    (h : (s.runBlock zero (chunks 0) range (computed 0) slab).Refused) :
    (submit zero s range chunks computed (slab :: slabs)).Refused := by
  rw [submit]
  exact h.bind _

theorem runBlock_refused {rows width : ℕ} {s : Submission} {chunks : ChunkConfig} {range : ℕ × ℕ}
    {computed : ChunkKvs κ rows width} {slab : Slab κ}
    (h : ∀ length new,
      estimateMaxChunkLength chunks (range.2 - range.1) width s.prefixLength = some length →
      s.window (range.2 - range.1) width ≤ slab.seqLen → s.newKvs computed length = some new →
      (s.onBlock zero width slab ((new.drop range.1).take (range.2 - range.1))).Refused) :
    (s.runBlock zero chunks range computed slab).Refused := by
  rw [Submission.runBlock]
  cases hest : estimateMaxChunkLength chunks (range.2 - range.1) width s.prefixLength with
  | none => exact Logged.refused_fail _
  | some length =>
    dsimp only
    split_ifs with hwin
    · exact Logged.refused_fail _
    · cases hnew : s.newKvs computed length with
      | none => exact Logged.refused_fail _
      | some new => exact h length new hest (Nat.le_of_not_lt hwin) hnew

/-- A block raises on a tree without a mask. -/
theorem onBlock_tree_refused {prefixLength batchOffset width : ℕ} {ids : List (List ℤ)}
    {slab : Slab κ} {new : List (List κ)} :
    (Submission.onBlock zero (.tree prefixLength batchOffset ids false) width slab
      new).Refused := by
  rw [Submission.onBlock]
  generalize (if noIds ids = true then prefixLength else Speculative.selectLen ids) = window
  split_ifs with hlow hmask
  · exact Logged.refused_fail _
  · exact Logged.refused_fail _
  · exact absurd rfl hmask
  · exact absurd rfl hmask

theorem runBlock_turnedAway {m : MicroBatchPush σ κ} {p : Payload κ} {slab : Slab κ}
    (hslots : slab.seqLen = cacheSlots cfg)
    (hlong : cfg.maxLength < st.start (.microBatch m) + p.width) (hnumel : p.numel ≠ 0)
    (haway : m.TurnedAway cfg chunks st p) :
    ((m.submission (st.start (.microBatch m))).runBlock zero (chunks 0) (0, p.rows)
      (p.computed 0) slab).Refused := by
  refine runBlock_refused fun length new hest hwin hnew => ?_
  simp only [Nat.sub_zero] at hest hwin ⊢
  cases hspec : m.isSpecDec with
  | true =>
    rw [MicroBatchPush.submission, hspec, if_pos rfl]
    exact onBlock_tree_refused
  | false =>
    have hplain : m.submission (st.start (.microBatch m)) =
        .plain ⟨st.start (.microBatch m), m.rawMask.bind fun mask =>
          liveActiveMask mask m.batchOffset m.microBatchSize m.fullBatchSize, none, m.offset⟩ := by
      rw [MicroBatchPush.submission, hspec, if_neg Bool.false_ne_true]
    rw [hplain] at hest hwin hnew ⊢
    rcases haway with h | h | ⟨hone, hlt, hchunk, hactive⟩
    · rw [hspec] at h
      cases h
    · rw [Submission.window, selectPrefixLength_plain (.inr rfl), hslots] at hwin
      exact absurd h (Nat.not_lt.mpr hwin)
    · obtain ⟨hrows, -⟩ := Nat.mul_ne_zero_iff.mp hnumel
      rw [Submission.newKvs, (p.computed 0).newKvs_single (by omega)
        ((oneChunk_iff_le hest).mp hchunk), Option.some.injEq] at hnew
      subst hnew
      have hlength := (p.computed 0).chunk_length (p.computed 0).chunk_whole
      have hall : (((p.computed 0).whole.drop 0).take p.rows) = (p.computed 0).whole := by
        rw [List.drop_zero, List.take_of_length_le (Nat.le_of_eq hlength)]
      rw [hall, Submission.onBlock]
      apply logUpdate_refused rfl ((p.computed 0).chunk_width (p.computed 0).chunk_whole)
      rw [hslots, hlength]
      refine .inr (.inr ⟨?_, ?_, hone, hlt, hactive⟩)
      · intro hnil
        rw [hnil] at hlength
        exact hrows hlength.symm
      · show cacheSlots cfg < st.start (.microBatch m) + p.width
        rw [cacheSlots] at hlt ⊢
        omega

variable [DecidableEq σ]

theorem accumulate_slabs (st : State σ κ) (m : MicroBatchPush σ κ) (tokenIncrement : ℕ) :
    (accumulate st m tokenIncrement).slabs = st.slabs := by
  rw [accumulate]
  split_ifs <;> rfl

theorem processMicroBatch_guard {m : MicroBatchPush σ κ} (h : Caches cfg st.slabs)
    (hmeets : Meets cfg chunks st (.microBatch m)) :
    (OverLong cfg st (.microBatch m) → (processMicroBatch chunks zero st m).Refused) ∧
      (processMicroBatch chunks zero st m).Satisfies (Write.InRange cfg.maxLength)
        (fun st' => Caches cfg st'.slabs) := by
  rw [processMicroBatch]
  cases hpayload : m.payload with
  | none =>
    refine ⟨fun hover => ?_, Logged.satisfies_pure h⟩
    obtain ⟨p, hp, -⟩ := hover
    rw [hpayload] at hp
    cases hp
  | some p =>
    by_cases hlong : cfg.maxLength < st.start (.microBatch m) + p.width
    · obtain ⟨hnumel, haway⟩ := (hmeets.2 p hpayload).resolve_left (Nat.not_le.mpr hlong)
      obtain ⟨slab, slabs, hslabs⟩ := List.exists_cons_of_ne_nil h.nonempty
      have hrefused : (submit zero (m.submission (st.start (.microBatch m))) (0, p.rows) chunks
          p.computed st.slabs).Refused := by
        rw [hslabs]
        apply submit_refused
        exact runBlock_turnedAway (h.slots slab (by rw [hslabs]; exact List.mem_cons_self)) hlong
          hnumel haway
      dsimp only
      rw [if_neg hnumel]
      exact ⟨fun _ => hrefused.bind _, (hrefused.bind _).satisfies⟩
    · refine ⟨fun ⟨p', hp', hlong'⟩ => ?_, ?_⟩
      · rw [hpayload] at hp'
        cases hp'
        exact absurd hlong' hlong
      · have hfits : (m.submission (st.start (.microBatch m))).Fits cfg (p.rows - 0) p.width := by
          rw [MicroBatchPush.submission]
          split_ifs
          · exact fun hmask => by cases hmask
          · exact ⟨Nat.not_lt.mp hlong, fun mask positions _ hpositions => by cases hpositions⟩
        have hsubmit : (if p.numel = 0 then Logged.pure st.slabs
            else submit zero (m.submission (st.start (.microBatch m))) (0, p.rows) chunks
              p.computed st.slabs : Logged Write Error (List (Slab κ))).Satisfies
              (Write.InRange cfg.maxLength)
              (fun slabs => slabs.length = st.slabs.length ∧
                ∀ slab ∈ slabs, slab.seqLen = cacheSlots cfg) := by
          split_ifs
          · exact Logged.satisfies_pure ⟨rfl, h.slots⟩
          · exact submit_satisfies (Nat.le_refl _) hfits st.slabs h.slots
        refine hsubmit.bind fun slabs hslabs => Logged.satisfies_pure ?_
        rw [accumulate_slabs]
        refine ⟨fun hnil => h.nonempty ?_, hslabs.2⟩
        have hlength := hslabs.1
        rw [show slabs = [] from hnil] at hlength
        exact List.eq_nil_of_length_eq_zero hlength.symm

/-- One item: the guard holds for it, and the caches keep their slots. -/
theorem process_guard {item : Item σ κ} (h : Caches cfg st.slabs)
    (hmeets : Meets cfg chunks st item) :
    GuardHolds cfg chunks zero st item ∧
      ∀ st', (process cfg chunks zero st item).result = .ok st' → Caches cfg st'.slabs := by
  cases item with
  | full r =>
    obtain ⟨hraises, hsatisfies⟩ := @processFull_guard σ κ cfg chunks zero st r h hmeets
    exact ⟨⟨hraises, hsatisfies.entry⟩, hsatisfies.value⟩
  | microBatch m =>
    obtain ⟨hraises, hsatisfies⟩ := @processMicroBatch_guard σ κ cfg chunks zero st _ m h hmeets
    exact ⟨⟨hraises, hsatisfies.entry⟩, hsatisfies.value⟩
  | expire stepId =>
    refine ⟨⟨fun hover => hover.elim, fun w hw => by cases hw⟩, fun st' hst' => ?_⟩
    cases hst'
    exact h

/-- The length of a session. In every run whose items meet the condition, for every item that is
reached: if `prefix_length` and the tokens of the step exceed `max_length` it raises before any
write, and all it writes is below `max_length` and at the position it is for. -/
theorem guard_holds {items : List (Item σ κ)} (hst : Caches cfg st.slabs)
    (hmeets : ∀ p ∈ reached cfg chunks zero st items, Meets cfg chunks p.1 p.2) :
    ∀ p ∈ reached cfg chunks zero st items, GuardHolds cfg chunks zero p.1 p.2 := by
  induction items generalizing st with
  | nil =>
    intro p hp
    cases hp
  | cons item items ih =>
    obtain ⟨hguard, hcaches⟩ := @process_guard σ κ cfg chunks zero st _ item hst
      (hmeets (st, item) List.mem_cons_self)
    intro p hp
    rw [reached] at hp hmeets
    rcases List.mem_cons.mp hp with rfl | hp
    · exact hguard
    · cases hresult : (process cfg chunks zero st item).result with
      | error e =>
        rw [hresult] at hp
        cases hp
      | ok st' =>
        rw [hresult] at hp hmeets
        exact ih (hcaches st' hresult) (fun q hq => hmeets q (List.mem_cons_of_mem _ hq)) p hp

end

/-! ### A session of two positions -/

def twoSlots : Slab ℕ where
  seqLen := 2
  batch := 1
  row := fun _ => [0, 0]
  row_length := fun _ => rfl

theorem oneRow_width (tokens : List ℕ) : ∀ kv ∈ [tokens], kv.length = tokens.length := by
  intro kv hkv
  rw [List.mem_singleton.mp hkv]

def oneRow (tokens : List ℕ) : Payload ℕ where
  rows := 1
  width := tokens.length
  computed := fun _ => .uncut [tokens] rfl (oneRow_width tokens)

def oneRequest (startFromPosition : Option ℕ) (tokens : List ℕ) : Item Unit ℕ :=
  .full { oneRow tokens with
    startFromPosition
    batchOffset := 0
    mode := .decode none none }

def onePush (startFromPosition : Option ℕ) (tokens : List ℕ) : Item Unit ℕ :=
  .microBatch {
    stepId := ()
    mbIdx := 0
    expectedNumMb := 1
    offset := 0
    fullBatchSize := 1
    startFromPosition
    rawMask := none
    batchOffset := 0
    microBatchSize := 1
    isSpecDec := false
    payload := some (oneRow tokens) }

def opened : State Unit ℕ := ⟨0, [twoSlots], ∅⟩

theorem opened_caches : Caches ⟨2, none⟩ opened.slabs where
  nonempty := List.cons_ne_nil _ _
  slots := by
    intro slab hslab
    rw [List.mem_singleton.mp hslab]
    rfl

def roomy : ℕ → ChunkConfig := fun _ => ⟨1, 1, 64⟩

/-- A request and a micro-batch fill the session, and the request after them raises. -/
theorem guard_holds_filled :
    (reached ⟨2, none⟩ roomy 0 opened
      [oneRequest (some 0) [1], onePush (some 1) [2], oneRequest (some 2) [3]]).length = 3 ∧
    ∀ p ∈ reached ⟨2, none⟩ roomy 0 opened
      [oneRequest (some 0) [1], onePush (some 1) [2], oneRequest (some 2) [3]],
      GuardHolds ⟨2, none⟩ roomy 0 p.1 p.2 := by
  refine ⟨rfl, guard_holds opened_caches ?_⟩
  obtain ⟨st₁, st₂, hreached, hst₁, hst₂⟩ : ∃ st₁ st₂ : State Unit ℕ,
      reached ⟨2, none⟩ roomy 0 opened
        [oneRequest (some 0) [1], onePush (some 1) [2], oneRequest (some 2) [3]] =
        [(opened, oneRequest (some 0) [1]), (st₁, onePush (some 1) [2]),
          (st₂, oneRequest (some 2) [3])] ∧
      st₁.slabs.map Slab.batch = [1] ∧ st₂.slabs.map Slab.batch = [1] :=
    ⟨_, _, rfl, rfl, rfl⟩
  have hbatch : ∀ st : State Unit ℕ, st.slabs.map Slab.batch = [1] →
      ∀ slab ∈ st.slabs, slab.batch = 1 := by
    intro st hst slab hslab
    exact List.mem_singleton.mp (hst ▸ List.mem_map_of_mem hslab)
  rw [hreached]
  intro p hp
  simp only [List.mem_cons, List.not_mem_nil, or_false] at hp
  rcases hp with rfl | rfl | rfl
  · refine ⟨fun slab hslab => ?_, .inr (.inr fun s hs => ?_)⟩
    · rw [hbatch opened rfl slab hslab]
      exact Nat.le_refl 1
    · rw [List.mem_singleton.mp hs]
      exact ⟨show 0 + 1 ≤ 2 by decide, fun mask positions hmask => by cases hmask⟩
  · refine ⟨fun p hp slab hslab => ?_, fun p hp => ?_⟩ <;> cases hp
    · rw [hbatch st₁ hst₁ slab hslab]
      exact ⟨Nat.le_refl 1, Nat.le_refl 1⟩
    · exact .inl (show 1 + 1 ≤ 2 by decide)
  · refine ⟨fun slab hslab => ?_, .inl (show 2 < 2 + 1 by decide)⟩
    rw [hbatch st₂ hst₂ slab hslab]
    exact Nat.le_refl 1

/-- A micro-batch behind the end of the session raises nothing, and its token lands on the first
slots of the row. -/
theorem guard_missed_microBatch :
    Caches ⟨2, none⟩ opened.slabs ∧
    ∃ p ∈ reached ⟨2, none⟩ roomy 0 opened [oneRequest none [1, 2], onePush none [3]],
      OverLong ⟨2, none⟩ p.1 p.2 ∧ (process ⟨2, none⟩ roomy 0 p.1 p.2).log = [⟨2, 1, 0⟩] ∧
        ¬GuardHolds ⟨2, none⟩ roomy 0 p.1 p.2 := by
  refine ⟨opened_caches, (_, onePush none [3]),
    List.mem_cons_of_mem _ List.mem_cons_self, ⟨oneRow [3], rfl, by decide⟩, rfl, fun h => ?_⟩
  exact absurd (h.inRange ⟨2, 1, 0⟩ List.mem_cons_self) (by decide)

end BloomBee.LengthGuard
