import BloomBee.Sanity.PushPath

/-! The push path against the direct path, over chains of any length: which copies of a step
servers push on to each other, and when all of them make their receivers run as the requests
of the client do. -/

set_option autoImplicit false

namespace BloomBee.PushPath

open RpcInference

/-- The first request of a session has the tensors that a push with this layout takes by their
index. -/
def Indexed (layout : Option Layout) (first : List (Batch ℤ)) : Prop :=
  match layout with
  | some .decodeMinimalV2 => 3 ≤ first.length
  | some .specCompactV1 => 8 ≤ first.length
  | _ => True

namespace Step

variable (st : Step)

/-- The server `i` pushes a full batch in micro-batches, while it computes them. -/
def CrossStage (i : ℕ) : Prop := st.args.isSpecDec = false ∧ st.splits i = true

/-- The server `i` pushes the client's request on as a full batch. -/
def PushesFull (i : ℕ) : Prop :=
  ¬ st.CrossStage i ∧ isDummy st.args.prompts = true ∧
    Indexed (some (st.args.layout (st.prompts i))) (st.first i)

/-- The client's request to the server `j` is pushed on to the server `i` as a full batch. -/
inductive RelaysFull (j : ℕ) : ℕ → Prop where
  | here : RelaysFull j j
  | next {i : ℕ} (h : RelaysFull j i) (hop : st.Hop i) (hp : st.PushesFull i) : RelaysFull j (i + 1)

/-- Micro-batches reach the server `i`. -/
inductive MicroReach : ℕ → Prop where
  | split {i : ℕ} (hop : st.Hop i) (h : st.CrossStage i) : MicroReach (i + 1)
  | relay {i : ℕ} (hop : st.Hop i) (h : MicroReach i)
      (he : microbatchEnabled (st.stage i).config = true) : MicroReach (i + 1)

/-- A full batch that was merged from micro-batches reaches the server `i`. -/
inductive MergedReach : ℕ → Prop where
  | merge {i : ℕ} (hop : st.Hop i) (h : st.MicroReach i) : MergedReach (i + 1)
  | relay {i : ℕ} (hop : st.Hop i) (h : MergedReach i) (hc : ¬ st.CrossStage i) :
      MergedReach (i + 1)

/-- Every hop that something is pushed over agrees with the client: full batches that keep
their layout, micro-batches, and the full batches that are merged from them. -/
structure Agrees : Prop where
  full : ∀ i j, st.Hop i → st.RelaysFull j i → st.PushesFull i →
    st.PushAgrees i (some (st.args.layout (st.prompts i))) (st.fullBatchSize j)
  microBatches : ∀ i, st.MicroReach (i + 1) → st.MicroBatchesAgree i
  merged : ∀ i, st.MergedReach (i + 1) → st.PushAgrees i none st.args.batch

end Step

variable {st : Step} {i : ℕ}

theorem Step.MicroReach.regular (h : st.MicroReach i) : st.args.isSpecDec = false := by
  induction h with
  | split _ h => exact h.1
  | relay _ _ _ ih => exact ih

theorem Step.MicroReach.exists_pred (h : st.MicroReach i) : ∃ k, i = k + 1 := by
  rcases h with ⟨-, -⟩ | ⟨-, -, -⟩
  · exact ⟨_, rfl⟩
  · exact ⟨_, rfl⟩

theorem Step.MicroReach.prompts (h : st.MicroReach i) (ha : st.Agrees) :
    isDummy st.args.prompts = true := by
  obtain ⟨k, rfl⟩ := h.exists_pred
  exact (ha.microBatches k h).2.2.1

theorem Step.MergedReach.exists_microReach (h : st.MergedReach i) : ∃ k, st.MicroReach k := by
  induction h with
  | merge _ h => exact ⟨_, h⟩
  | relay _ _ _ ih => exact ih

/-- Without prompts, the layout of a step is the same at all servers. -/
theorem layout_prompts (hd : isDummy st.args.prompts = true) (i j : ℕ) :
    st.args.layout (st.prompts i) = st.args.layout (st.prompts j) := by
  have h : ∀ k, isDummy (st.prompts k) = true := fun k => isDummy_slice hd _ _
  simp [StepArgs.layout, h]

theorem pushTensors_iff {layout : Option Layout} (hl : layout ≠ some .specCompactV1)
    (first : List (Batch ℤ)) (hidden keep : Batch ℤ) :
    (∃ ts, pushTensors layout first [hidden, keep] = some ts) ↔ Indexed layout first := by
  rcases layout with - | layout
  · simp [pushTensors, Indexed]
  · cases layout with
    | decodeMinimalV2 =>
      simp only [pushTensors, Indexed, Option.map_eq_some_iff]
      constructor
      · rintro ⟨ts, prefill, hp, -⟩
        exact (List.getElem?_eq_some_iff.mp hp).1
      · intro h
        exact ⟨_, first[2], List.getElem?_eq_getElem h, rfl⟩
    | decodeCompactV2 => simp [pushTensors, Indexed]
    | specCompactV1 => exact absurd rfl hl

theorem pushTensors_spec_iff (first : List (Batch ℤ)) (hidden keep x tree kv draft : Batch ℤ) :
    (∃ ts, pushTensors (some .specCompactV1) first [hidden, keep, x, tree, kv, draft] = some ts) ↔
      Indexed (some .specCompactV1) first := by
  rcases first with
    - | ⟨a, - | ⟨b, - | ⟨c, - | ⟨d, - | ⟨e, - | ⟨prefill, - | ⟨prompts, - | ⟨hypoIds, rest⟩⟩⟩⟩⟩⟩⟩⟩ <;>
    simp [pushTensors, Indexed]

/-- A copy that is not split is pushed on exactly if it has no prompts and the session has the
tensors to take. -/
theorem pushFull_iff {layout : Option Layout} {full : ℕ} {r : Request} {f : Fields}
    (h : st.IsCopy i layout full r f) (hl : st.LayoutAt i layout) :
    (∃ p, pushFull (st.stage i) (st.first i) r = some p) ↔
      isDummy st.args.prompts = true ∧ Indexed layout (st.first i) := by
  have htensors : (∃ ts, pushTensors layout (st.first i) (outputTensors (st.stage i) r.metadata f) =
      some ts) ↔ Indexed layout (st.first i) := by
    rw [outputTensors, h.isSpecDec]
    cases hs : st.args.isSpecDec with
    | true => rw [hl.spec hs, if_pos rfl, pushTensors_spec_iff]
    | false => rw [if_neg (by decide), pushTensors_iff (hl.ne_spec hs)]
  simp only [pushFull, h.unpack, Option.bind_some, h.layout, ← h.prompts, ← htensors]
  cases isDummy f.prompts <;> simp

theorem pushSplit_iff {layout : Option Layout} {full : ℕ} {r : Request} {f : Fields}
    (h : st.IsCopy i layout full r f) :
    (∃ ms, pushSplit (st.stage i) r = some ms) ↔ st.CrossStage i := by
  constructor
  · rintro ⟨ms, hms⟩
    obtain ⟨hs, hsp, -⟩ := pushSplit_eq_some h hms
    exact ⟨hs, hsp⟩
  · rintro ⟨hs, hsp⟩
    exact pushSplit_of_splits h hs hsp

theorem pushSplit_eq_none {layout : Option Layout} {full : ℕ} {r : Request} {f : Fields}
    (h : st.IsCopy i layout full r f) (hc : ¬ st.CrossStage i) :
    pushSplit (st.stage i) r = none := by
  by_contra hsome
  exact hc ((pushSplit_iff h).mp (Option.ne_none_iff_exists'.mp hsome))

theorem mem_pushes_full {r : Request} {p : Arrival} : p ∈ st.pushes i (.full r) ↔
    (∃ ms, pushSplit (st.stage i) r = some ms ∧ p = .microBatches ms) ∨
      pushSplit (st.stage i) r = none ∧
        ∃ r', pushFull (st.stage i) (st.first i) r = some r' ∧ .full r' = p := by
  simp only [Step.pushes]
  rcases pushSplit (st.stage i) r with - | ms
  · simp
  · simp

theorem mem_pushes_microBatches {ms : MicroBatches} {p : Arrival} :
    p ∈ st.pushes i (.microBatches ms) ↔
      microbatchEnabled (st.stage i).config = true ∧ p = .microBatches (relayParts (st.stage i) ms) ∨
      ∃ r', pushMerged (st.stage i) (st.first i) ms = some r' ∧ .full r' = p := by
  simp only [Step.pushes]
  cases microbatchEnabled (st.stage i).config <;> simp

theorem pushMerged_isSome {ms : MicroBatches} (h : st.IsSplit i ms) :
    ∃ p, pushMerged (st.stage i) (st.first i) ms = some p := by
  simp [pushMerged, pushTensors, h.layout]

/-- A push that agrees is a copy for the next server. -/
theorem Step.IsPush.isCopy_of_agrees {layout : Option Layout} {full : ℕ} {p : Request}
    {keep : Batch ℤ} (hal : st.Aligned) (hop : st.Hop i) (h : st.IsPush i layout full p keep)
    (hd : isDummy st.args.prompts = true) (ha : st.PushAgrees i layout full) :
    ∃ f, st.IsCopy (i + 1) layout full p f := by
  obtain ⟨hstart, -, prefill, prompts, hypoIds, ht, hdummy, -⟩ := ha
  exact ⟨_, h.isCopy hal hop hd hstart ht hdummy⟩

/-- Micro-batches make the next server run as the client's request does exactly if they agree
with it. They are micro-batches of its step only where both begin at one position. -/
theorem microBatches_run_iff {ms : MicroBatches} (hal : st.Aligned) (hop : st.Hop i)
    (hms : ms.metadata.startFromPosition = st.start i)
    (h : st.start i = st.start (i + 1) → st.IsSplit (i + 1) ms) :
    some (runMicroBatches ms) = runFull (st.stage (i + 1)) (st.direct (i + 1)) ↔
      st.MicroBatchesAgree i := by
  constructor
  · intro hrun
    have hstart : st.start i = st.start (i + 1) := hms.symm.trans (start_of_run_eq hal hop hrun)
    exact ⟨hstart, ((h hstart).run_iff hal hop).mp hrun⟩
  · rintro ⟨hstart, hagree⟩
    exact ((h hstart).run_iff hal hop).mpr hagree

theorem pushSplit_run_iff {layout : Option Layout} {full : ℕ} {r : Request} {f : Fields}
    {ms : MicroBatches} (hal : st.Aligned) (hop : st.Hop i) (h : st.IsCopy i layout full r f)
    (hp : pushSplit (st.stage i) r = some ms) :
    some (runMicroBatches ms) = runFull (st.stage (i + 1)) (st.direct (i + 1)) ↔
      st.MicroBatchesAgree i := by
  refine microBatches_run_iff hal hop ?_ fun hstart => isSplit_pushSplit hal hop h hp hstart
  obtain ⟨-, -, rfl⟩ := pushSplit_eq_some h hp
  exact h.start

theorem relayParts_run_iff {ms : MicroBatches} (hal : st.Aligned) (hop : st.Hop i)
    (h : st.IsSplit i ms) :
    some (runMicroBatches (relayParts (st.stage i) ms)) =
        runFull (st.stage (i + 1)) (st.direct (i + 1)) ↔ st.MicroBatchesAgree i :=
  microBatches_run_iff hal hop h.start fun hstart => isSplit_relayParts hal hop h hstart

/-- What a server has of a step: the client's request or a full-batch push of it, micro-batches,
or a full batch merged from them. -/
inductive Step.Holds (st : Step) (i : ℕ) : Arrival → Prop where
  | full {j : ℕ} {r : Request} {f : Fields} (hr : st.RelaysFull j i)
      (h : st.IsCopy i (some (st.args.layout (st.prompts i))) (st.fullBatchSize j) r f) :
      Holds st i (.full r)
  | merged {r : Request} {f : Fields} (hm : st.MergedReach i)
      (h : st.IsCopy i none st.args.batch r f) : Holds st i (.full r)
  | microBatches {ms : MicroBatches} (hm : st.MicroReach i) (h : st.IsSplit i ms) :
      Holds st i (.microBatches ms)

theorem holds_direct (hal : st.Aligned) (hi : i < st.length) : st.Holds i (.full (st.direct i)) := by
  obtain ⟨f, hf, -, -⟩ := isCopy_direct hal hi
  exact .full .here hf

/-- A copy that is split: its micro-batches are the client's request in parts. -/
theorem Step.Agrees.split {layout : Option Layout} {full : ℕ} {r : Request} {f : Fields}
    {ms : MicroBatches} (ha : st.Agrees) (hal : st.Aligned) (hop : st.Hop i)
    (h : st.IsCopy i layout full r f) (hp : pushSplit (st.stage i) r = some ms) :
    st.Holds (i + 1) (.microBatches ms) ∧
      some (runMicroBatches ms) = runFull (st.stage (i + 1)) (st.direct (i + 1)) := by
  have hc : st.CrossStage i := (pushSplit_iff h).mp ⟨ms, hp⟩
  have hagree : st.MicroBatchesAgree i := ha.microBatches i (.split hop hc)
  exact ⟨.microBatches (.split hop hc) (isSplit_pushSplit hal hop h hp hagree.1),
    (pushSplit_run_iff hal hop h hp).mpr hagree⟩

theorem Step.Agrees.unnamed {p : Request} {keep : Batch ℤ} (ha : st.Agrees) (hal : st.Aligned)
    (hop : st.Hop i) (h : st.IsPush i none st.args.batch p keep) (hm : st.MergedReach (i + 1)) :
    st.Holds (i + 1) (.full p) ∧
      runFull (st.stage (i + 1)) p = runFull (st.stage (i + 1)) (st.direct (i + 1)) := by
  obtain ⟨k, hk⟩ := hm.exists_microReach
  have hd : isDummy st.args.prompts = true := hk.prompts ha
  have hagree : st.PushAgrees i none st.args.batch := ha.merged i hm
  obtain ⟨g, hg⟩ := h.isCopy_of_agrees hal hop hd hagree
  exact ⟨.merged hm hg, (h.run_iff hal hop hd).mpr hagree⟩

/-- One hop: whatever a server has of a step, what it pushes on makes the next server run as the
client's request does. -/
theorem Step.Agrees.push (ha : st.Agrees) (hal : st.Aligned) (hop : st.Hop i) {q p : Arrival}
    (hq : st.Holds i q) (hp : p ∈ st.pushes i q) :
    st.Holds (i + 1) p ∧ st.run (i + 1) p = st.run (i + 1) (.full (st.direct (i + 1))) := by
  cases hq with
  | @full j r f hr h =>
    rcases mem_pushes_full.mp hp with ⟨ms, hms, rfl⟩ | ⟨hnone, r', hr', rfl⟩
    · exact ha.split hal hop h hms
    have hpush := isPush_pushFull hal hop h (.inl rfl) hr'
    have hd : isDummy st.args.prompts = true := prompts_of_pushFull h hr'
    have hfull : st.PushesFull i := by
      refine ⟨?_, (pushFull_iff h (.inl rfl)).mp ⟨r', hr'⟩⟩
      rw [← pushSplit_iff h, hnone]
      simp
    have hagree := ha.full i j hop hr hfull
    obtain ⟨g, hg⟩ := hpush.isCopy_of_agrees hal hop hd hagree
    rw [layout_prompts hd i (i + 1)] at hg
    exact ⟨.full (hr.next hop hfull) hg, (hpush.run_iff hal hop hd).mpr hagree⟩
  | @merged r f hm h =>
    rcases mem_pushes_full.mp hp with ⟨ms, hms, rfl⟩ | ⟨hnone, r', hr', rfl⟩
    · exact ha.split hal hop h hms
    obtain ⟨k, hk⟩ := hm.exists_microReach
    have hc : ¬ st.CrossStage i := by
      rw [← pushSplit_iff h, hnone]
      simp
    exact ha.unnamed hal hop (isPush_pushFull hal hop h (.inr ⟨rfl, hk.regular⟩) hr')
      (.relay hop hm hc)
  | @microBatches ms hm h =>
    rcases mem_pushes_microBatches.mp hp with ⟨he, rfl⟩ | ⟨r', hr', rfl⟩
    · have hnext : st.MicroReach (i + 1) := .relay hop hm he
      have hagree : st.MicroBatchesAgree i := ha.microBatches i hnext
      exact ⟨.microBatches hnext (isSplit_relayParts hal hop h hagree.1),
        (relayParts_run_iff hal hop h).mpr hagree⟩
    · exact ha.unnamed hal hop (isPush_pushMerged h hr') (.merge hop hm)

theorem Step.Agrees.pushed (ha : st.Agrees) (hal : st.Aligned) {p : Arrival} (h : st.Pushed i p) :
    st.Holds i p ∧ st.run i p = st.run i (.full (st.direct i)) := by
  induction h with
  | direct hop hp => exact ha.push hal hop (holds_direct hal (Nat.lt_of_succ_lt hop.1)) hp
  | relayed _ hop hp ih => exact ha.push hal hop ih.1 hp

/-- The copies of a step at a server, the client's request among them. -/
def Step.Arrives (st : Step) (i : ℕ) (p : Arrival) : Prop :=
  p = .full (st.direct i) ∨ st.Pushed i p

theorem Step.Arrives.push {q p : Arrival} (h : st.Arrives i q) (hop : st.Hop i)
    (hp : p ∈ st.pushes i q) : st.Pushed (i + 1) p := by
  rcases h with rfl | h
  · exact .direct hop hp
  · exact .relayed h hop hp

/-- Every copy that is pushed makes its receiver run as the client's request does. -/
def Step.PushIsDirect (st : Step) : Prop :=
  ∀ i p, st.Pushed i p → st.run i p = st.run i (.full (st.direct i))

section Converse

variable (hall : st.PushIsDirect) (hal : st.Aligned) (hop : st.Hop i)

include hall hal hop

/-- A full batch that is pushed on and runs as the client's request does. -/
theorem Step.PushIsDirect.full {full : ℕ} {r : Request} {f : Fields} (hr : st.Arrives i (.full r))
    (hf : st.IsCopy i (some (st.args.layout (st.prompts i))) full r f) (hp : st.PushesFull i) :
    st.PushAgrees i (some (st.args.layout (st.prompts i))) full ∧
      ∃ r' f', st.Pushed (i + 1) (.full r') ∧
        st.IsCopy (i + 1) (some (st.args.layout (st.prompts (i + 1)))) full r' f' := by
  obtain ⟨hsplit, hd, hidx⟩ := hp
  obtain ⟨r', hr'⟩ := (pushFull_iff hf (.inl rfl)).mpr ⟨hd, hidx⟩
  have hnone : pushSplit (st.stage i) r = none := pushSplit_eq_none hf hsplit
  have hpushed : st.Pushed (i + 1) (.full r') :=
    hr.push hop (mem_pushes_full.mpr (.inr ⟨hnone, r', hr', rfl⟩))
  have hpush := isPush_pushFull hal hop hf (.inl rfl) hr'
  have hagree := (hpush.run_iff hal hop hd).mp (hall _ _ hpushed)
  obtain ⟨g, hg⟩ := hpush.isCopy_of_agrees hal hop hd hagree
  rw [layout_prompts hd i (i + 1)] at hg
  exact ⟨hagree, r', g, hpushed, hg⟩

theorem Step.PushIsDirect.split (hc : st.CrossStage i) :
    st.MicroBatchesAgree i ∧
      ∃ ms, st.Pushed (i + 1) (.microBatches ms) ∧ st.IsSplit (i + 1) ms := by
  obtain ⟨f, hf, -, -⟩ := isCopy_direct hal (Nat.lt_of_succ_lt hop.1)
  obtain ⟨ms, hms⟩ := (pushSplit_iff hf).mpr hc
  have hpushed : st.Pushed (i + 1) (.microBatches ms) :=
    .direct hop (mem_pushes_full.mpr (.inl ⟨ms, hms, rfl⟩))
  have hagree := (pushSplit_run_iff hal hop hf hms).mp (hall _ _ hpushed)
  exact ⟨hagree, ms, hpushed, isSplit_pushSplit hal hop hf hms hagree.1⟩

theorem Step.PushIsDirect.relay {ms : MicroBatches} (hms : st.Pushed i (.microBatches ms))
    (h : st.IsSplit i ms) (he : microbatchEnabled (st.stage i).config = true) :
    st.MicroBatchesAgree i ∧
      ∃ ms, st.Pushed (i + 1) (.microBatches ms) ∧ st.IsSplit (i + 1) ms := by
  have hpushed := Step.Pushed.relayed hms hop (mem_pushes_microBatches.mpr (.inl ⟨he, rfl⟩))
  have hagree := (relayParts_run_iff hal hop h).mp (hall _ _ hpushed)
  exact ⟨hagree, _, hpushed, isSplit_relayParts hal hop h hagree.1⟩

/-- A push with no layout named that runs as the client's request does. -/
theorem Step.PushIsDirect.unnamed {p : Request} {keep : Batch ℤ}
    (hp : st.Pushed (i + 1) (.full p)) (h : st.IsPush i none st.args.batch p keep)
    (hd : isDummy st.args.prompts = true) :
    st.PushAgrees i none st.args.batch ∧
      ∃ r f, st.Pushed (i + 1) (.full r) ∧ st.IsCopy (i + 1) none st.args.batch r f := by
  have hagree := (h.run_iff hal hop hd).mp (hall _ _ hp)
  obtain ⟨f, hf⟩ := h.isCopy_of_agrees hal hop hd hagree
  exact ⟨hagree, p, f, hp, hf⟩

theorem Step.PushIsDirect.merge {ms : MicroBatches} (hms : st.Pushed i (.microBatches ms))
    (h : st.IsSplit i ms) (hd : isDummy st.args.prompts = true) :
    st.PushAgrees i none st.args.batch ∧
      ∃ r f, st.Pushed (i + 1) (.full r) ∧ st.IsCopy (i + 1) none st.args.batch r f := by
  obtain ⟨r, hr⟩ := pushMerged_isSome h
  exact hall.unnamed hal hop
    (.relayed hms hop (mem_pushes_microBatches.mpr (.inr ⟨r, hr, rfl⟩))) (isPush_pushMerged h hr) hd

theorem Step.PushIsDirect.relayMerged {r : Request} {f : Fields} (hr : st.Pushed i (.full r))
    (h : st.IsCopy i none st.args.batch r f) (hs : st.args.isSpecDec = false)
    (hc : ¬ st.CrossStage i) (hd : isDummy st.args.prompts = true) :
    st.PushAgrees i none st.args.batch ∧
      ∃ r f, st.Pushed (i + 1) (.full r) ∧ st.IsCopy (i + 1) none st.args.batch r f := by
  have hl : st.LayoutAt i none := .inr ⟨rfl, hs⟩
  obtain ⟨r', hr'⟩ := (pushFull_iff h hl).mpr ⟨hd, trivial⟩
  have hnone : pushSplit (st.stage i) r = none := pushSplit_eq_none h hc
  exact hall.unnamed hal hop
    (.relayed hr hop (mem_pushes_full.mpr (.inr ⟨hnone, r', hr', rfl⟩)))
    (isPush_pushFull hal hop h hl hr') hd

end Converse

/-- A way of full batches has copies at all its servers. -/
theorem Step.RelaysFull.arrives {j : ℕ} (h : st.RelaysFull j i) (hall : st.PushIsDirect)
    (hal : st.Aligned) (hi : i < st.length) :
    ∃ r f, st.Arrives i (.full r) ∧
      st.IsCopy i (some (st.args.layout (st.prompts i))) (st.fullBatchSize j) r f := by
  induction h with
  | here =>
    obtain ⟨f, hf, -, -⟩ := isCopy_direct hal hi
    exact ⟨_, f, .inl rfl, hf⟩
  | next _ hop hp ih =>
    obtain ⟨r, f, hr, hf⟩ := ih (Nat.lt_of_succ_lt hi)
    obtain ⟨-, r', f', hr', hf'⟩ := hall.full hal hop hr hf hp
    exact ⟨r', f', .inr hr', hf'⟩

theorem Step.MicroReach.arrives (h : st.MicroReach i) (hall : st.PushIsDirect) (hal : st.Aligned) :
    ∃ ms, st.Pushed i (.microBatches ms) ∧ st.IsSplit i ms ∧ isDummy st.args.prompts = true := by
  induction h with
  | split hop hc =>
    obtain ⟨hagree, ms, hms, hsplit⟩ := hall.split hal hop hc
    exact ⟨ms, hms, hsplit, hagree.2.2.1⟩
  | relay hop _ he ih =>
    obtain ⟨ms, hms, hsplit, hd⟩ := ih
    obtain ⟨-, ms', hms', hsplit'⟩ := hall.relay hal hop hms hsplit he
    exact ⟨ms', hms', hsplit', hd⟩

theorem Step.MergedReach.arrives (h : st.MergedReach i) (hall : st.PushIsDirect)
    (hal : st.Aligned) :
    ∃ r f, st.Pushed i (.full r) ∧ st.IsCopy i none st.args.batch r f := by
  obtain ⟨k, hk⟩ := h.exists_microReach
  obtain ⟨-, -, -, hd⟩ := hk.arrives hall hal
  induction h with
  | merge hop hm =>
    obtain ⟨ms, hms, hsplit, -⟩ := hm.arrives hall hal
    exact (hall.merge hal hop hms hsplit hd).2
  | relay hop _ hc ih =>
    obtain ⟨r, f, hr, hf⟩ := ih
    exact (hall.relayMerged hal hop hr hf hk.regular hc hd).2

theorem Step.PushIsDirect.agrees (hall : st.PushIsDirect) (hal : st.Aligned) : st.Agrees := by
  refine ⟨fun i j hop hr hp => ?_, fun i h => ?_, fun i h => ?_⟩
  · obtain ⟨r, f, har, hf⟩ := hr.arrives hall hal (Nat.lt_of_succ_lt hop.1)
    exact (hall.full hal hop har hf hp).1
  · rcases h with ⟨hop, hc⟩ | ⟨hop, hm, he⟩
    · exact (hall.split hal hop hc).1
    · obtain ⟨ms, hms, hsplit, -⟩ := hm.arrives hall hal
      exact (hall.relay hal hop hms hsplit he).1
  · rcases h with ⟨hop, hm⟩ | ⟨hop, hm, hc⟩
    · obtain ⟨ms, hms, hsplit, hd⟩ := hm.arrives hall hal
      exact (hall.merge hal hop hms hsplit hd).1
    · obtain ⟨k, hk⟩ := hm.exists_microReach
      obtain ⟨-, -, -, hd⟩ := hk.arrives hall hal
      obtain ⟨r, f, hr, hf⟩ := hm.arrives hall hal
      exact (hall.relayMerged hal hop hr hf hk.regular hc hd).1

/-- Every copy of a step that servers push on, over any number of hops, makes its receiver run
as the client's request does, exactly if every hop that something is pushed over agrees. -/
theorem push_is_direct_iff (hal : st.Aligned) :
    (∀ i p, st.Pushed i p → st.run i p = st.run i (.full (st.direct i))) ↔ st.Agrees := by
  constructor
  · intro hall
    exact Step.PushIsDirect.agrees hall hal
  · intro ha i p hp
    exact (ha.pushed hal hp).2

/-- Two rows decode a token over three servers, of which the middle one splits them. The session
began with a prompt of four tokens, without hypotheses. -/
def beams (hypoIds : Batch ℤ) : Step where
  args :=
    { batch := 2
      tokens := 1
      isSpecDec := false
      prompts := dummy
      hypoIds := hypoIds
      treeAttentionMask := dummy
      kvCachePositionIds := dummy
      draftTokens := dummy
      prefillLength := none
      live := none }
  length := 3
  stage i :=
    { spanStart := i
      spanEnd := i + 1
      position := 4
      stepped := true
      liveFullBatchSize := 0
      firstTensors := [defaultKeep 2 4, defaultKeep 2 4, zeros 2]
      inputs := zeros 2
      outputs := zeros 2
      config := ⟨16, if i = 1 then some 1 else none⟩
      pruned := none }

theorem aligned_beams (hypoIds : Batch ℤ) : (beams hypoIds).Aligned where
  rows _ _ _ := rfl
  width _ _ _ _ := rfl
  handed _ _ _ := rfl
  kept h := by cases h
  restored h := by cases h
  prompts h := by cases h

theorem hop_beams {hypoIds : Batch ℤ} (h : (beams hypoIds).Hop i) : i = 0 ∨ i = 1 := by
  have h3 : i + 1 < 3 := h.1
  omega

theorem crossStage_beams {hypoIds : Batch ℤ} : (beams hypoIds).CrossStage i ↔ i = 1 := by
  have hsplits : (beams hypoIds).splits i = decide (i = 1) := by
    by_cases hi : i = 1 <;>
      simp [Step.splits, Step.rowCount, Step.draft, beams, zeros, Batch.numel, shouldSplitBatch, hi]
  simp only [Step.CrossStage, hsplits, decide_eq_true_eq]
  exact and_iff_right rfl

theorem microReach_beams {hypoIds : Batch ℤ} (h : (beams hypoIds).MicroReach i) : i = 2 := by
  induction h with
  | split _ hc => rw [crossStage_beams.mp hc]
  | relay hop _ _ ih => rcases hop_beams hop with h | h <;> omega

theorem mergedReach_beams {hypoIds : Batch ℤ} : ¬ (beams hypoIds).MergedReach i := by
  intro h
  induction h with
  | merge hop hm =>
    have h2 := microReach_beams hm
    rcases hop_beams hop with h | h <;> omega
  | relay _ _ _ ih => exact ih

theorem agrees_beams : (beams dummy).Agrees where
  full i j hop hr hp := by
    obtain rfl : i = 0 := by
      rcases hop_beams hop with h | h
      · exact h
      · exact absurd (crossStage_beams.mpr h) hp.1
    cases hr
    exact ⟨rfl, .inr rfl, zeros 2, dummy, dummy, rfl, rfl, fun row _ => ⟨rfl, rfl⟩⟩
  microBatches i h := by
    obtain rfl : i = 1 := Nat.succ.inj (microReach_beams h)
    have hprefill : ∀ row < 2, prefillAt ((beams dummy).prefill 2) row = some 0 := by decide
    exact ⟨rfl, .inr rfl, rfl, fun row hrow => ⟨hprefill row hrow, rfl⟩⟩
  merged i h := (mergedReach_beams h).elim

/-- Without hypotheses all copies agree, the full batch and the micro-batches. -/
theorem push_is_direct_greedy : (beams dummy).Aligned ∧
    ∀ i p, (beams dummy).Pushed i p →
      (beams dummy).run i p = (beams dummy).run i (.full ((beams dummy).direct i)) :=
  ⟨aligned_beams dummy, (push_is_direct_iff (aligned_beams dummy)).mpr agrees_beams⟩

def reordered : Step := beams ⟨1, [[1], [0]], by decide⟩

/-- The push takes the tensors of the first request, which had no hypotheses, and names a layout
with them: the next server cannot unpack it. -/
theorem reordered_push_raises : ∃ p, reordered.Pushed 1 p ∧ reordered.run 1 p = none :=
  ⟨_, .direct ⟨by decide, rfl⟩ List.mem_cons_self, rfl⟩

theorem reordered_push_not_direct : reordered.Aligned ∧
    ¬ ∀ i p, reordered.Pushed i p →
      reordered.run i p = reordered.run i (.full (reordered.direct i)) := by
  refine ⟨aligned_beams _, fun hall => ?_⟩
  obtain ⟨p, hp, hraises⟩ := reordered_push_raises
  have hruns : reordered.run 1 (.full (reordered.direct 1)) ≠ none := by decide
  exact hruns ((hall 1 p hp).symm.trans hraises)

end BloomBee.PushPath
