import BloomBee.Sanity.RpcSlices
import BloomBee.Spec.PushPath

/-! One hop of the push path: what a copy of the step has to carry at a server, and when the
copy that this server pushes on makes the next one run as the request of the client does. In
micro-batches it runs every row once; what they leave out is taken to be the default. -/

set_option autoImplicit false

namespace BloomBee.PushPath

open RpcInference

/-- The tensors that a push takes from the first request of the session: prefill length,
prompts and hypotheses, by the layout that the receiver reads them with. -/
def reused (isSpecDec : Bool) (layout : Option Layout) (first : List (Batch ℤ)) :
    Option (Batch ℤ × Batch ℤ × Batch ℤ) :=
  match isSpecDec, layout, first with
  | false, some .decodeMinimalV2, _ :: _ :: prefill :: _ => some (prefill, dummy, dummy)
  | false, some .decodeCompactV2, _ :: _ :: prefill :: prompts :: hypoIds :: _ =>
    some (prefill, prompts, hypoIds)
  | false, none, [_, _, prefill] => some (prefill, dummy, dummy)
  | false, none, [_, _, prefill, prompts, hypoIds] => some (prefill, prompts, hypoIds)
  | true, some .specCompactV1, _ :: _ :: _ :: _ :: _ :: prefill :: prompts :: hypoIds :: _ =>
    some (prefill, prompts, hypoIds)
  | _, _, _ => none

namespace Step

variable (st : Step)

def start (i : ℕ) : ℕ := (st.direct i).metadata.startFromPosition

def fullBatchSize (i : ℕ) : ℕ := (st.direct i).metadata.fullBatchSize

def prefill (i : ℕ) : Batch ℤ := sentPrefill (stagedLive i st.args) (st.stage i) st.args

def prompts (i : ℕ) : Batch ℤ :=
  st.args.prompts.slice (st.stage i).spanStart (st.stage i).spanEnd

def draft : Option (Batch ℤ) :=
  if st.args.isSpecDec && !isDummy st.args.draftTokens then some st.args.draftTokens else none

def rowCount (i : ℕ) : ℕ :=
  if st.draft.isSome then (st.keep i).rows.length else (st.stage i).inputs.rows.length

def splits (i : ℕ) : Bool :=
  decide ((st.stage i).inputs.numel ≠ 0) && shouldSplitBatch (st.stage i).config (st.rowCount i)

/-- What the recovery of the client and the blocks keep up over a chain: requests that begin
at one position carry the same hidden states on, one row per row of the batch; speculative
steps are restored to the rows of the keep indices, of which there are some; and deep prompts
reach every span. -/
structure Aligned : Prop where
  rows : st.args.isSpecDec = false → ∀ i, i < st.length → (st.stage i).inputs.rows.length = st.args.batch
  width : st.args.isSpecDec = false → ∀ i, st.Hop i → st.start i = st.start (i + 1) →
    (st.stage i).inputs.width = st.args.tokens
  handed : ∀ i, st.Hop i → st.start i = st.start (i + 1) →
    (st.stage i).outputs = (st.stage (i + 1)).inputs
  kept : st.args.isSpecDec = true → st.laterKeep.numel ≠ 0
  restored : st.args.isSpecDec = true → ∀ i, i < st.length → st.draft = none →
    (st.stage i).inputs.rows.length = st.laterKeep.rows.length
  prompts : isDummy st.args.prompts = false → ∀ i, i < st.length → isDummy (st.prompts i) = false

/-- The tensors that a copy of the step must carry at the server `i` for the keep indices and
the tree to be those of the client's request. -/
structure Carries (i : ℕ) (f : Fields) : Prop where
  hidden : f.hidden = (st.stage i).inputs
  keep : f.keepIndices = st.keep i
  tree : f.treeAttentionMask = if st.args.isSpecDec then some st.args.treeAttentionMask else none
  kv : f.kvCachePositionIds = if st.args.isSpecDec then some st.args.kvCachePositionIds else none
  draft : f.draftTokens = st.draft

/-- A full-batch copy of the step at the server `i`, with the layout and the full batch size
that its metadata name. -/
structure IsCopy (i : ℕ) (layout : Option Layout) (full : ℕ) (r : Request) (f : Fields) : Prop where
  unpack : unpack r = some f
  carries : st.Carries i f
  prompts : isDummy f.prompts = isDummy st.args.prompts
  isSpecDec : r.metadata.isSpecDec = st.args.isSpecDec
  needPruning : r.metadata.needPruning = (st.args.isSpecDec && decide (i = 0))
  layout : r.metadata.layout = layout
  start : r.metadata.startFromPosition = st.start i
  full : r.metadata.fullBatchSize = full
  prefillLength : r.metadata.prefillLength = none
  batchOffset : 0 < i → r.metadata.batchOffset = none
  activeMask : 0 < i → r.metadata.activeMask = none

/-- What the server `i` runs a copy with, where the copies of a step may differ. -/
def runWith (i : ℕ) (prompts : Option (Batch ℤ)) (full : ℕ) (prefill hypoIds : Batch ℤ) : Run where
  prompts := prompts
  treeAttentionMask := if st.args.isSpecDec then some st.args.treeAttentionMask else none
  kvCachePositionIds := if st.args.isSpecDec then some st.args.kvCachePositionIds else none
  startFromPosition := st.start i
  fullBatchSize := if st.splits i then st.rowCount i else fullBatch full (st.rowCount i)
  rows := (List.range (st.rowCount i)).map fun row =>
    { cacheRow := row
      hypoId := hypoAt hypoIds row
      keepIndices := (st.keep i).rows[row]?
      prefillLength := prefillAt prefill row
      active := none }

/-- A full batch size as good as that of the client's request to the server `i`. -/
def FullAgrees (i full : ℕ) : Prop :=
  st.splits i = true ∨
    fullBatch full (st.rowCount i) = fullBatch (st.fullBatchSize i) (st.rowCount i)

/-- When a full-batch push of the server `i` agrees with the client's request to the next one:
both begin at one position, and what the push takes from the first request of the session is
what the client sends in this step. -/
def PushAgrees (i : ℕ) (layout : Option Layout) (full : ℕ) : Prop :=
  st.start i = st.start (i + 1) ∧ st.FullAgrees (i + 1) full ∧
    ∃ prefill prompts hypoIds,
      reused st.args.isSpecDec layout (st.first i) = some (prefill, prompts, hypoIds) ∧
      isDummy prompts = true ∧ ∀ row < st.rowCount (i + 1),
        prefillAt prefill row = prefillAt (st.prefill (i + 1)) row ∧
        hypoAt hypoIds row = hypoAt st.args.hypoIds row

end Step

variable {st : Step} {i : ℕ}

theorem isDummy_slice {t : Batch ℤ} (h : isDummy t = true) (a b : ℕ) : isDummy (t.slice a b) = true := by
  simp only [isDummy, decide_eq_true_eq, Batch.numel, Nat.mul_eq_zero] at h ⊢
  rcases h with h | h
  · left
    simp [Batch.slice, List.eq_nil_of_length_eq_zero h]
  · exact .inr h

theorem hypoAt_of_dummy {t : Batch ℤ} (h : isDummy t = true) (row : ℕ) : hypoAt t row = some (row : ℤ) := by
  rw [hypoAt, if_pos h]

/-- The layout of the step at the server `i`. -/
theorem direct_layout (st : Step) (i : ℕ) :
    (st.direct i).metadata.layout = some (st.args.layout (st.prompts i)) := rfl

theorem direct_tensors (st : Step) (i : ℕ) : (st.direct i).tensors =
    match st.args.layout (st.prompts i) with
    | .decodeMinimalV2 => [(st.stage i).inputs, st.keep i, st.prefill i]
    | .decodeCompactV2 =>
      [(st.stage i).inputs, st.keep i, st.prefill i, st.prompts i, st.args.hypoIds]
    | .specCompactV1 =>
      [(st.stage i).inputs, st.keep i, st.args.treeAttentionMask, st.args.kvCachePositionIds,
        st.args.draftTokens, st.prefill i, st.prompts i, st.args.hypoIds] := rfl

theorem layout_spec (hspec : st.args.isSpecDec = true) (prompts : Batch ℤ) :
    st.args.layout prompts = .specCompactV1 := by
  simp [StepArgs.layout, hspec]

theorem layout_minimal (hspec : st.args.isSpecDec = false) {prompts : Batch ℤ}
    (hp : isDummy prompts = true) (hh : isDummy st.args.hypoIds = true) :
    st.args.layout prompts = .decodeMinimalV2 := by
  simp [StepArgs.layout, hspec, hp, hh]

theorem layout_compact (hspec : st.args.isSpecDec = false) {prompts : Batch ℤ}
    (hd : ¬ (isDummy prompts = true ∧ isDummy st.args.hypoIds = true)) :
    st.args.layout prompts = .decodeCompactV2 := by
  simp only [StepArgs.layout, hspec, Bool.false_eq_true, if_false, Bool.and_eq_true, if_neg hd]

theorem layout_ne_spec (hspec : st.args.isSpecDec = false) (prompts : Batch ℤ) :
    st.args.layout prompts ≠ .specCompactV1 := by
  by_cases hd : isDummy prompts = true ∧ isDummy st.args.hypoIds = true
  · rw [layout_minimal hspec hd.1 hd.2]
    decide
  · rw [layout_compact hspec hd]
    decide

theorem unpack_direct (st : Step) (i : ℕ) : ∃ f, unpack (st.direct i) = some f ∧ st.Carries i f ∧
    f.prefillLength = st.prefill i ∧
    (if isDummy (st.prompts i) then isDummy f.prompts = true else f.prompts = st.prompts i) ∧
    ∀ row, hypoAt f.hypoIds row = hypoAt st.args.hypoIds row := by
  have hsame : ∀ t : Batch ℤ, if isDummy t then isDummy t = true else t = t := by
    intro t
    split_ifs with h
    · exact h
    · rfl
  cases hspec : st.args.isSpecDec with
  | true =>
    refine ⟨⟨(st.stage i).inputs, st.keep i, st.prefill i, st.prompts i, st.args.hypoIds,
      some st.args.treeAttentionMask, some st.args.kvCachePositionIds,
      if isDummy st.args.draftTokens then none else some st.args.draftTokens⟩, ?_,
      ⟨rfl, rfl, by simp [hspec], by simp [hspec], ?_⟩, rfl, hsame _, fun _ => rfl⟩
    · simp only [unpack, inferLayout, direct_layout, direct_tensors, layout_spec hspec]
    · simp only [Step.draft, hspec, Bool.true_and, Bool.not_eq_true']
      cases isDummy st.args.draftTokens <;> rfl
  | false =>
    have hdraft : (none : Option (Batch ℤ)) = st.draft := by simp [Step.draft, hspec]
    by_cases hd : isDummy (st.prompts i) = true ∧ isDummy st.args.hypoIds = true
    · refine ⟨⟨(st.stage i).inputs, st.keep i, st.prefill i, dummy, dummy, none, none, none⟩, ?_,
        ⟨rfl, rfl, by simp [hspec], by simp [hspec], hdraft⟩, rfl, ?_, ?_⟩
      · simp only [unpack, inferLayout, direct_layout, direct_tensors, layout_minimal hspec hd.1 hd.2]
      · rw [if_pos hd.1]
        rfl
      · intro row
        rw [hypoAt_of_dummy hd.2, hypoAt_of_dummy rfl]
    · refine ⟨⟨(st.stage i).inputs, st.keep i, st.prefill i, st.prompts i, st.args.hypoIds, none,
        none, none⟩, ?_, ⟨rfl, rfl, by simp [hspec], by simp [hspec], hdraft⟩, rfl, hsame _,
        fun _ => rfl⟩
      simp only [unpack, inferLayout, direct_layout, direct_tensors, layout_compact hspec hd]

theorem Step.Carries.shape {f : Fields} (h : st.Carries i f) :
    (f.shape st.args.isSpecDec).1 = st.rowCount i := by
  rw [Step.rowCount, ← h.draft, ← h.keep, ← h.hidden]
  unfold Fields.shape
  rcases hd : f.draftTokens with - | draft
  · cases st.args.isSpecDec <;> rfl
  · have hspec : st.args.isSpecDec = true := by
      have := h.draft
      rw [hd, Step.draft] at this
      by_contra hs
      simp [hs] at this
    simp [hspec]

theorem Step.Carries.splits {f : Fields} (h : st.Carries i f) :
    f.splits (st.stage i) st.args.isSpecDec = st.splits i := by
  rw [Fields.splits, h.shape, h.hidden, Step.splits]

/-- Keep indices with a row for every row of the batch stay as they are. -/
theorem normalizeKeepIndices_of_rows {keep : Batch ℤ} {rows width : ℕ} (hn : keep.numel ≠ 0)
    (hr : keep.rows.length = rows) : normalizeKeepIndices rows width keep = keep := by
  unfold normalizeKeepIndices
  rw [if_neg hn, dif_neg (by omega), if_pos hr]

theorem keep_succ (st : Step) (i : ℕ) : st.keep (i + 1) = st.laterKeep := rfl

theorem keepAnswer_congr {s : Stage} {m m' : Metadata} {f f' : Fields}
    (hspec : m.isSpecDec = m'.isSpecDec) (hprune : m.needPruning = m'.needPruning)
    (hh : f.hidden = f'.hidden) (hk : f.keepIndices = f'.keepIndices)
    (hd : f.draftTokens = f'.draftTokens) : keepAnswer s m f = keepAnswer s m' f' := by
  simp only [keepAnswer, Fields.shape, hspec, hprune, hh, hk, hd]

/-- In regular decoding the client sends the same keep indices to all servers, one row per row
of the batch. -/
theorem Step.Carries.keepAnswer_regular {f : Fields} {m : Metadata} (h : st.Carries i f)
    (hal : st.Aligned) (hop : st.Hop i) (hstart : st.start i = st.start (i + 1))
    (hs : st.args.isSpecDec = false) (hspec : m.isSpecDec = false) :
    keepAnswer (st.stage i) m f = st.laterKeep := by
  have hkeep : f.keepIndices = st.laterKeep := by
    rw [h.keep, Step.keep, Step.laterKeep, hs]
    simp
  have hinit : st.laterKeep = defaultKeep st.args.batch st.args.tokens := by
    simp [Step.laterKeep, hs, Step.initialKeep]
  unfold PushPath.keepAnswer
  rw [hspec, hkeep]
  split_ifs with hn
  · rfl
  have hrows : f.hidden.rows.length = st.args.batch := by
    rw [h.hidden, hal.rows hs i (Nat.lt_of_succ_lt hop.1)]
  have hwidth : f.hidden.width = st.args.tokens := by rw [h.hidden, hal.width hs i hop hstart]
  simp only [Bool.false_and, Fields.shape]
  refine normalizeKeepIndices_of_rows ?_ ?_
  · rw [hinit]
    simpa [Batch.numel, defaultKeep, hrows, hwidth] using hn
  · rw [hinit, hrows]
    simp [defaultKeep]

/-- In speculative decoding the client takes over what the first server answered; the servers
behind it do not prune. -/
theorem Step.Carries.keepAnswer_spec {f : Fields} {m : Metadata} (h : st.Carries i f)
    (hal : st.Aligned) (hop : st.Hop i) (hs : st.args.isSpecDec = true)
    (hspec : m.isSpecDec = true) (hprune : m.needPruning = decide (i = 0)) :
    keepAnswer (st.stage i) m f = st.laterKeep := by
  rcases i with - | i
  · obtain ⟨f₀, hf₀, hc₀, -⟩ := unpack_direct st 0
    have hfirst : unpack st.firstDirect = some f₀ := hf₀
    rw [Step.laterKeep, if_pos hs, hfirst]
    refine keepAnswer_congr ?_ ?_ ?_ ?_ ?_
    · rw [hspec]
      exact hs.symm
    · rw [hprune]
      simp [Step.firstDirect, directRequest, hs]
    · rw [h.hidden, hc₀.hidden]
    · rw [h.keep, hc₀.keep]
    · rw [h.draft, hc₀.draft]
  · have hkeep : f.keepIndices = st.laterKeep := h.keep
    have hrows : (f.shape true).1 = st.laterKeep.rows.length := by
      have hshape := h.shape
      rw [hs] at hshape
      rw [hshape, Step.rowCount, keep_succ]
      split_ifs with hd
      · rfl
      · exact hal.restored hs _ (Nat.lt_of_succ_lt hop.1) (Option.not_isSome_iff_eq_none.mp hd)
    unfold PushPath.keepAnswer
    rw [hspec, hprune, hkeep]
    split_ifs with hn
    · rfl
    · exact normalizeKeepIndices_of_rows (hal.kept hs) hrows.symm

/-- Whatever copy of the step a server runs, it leaves the keep indices that the client sends
to the next server. -/
theorem Step.Carries.keepAnswer {f : Fields} {m : Metadata} (h : st.Carries i f)
    (hal : st.Aligned) (hop : st.Hop i) (hstart : st.start i = st.start (i + 1))
    (hspec : m.isSpecDec = st.args.isSpecDec)
    (hprune : m.needPruning = (st.args.isSpecDec && decide (i = 0))) :
    keepAnswer (st.stage i) m f = st.keep (i + 1) := by
  rw [keep_succ]
  cases hs : st.args.isSpecDec with
  | false => exact h.keepAnswer_regular hal hop hstart hs (hspec.trans hs)
  | true =>
    rw [hs, Bool.true_and] at hprune
    exact h.keepAnswer_spec hal hop hs (hspec.trans hs) hprune

theorem isDummy_prompts (hal : st.Aligned) (hi : i < st.length) :
    isDummy (st.prompts i) = isDummy st.args.prompts := by
  cases h : isDummy st.args.prompts with
  | true => exact isDummy_slice h _ _
  | false => exact hal.prompts h i hi

theorem isCopy_direct (hal : st.Aligned) (hi : i < st.length) :
    ∃ f, st.IsCopy i (some (st.args.layout (st.prompts i))) (st.fullBatchSize i) (st.direct i) f ∧
      f.prefillLength = st.prefill i ∧
      ∀ row, hypoAt f.hypoIds row = hypoAt st.args.hypoIds row := by
  obtain ⟨f, hf, hc, hpre, hpr, hhypo⟩ := unpack_direct st i
  refine ⟨f, ⟨hf, hc, ?_, rfl, rfl, rfl, rfl, rfl, rfl, ?_, ?_⟩, hpre, hhypo⟩
  · rw [← isDummy_prompts hal hi]
    split_ifs at hpr with h
    · rw [h, hpr]
    · rw [hpr]
  · intro h0
    simp [Step.direct, directRequest, stagedLive, Nat.ne_of_gt h0]
  · intro h0
    simp [Step.direct, directRequest, stagedLive, Nat.ne_of_gt h0]

theorem Step.IsCopy.run {layout : Option Layout} {full : ℕ} {r : Request} {f : Fields}
    (h : st.IsCopy i layout full r f) (hi : 0 < i) :
    runFull (st.stage i) r = some (st.runWith i (if isDummy f.prompts then none else some f.prompts)
      full f.prefillLength f.hypoIds) := by
  have hmask : f.activeMask (st.stage i) r.metadata = none := by
    simp [Fields.activeMask, liveActiveMask, h.activeMask hi]
  simp only [runFull, h.unpack, Option.map_some, h.isSpecDec, h.carries.shape, h.carries.splits,
    h.carries.tree, h.carries.kv, h.carries.keep, h.start, h.full, h.batchOffset hi, hmask,
    Step.runWith]
  simp

theorem runWith_inj {prompts prompts' : Option (Batch ℤ)} {full full' : ℕ}
    {prefill prefill' hypoIds hypoIds' : Batch ℤ} :
    st.runWith i prompts full prefill hypoIds = st.runWith i prompts' full' prefill' hypoIds' ↔
      prompts = prompts' ∧ (st.splits i = true ∨ fullBatch full (st.rowCount i) =
        fullBatch full' (st.rowCount i)) ∧ ∀ row < st.rowCount i,
          prefillAt prefill row = prefillAt prefill' row ∧
          hypoAt hypoIds row = hypoAt hypoIds' row := by
  simp only [Step.runWith, Run.mk.injEq, true_and, List.map_inj_left, List.mem_range, RowRun.mk.injEq,
    and_true]
  have hfull : ((if st.splits i then st.rowCount i else fullBatch full (st.rowCount i)) =
      if st.splits i then st.rowCount i else fullBatch full' (st.rowCount i)) ↔
      (st.splits i = true ∨ fullBatch full (st.rowCount i) = fullBatch full' (st.rowCount i)) := by
    cases st.splits i <;> simp
  rw [hfull]
  refine and_congr_right fun _ => and_congr_right fun _ => forall_congr' fun row => ?_
  exact forall_congr' fun _ => and_comm

/-- What the receiver of a regular push finds in it: the layout is read off the metadata, or
off the number of tensors. -/
theorem unpack_pushTensors {layout : Option Layout} {first ts : List (Batch ℤ)}
    {hidden keep : Batch ℤ} {m : Metadata} (hl : layout ≠ some .specCompactV1)
    (hm : m.layout = layout) (hs : m.isSpecDec = false)
    (h : pushTensors layout first [hidden, keep] = some ts) :
    unpack ⟨ts, m⟩ = (reused false layout first).map fun t =>
      ⟨hidden, keep, t.1, t.2.1, t.2.2, none, none, none⟩ := by
  rcases layout with - | layout
  · obtain rfl : hidden :: keep :: first.drop 2 = ts := by simpa [pushTensors] using h
    rcases first with - | ⟨a, - | ⟨b, - | ⟨c, - | ⟨d, - | ⟨e, - | ⟨g, rest⟩⟩⟩⟩⟩⟩ <;>
      simp [unpack, inferLayout, reused, hm, hs]
  · cases layout with
    | decodeMinimalV2 =>
      obtain ⟨prefill, hp, rfl⟩ : ∃ prefill, first[2]? = some prefill ∧ [hidden, keep, prefill] = ts := by
        simpa [pushTensors] using h
      rcases first with - | ⟨a, - | ⟨b, - | ⟨c, rest⟩⟩⟩ <;>
        simp [unpack, inferLayout, reused, hm] at hp ⊢
      exact hp.symm
    | decodeCompactV2 =>
      obtain rfl : hidden :: keep :: first.drop 2 = ts := by simpa [pushTensors] using h
      rcases first with - | ⟨a, - | ⟨b, - | ⟨c, - | ⟨d, - | ⟨e, rest⟩⟩⟩⟩⟩ <;>
        simp [unpack, inferLayout, reused, hm]
    | specCompactV1 => exact absurd rfl hl

theorem unpack_pushTensors_spec {first ts : List (Batch ℤ)} {hidden keep x tree kv draft : Batch ℤ}
    {m : Metadata} (hm : m.layout = some .specCompactV1)
    (h : pushTensors (some .specCompactV1) first [hidden, keep, x, tree, kv, draft] = some ts) :
    unpack ⟨ts, m⟩ = (reused true (some .specCompactV1) first).map fun t =>
      ⟨hidden, keep, t.1, t.2.1, t.2.2, some tree, some kv,
        if isDummy draft then none else some draft⟩ := by
  rcases first with
    - | ⟨a, - | ⟨b, - | ⟨c, - | ⟨d, - | ⟨e, - | ⟨prefill, - | ⟨prompts, - | ⟨hypoIds, rest⟩⟩⟩⟩⟩⟩⟩⟩ <;>
    simp [pushTensors] at h
  subst h
  simp [unpack, inferLayout, reused, hm]

theorem draft_getD (st : Step) :
    (if isDummy (st.draft.getD dummy) then none else some (st.draft.getD dummy)) = st.draft := by
  unfold Step.draft
  cases h : st.args.isSpecDec && !isDummy st.args.draftTokens with
  | false => rfl
  | true =>
    have hd : isDummy st.args.draftTokens = false := by simpa using (Bool.and_eq_true_iff.mp h).2
    simp [hd]

/-- The layouts that copies of the step at a server can name. -/
def Step.LayoutAt (st : Step) (i : ℕ) (layout : Option Layout) : Prop :=
  layout = some (st.args.layout (st.prompts i)) ∨ layout = none ∧ st.args.isSpecDec = false

theorem Step.LayoutAt.ne_spec {layout : Option Layout} (h : st.LayoutAt i layout)
    (hs : st.args.isSpecDec = false) : layout ≠ some .specCompactV1 := by
  rintro rfl
  rcases h with h | ⟨h, -⟩
  · exact layout_ne_spec hs _ (Option.some.inj h).symm
  · cases h

theorem Step.LayoutAt.spec {layout : Option Layout} (h : st.LayoutAt i layout)
    (hs : st.args.isSpecDec = true) : layout = some .specCompactV1 := by
  rcases h with h | ⟨-, h⟩
  · rw [h, layout_spec hs]
  · rw [hs] at h
    cases h

/-- A full-batch push of the server `i`: outputs of the step, and tensors of the first request
of the session. -/
structure Step.IsPush (st : Step) (i : ℕ) (layout : Option Layout) (full : ℕ) (p : Request)
    (keep : Batch ℤ) : Prop where
  unpack : unpack p = (reused st.args.isSpecDec layout (st.first i)).map fun t =>
    ⟨(st.stage i).outputs, keep, t.1, t.2.1, t.2.2,
      if st.args.isSpecDec then some st.args.treeAttentionMask else none,
      if st.args.isSpecDec then some st.args.kvCachePositionIds else none, st.draft⟩
  keep : st.start i = st.start (i + 1) → keep = st.keep (i + 1)
  isSpecDec : p.metadata.isSpecDec = st.args.isSpecDec
  needPruning : p.metadata.needPruning = false
  layout : p.metadata.layout = layout
  start : p.metadata.startFromPosition = st.start i
  full : p.metadata.fullBatchSize = full
  prefillLength : p.metadata.prefillLength = none
  batchOffset : p.metadata.batchOffset = none
  activeMask : p.metadata.activeMask = none

theorem isPush_pushFull {layout : Option Layout} {full : ℕ} {r p : Request} {f : Fields}
    (hal : st.Aligned) (hop : st.Hop i) (h : st.IsCopy i layout full r f)
    (hl : st.LayoutAt i layout) (hp : pushFull (st.stage i) (st.first i) r = some p) :
    st.IsPush i layout full p (keepAnswer (st.stage i) r.metadata f) := by
  simp only [pushFull, h.unpack, Option.bind_some, h.layout] at hp
  split_ifs at hp with hd
  obtain ⟨ts, hts, rfl⟩ := Option.map_eq_some_iff.mp hp
  refine ⟨?_, fun hstart => h.carries.keepAnswer hal hop hstart h.isSpecDec h.needPruning,
    h.isSpecDec, rfl, h.layout, h.start, h.full, h.prefillLength, rfl, rfl⟩
  have hlay : r.metadata.forward.layout = layout := h.layout
  cases hs : st.args.isSpecDec with
  | false =>
    have hm : r.metadata.isSpecDec = false := h.isSpecDec.trans hs
    have hfwd : r.metadata.forward.isSpecDec = false := hm
    simp only [outputTensors, hm, Bool.false_eq_true, if_false] at hts
    rw [unpack_pushTensors (hl.ne_spec hs) hlay hfwd hts]
    simp [Step.draft, hs]
  | true =>
    have hm : r.metadata.isSpecDec = true := h.isSpecDec.trans hs
    obtain rfl := hl.spec hs
    simp only [outputTensors, hm, if_true] at hts
    rw [unpack_pushTensors_spec hlay hts, h.carries.tree, h.carries.kv, h.carries.draft, draft_getD]
    simp [hs]

theorem prompts_of_pushFull {layout : Option Layout} {full : ℕ} {r p : Request} {f : Fields}
    (h : st.IsCopy i layout full r f) (hp : pushFull (st.stage i) (st.first i) r = some p) :
    isDummy st.args.prompts = true := by
  simp only [pushFull, h.unpack, Option.bind_some] at hp
  split_ifs at hp with hd
  rw [← h.prompts, hd]

/-- Where the hop agrees on the start position, a push is a copy for the next server. -/
theorem Step.IsPush.isCopy {layout : Option Layout} {full : ℕ} {p : Request} {keep : Batch ℤ}
    (hal : st.Aligned) (hop : st.Hop i) (h : st.IsPush i layout full p keep)
    (hprompts : isDummy st.args.prompts = true) (hstart : st.start i = st.start (i + 1))
    {t : Batch ℤ × Batch ℤ × Batch ℤ}
    (ht : reused st.args.isSpecDec layout (st.first i) = some t) (hd : isDummy t.2.1 = true) :
    st.IsCopy (i + 1) layout full p ⟨(st.stage i).outputs, keep, t.1, t.2.1, t.2.2,
      if st.args.isSpecDec then some st.args.treeAttentionMask else none,
      if st.args.isSpecDec then some st.args.kvCachePositionIds else none, st.draft⟩ := by
  refine ⟨by rw [h.unpack, ht, Option.map_some],
    ⟨hal.handed i hop hstart, h.keep hstart, rfl, rfl, rfl⟩, by rw [hprompts]; exact hd,
    h.isSpecDec, ?_, h.layout, h.start.trans hstart, h.full, h.prefillLength,
    fun _ => h.batchOffset, fun _ => h.activeMask⟩
  rw [h.needPruning]
  simp

theorem runFull_eq_some {s : Stage} {r : Request} {u : Run} (h : runFull s r = some u) :
    ∃ f, unpack r = some f ∧ u.startFromPosition = r.metadata.startFromPosition ∧
      u.prompts = if isDummy f.prompts then none else some f.prompts := by
  obtain ⟨f, hf, rfl⟩ := Option.map_eq_some_iff.mp h
  exact ⟨f, hf, rfl, rfl⟩

theorem run_direct_succ (hal : st.Aligned) (hop : st.Hop i) :
    ∃ prompts hypoIds, runFull (st.stage (i + 1)) (st.direct (i + 1)) =
        some (st.runWith (i + 1) prompts (st.fullBatchSize (i + 1)) (st.prefill (i + 1)) hypoIds) ∧
      (prompts = none ↔ isDummy st.args.prompts = true) ∧
      ∀ row, hypoAt hypoIds row = hypoAt st.args.hypoIds row := by
  obtain ⟨f, hf, hpre, hhypo⟩ := isCopy_direct hal hop.1
  refine ⟨_, f.hypoIds, by rw [hf.run (Nat.succ_pos i), hpre], ?_, hhypo⟩
  rw [← hf.prompts]
  cases isDummy f.prompts <;> simp

/-- A full-batch push makes the next server run as the client's request does exactly if it
agrees with it. -/
theorem Step.IsPush.run_iff {layout : Option Layout} {full : ℕ} {p : Request} {keep : Batch ℤ}
    (hal : st.Aligned) (hop : st.Hop i) (h : st.IsPush i layout full p keep)
    (hd : isDummy st.args.prompts = true) :
    runFull (st.stage (i + 1)) p = runFull (st.stage (i + 1)) (st.direct (i + 1)) ↔
      st.PushAgrees i layout full := by
  obtain ⟨prompts, hypoIds, hdirect, hprompts, hhypo⟩ := run_direct_succ hal hop
  obtain rfl : prompts = none := hprompts.mpr hd
  -- a copy with the tensors `t` of the first request
  have hcopy : ∀ {t : Batch ℤ × Batch ℤ × Batch ℤ}, st.start i = st.start (i + 1) →
      reused st.args.isSpecDec layout (st.first i) = some t → isDummy t.2.1 = true →
      (runFull (st.stage (i + 1)) p = runFull (st.stage (i + 1)) (st.direct (i + 1)) ↔
        st.FullAgrees (i + 1) full ∧ ∀ row < st.rowCount (i + 1),
          prefillAt t.1 row = prefillAt (st.prefill (i + 1)) row ∧
          hypoAt t.2.2 row = hypoAt st.args.hypoIds row) := by
    intro t hstart ht hdummy
    rw [(h.isCopy hal hop hd hstart ht hdummy).run (Nat.succ_pos i), hdirect, Option.some.injEq,
      if_pos hdummy, runWith_inj]
    simp only [hhypo, true_and]
    rfl
  constructor
  · intro hrun
    obtain ⟨g, hg, hstart, hnone⟩ := runFull_eq_some (hrun.trans hdirect)
    rw [h.unpack] at hg
    obtain ⟨t, ht, rfl⟩ := Option.map_eq_some_iff.mp hg
    have hstart : st.start i = st.start (i + 1) := h.start.symm.trans hstart.symm
    have hdummy : isDummy t.2.1 = true := by
      by_contra hc
      simp [Step.runWith, hc] at hnone
    obtain ⟨hfull, hrows⟩ := (hcopy hstart ht hdummy).mp hrun
    exact ⟨hstart, hfull, t.1, t.2.1, t.2.2, ht, hdummy, hrows⟩
  · rintro ⟨hstart, hfull, prefill, prompts, hypo, ht, hdummy, hrows⟩
    exact (hcopy hstart ht hdummy).mpr ⟨hfull, hrows⟩

end BloomBee.PushPath

/-! ### Micro-batches -/

namespace BloomBee.PushPath

open RpcInference

namespace Step

variable (st : Step)

/-- The micro-batches of the step at the server `i`. -/
structure IsSplit (i : ℕ) (ms : MicroBatches) : Prop where
  regular : st.args.isSpecDec = false
  tokens : st.args.tokens ≠ 0
  parts : ∃ ranges, Tiles 0 st.args.batch ranges ∧ ranges ≠ [] ∧ (∀ r ∈ ranges, r.1 < r.2) ∧
    ms.parts = ranges.map fun r =>
      ⟨r.1, r.2 - r.1, (st.stage i).inputs.width, (st.keep i).slice r.1 r.2⟩
  isSpecDec : ms.metadata.isSpecDec = false
  layout : ms.metadata.layout = none
  start : ms.metadata.startFromPosition = st.start i
  full : ms.metadata.fullBatchSize = st.args.batch
  prefillLength : ms.metadata.prefillLength = none
  activeMask : ms.metadata.activeMask = none

/-- When the micro-batches of the server `i` agree with the client's request to the next one:
both begin at one position, and the client sends nothing but what a micro-batch stands for. -/
def MicroBatchesAgree (i : ℕ) : Prop :=
  st.start i = st.start (i + 1) ∧ st.FullAgrees (i + 1) st.args.batch ∧
    isDummy st.args.prompts = true ∧ ∀ row < st.args.batch,
      prefillAt (st.prefill (i + 1)) row = some 0 ∧ hypoAt st.args.hypoIds row = some (row : ℤ)

end Step

variable {st : Step} {i : ℕ}

theorem keep_regular (hs : st.args.isSpecDec = false) (i : ℕ) :
    st.keep i = defaultKeep st.args.batch st.args.tokens := by
  simp [Step.keep, Step.laterKeep, Step.initialKeep, hs]

theorem keep_rows (hs : st.args.isSpecDec = false) (i : ℕ) :
    (st.keep i).rows.length = st.args.batch := by
  simp [keep_regular hs, defaultKeep]

theorem rowCount_regular (hal : st.Aligned) (hs : st.args.isSpecDec = false) (hi : i < st.length) :
    st.rowCount i = st.args.batch := by
  simp [Step.rowCount, Step.draft, hs, hal.rows hs i hi]

/-- What the server `i` runs micro-batches with. -/
theorem Step.IsSplit.run {ms : MicroBatches} (h : st.IsSplit i ms) :
    runMicroBatches ms =
      { prompts := none
        treeAttentionMask := none
        kvCachePositionIds := none
        startFromPosition := st.start i
        fullBatchSize := st.args.batch
        rows := (List.range st.args.batch).map fun row =>
          ⟨row, some (row : ℤ), (st.keep i).rows[row]?, some 0, none⟩ } := by
  obtain ⟨ranges, ht, hne, hlt, hparts⟩ := h.parts
  simp only [runMicroBatches, h.start, h.full, h.prefillLength, h.activeMask, liveActiveMask,
    hparts, List.flatMap_map, Run.mk.injEq, true_and]
  rw [← ht.flatMap_range fun row =>
    (⟨row, some (row : ℤ), (st.keep i).rows[row]?, some 0, none⟩ : RowRun)]
  refine List.flatMap_congr fun r hr => List.map_congr_left fun row hrow => ?_
  have hrow : row < r.2 - r.1 := List.mem_range.mp hrow
  simp [Batch.slice, hrow]

theorem Step.IsSplit.batch_pos {ms : MicroBatches} (h : st.IsSplit i ms) : st.args.batch ≠ 0 := by
  obtain ⟨ranges, ht, hne, hlt, -⟩ := h.parts
  obtain ⟨r, rest, rfl⟩ := List.exists_cons_of_ne_nil hne
  have h₁ := hlt r List.mem_cons_self
  have h₂ := (ht.mem List.mem_cons_self).2.2
  omega

/-- Micro-batches make a server run as the client's request does exactly if that says nothing
but their defaults. -/
theorem Step.IsSplit.run_iff {ms : MicroBatches} (hal : st.Aligned) (hop : st.Hop i)
    (h : st.IsSplit (i + 1) ms) :
    some (runMicroBatches ms) = runFull (st.stage (i + 1)) (st.direct (i + 1)) ↔
      st.FullAgrees (i + 1) st.args.batch ∧ isDummy st.args.prompts = true ∧
        ∀ row < st.args.batch, prefillAt (st.prefill (i + 1)) row = some 0 ∧
          hypoAt st.args.hypoIds row = some (row : ℤ) := by
  obtain ⟨prompts, hypoIds, hdirect, hprompts, hhypo⟩ := run_direct_succ hal hop
  have hrows : st.rowCount (i + 1) = st.args.batch := rowCount_regular hal h.regular hop.1
  have hfull : (st.args.batch = if st.splits (i + 1) then st.args.batch else
      fullBatch (st.fullBatchSize (i + 1)) st.args.batch) ↔ st.FullAgrees (i + 1) st.args.batch := by
    unfold Step.FullAgrees
    rw [hrows, show fullBatch st.args.batch st.args.batch = st.args.batch from if_neg h.batch_pos]
    cases st.splits (i + 1) <;> simp
  rw [h.run, hdirect, Option.some.injEq, ← hprompts]
  simp only [Step.runWith, h.regular, hrows, Run.mk.injEq, Bool.false_eq_true, if_false, true_and,
    List.map_inj_left, List.mem_range, RowRun.mk.injEq, and_true, hfull, hhypo]
  constructor
  · rintro ⟨hp, hf, hr⟩
    exact ⟨hf, hp.symm, fun row hlt => ⟨(hr row hlt).2.symm, (hr row hlt).1.symm⟩⟩
  · rintro ⟨hf, hp, hr⟩
    exact ⟨hp.symm, hf, fun row hlt => ⟨(hr row hlt).2.symm, (hr row hlt).1.symm⟩⟩

/-- The keep indices of a part with rows stay as they are. -/
theorem normalize_slice (hs : st.args.isSpecDec = false) (ht : st.args.tokens ≠ 0) {a b width : ℕ}
    (hlt : a < b) (hle : b ≤ st.args.batch) :
    normalizeKeepIndices (b - a) width ((st.keep i).slice a b) = (st.keep i).slice a b := by
  have hrows : ((st.keep i).slice a b).rows.length = b - a := by
    simp only [Batch.slice, List.length_take, List.length_drop, keep_rows hs]
    omega
  refine normalizeKeepIndices_of_rows ?_ hrows
  have hw : ((st.keep i).slice a b).width = st.args.tokens := by simp [Batch.slice, keep_regular hs, defaultKeep]
  rw [Batch.numel, hrows, hw]
  exact Nat.mul_ne_zero (by omega) ht

theorem start_of_run_eq {ms : MicroBatches} (hal : st.Aligned) (hop : st.Hop i)
    (h : some (runMicroBatches ms) = runFull (st.stage (i + 1)) (st.direct (i + 1))) :
    ms.metadata.startFromPosition = st.start (i + 1) := by
  obtain ⟨prompts, hypoIds, hdirect, -, -⟩ := run_direct_succ hal hop
  rw [hdirect, Option.some.injEq] at h
  exact congrArg Run.startFromPosition h

theorem pushSplit_eq_some {layout : Option Layout} {full : ℕ} {r : Request} {f : Fields}
    {ms : MicroBatches} (h : st.IsCopy i layout full r f)
    (hp : pushSplit (st.stage i) r = some ms) :
    st.args.isSpecDec = false ∧ st.splits i = true ∧ ms = ⟨pushParts (st.stage i) f,
      { r.metadata.forward with
        layout := none
        fullBatchSize := f.hidden.rows.length
        microBatchSize := (st.stage i).config.microBatchSize.getD 0 }⟩ := by
  simp only [pushSplit, h.unpack, Option.bind_some] at hp
  split_ifs at hp with hc
  simp only [Bool.and_eq_true, Bool.not_eq_true', h.isSpecDec] at hc
  refine ⟨hc.1, ?_, (Option.some.inj hp).symm⟩
  rw [← h.carries.splits, hc.1]
  exact hc.2

theorem pushSplit_of_splits {layout : Option Layout} {full : ℕ} {r : Request} {f : Fields}
    (h : st.IsCopy i layout full r f) (hs : st.args.isSpecDec = false) (hsp : st.splits i = true) :
    ∃ ms, pushSplit (st.stage i) r = some ms := by
  rw [← h.carries.splits, hs] at hsp
  simp [pushSplit, h.unpack, h.isSpecDec, hs, hsp]

theorem isSplit_pushSplit {layout : Option Layout} {full : ℕ} {r : Request} {f : Fields}
    {ms : MicroBatches} (hal : st.Aligned) (hop : st.Hop i) (h : st.IsCopy i layout full r f)
    (hp : pushSplit (st.stage i) r = some ms) (hstart : st.start i = st.start (i + 1)) :
    st.IsSplit (i + 1) ms := by
  obtain ⟨hs, hsp, rfl⟩ := pushSplit_eq_some h hp
  have hi : i < st.length := Nat.lt_of_succ_lt hop.1
  have hrows : f.hidden.rows.length = st.args.batch := by rw [h.carries.hidden, hal.rows hs i hi]
  have hwidth : (st.stage i).inputs.width = st.args.tokens := hal.width hs i hop hstart
  rw [Step.splits, rowCount_regular hal hs hi, Bool.and_eq_true, decide_eq_true_eq] at hsp
  obtain ⟨hnumel, hsplit⟩ := hsp
  have htok : st.args.tokens ≠ 0 := by
    rw [← hwidth]
    exact fun h0 => hnumel (by rw [Batch.numel, h0, Nat.mul_zero])
  obtain ⟨size, hsize, hpos, hlt⟩ : ∃ size, (st.stage i).config.microBatchSize = some size ∧
      0 < size ∧ size < st.args.batch := by
    unfold shouldSplitBatch at hsplit
    split at hsplit
    · cases hsplit
    · rename_i m hm
      simp only [Bool.and_eq_true, decide_eq_true_eq] at hsplit
      exact ⟨m, hm, hsplit⟩
  obtain ⟨htiles, hrange⟩ := tiles_computeMicroBatchRanges hpos (Nat.lt_trans hpos hlt)
  refine ⟨hs, htok, ⟨computeMicroBatchRanges size st.args.batch, htiles, ?_, hrange, ?_⟩, ?_, rfl,
    h.start.trans hstart, hrows, h.prefillLength, rfl⟩
  · intro hnil
    obtain ⟨r, hr, -⟩ := htiles.exists_of_lt (Nat.le_refl 0) (Nat.lt_trans hpos hlt)
    rw [hnil] at hr
    cases hr
  · simp only [pushParts, hsize, Option.getD_some, hrows, h.carries.keep, keep_rows hs, if_true]
    refine List.map_congr_left fun r hr => ?_
    rw [normalize_slice hs htok (hrange r hr) (htiles.mem hr).2.2, hal.handed i hop hstart,
      keep_regular hs i, keep_regular hs (i + 1)]
  · exact h.isSpecDec.trans hs

/-- A server leaves the keep indices of its micro-batches as they are. -/
theorem Step.IsSplit.answers {ms : MicroBatches} (h : st.IsSplit i ms) {ranges : List (ℕ × ℕ)}
    (ht : Tiles 0 st.args.batch ranges) (hlt : ∀ r ∈ ranges, r.1 < r.2)
    (hparts : ms.parts = ranges.map fun r =>
      ⟨r.1, r.2 - r.1, (st.stage i).inputs.width, (st.keep i).slice r.1 r.2⟩) :
    ms.parts.map MicroBatchPush.answer = ranges.map fun r => (st.keep i).slice r.1 r.2 := by
  rw [hparts, List.map_map]
  refine List.map_congr_left fun r hr => ?_
  exact normalize_slice h.regular h.tokens (hlt r hr) (ht.mem hr).2.2

theorem isSplit_relayParts {ms : MicroBatches} (hal : st.Aligned) (hop : st.Hop i)
    (h : st.IsSplit i ms) (hstart : st.start i = st.start (i + 1)) :
    st.IsSplit (i + 1) (relayParts (st.stage i) ms) := by
  obtain ⟨ranges, ht, hne, hlt, hparts⟩ := h.parts
  refine ⟨h.regular, h.tokens, ⟨ranges, ht, hne, hlt, ?_⟩, h.isSpecDec, h.layout,
    h.start.trans hstart, h.full, h.prefillLength, h.activeMask⟩
  simp only [relayParts, hparts, List.map_map]
  refine List.map_congr_left fun r hr => ?_
  simp only [Function.comp_apply, MicroBatchPush.answer]
  rw [normalize_slice h.regular h.tokens (hlt r hr) (ht.mem hr).2.2, hal.handed i hop hstart,
    keep_regular h.regular i, keep_regular h.regular (i + 1)]

/-- The merged outputs of all micro-batches are pushed like those of a full batch, with no
layout named. -/
theorem isPush_pushMerged {ms : MicroBatches} {p : Request} (h : st.IsSplit i ms)
    (hp : pushMerged (st.stage i) (st.first i) ms = some p) :
    st.IsPush i none st.args.batch p (st.keep i) := by
  obtain ⟨ranges, ht, hne, hlt, hparts⟩ := h.parts
  have hmerged : mergeMicrobatchOutputs (-1) (ms.parts.map MicroBatchPush.answer) = st.keep i := by
    rw [h.answers ht hlt hparts]
    exact merge_slices (by rw [keep_rows h.regular]; exact ht) hne
  rw [pushMerged, hmerged, h.layout] at hp
  obtain ⟨ts, hts, rfl⟩ := Option.map_eq_some_iff.mp hp
  have hlay : ms.metadata.forward.layout = none := h.layout
  have hspec : ms.metadata.forward.isSpecDec = false := h.isSpecDec
  refine ⟨?_, fun _ => ?_, hspec.trans h.regular.symm, rfl, h.layout, h.start, h.full,
    h.prefillLength, rfl, rfl⟩
  · rw [unpack_pushTensors (by decide) hlay hspec hts, h.regular]
    simp [Step.draft, h.regular]
  · rw [keep_regular h.regular, keep_regular h.regular]

end BloomBee.PushPath
