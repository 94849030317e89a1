import BloomBee.Spec.MicrobatchSlice

/-! The fields of the micro-batches of a request. Rows come in order and what is not per row comes
whole, save for keep indices of one dimension that happen to be as many as the rows. -/

set_option autoImplicit false

namespace BloomBee.MicrobatchSlice

open NDArray

variable {τ α β : Type} {batchSize : ℕ}

def part (batchSize : ℕ) (f : Field α β) (r : ℕ × ℕ) : Field α β :=
  (sliceBatchAligned f r.1 r.2 batchSize).getD f

theorem sliceRows_eq (t : NDArray α) (hd : 0 < t.shape.length) (r : ℕ × ℕ) :
    sliceRows t r.1 r.2 = some (t.restrict 0 r.1 (r.2 - r.1) hd) := dif_pos hd

theorem sliceBatchAligned_tensor {t : NDArray α} (hn : t.numel ≠ 0) (hd : 0 < t.shape.length)
    (hrows : t.size 0 = batchSize) (r : ℕ × ℕ) :
    sliceBatchAligned (.tensor t : Field α β) r.1 r.2 batchSize =
      some (.tensor (t.restrict 0 r.1 (r.2 - r.1) hd)) := by
  have hdummy : ¬(isDummy t = true) := by simpa [isDummy] using hn
  simp only [sliceBatchAligned, if_neg hdummy, if_neg (Nat.ne_of_gt hd), if_pos hrows, sliceRows_eq t hd]
  rfl

theorem sliceBatchAligned_of_not_perRow {f : Field α β} (h : ¬f.PerRow batchSize) (r : ℕ × ℕ) :
    sliceBatchAligned f r.1 r.2 batchSize = some f := by
  cases f with
  | none => rfl
  | other v => rfl
  | tensor t =>
    simp only [sliceBatchAligned]
    split_ifs with hdummy hscalar hrows
    · rfl
    · rfl
    · exact absurd ⟨t, rfl, by simpa [isDummy] using hdummy, hscalar, hrows⟩ h
    · rfl

theorem sliceBatchAligned_eq_part (f : Field α β) (r : ℕ × ℕ) :
    sliceBatchAligned f r.1 r.2 batchSize = some (part batchSize f r) := by
  rw [part]
  by_cases h : f.PerRow batchSize
  · obtain ⟨t, rfl, hn, hd, hrows⟩ := h
    rw [sliceBatchAligned_tensor hn (Nat.pos_of_ne_zero hd) hrows]
    rfl
  · rw [sliceBatchAligned_of_not_perRow h]
    rfl

theorem part_tensor {t : NDArray α} (hn : t.numel ≠ 0) (hd : 0 < t.shape.length)
    (hrows : t.size 0 = batchSize) (r : ℕ × ℕ) :
    part batchSize (.tensor t : Field α β) r = .tensor (t.restrict 0 r.1 (r.2 - r.1) hd) := by
  rw [part, sliceBatchAligned_tensor hn hd hrows]
  rfl

theorem part_of_not_perRow {f : Field α β} (h : ¬f.PerRow batchSize) (r : ℕ × ℕ) :
    part batchSize f r = f := by
  rw [part, sliceBatchAligned_of_not_perRow h]
  rfl

/-- Hypothesis ids of an accepted request are cut as the other fields are. -/
theorem sliceHypoIds_eq {r : Fields τ α β} (h : Accepted batchSize r) (q : ℕ × ℕ) :
    sliceHypoIds r.hypoIds q.1 q.2 = some (part batchSize r.hypoIds q) := by
  rcases h.hypoIds with hnone | ⟨t, ht, h0⟩ | ⟨t, ht, hn, hd, hrows⟩
  · rw [hnone]
    rfl
  · have hdummy : isDummy t = true := by simpa [isDummy] using h0
    rw [ht, part_of_not_perRow]
    · simp only [sliceHypoIds, if_pos hdummy]
    · rintro ⟨u, hu, hun, -⟩
      obtain rfl : t = u := by simpa using hu
      exact hun h0
  · have hdummy : ¬(isDummy t = true) := by simpa [isDummy] using hn
    rw [ht, part_tensor hn (Nat.pos_of_ne_zero hd) hrows]
    simp only [sliceHypoIds, if_neg hdummy, sliceRows_eq t (Nat.pos_of_ne_zero hd)]
    rfl

def microbatch (batchSize : ℕ) (r : Fields τ α β) (hidden : NDArray τ) (q : ℕ × ℕ) :
    MicrobatchInputs τ α β :=
  ⟨⟨hidden, part batchSize r.hypoIds q, part batchSize r.treeAttentionMask q,
      part batchSize r.kvCachePositionIds q, part batchSize r.draftTokens q,
      part batchSize r.prefillLength q, part batchSize r.keepIndices q,
      part batchSize r.activeMask q⟩,
    q.1, batchSize, q.2 - q.1⟩

theorem sliceMicrobatchInputs_eq {r : Fields τ α β} (h : Accepted batchSize r)
    (hd : 0 < r.hiddenStates.shape.length) (q : ℕ × ℕ) :
    sliceMicrobatchInputs r q.1 q.2 batchSize =
      some (microbatch batchSize r (r.hiddenStates.restrict 0 q.1 (q.2 - q.1) hd) q) := by
  simp only [sliceMicrobatchInputs, sliceHypoIds_eq h, sliceRows_eq _ hd, sliceKeepIndices,
    sliceBatchAligned_eq_part, Option.bind_eq_bind, Option.bind_some]
  rfl

section Ranges

variable {ranges : List (ℕ × ℕ)}

/-- Each field that is cut along its rows, or not at all, is carried. -/
theorem carried_part (tiles : Tiles 0 batchSize ranges) (hne : ranges ≠ []) (f : Field α β) :
    Carried (f.PerRow batchSize) f (ranges.map (part batchSize f)) := by
  constructor
  · rintro ⟨t, rfl, hn, hd, rfl⟩
    have hd' := Nat.pos_of_ne_zero hd
    refine ⟨t, ranges.map fun q => t.restrict 0 q.1 (q.2 - q.1) hd', rfl, ?_,
      cat_slices t hd' tiles hne⟩
    rw [List.map_map]
    exact List.map_congr_left fun q _ => part_tensor hn hd' rfl q
  · intro h p hp
    obtain ⟨q, -, rfl⟩ := List.mem_map.1 hp
    exact part_of_not_perRow h q

/-- A slice of a vector is the vector only where it is all of it. -/
theorem restrict_eq_self_iff {t : NDArray α} (hd : 0 < t.shape.length) {q : ℕ × ℕ}
    (hq : q.2 ≤ t.size 0) (hpos : 0 < t.size 0) :
    t.restrict 0 q.1 (q.2 - q.1) hd = t ↔ q = (0, t.size 0) := by
  constructor
  · intro h
    have hsize := size_restrict t q.1 (q.2 - q.1) hd
    rw [h] at hsize
    exact Prod.ext (by dsimp only; omega) (by dsimp only; omega)
  · rintro rfl
    exact restrict_whole t hd

theorem carried_keepIndices_iff (tiles : Tiles 0 batchSize ranges) (hne : ranges ≠ [])
    (f : Field α β) :
    Carried (f.KeepPerRow batchSize) f (ranges.map (part batchSize f)) ↔
      (f.GlobalOfLength batchSize → ∀ q ∈ ranges, q = (0, batchSize)) := by
  by_cases hkeep : f.KeepPerRow batchSize
  · -- rows: cut as the other fields are, and of two dimensions at least
    obtain ⟨t, rfl, hn, htwo, hrows⟩ := hkeep
    refine iff_of_true ⟨fun _ => ?_, fun h => absurd ⟨t, rfl, hn, htwo, hrows⟩ h⟩ ?_
    · exact (carried_part tiles hne (.tensor t)).1 ⟨t, rfl, hn, by omega, hrows⟩
    · rintro ⟨u, hu, -, hshape⟩
      obtain rfl : t = u := by simpa using hu
      rw [hshape] at htwo
      exact absurd htwo (Nat.not_succ_le_self 1)
  · have hcarried : Carried (f.KeepPerRow batchSize) f (ranges.map (part batchSize f)) ↔
        ∀ q ∈ ranges, part batchSize f q = f := by
      refine ⟨fun h q hq => h.2 hkeep _ (List.mem_map_of_mem hq), fun h => ⟨fun hk => absurd hk hkeep, ?_⟩⟩
      intro _ p hp
      obtain ⟨q, hq, rfl⟩ := List.mem_map.1 hp
      exact h q hq
    rw [hcarried]
    by_cases hrow : f.PerRow batchSize
    · -- one dimension, and as many entries as rows
      obtain ⟨t, rfl, hn, hd, rfl⟩ := hrow
      have hd' := Nat.pos_of_ne_zero hd
      have hone : t.shape.length = 1 := by
        by_contra hmany
        exact hkeep ⟨t, rfl, hn, by omega, rfl⟩
      obtain ⟨n, hshape⟩ := List.length_eq_one_iff.1 hone
      have hsize : t.size 0 = n := by rw [NDArray.size, hshape]; rfl
      have hpos : 0 < t.size 0 := by
        rw [NDArray.numel, hshape] at hn
        simpa [hsize, Nat.pos_iff_ne_zero] using hn
      have hglobal : (Field.tensor t : Field α β).GlobalOfLength (t.size 0) :=
        ⟨t, rfl, hn, by rw [hsize, hshape]⟩
      refine ⟨fun h _ q hq => ?_, fun h q hq => ?_⟩
      · have hpart := h q hq
        rw [part_tensor hn hd' rfl, Field.tensor.injEq] at hpart
        exact (restrict_eq_self_iff hd' (tiles.mem hq).2.2 hpos).1 hpart
      · rw [part_tensor hn hd' rfl,
          (restrict_eq_self_iff hd' (tiles.mem hq).2.2 hpos).2 (h hglobal q hq)]
    · refine iff_of_true (fun q _ => part_of_not_perRow hrow q) ?_
      rintro ⟨t, rfl, hn, hshape⟩
      refine absurd ⟨t, rfl, hn, ?_, ?_⟩ hrow
      · rw [hshape]
        exact Nat.one_ne_zero
      · rw [NDArray.size, hshape]
        rfl

section Accepted

variable {r : Fields τ α β} (h : Accepted batchSize r) (hd : 0 < r.hiddenStates.shape.length)
include h hd

theorem mapM_sliceMicrobatchInputs (ranges : List (ℕ × ℕ)) :
    (ranges.mapM fun q => sliceMicrobatchInputs r q.1 q.2 batchSize) =
      some (ranges.map fun q =>
        microbatch batchSize r (r.hiddenStates.restrict 0 q.1 (q.2 - q.1) hd) q) := by
  have hsome : (fun q : ℕ × ℕ => sliceMicrobatchInputs r q.1 q.2 batchSize) = fun q =>
      some (microbatch batchSize r (r.hiddenStates.restrict 0 q.1 (q.2 - q.1) hd) q) :=
    funext fun q => sliceMicrobatchInputs_eq h hd q
  rw [hsome]
  exact List.mapM_pure

theorem carriedAll_iff (tiles : Tiles 0 batchSize ranges) (hne : ranges ≠ []) :
    CarriedAll batchSize r (ranges.map fun q =>
        microbatch batchSize r (r.hiddenStates.restrict 0 q.1 (q.2 - q.1) hd) q) ↔
      (r.keepIndices.GlobalOfLength batchSize → ∀ q ∈ ranges, q = (0, batchSize)) := by
  have hkeep := carried_keepIndices_iff tiles hne r.keepIndices
  constructor
  · intro hall
    refine hkeep.1 ?_
    have hmbs := hall.keepIndices
    rwa [List.map_map] at hmbs
  · intro hcond
    have hfield : ∀ (f : Field α β) (mb : ℕ × ℕ → MicrobatchInputs τ α β)
        (g : MicrobatchInputs τ α β → Field α β), (∀ q, g (mb q) = part batchSize f q) →
          Carried (f.PerRow batchSize) f ((ranges.map mb).map g) := by
      intro f mb g hg
      have hmap : (ranges.map mb).map g = ranges.map (part batchSize f) := by
        rw [List.map_map]
        exact List.map_congr_left fun q _ => hg q
      rw [hmap]
      exact carried_part tiles hne f
    refine ⟨?_, hfield _ _ _ fun _ => rfl, hfield _ _ _ fun _ => rfl, hfield _ _ _ fun _ => rfl,
      hfield _ _ _ fun _ => rfl, hfield _ _ _ fun _ => rfl, ?_, hfield _ _ _ fun _ => rfl⟩
    · rw [List.map_map]
      exact cat_slices r.hiddenStates hd (h.hiddenStates.2 ▸ tiles) hne
    · rw [List.map_map]
      exact hkeep.2 hcond

end Accepted

end Ranges

theorem Accepted.hidden_pos {r : Fields τ α β} (h : Accepted batchSize r) :
    0 < r.hiddenStates.shape.length := by
  rw [h.hiddenStates.1]
  exact Nat.succ_pos 2

/-- The micro-batches of a request carry its fields, but where one-dimensional keep indices are as
many as the rows and the batch is cut. -/
theorem sliceMicrobatchInputs_carriedAll_iff {r : Fields τ α β} {ranges : List (ℕ × ℕ)}
    (h : Accepted batchSize r) (tiles : Tiles 0 batchSize ranges) (hne : ranges ≠ []) :
    ∃ mbs, (ranges.mapM fun q => sliceMicrobatchInputs r q.1 q.2 batchSize) = some mbs ∧
      (mbs.map fun mb => (mb.batchOffset, mb.microBatchSize, mb.fullBatchSize)) =
        ranges.map (fun q => (q.1, q.2 - q.1, batchSize)) ∧
      (CarriedAll batchSize r mbs ↔
        (r.keepIndices.GlobalOfLength batchSize → ∀ q ∈ ranges, q = (0, batchSize))) := by
  refine ⟨_, mapM_sliceMicrobatchInputs h h.hidden_pos ranges, ?_,
    carriedAll_iff h h.hidden_pos tiles hne⟩
  rw [List.map_map]
  rfl

/-! ### The positions that are kept -/

theorem take_drop_replicate {γ : Type} {q : ℕ × ℕ} (hq : q.2 ≤ batchSize) (x : γ) :
    ((List.replicate batchSize x).drop q.1).take (q.2 - q.1) = List.replicate (q.2 - q.1) x := by
  rw [List.drop_replicate, List.take_replicate, Nat.min_eq_left (by omega)]

/-- The backend keeps of the rows of a micro-batch what it keeps of them in the whole batch, where
its keep indices are per row, or of fewer dimensions and not cut. -/
theorem normalizeKeepIndices_part {f : Field ℤ β} {q : ℕ × ℕ} (hlt : q.1 < q.2)
    (hq : q.2 ≤ batchSize) (seqLen : ℕ)
    (hf : f.KeepPerRow batchSize ∨ ∀ t, f = .tensor t → t.numel ≠ 0 → t.shape.length ≤ 1)
    (hwhole : f.GlobalOfLength batchSize → q = (0, batchSize)) :
    normalizeKeepIndices (part batchSize f q) (q.2 - q.1) seqLen =
      (normalizeKeepIndices f batchSize seqLen).map fun rows => (rows.drop q.1).take (q.2 - q.1) := by
  rcases hf with ⟨t, rfl, hn, htwo, hrows⟩ | hf
  · have hd : 0 < t.shape.length := by omega
    have hn' := numel_restrict_ne_zero hd hn hlt (hrows ▸ hq)
    have hsize : (t.restrict 0 q.1 (q.2 - q.1) hd).size 0 = q.2 - q.1 := by
      rw [size_restrict]
      omega
    have hlen : (t.restrict 0 q.1 (q.2 - q.1) hd).shape.length = t.shape.length := List.length_set
    have hdummy : ¬(isDummy t = true) := by simpa [isDummy] using hn
    have hdummy' : ¬(isDummy (t.restrict 0 q.1 (q.2 - q.1) hd) = true) := by
      simpa [isDummy] using hn'
    rw [part_tensor hn hd hrows]
    simp only [normalizeKeepIndices, if_neg hdummy, if_neg hdummy', hlen,
      if_neg (Nat.not_le_of_lt htwo), hsize, hrows]
    rw [if_neg (by omega), if_neg (by omega), if_neg (by omega), if_neg (by omega),
      rows_restrict t hd (hrows ▸ hq)]
    rfl
  · -- the field is not cut, and the same row goes to every row
    have hpart : part batchSize f q = f := by
      by_cases hrow : f.PerRow batchSize
      · obtain ⟨t, rfl, hn, hd, hrows⟩ := hrow
        obtain ⟨n, hshape⟩ := List.length_eq_one_iff.1
          (Nat.le_antisymm (hf t rfl hn) (Nat.pos_of_ne_zero hd))
        have hsize : t.size 0 = n := by rw [NDArray.size, hshape]; rfl
        rw [hwhole ⟨t, rfl, hn, by rw [hshape, ← hsize, hrows]⟩, part_tensor hn
          (Nat.pos_of_ne_zero hd) hrows, ← hrows]
        exact congrArg _ (restrict_whole t (Nat.pos_of_ne_zero hd))
      · exact part_of_not_perRow hrow q
    rw [hpart]
    cases f with
    | none => exact congrArg some (take_drop_replicate hq _).symm
    | other v => rfl
    | tensor t =>
      by_cases hdummy : isDummy t = true
      · simp only [normalizeKeepIndices, if_pos hdummy, Option.map_some, take_drop_replicate hq]
      · have hone := hf t rfl (by simpa [isDummy] using hdummy)
        simp only [normalizeKeepIndices, if_neg hdummy, if_pos hone, Option.map_some,
          take_drop_replicate hq]

def twoPrompts : Fields ℤ ℤ Unit :=
  ⟨NDArray.full [2, 2, 1] 0, .none, .none, .none, .none, .none, .tensor (NDArray.vector [0, 1]), .none⟩

theorem twoPrompts_accepted : Accepted 2 twoPrompts := ⟨⟨rfl, rfl⟩, .inl rfl⟩

/-- Row by row, a micro-batch gets the indices of one token only. -/
theorem twoPrompts_cut :
    Accepted 2 twoPrompts ∧ Tiles 0 2 [(0, 1), (1, 2)] ∧
      (¬∃ mbs, ([(0, 1), (1, 2)].mapM fun q : ℕ × ℕ => sliceMicrobatchInputs twoPrompts q.1 q.2 2) =
          some mbs ∧ CarriedAll 2 twoPrompts mbs) ∧
      normalizeKeepIndices twoPrompts.keepIndices 2 2 = some [[0, 1], [0, 1]] ∧
      ∃ mb, sliceMicrobatchInputs twoPrompts 0 1 2 = some mb ∧
        normalizeKeepIndices mb.keepIndices 1 2 = some [[0]] := by
  have htiles : Tiles 0 2 [(0, 1), (1, 2)] :=
    .cons (Nat.zero_le 1) (.singleton (Nat.le_succ 1))
  refine ⟨twoPrompts_accepted, htiles, ?_, rfl, _, rfl, rfl⟩
  rintro ⟨mbs, hrun, hall⟩
  rw [mapM_sliceMicrobatchInputs twoPrompts_accepted (Nat.succ_pos 2)] at hrun
  rw [← Option.some.inj hrun] at hall
  have hglobal : twoPrompts.keepIndices.GlobalOfLength 2 := ⟨_, rfl, Nat.succ_ne_zero 1, rfl⟩
  have hwhole := (carriedAll_iff twoPrompts_accepted (Nat.succ_pos 2) htiles
    (List.cons_ne_nil _ _)).1 hall hglobal (0, 1) List.mem_cons_self
  exact absurd hwhole (by decide)

/-- In one range the batch keeps them all. -/
theorem twoPrompts_whole :
    ∃ mbs, ([(0, 2)].mapM fun q : ℕ × ℕ => sliceMicrobatchInputs twoPrompts q.1 q.2 2) = some mbs ∧
      (mbs.map fun mb => (mb.batchOffset, mb.microBatchSize, mb.fullBatchSize)) = [(0, 2, 2)] ∧
      (CarriedAll 2 twoPrompts mbs ↔
        (twoPrompts.keepIndices.GlobalOfLength 2 → ∀ q ∈ [(0, 2)], q = (0, 2))) :=
  sliceMicrobatchInputs_carriedAll_iff twoPrompts_accepted (.singleton (Nat.zero_le 2))
    (List.cons_ne_nil _ _)

end BloomBee.MicrobatchSlice
