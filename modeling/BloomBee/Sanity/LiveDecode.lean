import BloomBee.Sanity.RowRuns
import BloomBee.Sanity.RpcRows
import BloomBee.Spec.LiveDecode

/-! What the row runs of a submission write (`writeRuns_activePositionRowRuns`): every active
row takes its new slots at its own position, and no other row is touched. Then the metadata that
the full-batch path gives to a submission. -/

set_option autoImplicit false

namespace BloomBee.LiveDecode

open RpcInference

variable {κ : Type}

/-! ### Rows with their own starts -/

/-- The slab after new slots of the rows that have some, each at its own start. -/
def place (slab : Slab κ) (new : ℕ → Option (ℕ × List κ)) : Slab κ where
  seqLen := slab.seqLen
  batch := slab.batch
  row b :=
    match new b with
    | some (start, slots) => overwrite (slab.row b) start slots
    | none => slab.row b
  row_length b := by
    split
    · rw [overwrite, List.length_mapIdx, slab.row_length]
    · exact slab.row_length b

theorem place_none (slab : Slab κ) : place slab (fun _ => none) = slab := rfl

theorem place_place (slab : Slab κ) {f g : ℕ → Option (ℕ × List κ)}
    (h : ∀ b, f b = none ∨ g b = none) :
    place (place slab g) f = place slab fun b => (f b).or (g b) := by
  refine Slab.ext' rfl rfl fun b => ?_
  rcases h b with hf | hg
  · simp [place, hf]
  · cases hf : f b with
    | none => simp [place, hf, hg]
    | some p => simp [place, hf, hg]

/-- The rows from `batchOffset` on that `new` has, all at `start`. -/
def rowsFrom (start batchOffset : ℕ) (new : List (List κ)) (b : ℕ) : Option (ℕ × List κ) :=
  if batchOffset ≤ b then (new[b - batchOffset]?).map fun kv => (start, kv) else none

theorem writeKvs_of_fits {slab : Slab κ} {start batchOffset : ℕ} {new : List (List κ)}
    (h : ∀ kv ∈ new, start < slab.seqLen ∧ start + kv.length ≤ slab.seqLen) :
    writeKvs slab start batchOffset new = some (place slab (rowsFrom start batchOffset new)) := by
  rw [writeKvs, mapM_placement h, Option.map_some]
  congr 1
  refine Slab.ext' rfl rfl fun b => ?_
  simp only [place, rowsFrom, List.getElem?_map]
  by_cases hb : batchOffset ≤ b
  · rw [if_pos hb, if_pos hb]
    cases new[b - batchOffset]? <;> rfl
  · rw [if_neg hb, if_neg hb]

/-! ### The runs -/

def runRows (batchOffset index : ℕ) (run : Option (ℕ × ℕ)) (new : List (List κ)) (b : ℕ) :
    Option (ℕ × List κ) :=
  match run with
  | none => none
  | some (start, position) =>
    if batchOffset + start ≤ b ∧ b < batchOffset + index then
      (new[b - batchOffset]?).map fun kv => (position, kv)
    else none

/-- The active ones of the rows from `index` on, each at its position. -/
def maskedRows (batchOffset index : ℕ) (rows : List (Bool × ℕ)) (new : List (List κ)) (b : ℕ) :
    Option (ℕ × List κ) :=
  if batchOffset + index ≤ b then
    match rows[b - (batchOffset + index)]? with
    | some (true, position) => (new[b - batchOffset]?).map fun kv => (position, kv)
    | _ => none
  else none

theorem rowsFrom_slice (position batchOffset start index : ℕ) (new : List (List κ)) :
    rowsFrom position (batchOffset + start) ((new.drop start).take (index - start)) =
      runRows batchOffset index (some (start, position)) new := by
  funext b
  simp only [rowsFrom, runRows]
  by_cases hb : batchOffset + start ≤ b
  · by_cases hlt : b < batchOffset + index
    · rw [if_pos hb, if_pos ⟨hb, hlt⟩, List.getElem?_take_of_lt (by omega), List.getElem?_drop,
        show start + (b - (batchOffset + start)) = b - batchOffset by omega]
    · rw [if_pos hb, if_neg (by omega), List.getElem?_take_eq_none (by omega), Option.map_none]
  · rw [if_neg hb, if_neg (by omega)]

/-- The rows that are to be written have room at their positions. -/
def Room (seqLen : ℕ) (f : ℕ → Option (ℕ × List κ)) : Prop :=
  ∀ b start slots, f b = some (start, slots) → start < seqLen ∧ start + slots.length ≤ seqLen

theorem writeKvs_run {slab : Slab κ} {batchOffset start index position : ℕ} {new : List (List κ)}
    (hroom : Room slab.seqLen (runRows batchOffset index (some (start, position)) new)) :
    writeKvs slab position (batchOffset + start) ((new.drop start).take (index - start)) =
      some (place slab (runRows batchOffset index (some (start, position)) new)) := by
  rw [← rowsFrom_slice, writeKvs_of_fits]
  intro kv hkv
  obtain ⟨i, hi, rfl⟩ := List.mem_iff_getElem.mp hkv
  refine hroom (batchOffset + start + i) position _ ?_
  rw [← rowsFrom_slice, rowsFrom, if_pos (by omega), Nat.add_sub_cancel_left,
    List.getElem?_eq_getElem hi, Option.map_some]

/-- Row `batchOffset + i` takes `new[i]` at `positions[i]` if it is active. -/
def activeRows (batchOffset : ℕ) (mask : List Bool) (positions : List ℕ) (new : List (List κ))
    (b : ℕ) : Option (ℕ × List κ) :=
  maskedRows batchOffset 0 (mask.zip positions) new b

section

variable {slab : Slab κ} {batchOffset b : ℕ} {mask : List Bool} {positions : List ℕ}
  {new : List (List κ)} {p : ℕ × List κ}

theorem activeRows_eq_some_iff :
    activeRows batchOffset mask positions new b = some p ↔
      batchOffset ≤ b ∧ mask[b - batchOffset]? = some true ∧
        positions[b - batchOffset]? = some p.1 ∧ new[b - batchOffset]? = some p.2 := by
  rw [activeRows, maskedRows, Nat.add_zero]
  by_cases hb : batchOffset ≤ b
  · rw [if_pos hb]
    constructor
    · intro h
      cases hz : (mask.zip positions)[b - batchOffset]? with
      | none => rw [hz] at h; cases h
      | some row =>
        obtain ⟨active, position⟩ := row
        obtain ⟨hm, hp⟩ := List.getElem?_zip_eq_some.mp hz
        rw [hz] at h
        cases active with
        | false => cases h
        | true =>
          obtain ⟨kv, hkv, rfl⟩ := Option.map_eq_some_iff.mp h
          exact ⟨hb, hm, hp, hkv⟩
    · rintro ⟨-, hm, hp, hkv⟩
      have hz : (mask.zip positions)[b - batchOffset]? = some (true, p.1) :=
        List.getElem?_zip_eq_some.mpr ⟨hm, hp⟩
      rw [hz]
      simp only [hkv, Option.map_some]
  · rw [if_neg hb]
    constructor
    · intro h
      cases h
    · exact fun h => absurd h.1 hb

theorem runRows_eq_some_iff {q : ℕ × ℕ × ℕ} :
    runRows batchOffset q.2.1 (some (q.1, q.2.2)) new b = some p ↔
      batchOffset + q.1 ≤ b ∧ b < batchOffset + q.2.1 ∧ p.1 = q.2.2 ∧
        new[b - batchOffset]? = some p.2 := by
  simp only [runRows]
  split_ifs with hb
  · rw [Option.map_eq_some_iff]
    constructor
    · rintro ⟨kv, hkv, rfl⟩
      exact ⟨hb.1, hb.2, rfl, hkv⟩
    · rintro ⟨-, -, hposition, hkv⟩
      exact ⟨p.2, hkv, Prod.ext hposition.symm rfl⟩
  · exact iff_of_false id fun h => hb ⟨h.1, h.2.1⟩

/-- A row of a run is an active one, and the other way round. -/
theorem exists_runRows_iff :
    (∃ q ∈ activePositionRowRuns mask positions,
      runRows batchOffset q.2.1 (some (q.1, q.2.2)) new b = some p) ↔
      activeRows batchOffset mask positions new b = some p := by
  rw [activeRows_eq_some_iff]
  constructor
  · rintro ⟨q, hq, hrow⟩
    obtain ⟨hle, hlt, hposition, hkv⟩ := runRows_eq_some_iff.mp hrow
    obtain ⟨hm, hp⟩ := mem_runs.mp ⟨q, hq, show q.1 ≤ b - batchOffset by omega, by omega, hposition⟩
    exact ⟨by omega, hm, hp, hkv⟩
  · rintro ⟨hb, hm, hp, hkv⟩
    obtain ⟨q, hq, hle, hlt, hposition⟩ := mem_runs.mpr ⟨hm, hp⟩
    exact ⟨q, hq, runRows_eq_some_iff.mpr ⟨by omega, by omega, hposition, hkv⟩⟩

theorem findSome_runRows (mask : List Bool) (positions : List ℕ) (b : ℕ) :
    ((activePositionRowRuns mask positions).findSome? fun q =>
      runRows batchOffset q.2.1 (some (q.1, q.2.2)) new b) =
      activeRows batchOffset mask positions new b := by
  cases hfind : (activePositionRowRuns mask positions).findSome? fun q =>
      runRows batchOffset q.2.1 (some (q.1, q.2.2)) new b with
  | none =>
    rw [List.findSome?_eq_none_iff] at hfind
    refine (Option.eq_none_iff_forall_ne_some.mpr fun p hp => ?_).symm
    obtain ⟨q, hq, hrow⟩ := exists_runRows_iff.mpr hp
    rw [hfind q hq] at hrow
    cases hrow
  | some p =>
    obtain ⟨q, hq, hrow⟩ := List.exists_of_findSome?_eq_some hfind
    exact (exists_runRows_iff.mp ⟨q, hq, hrow⟩).symm

theorem writeRuns_runRows (runs : List (ℕ × ℕ × ℕ))
    (hincreasing : runs.Pairwise fun q q' => q.2.1 ≤ q'.1)
    (hroom : ∀ q ∈ runs, Room slab.seqLen (runRows batchOffset q.2.1 (some (q.1, q.2.2)) new)) :
    writeRuns batchOffset new runs slab = some (place slab fun b => runs.findSome? fun q =>
      runRows batchOffset q.2.1 (some (q.1, q.2.2)) new b) := by
  induction runs generalizing slab with
  | nil => rfl
  | cons q runs ih =>
    obtain ⟨hbehind, hincreasing⟩ := List.pairwise_cons.mp hincreasing
    -- the rows of `q` are in no other run
    have hdisjoint : ∀ b, (runs.findSome? fun q' =>
        runRows batchOffset q'.2.1 (some (q'.1, q'.2.2)) new b) = none ∨
          runRows batchOffset q.2.1 (some (q.1, q.2.2)) new b = none := by
      intro b
      by_cases hb : b < batchOffset + q.2.1
      · refine .inl (List.findSome?_eq_none_iff.mpr fun q' hq' => if_neg ?_)
        have := hbehind q' hq'
        omega
      · exact .inr (if_neg fun h => hb h.2)
    rw [writeRuns, writeKvs_run (hroom q List.mem_cons_self)]
    simp only
    have hrest := @ih (place slab (runRows batchOffset q.2.1 (some (q.1, q.2.2)) new)) hincreasing
      fun q' hq' => hroom q' (List.mem_cons_of_mem q hq')
    rw [hrest, place_place _ hdisjoint]
    congr 2
    funext b
    rw [List.findSome?_cons]
    rcases hdisjoint b with hnone | hnone <;> rw [hnone]
    · rw [Option.none_or]
      cases runRows batchOffset q.2.1 (some (q.1, q.2.2)) new b <;> rfl
    · rw [Option.or_none]

theorem writeRuns_activePositionRowRuns
    (hroom : Room slab.seqLen (activeRows batchOffset mask positions new)) :
    writeRuns batchOffset new (activePositionRowRuns mask positions) slab =
      some (place slab (activeRows batchOffset mask positions new)) := by
  rw [writeRuns_runRows _ (runs_increasing mask positions) fun q hq b start slots hrow =>
    hroom b start slots (exists_runRows_iff.mp ⟨q, hq, hrow⟩)]
  simp only [findSome_runRows]

end

/-! ### The metadata of a live step -/

theorem batchAligned_length {α : Type} {value : Option (List α)} {k : ℕ} {l : List α}
    (h : batchAligned value k = some l) : 0 < k ∧ l.length = k := by
  rcases value with - | l'
  · cases h
  · rw [batchAligned] at h
    split_ifs at h with haligned
    cases h
    exact haligned

theorem batchAligned_of_length {α : Type} {l : List α} {k : ℕ} (hk : 0 < k) (h : l.length = k) :
    batchAligned (some l) k = some l := by
  rw [batchAligned]
  exact if_pos ⟨hk, h⟩

section

variable (step : LiveStep)

theorem active_length : step.active.length = step.batchSize := by
  have := step.inside
  rw [LiveStep.active, List.length_take, List.length_drop]
  omega

theorem mask_eq : step.mask = some step.active := by
  have hin := step.inside
  have hpos := step.batch_pos
  rw [LiveStep.mask, liveActiveMask, if_neg (by omega)]
  by_cases hlen : step.rawMask.length = step.batchSize
  · -- the batch is the full batch, so it begins at the first row
    have hoff : step.batchOffset = 0 := by omega
    rw [if_pos hlen, LiveStep.active, hoff, List.drop_zero, List.take_of_length_le (Nat.le_of_eq hlen)]
  · rw [if_neg hlen, if_neg (by simp), if_neg (by omega)]
    rfl

theorem activeMaskList_merged :
    activeMaskList step.mergedInfo.activeMask step.batchSize = some step.active := by
  change batchAligned step.mask step.batchSize = _
  rw [mask_eq]
  exact batchAligned_of_length step.batch_pos (active_length step)

theorem rowPositionList_merged :
    rowPositionList step.mergedInfo.prefillLength step.batchSize = some step.positions :=
  batchAligned_of_length step.batch_pos step.positions_length

theorem liveRowPositions_merged :
    liveRowPositions step.mergedInfo step.batchSize 1 = some step.positions := by
  rw [liveRowPositions, if_pos rfl, activeMaskList_merged]
  exact rowPositionList_merged step

theorem selectPrefixLength_merged :
    selectPrefixLength step.mergedInfo step.batchSize 1 = step.window := by
  rw [selectPrefixLength, liveRowPositions_merged]
  rfl

theorem foldr_max_le {l : List ℕ} {n : ℕ} : l.foldr max 0 ≤ n ↔ ∀ x ∈ l, x ≤ n := by
  induction l with
  | nil => simp
  | cons a l ih => rw [List.foldr_cons, Nat.max_le, ih, List.forall_mem_cons]

variable {step}

theorem serves_lt {r : ℕ} (h : step.serves r) : r - step.batchOffset < step.batchSize := by
  obtain ⟨hlt, -⟩ := List.getElem?_eq_some_iff.mp h.2
  rwa [active_length] at hlt

theorem position_mem {r : ℕ} (h : r - step.batchOffset < step.batchSize) :
    step.positions[r - step.batchOffset]? = some (step.position r) := by
  rw [← step.positions_length] at h
  rw [LiveStep.position, List.getD_eq_getElem?_getD, List.getElem?_eq_getElem h, Option.getD_some]

theorem position_le_window {r : ℕ} (h : step.serves r) : step.position r ≤ step.window :=
  foldr_max_le.mp (Nat.le_refl _) _ (List.mem_of_getElem? (position_mem (serves_lt h)))

/-- The writes of a step: the rows it serves, each at its position. -/
theorem activeRows_eq (new : List (List κ)) (b : ℕ) :
    activeRows step.batchOffset step.active step.positions new b =
      if step.serves b then (new[b - step.batchOffset]?).map fun kv => (step.position b, kv)
      else none := by
  rw [activeRows, maskedRows, Nat.add_zero]
  by_cases hb : step.batchOffset ≤ b
  · rw [if_pos hb]
    by_cases hlt : b - step.batchOffset < step.batchSize
    · cases ha : step.active[b - step.batchOffset]? with
      | none =>
        rw [List.getElem?_eq_none_iff, active_length] at ha
        omega
      | some a =>
        have hz : (step.active.zip step.positions)[b - step.batchOffset]? =
            some (a, step.position b) :=
          List.getElem?_zip_eq_some.mpr ⟨ha, position_mem hlt⟩
        rw [hz]
        cases a with
        | true => rw [if_pos ⟨hb, ha⟩]
        | false => rw [if_neg (fun h => by rw [h.2] at ha; cases ha)]
    · have hz : (step.active.zip step.positions)[b - step.batchOffset]? = none := by
        rw [List.getElem?_eq_none_iff, List.length_zip, active_length]
        omega
      rw [hz, if_neg (fun h => hlt (serves_lt h))]
  · rw [if_neg hb, if_neg (fun h => hb h.1)]

end

end BloomBee.LiveDecode
