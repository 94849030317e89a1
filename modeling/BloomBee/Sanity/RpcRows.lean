import BloomBee.Lib.Fallible
import BloomBee.Spec.RpcInference
import Mathlib.Tactic.Common

/-! The backends row by row. While a write fits the cache, a submission changes exactly the
rows it carries, and what happens to a row depends on that row alone. Submissions on
disjoint rows can therefore be joined, and made in any order. -/

set_option autoImplicit false

namespace BloomBee.RpcInference

open BackendStep (OneChunk runChunks_single)

variable {α τ κ : Type}

@[ext]
theorem Batch.ext' {a b : Batch α} (hw : a.width = b.width) (hr : a.rows = b.rows) : a = b := by
  cases a; cases b; cases hw; cases hr; rfl

theorem Slab.ext' {a b : Slab κ} (hs : a.seqLen = b.seqLen) (hb : a.batch = b.batch)
    (hr : ∀ i, a.row i = b.row i) : a = b := by
  cases a; cases b; cases hs; cases hb
  obtain rfl := funext hr
  rfl

/-! ### Slots of a row -/

theorem overwrite_get_before {row new : List κ} {start i : ℕ} (h : i < start) :
    (overwrite row start new)[i]? = row[i]? := by
  rw [overwrite, List.getElem?_mapIdx]
  cases row[i]? with
  | none => rfl
  | some x => rw [Option.map_some, if_neg (by omega)]

theorem overwrite_get_new {row new : List κ} {start j : ℕ} (hj : j < new.length)
    (h : start + j < row.length) : (overwrite row start new)[start + j]? = new[j]? := by
  rw [overwrite, List.getElem?_mapIdx, List.getElem?_eq_getElem h, Option.map_some,
    if_pos (by omega), Nat.add_sub_cancel_left, List.getD_eq_getElem?_getD,
    List.getElem?_eq_getElem hj, Option.getD_some]

theorem overwrite_length (row : List κ) (start : ℕ) (new : List κ) :
    (overwrite row start new).length = row.length := by
  rw [overwrite, List.length_mapIdx]

theorem overwrite_take_new {row new : List κ} {start : ℕ} (h : start + new.length ≤ row.length) :
    (overwrite row start new).take (start + new.length) = row.take start ++ new := by
  have hstart : (row.take start).length = start := by
    rw [List.length_take, Nat.min_eq_left (by omega)]
  apply List.ext_getElem?
  intro i
  by_cases hi : i < start
  · rw [List.getElem?_take_of_lt (by omega), overwrite_get_before hi,
      List.getElem?_append_left (by omega), List.getElem?_take_of_lt hi]
  · rw [List.getElem?_append_right (by omega), hstart]
    by_cases hlast : i < start + new.length
    · have := @overwrite_get_new κ row new start (i - start) (by omega) (by omega)
      rw [show start + (i - start) = i by omega] at this
      rw [List.getElem?_take_of_lt hlast, this]
    · rw [List.getElem?_take_eq_none (by omega), List.getElem?_eq_none (by omega)]

/-- The slab after new slots at `start` of the rows that have some. -/
def Slab.put (c : Slab κ) (start : ℕ) (new : ℕ → Option (List κ)) : Slab κ where
  seqLen := c.seqLen
  batch := c.batch
  row b := match new b with
    | some slots => overwrite (c.row b) start slots
    | none => c.row b
  row_length b := by
    split
    · rw [overwrite, List.length_mapIdx, c.row_length]
    · exact c.row_length b

theorem Slab.put_row_of_none {c : Slab κ} {start b : ℕ} {new : ℕ → Option (List κ)}
    (h : new b = none) : (c.put start new).row b = c.row b := by
  simp [Slab.put, h]

def Backend.forwardRow (B : Backend τ κ) (prefixLength b : ℕ) (xs : List τ) : List τ × List κ :=
  B.block.forward ((B.slab.row b).take prefixLength) xs

def Backend.pass (B : Backend τ κ) (prefixLength : ℕ) (rows : ℕ → Option (List τ)) :
    Backend τ κ where
  block := B.block
  chunkConfig := B.chunkConfig
  slab := B.slab.put prefixLength fun b =>
    (rows b).map fun xs => (B.forwardRow prefixLength b xs).2

theorem Backend.forwardRow_pass {B : Backend τ κ} {prefixLength b : ℕ}
    {rows : ℕ → Option (List τ)} (h : rows b = none) (xs : List τ) :
    (B.pass prefixLength rows).forwardRow prefixLength b xs = B.forwardRow prefixLength b xs := by
  simp only [Backend.forwardRow, Backend.pass]
  rw [Slab.put_row_of_none]
  simp [h]

def passRows (prefixLength : ℕ) :
    List (Backend τ κ) → (ℕ → Option (List τ)) → List (Backend τ κ)
  | [], _ => []
  | B :: bs, rows => B.pass prefixLength rows ::
      passRows prefixLength bs fun b => (rows b).map fun xs => (B.forwardRow prefixLength b xs).1

def outRow (prefixLength b : ℕ) : List (Backend τ κ) → List τ → List τ
  | [], xs => xs
  | B :: bs, xs => outRow prefixLength b bs (B.forwardRow prefixLength b xs).1

theorem outRow_length (prefixLength b : ℕ) (bs : List (Backend τ κ)) (xs : List τ) :
    (outRow prefixLength b bs xs).length = xs.length := by
  induction bs generalizing xs with
  | nil => rfl
  | cons B bs ih => rw [outRow, ih, Backend.forwardRow, B.block.out_length]

theorem passRows_length {prefixLength : ℕ} (bs : List (Backend τ κ))
    (rows : ℕ → Option (List τ)) : (passRows prefixLength bs rows).length = bs.length := by
  induction bs generalizing rows with
  | nil => rfl
  | cons B bs ih => rw [passRows, List.length_cons, List.length_cons, ih]

theorem passRows_none {prefixLength : ℕ} (bs : List (Backend τ κ)) :
    passRows prefixLength bs (fun _ => none) = bs := by
  induction bs with
  | nil => rfl
  | cons B bs ih =>
    rw [passRows]
    simp only [Option.map_none, ih]
    congr 1

/-- A row is not changed by the passes of other rows. -/
theorem outRow_passRows {prefixLength b : ℕ} (bs : List (Backend τ κ))
    {rows : ℕ → Option (List τ)} (h : rows b = none) (xs : List τ) :
    outRow prefixLength b (passRows prefixLength bs rows) xs = outRow prefixLength b bs xs := by
  induction bs generalizing rows xs with
  | nil => rfl
  | cons B bs ih =>
    rw [passRows, outRow, outRow, Backend.forwardRow_pass h]
    exact ih (by simp [h]) _

theorem passRows_passRows {prefixLength : ℕ} (bs : List (Backend τ κ))
    {f g : ℕ → Option (List τ)} (h : ∀ b, f b = none ∨ g b = none) :
    passRows prefixLength (passRows prefixLength bs g) f =
      passRows prefixLength bs fun b => (f b).or (g b) := by
  induction bs generalizing f g with
  | nil => rfl
  | cons B bs ih =>
    -- what the second pass reads in its own rows is untouched by the first
    have hmap : ∀ {γ : Type} (p : List τ × List κ → γ) (b : ℕ),
        ((f b).map fun xs => p ((B.pass prefixLength g).forwardRow prefixLength b xs)) =
        (f b).map fun xs => p (B.forwardRow prefixLength b xs) := by
      intro γ p b
      cases hf : f b with
      | none => rfl
      | some xs =>
        have hg : g b = none := (h b).resolve_left (by simp [hf])
        rw [Option.map_some, Option.map_some, Backend.forwardRow_pass hg]
    have hdisj : ∀ b, ((f b).map fun xs => (B.forwardRow prefixLength b xs).1) = none ∨
        ((g b).map fun xs => (B.forwardRow prefixLength b xs).1) = none := by
      intro b
      rcases h b with hf | hg
      · exact .inl (by simp [hf])
      · exact .inr (by simp [hg])
    have hhead : (B.pass prefixLength g).pass prefixLength f =
        B.pass prefixLength fun b => (f b).or (g b) := by
      unfold Backend.pass
      congr 1
      refine Slab.ext' rfl rfl fun b => ?_
      have hfb := hmap Prod.snd b
      unfold Backend.pass at hfb
      rcases h b with hf | hg
      · simp [Slab.put, hf]
      · simp only [Slab.put, hg, Option.or_none, Option.map_none] at hfb ⊢
        rw [hfb]
    rw [passRows, passRows, passRows, hhead]
    simp only [hmap Prod.fst]
    rw [ih hdisj]
    congr 2
    funext b
    cases f b <;> rfl

/-- The rows a batch carries when it starts at row `batchOffset` of the cache. -/
def rowsAt (batchOffset : ℕ) (hidden : Batch τ) (b : ℕ) : Option (List τ) :=
  if batchOffset ≤ b then hidden.rows[b - batchOffset]? else none

def outBatch (bs : List (Backend τ κ)) (prefixLength batchOffset : ℕ) (hidden : Batch τ) :
    Batch τ where
  width := hidden.width
  rows := hidden.rows.mapIdx fun i xs => outRow prefixLength (batchOffset + i) bs xs
  rows_width r hr := by
    obtain ⟨i, hi, rfl⟩ := List.mem_mapIdx.mp hr
    rw [outRow_length]
    exact hidden.rows_width _ (List.getElem_mem hi)

/-- Every backend has `positions` slots and `rows` rows. -/
def Roomy (bs : List (Backend τ κ)) (positions rows : ℕ) : Prop :=
  ∀ B ∈ bs, positions ≤ B.slab.seqLen ∧ rows ≤ B.slab.batch

theorem roomy_passRows {bs : List (Backend τ κ)} {positions rows prefixLength : ℕ}
    (h : Roomy bs positions rows) (f : ℕ → Option (List τ)) :
    Roomy (passRows prefixLength bs f) positions rows := by
  induction bs generalizing f with
  | nil => exact h
  | cons B bs ih =>
    intro B' hB'
    rcases List.mem_cons.mp hB' with rfl | hB'
    · exact h B List.mem_cons_self
    · exact ih (fun B hB => h B (List.mem_cons_of_mem _ hB)) _ B' hB'

theorem mapM_placement {seqLen start : ℕ} {new : List (List κ)}
    (h : ∀ kv ∈ new, start < seqLen ∧ start + kv.length ≤ seqLen) :
    new.mapM (placement seqLen start) = some (new.map fun kv => (start, kv)) := by
  rw [Fallible.mapM_eq_some_iff, List.map_map]
  refine List.map_congr_left fun kv hkv => ?_
  rw [placement, if_pos (h kv hkv), Function.comp_apply]

/-- Every backend takes the batch in a single chunk, if it is given to them at all. -/
def SingleChunk (bs : List (Backend τ κ)) (prefixLength : ℕ) (b : Batch τ) : Prop :=
  b.numel ≠ 0 → ∀ B ∈ bs, OneChunk B.chunkConfig b.rows.length b.width prefixLength

instance (bs : List (Backend τ κ)) (prefixLength : ℕ) (b : Batch τ) :
    Decidable (SingleChunk bs prefixLength b) :=
  inferInstanceAs (Decidable (b.numel ≠ 0 → ∀ B ∈ bs,
    OneChunk B.chunkConfig b.rows.length b.width prefixLength))

theorem passRows_chunkConfig (prefixLength : ℕ) (bs : List (Backend τ κ))
    (rows : ℕ → Option (List τ)) :
    (passRows prefixLength bs rows).map Backend.chunkConfig = bs.map Backend.chunkConfig := by
  induction bs generalizing rows with
  | nil => rfl
  | cons B bs ih =>
    rw [passRows, List.map_cons, List.map_cons, ih]
    rfl

theorem SingleChunk.of_chunkConfig {bs bs' : List (Backend τ κ)} {prefixLength : ℕ}
    {b : Batch τ} (h : SingleChunk bs prefixLength b)
    (heq : bs'.map Backend.chunkConfig = bs.map Backend.chunkConfig) :
    SingleChunk bs' prefixLength b := by
  intro hn B' hB'
  have hmem : B'.chunkConfig ∈ bs.map Backend.chunkConfig := heq ▸ List.mem_map_of_mem hB'
  obtain ⟨B, hB, hcfg⟩ := List.mem_map.mp hmem
  exact hcfg ▸ h hn B hB

theorem Block.runRow_single (block : Block τ κ) {m : ℕ} {xs : List τ} (past : List κ)
    (hpos : 0 < xs.length) (hle : xs.length ≤ m) :
    block.runRow m past xs = some (block.forward past xs) := by
  rw [Block.runRow, runChunks_single hpos hle, List.drop_zero, List.take_of_length_le hle,
    block.chunk_whole]

/-- In a single chunk every row is a forward pass of its own. -/
theorem forwardRows_single (B : Backend τ κ) {m : ℕ} (prefixLength batchOffset : ℕ)
    {hidden : Batch τ} (hpos : 0 < hidden.width) (hle : hidden.width ≤ m) :
    forwardRows B m prefixLength batchOffset hidden = some (hidden.rows.mapIdx fun i xs =>
      B.forwardRow prefixLength (batchOffset + i) xs) := by
  rw [forwardRows, Fallible.mapM_eq_some_iff]
  refine List.ext_getElem (by simp) fun i h₁ h₂ => ?_
  simp only [List.length_map, List.length_mapIdx] at h₁
  have hwidth := hidden.rows_width _ (List.getElem_mem h₁)
  simp only [List.getElem_map, List.getElem_mapIdx, id]
  rw [Block.runRow_single _ _ (by omega) (by omega)]
  rfl

theorem inferenceStep_of_fits {B : Backend τ κ} {prefixLength batchOffset : ℕ}
    {hidden : Batch τ} (hpos : 0 < hidden.width)
    (hone : OneChunk B.chunkConfig hidden.rows.length hidden.width prefixLength)
    (hfit : prefixLength + hidden.width ≤ B.slab.seqLen)
    (hrows : batchOffset + hidden.rows.length ≤ B.slab.batch) :
    inferenceStep B prefixLength batchOffset hidden =
      .ok (outBatch [B] prefixLength batchOffset hidden,
        B.pass prefixLength (rowsAt batchOffset hidden)) := by
  obtain ⟨m, hm, hle⟩ := hone
  set out := hidden.rows.mapIdx fun i xs => B.forwardRow prefixLength (batchOffset + i) xs
    with hout
  have hlen : ∀ kv ∈ out.map Prod.snd,
      prefixLength < B.slab.seqLen ∧ prefixLength + kv.length ≤ B.slab.seqLen := by
    intro kv hkv
    obtain ⟨q, hq, rfl⟩ := List.mem_map.mp hkv
    obtain ⟨i, hi, rfl⟩ := List.mem_mapIdx.mp hq
    rw [Backend.forwardRow, B.block.kv_length, hidden.rows_width _ (List.getElem_mem hi)]
    exact ⟨by omega, hfit⟩
  have hwidth : ∀ r ∈ out.map Prod.fst, r.length = hidden.width := by
    intro r hr
    obtain ⟨q, hq, rfl⟩ := List.mem_map.mp hr
    obtain ⟨i, hi, rfl⟩ := List.mem_mapIdx.mp hq
    rw [Backend.forwardRow, B.block.out_length]
    exact hidden.rows_width _ (List.getElem_mem hi)
  simp only [inferenceStep, Option.mem_def.mp hm, forwardRows_single B prefixLength batchOffset
    hpos hle, ← hout, outputBatch, dif_pos hwidth, writeKvs, mapM_placement hlen, Option.map_some]
  rw [if_neg (by omega), if_neg (by omega)]
  congr 2
  · refine Batch.ext' rfl ?_
    refine List.ext_getElem? fun i => ?_
    simp only [outBatch, outRow, hout, List.getElem?_map, List.getElem?_mapIdx, Option.map_map]
    rfl
  · unfold Backend.pass
    congr 1
    refine Slab.ext' rfl rfl fun b => ?_
    simp only [Slab.put, rowsAt, hout]
    split_ifs with hb
    · have hget : batchOffset + (b - batchOffset) = b := by omega
      cases hr : hidden.rows[b - batchOffset]? with
      | none => simp [hr]
      | some xs => simp [hr, hget]
    · rfl

theorem rowsAt_outBatch_singleton (B : Backend τ κ) (prefixLength batchOffset : ℕ)
    (hidden : Batch τ) :
    rowsAt batchOffset (outBatch [B] prefixLength batchOffset hidden) =
      fun b => (rowsAt batchOffset hidden b).map fun xs => (B.forwardRow prefixLength b xs).1 := by
  funext b
  simp only [rowsAt, outBatch, outRow]
  split_ifs with hb
  · have hget : batchOffset + (b - batchOffset) = b := by omega
    simp [hget]
  · rfl

theorem runBackends_of_fits {bs : List (Backend τ κ)} {prefixLength batchOffset : ℕ}
    {hidden : Batch τ} (hpos : 0 < hidden.width)
    (hone : ∀ B ∈ bs, OneChunk B.chunkConfig hidden.rows.length hidden.width prefixLength)
    (h : Roomy bs (prefixLength + hidden.width) (batchOffset + hidden.rows.length)) :
    runBackends prefixLength batchOffset bs hidden =
      .ok (outBatch bs prefixLength batchOffset hidden,
        passRows prefixLength bs (rowsAt batchOffset hidden)) := by
  induction bs generalizing hidden with
  | nil =>
    rw [runBackends, passRows]
    congr 2
    refine Batch.ext' rfl (List.ext_getElem? fun i => ?_)
    simp [outBatch, outRow]
  | cons B bs ih =>
    obtain ⟨hfit, hrows⟩ := h B List.mem_cons_self
    have hrest : Roomy bs (prefixLength + (outBatch [B] prefixLength batchOffset hidden).width)
        (batchOffset + (outBatch [B] prefixLength batchOffset hidden).rows.length) := by
      intro B' hB'
      simpa [outBatch] using h B' (List.mem_cons_of_mem _ hB')
    have hones : ∀ B' ∈ bs, OneChunk B'.chunkConfig
        (outBatch [B] prefixLength batchOffset hidden).rows.length
        (outBatch [B] prefixLength batchOffset hidden).width prefixLength := by
      intro B' hB'
      simpa [outBatch] using hone B' (List.mem_cons_of_mem _ hB')
    have htail := @ih (outBatch [B] prefixLength batchOffset hidden) hpos hones hrest
    rw [rowsAt_outBatch_singleton] at htail
    rw [runBackends, inferenceStep_of_fits hpos (hone B List.mem_cons_self) hfit hrows, passRows]
    simp only [bind, Except.bind, htail, pure, Except.pure]
    congr 2
    refine Batch.ext' rfl (List.ext_getElem? fun i => ?_)
    simp [outBatch, outRow, Function.comp_def]

end BloomBee.RpcInference
