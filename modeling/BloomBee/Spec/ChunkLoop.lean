import Mathlib.Data.Int.Notation
import Mathlib.Data.Option.Basic
import Mathlib.Tactic.Common

/-! The chunks of `TransformerBackend.inference_step` (`server/backend.py`): how long one may be,
where each begins, and the loop over them. The models of the step run their forward pass through
`runChunks`; the row-wise loop of `BackendStep` is proved equal to it (`block_runRow`). -/

set_option autoImplicit false

namespace BloomBee.BackendStep

/-- What `_estimate_max_chunk_length` reads of a backend. -/
structure ChunkConfig where
  maxShardNumHeads : ℕ
  dtypeBytes : ℕ
  maxChunkSizeBytes : ℕ

/-- `_estimate_max_chunk_length`. Without bytes for a token the division raises. -/
def estimateMaxChunkLength (cfg : ChunkConfig) (batchSize seqLength prefixLength : ℕ) :
    Option ℕ :=
  let worstCaseLength := prefixLength + seqLength
  let attnBytesPerToken := cfg.maxShardNumHeads * batchSize * cfg.dtypeBytes * worstCaseLength
  if attnBytesPerToken = 0 then none
  else some (max 1 (cfg.maxChunkSizeBytes / attnBytesPerToken))

/-- `range(0, seq_len, max_chunk_length)` from `offset` on. -/
def chunkOffsets (seqLen maxChunkLength : ℕ) : ℕ → ℕ → List ℕ
  | 0, _ => []
  | fuel + 1, offset =>
    if offset < seqLen then
      offset :: chunkOffsets seqLen maxChunkLength fuel (offset + maxChunkLength)
    else []

/-- The chunks from the given offsets on: the outputs of all of them, and the `new_kvs` of the last
one, which is unbound without a chunk. A chunk that raises ends the loop. -/
def runChunks {ω ν : Type} (chunk : ℕ → Option (List ω × ν)) : List ℕ → Option (List ω × ν)
  | [] => none
  | [offset] => chunk offset
  | offset :: next :: offsets => do
    let out ← chunk offset
    let (outs, newKvs) ← runChunks chunk (next :: offsets)
    return (out.1 ++ outs, newKvs)

/-- The loop over chunks that change a state, up to one that raises. -/
def runChunksIn {σ ω ν : Type} (chunk : σ → ℕ → Option (List ω × ν) × σ) :
    List ℕ → σ → Option (List ω × ν) × σ
  | [], s => (none, s)
  | [offset], s => chunk s offset
  | offset :: next :: offsets, s =>
    match chunk s offset with
    | (none, s) => (none, s)
    | (some out, s) =>
      match runChunksIn chunk (next :: offsets) s with
      | (none, s) => (none, s)
      | (some (outs, newKvs), s) => (some (out.1 ++ outs, newKvs), s)

/-- `new_kvs` after the loop over a block that raises on a chunk under the mask of all tokens, as
FlexGen's do. -/
def runUncut {ν : Type} (seqLen maxChunkLength : ℕ) (newKvs : ν) : Option ν :=
  (runChunks (fun offset =>
      if min maxChunkLength (seqLen - offset) = seqLen then some (([] : List Unit), newKvs)
      else none)
    (chunkOffsets seqLen maxChunkLength seqLen 0)).map Prod.snd

/-- The `new_kvs` of a block for the rows of a submission: of the chunk at an offset, with so many
tokens. A chunk of fewer tokens than the submission has may raise, where the mask of all of them
does not fit it. -/
structure ChunkKvs (κ : Type) (rows width : ℕ) where
  chunk : ℕ → ℕ → Option (List (List κ))
  whole : List (List κ)
  chunk_whole : chunk 0 width = some whole
  chunk_length : ∀ {offset n new}, chunk offset n = some new → new.length = rows
  chunk_width : ∀ {offset n new}, chunk offset n = some new → ∀ kv ∈ new, kv.length = n

/-- A block that raises on anything but all of its tokens at once. -/
def ChunkKvs.uncut {κ : Type} {rows width : ℕ} (new : List (List κ)) (hrows : new.length = rows)
    (hwidth : ∀ kv ∈ new, kv.length = width) : ChunkKvs κ rows width where
  chunk offset n := if offset = 0 ∧ n = width then some new else none
  whole := new
  chunk_whole := if_pos ⟨rfl, rfl⟩
  chunk_length h := by
    split_ifs at h
    cases h
    exact hrows
  chunk_width h := by
    split_ifs at h with hn
    cases h
    rw [hn.2]
    exact hwidth

/-- `new_kvs` after the loop. -/
def ChunkKvs.newKvs {κ : Type} {rows width : ℕ} (x : ChunkKvs κ rows width)
    (maxChunkLength : ℕ) : Option (List (List κ)) :=
  (runChunks (fun offset => (x.chunk offset (min maxChunkLength (width - offset))).map
      fun new => (([] : List Unit), new))
    (chunkOffsets width maxChunkLength width 0)).map Prod.snd

def OneChunk (cfg : ChunkConfig) (batchSize seqLength prefixLength : ℕ) : Prop :=
  ∃ m ∈ estimateMaxChunkLength cfg batchSize seqLength prefixLength, seqLength ≤ m

instance (cfg : ChunkConfig) (batchSize seqLength prefixLength : ℕ) :
    Decidable (OneChunk cfg batchSize seqLength prefixLength) :=
  inferInstanceAs (Decidable (∃ m ∈ estimateMaxChunkLength cfg batchSize seqLength prefixLength,
    seqLength ≤ m))

variable {cfg : ChunkConfig} {batchSize seqLength prefixLength m : ℕ}

theorem estimateMaxChunkLength_pos
    (h : estimateMaxChunkLength cfg batchSize seqLength prefixLength = some m) :
    1 ≤ m ∧ 0 < batchSize := by
  unfold estimateMaxChunkLength at h
  simp only at h
  split_ifs at h with hzero
  rw [Option.some.injEq] at h
  refine ⟨by omega, Nat.pos_of_ne_zero ?_⟩
  rintro rfl
  exact hzero (by simp)

theorem oneChunk_iff_le
    (h : estimateMaxChunkLength cfg batchSize seqLength prefixLength = some m) :
    OneChunk cfg batchSize seqLength prefixLength ↔ seqLength ≤ m := by
  simp [OneChunk, h]

theorem OneChunk.of_le {batchSize' : ℕ} (h : OneChunk cfg batchSize seqLength prefixLength)
    (hpos : 0 < batchSize') (hle : batchSize' ≤ batchSize) :
    OneChunk cfg batchSize' seqLength prefixLength := by
  obtain ⟨m, hm, hlen⟩ := h
  simp only [estimateMaxChunkLength, Option.mem_def] at hm
  split_ifs at hm with hzero
  cases hm
  have hbytes : cfg.maxShardNumHeads * batchSize' * cfg.dtypeBytes * (prefixLength + seqLength) ≤
      cfg.maxShardNumHeads * batchSize * cfg.dtypeBytes * (prefixLength + seqLength) :=
    Nat.mul_le_mul_right _ (Nat.mul_le_mul_right _ (Nat.mul_le_mul_left _ hle))
  have hne : cfg.maxShardNumHeads * batchSize' * cfg.dtypeBytes * (prefixLength + seqLength) ≠
      0 := by
    simp only [Nat.mul_eq_zero, not_or, Ne] at hzero ⊢
    exact ⟨⟨⟨hzero.1.1.1, by omega⟩, hzero.1.2⟩, hzero.2⟩
  refine ⟨_, Option.mem_def.mpr (if_neg hne), Nat.le_trans hlen ?_⟩
  have := Nat.div_le_div_left hbytes (Nat.pos_of_ne_zero hne) (a := cfg.maxChunkSizeBytes)
  omega

theorem chunkOffsets_single {n m : ℕ} (hpos : 0 < n) (hle : n ≤ m) :
    chunkOffsets n m n 0 = [0] := by
  obtain ⟨k, rfl⟩ : ∃ k, n = k + 1 := ⟨n - 1, by omega⟩
  rw [chunkOffsets, if_pos hpos]
  cases k with
  | zero => rfl
  | succ k => rw [chunkOffsets, if_neg (by omega)]

theorem chunkOffsets_several {n m : ℕ} (hpos : 0 < m) (hlt : m < n) :
    ∃ rest, chunkOffsets n m n 0 = 0 :: m :: rest := by
  obtain ⟨k, rfl⟩ : ∃ k, n = k + 2 := ⟨n - 2, by omega⟩
  rw [chunkOffsets, if_pos (by omega), chunkOffsets, Nat.zero_add, if_pos hlt]
  exact ⟨_, rfl⟩

variable {ω ν : Type} {chunk : ℕ → Option (List ω × ν)}

theorem runChunks_single {n m : ℕ} (hpos : 0 < n) (hle : n ≤ m) :
    runChunks chunk (chunkOffsets n m n 0) = chunk 0 := by
  rw [chunkOffsets_single hpos hle]
  rfl

theorem runChunks_raises {n m : ℕ} (hpos : 0 < m) (hlt : m < n) (hraise : chunk 0 = none) :
    runChunks chunk (chunkOffsets n m n 0) = none := by
  obtain ⟨rest, hoffsets⟩ := chunkOffsets_several hpos hlt
  rw [hoffsets, runChunks, hraise]
  rfl

theorem runChunksIn_single {σ : Type} {chunkIn : σ → ℕ → Option (List ω × ν) × σ} {n m : ℕ} {s : σ}
    (hpos : 0 < n) (hle : n ≤ m) : runChunksIn chunkIn (chunkOffsets n m n 0) s = chunkIn s 0 := by
  rw [chunkOffsets_single hpos hle]
  rfl

theorem runChunksIn_raises {σ : Type} {chunkIn : σ → ℕ → Option (List ω × ν) × σ} {n m : ℕ} {s : σ}
    (hpos : 0 < m) (hlt : m < n) (hraise : (chunkIn s 0).1 = none) :
    (runChunksIn chunkIn (chunkOffsets n m n 0) s).1 = none := by
  obtain ⟨rest, hoffsets⟩ := chunkOffsets_several hpos hlt
  rw [hoffsets, runChunksIn]
  rcases hfirst : chunkIn s 0 with ⟨- | out, s'⟩
  · rfl
  · rw [hfirst] at hraise
    cases hraise

theorem runChunks_some (f : ℕ → List ω × ν) (offsets : List ℕ) : ∀ offset,
    runChunks (fun o => some (f o)) (offset :: offsets) =
      some ((offset :: offsets).flatMap fun o => (f o).1, (f (offsets.getLastD offset)).2) := by
  induction offsets with
  | nil => simp [runChunks]
  | cons next offsets ih =>
    intro offset
    rw [runChunks, ih next]
    simp only [Option.bind_eq_bind, Option.bind_some, Option.pure_def, List.flatMap_cons,
      List.getLastD_cons]

theorem runChunks_snd (offsets : List ℕ) : ∀ {out : List ω × ν},
    runChunks chunk offsets = some out →
      ∃ offset ∈ offsets, ∃ last, chunk offset = some last ∧ out.2 = last.2 := by
  induction offsets with
  | nil =>
    intro out h
    cases h
  | cons offset offsets ih =>
    intro out h
    cases offsets with
    | nil => exact ⟨offset, List.mem_cons_self, out, h, rfl⟩
    | cons next offsets =>
      rw [runChunks] at h
      cases hfirst : chunk offset with
      | none =>
        rw [hfirst] at h
        cases h
      | some first =>
        cases hrest : runChunks chunk (next :: offsets) with
        | none =>
          rw [hfirst, hrest] at h
          cases h
        | some rest =>
          rw [hfirst, hrest] at h
          cases h
          obtain ⟨o, ho, last, hlast, hkvs⟩ := ih hrest
          exact ⟨o, List.mem_cons_of_mem _ ho, last, hlast, hkvs⟩

/-- Such a block serves a step of one chunk, and no other. -/
theorem runUncut_eq_some {seqLen m : ℕ} {new x : ν} (hm : 0 < m) :
    runUncut seqLen m new = some x ↔ 0 < seqLen ∧ seqLen ≤ m ∧ new = x := by
  rw [runUncut]
  rcases Nat.eq_zero_or_pos seqLen with rfl | hpos
  · simp [chunkOffsets, runChunks]
  · rcases Nat.lt_or_ge m seqLen with hlt | hle
    · rw [runChunks_raises hm hlt (if_neg (by omega))]
      simp [Nat.not_le.mpr hlt]
    · rw [runChunks_single hpos hle, if_pos (by omega)]
      simp [hpos, hle]

section

variable {κ : Type} {rows width : ℕ} (x : ChunkKvs κ rows width)

theorem ChunkKvs.newKvs_single {m : ℕ} (hpos : 0 < width) (hle : width ≤ m) :
    x.newKvs m = some x.whole := by
  rw [ChunkKvs.newKvs, runChunks_single hpos hle, Nat.sub_zero, Nat.min_eq_right hle,
    x.chunk_whole]
  rfl

/-- After the loop there are new keys and values for every row, of no more tokens than it had. -/
theorem ChunkKvs.newKvs_spec {m : ℕ} {new : List (List κ)} (h : x.newKvs m = some new) :
    new.length = rows ∧ ∃ n ≤ width, ∀ kv ∈ new, kv.length = n := by
  obtain ⟨out, hout, rfl⟩ := Option.map_eq_some_iff.mp h
  obtain ⟨offset, -, last, hlast, hkvs⟩ := runChunks_snd _ hout
  obtain ⟨kvs, hchunk, rfl⟩ := Option.map_eq_some_iff.mp hlast
  rw [hkvs]
  exact ⟨x.chunk_length hchunk, _, by omega, x.chunk_width hchunk⟩

theorem ChunkKvs.newKvs_raises {m : ℕ} (hpos : 0 < m) (hlt : m < width)
    (hraise : x.chunk 0 m = none) : x.newKvs m = none := by
  rw [ChunkKvs.newKvs, runChunks_raises hpos hlt]
  · rfl
  · rw [Nat.sub_zero, Nat.min_eq_left (Nat.le_of_lt hlt), hraise]
    rfl

end

end BloomBee.BackendStep
