import BloomBee.Proofs.LosslessTransport

/-! Decoding a buffer of unknown origin. The decoders reject every malformed combination of sizes
by a check of their own but one: the byte-split decoders take the remainder by `max(1, elem_size)`
and then divide by `elem_size` itself. -/

set_option autoImplicit false

namespace BloomBee.LosslessTransport

open Fallible

structure Codecs.RaiseOwn (E : Codecs) : Prop where
  zstd : ∀ c, E.zstd = some c → ∀ payload n, RaisesOnly (· = .codecError) (c.decompress payload n)
  zstdDict : ∀ path c, E.zstdDict path = some c →
    ∀ payload n, RaisesOnly (· = .codecError) (c.decompress payload n)
  zlib : ∀ payload n, RaisesOnly (· = .codecError) (E.zlibDecompress payload n)
  zipnn : ∀ z, E.zipnn = some z → ∀ payload, RaisesOnly (· = .codecError) (z.decompress payload)

/-- `ValueError`, `RuntimeError` or the error of a codec. -/
def Raised.Rejects (e : Raised) : Prop :=
  e.exceptionType ∈ [.valueError, .runtimeError, .codecError]

instance (e : Raised) : Decidable e.Rejects := inferInstanceAs (Decidable (_ ∈ _))

section Decoders

variable {E : Codecs} {payload : Bytes} {n : ℕ}

theorem rejects_of_codec {α : Type} {x : Except Raised α} (h : RaisesOnly (· = .codecError) x) :
    RaisesOnly Raised.Rejects x := by
  intro e he
  rw [h e he]
  decide

theorem setLanes_rejects (step : ℕ) (out : Bytes) (start : ℕ) (srcs : List Bytes) :
    RaisesOnly Raised.Rejects (setLanes step out start srcs) := by
  induction srcs generalizing out start with
  | nil => exact .ok _
  | cons src rest ih =>
    rw [setLanes]
    split
    · exact .error (by decide)
    · exact ih _ _

theorem reconstruct_rejects (extracted remaining : Bytes) (elemSize n : ℕ) :
    RaisesOnly Raised.Rejects (reconstructHighByteLane extracted remaining elemSize n) := by
  simp only [reconstructHighByteLane]
  split_ifs
  · exact .error (by simp [Raised.Rejects, Raised.exceptionType])
  · exact .error (by simp [Raised.Rejects, Raised.exceptionType])
  · exact .error (by simp [Raised.Rejects, Raised.exceptionType])
  · exact setLanes_rejects _ _ _ _
  · exact setLanes_rejects _ _ _ _
  · exact .error (by simp [Raised.Rejects, Raised.exceptionType])

theorem decompressZlibCapped_rejects (hE : E.RaiseOwn) :
    RaisesOnly Raised.Rejects (decompressZlibCapped E payload n) := by
  refine (rejects_of_codec (hE.zlib payload (n + 1))).bind fun r _ => ?_
  split_ifs
  · exact .error (by simp [Raised.Rejects, Raised.exceptionType])
  · exact .error (by decide)
  · exact .error (by decide)
  · exact .ok _

theorem decompressRaw_rejects (hE : E.RaiseOwn) (algoId : ℕ) :
    RaisesOnly Raised.Rejects (decompressRaw E algoId payload n) := by
  unfold decompressRaw
  split_ifs
  · split
    · exact .error (by decide)
    · rename_i c hc
      exact rejects_of_codec (hE.zstd c hc payload n)
  · exact decompressZlibCapped_rejects hE
  · split
    · exact .error (by decide)
    · rename_i z hz
      exact rejects_of_codec (hE.zipnn z hz payload)
  · exact .error (by simp [Raised.Rejects, Raised.exceptionType])

theorem decompressWithAlgo_rejects (hE : E.RaiseOwn) (algoId : ℕ) :
    RaisesOnly Raised.Rejects (decompressWithAlgo E algoId payload n) := by
  refine (decompressRaw_rejects hE algoId).bind fun raw _ => ?_
  split_ifs
  · exact .error (by simp [Raised.Rejects, Raised.exceptionType])
  · exact .ok _

/-- The payload has its own header and the first segment it announces, for elements of no bytes. -/
def ZeroElemSize (payload : Bytes) : Prop :=
  BYTE_SPLIT_PAYLOAD_SIZE ≤ payload.length ∧ BigEndian.decode (payload.take 1) = 0 ∧
    BYTE_SPLIT_PAYLOAD_SIZE + BigEndian.decode ((payload.drop 1).take 4) ≤ payload.length

instance (payload : Bytes) : Decidable (ZeroElemSize payload) :=
  inferInstanceAs (Decidable (_ ∧ _ ∧ _))

/-- The shared parse divides by zero on those payloads, and rejects or returns otherwise. -/
theorem splitPayload_zeroElemSize (h : ZeroElemSize payload) :
    splitPayload payload n = .error .zeroDivision := by
  obtain ⟨hlen, hzero, hend⟩ := h
  simp only [splitPayload, hzero]
  rw [if_neg (Nat.not_lt.mpr hlen), if_neg (Nat.not_lt.mpr hend),
    if_neg (not_not.mpr (show n % max 1 0 = 0 from Nat.mod_one n)), if_pos trivial]

theorem splitPayload_rejects (h : ¬ZeroElemSize payload) :
    RaisesOnly Raised.Rejects (splitPayload payload n) := by
  simp only [splitPayload]
  split_ifs with hlen hend hmod hzero
  · exact .error (by decide)
  · exact .error (by decide)
  · exact .error (by simp [Raised.Rejects, Raised.exceptionType])
  · exact absurd ⟨Nat.not_lt.mp hlen, hzero, Nat.not_lt.mp hend⟩ h
  · exact .ok _

/-- The algorithm ids of the byte-split decoders; a dictionary has to be there. -/
def ByteSplits (E : Codecs) (algoId : ℕ) : Prop :=
  algoId = ALGO_ZSTD_BYTE_SPLIT ∨ algoId = ALGO_ZSTD_BYTE_SPLIT_HIGH_ONLY ∨
    ∃ p : DictPhase, algoId = p.algoId ∧ (E.zstdDictFor p).isSome

theorem zstdDictFor_raises (hE : E.RaiseOwn) {p : DictPhase} {c : ZstdCodec}
    (hc : E.zstdDictFor p = some c) (payload : Bytes) (n : ℕ) :
    RaisesOnly (· = .codecError) (c.decompress payload n) := by
  unfold Codecs.zstdDictFor Codecs.getZstdDict at hc
  split_ifs at hc
  exact hE.zstdDict _ c hc payload n

theorem decodeDict_rejects (hE : E.RaiseOwn) {p : DictPhase}
    (h : ¬((E.zstdDictFor p).isSome ∧ ZeroElemSize payload)) :
    RaisesOnly Raised.Rejects (decodeZstdDictByteSplitPayload E p payload n) := by
  unfold decodeZstdDictByteSplitPayload
  split
  · exact .error (by decide)
  · rename_i c hc
    refine (splitPayload_rejects fun hz => h ⟨by rw [hc]; rfl, hz⟩).bind fun parts _ => ?_
    refine (rejects_of_codec (zstdDictFor_raises hE hc _ _)).bind fun extracted _ => ?_
    refine (rejects_of_codec (zstdDictFor_raises hE hc _ _)).bind fun remaining _ => ?_
    exact reconstruct_rejects _ _ _ _

theorem decodePayload_rejects (hE : E.RaiseOwn) {algoId : ℕ}
    (h : ¬(ByteSplits E algoId ∧ ZeroElemSize payload)) :
    RaisesOnly Raised.Rejects (decodePayload E algoId payload n) := by
  have hdict : ∀ p : DictPhase, algoId = p.algoId →
      RaisesOnly Raised.Rejects (decodeZstdDictByteSplitPayload E p payload n) := fun p hp =>
    decodeDict_rejects hE fun hz => h ⟨.inr (.inr ⟨p, hp, hz.1⟩), hz.2⟩
  unfold decodePayload
  split_ifs with hsplit hany hprefill hdecode hhigh
  · refine (splitPayload_rejects fun hz => h ⟨.inl hsplit, hz⟩).bind fun parts _ => ?_
    refine (decompressWithAlgo_rejects hE _).bind fun extracted _ => ?_
    refine (decompressWithAlgo_rejects hE _).bind fun remaining _ => ?_
    exact reconstruct_rejects _ _ _ _
  · exact hdict .any hany
  · exact hdict .prefill hprefill
  · exact hdict .decode hdecode
  · refine (splitPayload_rejects fun hz => h ⟨.inr (.inl hhigh), hz⟩).bind fun parts _ => ?_
    simp only
    split_ifs
    · exact .error (by simp [Raised.Rejects, Raised.exceptionType])
    · refine (decompressWithAlgo_rejects hE _).bind fun extracted _ => ?_
      exact reconstruct_rejects _ _ _ _
  · exact decompressWithAlgo_rejects hE _

theorem decodePayload_zeroElemSize {algoId : ℕ} (h : ByteSplits E algoId)
    (hz : ZeroElemSize payload) : decodePayload E algoId payload n = .error .zeroDivision := by
  rcases h with rfl | rfl | ⟨p, rfl, hsome⟩
  · simp only [decodePayload, if_true, decodeZstdByteSplitPayload, splitPayload_zeroElemSize hz]
    rfl
  · simp only [decodePayload, ALGO_ZSTD_BYTE_SPLIT_HIGH_ONLY, ALGO_ZSTD_BYTE_SPLIT,
      ALGO_ZSTD_DICT_BYTE_SPLIT, ALGO_ZSTD_DICT_BYTE_SPLIT_PREFILL,
      ALGO_ZSTD_DICT_BYTE_SPLIT_DECODE, Nat.reduceEqDiff, if_false, if_true,
      decodeZstdByteSplitHighOnlyPayload, splitPayload_zeroElemSize hz]
    rfl
  · obtain ⟨c, hc⟩ := Option.isSome_iff_exists.mp hsome
    rw [decodePayload_dict]
    simp only [decodeZstdDictByteSplitPayload, hc, decodeDictByteSplitWith,
      splitPayload_zeroElemSize hz]
    rfl

end Decoders

/-- The outcomes that the receiver is prepared for: a buffer without a header is returned as it
is, a wrapped one with the size its header declares and the receiver allows, and everything else
is rejected. -/
def Handled {φ : Type} (maxDecodedEnv : ℤ) (x : SerializedTensor φ) :
    Except Raised (SerializedTensor φ) → Prop
  | .ok y => (¬LooksWrapped x.buffer ∧ y = x) ∨
    ∃ algoId originalSize payload,
      parseWrapper x.buffer = .ok (some (algoId, originalSize, payload)) ∧
      originalSize ≤ maxDecodedBytes maxDecodedEnv ∧ y.buffer.length = originalSize ∧
      y.fields = x.fields
  | .error e => e.Rejects

/-- The buffer is a wrapper within the cap whose byte-split payload has elements of no bytes. -/
def SplitsByZero (E : Codecs) (maxDecodedEnv : ℤ) (buffer : Bytes) : Prop :=
  ∃ algoId originalSize payload,
    parseWrapper buffer = .ok (some (algoId, originalSize, payload)) ∧
    originalSize ≤ maxDecodedBytes maxDecodedEnv ∧ ByteSplits E algoId ∧ ZeroElemSize payload

theorem not_looksWrapped_of_parse {buffer : Bytes} (h : parseWrapper buffer = .ok none) :
    ¬LooksWrapped buffer := by
  rintro ⟨hlen, hmagic⟩
  simp only [parseWrapper, if_neg (Nat.not_lt.mpr hlen), if_neg (not_not.mpr hmagic)] at h
  split_ifs at h
  cases h

theorem parseWrapper_rejects (buffer : Bytes) :
    RaisesOnly Raised.Rejects (parseWrapper buffer) := by
  simp only [parseWrapper]
  split_ifs
  · exact .ok _
  · exact .ok _
  · exact .error (by simp [Raised.Rejects, Raised.exceptionType])
  · exact .ok _

/-- For every buffer the receiver returns as it should or rejects, unless it divides by zero. -/
theorem unwrap_handled_iff {φ : Type} {E : Codecs} (hE : E.RaiseOwn) (maxDecodedEnv : ℤ)
    (x : SerializedTensor φ) :
    Handled maxDecodedEnv x (unwrapSerializedTensor E maxDecodedEnv x) ↔
      ¬SplitsByZero E maxDecodedEnv x.buffer := by
  unfold unwrapSerializedTensor
  split
  · rename_i e he
    refine iff_of_true (parseWrapper_rejects _ e he) ?_
    rintro ⟨_, _, _, hp, -⟩
    cases he.symm.trans hp
  · rename_i hp
    refine iff_of_true (.inl ⟨not_looksWrapped_of_parse hp, rfl⟩) ?_
    rintro ⟨_, _, _, hp', -⟩
    cases hp.symm.trans hp'
  · rename_i algoId originalSize payload hp
    have hsplits : SplitsByZero E maxDecodedEnv x.buffer ↔
        originalSize ≤ maxDecodedBytes maxDecodedEnv ∧ ByteSplits E algoId ∧
          ZeroElemSize payload := by
      constructor
      · rintro ⟨_, _, _, hp', hrest⟩
        cases hp.symm.trans hp'
        exact hrest
      · exact fun hrest => ⟨algoId, originalSize, payload, hp, hrest⟩
    rw [hsplits]
    by_cases hcap : originalSize > maxDecodedBytes maxDecodedEnv
    · rw [if_pos hcap]
      refine iff_of_true ?_ fun hrest => absurd hrest.1 (Nat.not_le.mpr hcap)
      simp [Handled, Raised.Rejects, Raised.exceptionType]
    · rw [if_neg hcap]
      by_cases hz : ByteSplits E algoId ∧ ZeroElemSize payload
      · rw [decodePayload_zeroElemSize hz.1 hz.2]
        refine iff_of_false ?_ (not_not.mpr ⟨Nat.not_lt.mp hcap, hz⟩)
        simp [Handled, Raised.Rejects, Raised.exceptionType]
      · refine iff_of_true ?_ fun hrest => hz hrest.2
        cases hraw : decodePayload E algoId payload originalSize with
        | error e => exact decodePayload_rejects hE hz e hraw
        | ok raw =>
          exact .inr ⟨algoId, originalSize, payload, hp, Nat.not_lt.mp hcap,
            decodePayload_length hraw, rfl⟩

theorem zlibOnly_raiseOwn : zlibOnly.RaiseOwn where
  zstd := by intro c hc; cases hc
  zstdDict := by intro path c hc; cases hc
  zlib := by
    intro payload n e he
    simp only [zlibOnly] at he
    split_ifs at he
    exact (Except.error.inj he).symm
  zipnn := by intro z hz; cases hz

/-- A byte-split wrapper of four bytes, in elements of no bytes, with nothing in either lane. -/
def zeroElemTensor : SerializedTensor Unit :=
  ⟨[0x42, 0x42, 0x4C, 0x43, 1, 3, 0, 0, 0, 0, 0, 0, 0, 4, 0, 0, 0, 0, 0], ()⟩

theorem unwrap_zeroElemTensor_raises :
    unwrapSerializedTensor zlibOnly (2 ^ 30) zeroElemTensor = .error .zeroDivision ∧
      zlibOnly.RaiseOwn ∧
      ¬Handled (2 ^ 30) zeroElemTensor
        (unwrapSerializedTensor zlibOnly (2 ^ 30) zeroElemTensor) := by
  have hraise : unwrapSerializedTensor zlibOnly (2 ^ 30) zeroElemTensor =
      .error .zeroDivision := rfl
  refine ⟨hraise, zlibOnly_raiseOwn, ?_⟩
  rw [hraise]
  simp [Handled, Raised.Rejects, Raised.exceptionType]

/-- Elements of no bytes are not handled, and a version that is not supported is. -/
theorem unwrap_handled_iff_zeroElemTensor :
    ¬Handled (2 ^ 30) zeroElemTensor
        (unwrapSerializedTensor zlibOnly (2 ^ 30) zeroElemTensor) ∧
      Handled (2 ^ 30) magicTensor (unwrapSerializedTensor zlibOnly (2 ^ 30) magicTensor) := by
  refine ⟨fun h => ?_, ?_⟩
  · refine (unwrap_handled_iff zlibOnly_raiseOwn (2 ^ 30) zeroElemTensor).mp h ?_
    exact ⟨3, 4, [0, 0, 0, 0, 0], rfl, by decide, .inl rfl, by decide⟩
  · refine (unwrap_handled_iff zlibOnly_raiseOwn (2 ^ 30) magicTensor).mpr ?_
    rintro ⟨_, _, _, hp, -⟩
    cases hp

end BloomBee.LosslessTransport
