import BloomBee.Sanity.LosslessTransport
import Mathlib.Algebra.Group.Int.Defs

/-! The lossless wrapper end to end: what a sender wraps a receiver restores, and which
unwrapped buffers a receiver leaves alone. -/

set_option autoImplicit false

namespace BloomBee.LosslessTransport

open Fallible

/-! What the code relies on: a codec restores the bytes it compressed. -/

def ZstdCodec.RoundTrips (c : ZstdCodec) : Prop :=
  ∀ level raw out, c.compress level raw = .ok out → c.decompress out raw.length = .ok raw

structure Codecs.Lossless (E : Codecs) : Prop where
  zstd : ∀ c, E.zstd = some c → c.RoundTrips
  zstdDict : ∀ path c, E.zstdDict path = some c → c.RoundTrips
  zlib : ∀ level raw out, E.zlibCompress level raw = .ok out →
    E.zlibDecompress out (raw.length + 1) = .ok ⟨raw, [], true, []⟩
  zipnn : ∀ z, E.zipnn = some z → ∀ name level raw out,
    z.compress name level raw = .ok out → z.decompress out = .ok raw

/-- `wrapped` parses as a wrapper of `raw` and decodes to it. -/
def Restores (E : Codecs) (raw wrapped : Bytes) : Prop :=
  ∃ algoId payload, parseWrapper wrapped = .ok (some (algoId, raw.length, payload)) ∧
    decodePayload E algoId payload raw.length = .ok raw

theorem restores_of_withHeader {E : Codecs} {algoId : ℕ} {raw payload wrapped : Bytes}
    (h : withHeader algoId raw payload = .ok wrapped)
    (hd : decodePayload E algoId payload raw.length = .ok raw) : Restores E raw wrapped := by
  obtain ⟨header, hpack, hpure⟩ := bind_eq_ok h
  obtain rfl := Except.ok.inj hpure
  exact ⟨algoId, payload, parseWrapper_packHeader true hpack payload, hd⟩

theorem decompressWithAlgo_of_raw {E : Codecs} {algoId : ℕ} {payload raw : Bytes}
    (h : decompressRaw E algoId payload raw.length = .ok raw) :
    decompressWithAlgo E algoId payload raw.length = .ok raw := by
  rw [decompressWithAlgo, h, ok_bind, if_neg (by simp)]
  rfl

theorem decompressRaw_zstd {E : Codecs} {c : ZstdCodec} (hc : E.zstd = some c) (payload : Bytes)
    (n : ℕ) : decompressRaw E ALGO_ZSTD payload n = c.decompress payload n := by
  rw [decompressRaw, if_pos rfl, hc]

theorem decompressRaw_zlib {E : Codecs} {payload raw : Bytes}
    (hd : E.zlibDecompress payload (raw.length + 1) = .ok ⟨raw, [], true, []⟩) :
    decompressRaw E ALGO_ZLIB payload raw.length = .ok raw := by
  rw [decompressRaw, if_neg (by decide), if_pos rfl, decompressZlibCapped, hd, ok_bind]
  simp only [gt_iff_lt, Nat.lt_irrefl, ne_eq, not_true_eq_false, or_self, if_false,
    Bool.true_eq_false]
  rfl

theorem decompressRaw_zipnn {E : Codecs} {z : ZipnnCodec} (hz : E.zipnn = some z) (payload : Bytes)
    (n : ℕ) : decompressRaw E ALGO_ZIPNN payload n = z.decompress payload := by
  rw [decompressRaw, if_neg (by decide), if_neg (by decide), if_pos rfl, hz]

/-- A dictionary payload goes through the decoder of its own id. -/
theorem decodePayload_dict (E : Codecs) (p : DictPhase) (payload : Bytes) (n : ℕ) :
    decodePayload E p.algoId payload n = decodeZstdDictByteSplitPayload E p payload n := by
  cases p <;> rfl

theorem candidate_restores {E : Codecs} {raw : Bytes} {algoId : ℕ} {build : Except Raised Bytes}
    (h : ∀ w, build = .ok w → Restores E raw w) {c : Candidate} (hc : c ∈ candidate algoId build) :
    Restores E raw c.wrapped := by
  cases build with
  | error e => cases hc
  | ok w =>
    obtain rfl := List.mem_singleton.mp hc
    exact h w rfl

/-- The byte-split layout is only used for a whole number of elements. -/
theorem mod_elementSize_of_supports {cfg : Config} {tensor : Option TensorMeta}
    {ct : CompressionType} {n : ℕ} {ctx : Option DebugContext}
    (h : supportsByteSplitLayout cfg tensor ct n ctx = true) :
    n % ((tensor.map fun t => t.dtype.elementSize).getD 2) = 0 := by
  unfold supportsByteSplitLayout at h
  cases tensor with
  | none => simp at h
  | some t =>
    cases hd : t.dtype with
    | other m => simp [hd] at h
    | float name =>
      simp only [hd, Bool.and_eq_true, decide_eq_true_eq] at h
      rw [h.2.1]
      simp [hd]

theorem mem_firstNonempty {cs later : List Candidate} {c : Candidate}
    (h : c ∈ firstNonempty cs later) : c ∈ cs ∨ c ∈ later := by
  unfold firstNonempty at h
  split_ifs at h
  · exact .inr h
  · exact .inl h

theorem smallest_mem (best : Candidate) (rest : List Candidate) :
    smallest best rest ∈ best :: rest := by
  induction rest generalizing best with
  | nil => exact List.mem_singleton_self _
  | cons c rest ih =>
    rw [smallest]
    split_ifs
    · exact List.mem_cons_of_mem _ (ih c)
    · rcases List.mem_cons.mp (ih best) with h | h
      · rw [h]; exact List.mem_cons_self
      · exact List.mem_cons_of_mem _ (List.mem_cons_of_mem _ h)

section Lossless

variable {E : Codecs} (hE : E.Lossless) {cfg : Config} {raw wrapped : Bytes} {elemSize : ℕ}
include hE

theorem decompress_compress {algo : Algo} {level : ℤ} {algoId : ℕ} {out : Bytes}
    (h : compressWithAlgo E raw algo level = .ok (algoId, out)) (h0 : algoId ≠ 0) :
    (algoId = ALGO_ZSTD ∨ algoId = ALGO_ZLIB) ∧
      decompressWithAlgo E algoId out raw.length = .ok raw := by
  unfold compressWithAlgo at h
  split at h
  · obtain ⟨c, hget, hrest⟩ := bind_eq_ok h
    unfold getZstdCompressor at hget
    split at hget
    · obtain rfl := Except.ok.inj hget
      obtain ⟨rfl, -⟩ := Prod.mk.inj (Except.ok.inj hrest)
      exact absurd rfl h0
    · rename_i c' hc
      obtain ⟨-, -, hsome⟩ := bind_eq_ok hget
      obtain rfl := Except.ok.inj hsome
      obtain ⟨out', hout, hpure⟩ := bind_eq_ok hrest
      obtain ⟨rfl, rfl⟩ := Prod.mk.inj (Except.ok.inj hpure)
      refine ⟨.inl rfl, decompressWithAlgo_of_raw ?_⟩
      rw [decompressRaw_zstd hc]
      exact hE.zstd c' hc level raw out' hout
  · obtain ⟨out', hout, hpure⟩ := bind_eq_ok h
    obtain ⟨rfl, rfl⟩ := Prod.mk.inj (Except.ok.inj hpure)
    exact ⟨.inr rfl, decompressWithAlgo_of_raw (decompressRaw_zlib (hE.zlib _ raw out' hout))⟩
  · obtain ⟨rfl, -⟩ := Prod.mk.inj (Except.ok.inj h)
    exact absurd rfl h0

theorem buildPlainWrapper_restores {algoId : ℕ}
    (h : buildPlainWrapper E cfg raw = .ok (algoId, wrapped)) (h0 : algoId ≠ 0) :
    Restores E raw wrapped := by
  obtain ⟨⟨id, out⟩, hcomp, hrest⟩ := bind_eq_ok h
  simp only at hrest
  split_ifs at hrest with hid
  · obtain ⟨rfl, -⟩ := Prod.mk.inj (Except.ok.inj hrest)
    exact absurd rfl h0
  · obtain ⟨w, hw, hpure⟩ := bind_eq_ok hrest
    obtain ⟨rfl, rfl⟩ := Prod.mk.inj (Except.ok.inj hpure)
    obtain ⟨hkind, hdec⟩ := decompress_compress hE hcomp h0
    refine restores_of_withHeader hw ?_
    rcases hkind with rfl | rfl <;> exact hdec

theorem buildZipnnWrapper_restores {tensor : Option TensorMeta}
    (h : buildZipnnWrapper E cfg raw tensor = .ok wrapped) : Restores E raw wrapped := by
  unfold buildZipnnWrapper at h
  split at h
  · rename_i name z _ hz
    obtain ⟨out, hout, hw⟩ := bind_eq_ok h
    refine restores_of_withHeader hw (decompressWithAlgo_of_raw ?_)
    rw [decompressRaw_zipnn hz]
    exact hE.zipnn z hz name cfg.level raw out hout
  · cases h

theorem buildZstdByteSplitWrapper_restores (hdiv : raw.length % elemSize = 0)
    (h : buildZstdByteSplitWrapper E cfg raw elemSize = .ok wrapped) : Restores E raw wrapped := by
  obtain ⟨⟨extracted, remaining⟩, hsplit, h₁⟩ := bind_eq_ok h
  obtain ⟨⟨id₁, comp₁⟩, hc₁, h₂⟩ := bind_eq_ok h₁
  obtain ⟨⟨id₂, comp₂⟩, hc₂, h₃⟩ := bind_eq_ok h₂
  simp only [ne_eq] at h₃
  split_ifs at h₃ with hids
  simp only [not_or, not_not] at hids
  obtain ⟨rfl, rfl⟩ := hids
  obtain ⟨payload, hpay, hw⟩ := bind_eq_ok h₃
  obtain ⟨hsize, hext, hrem, hback⟩ := lanesOf_split hsplit hdiv
  obtain ⟨-, hd₁⟩ := decompress_compress hE hc₁ (by decide)
  obtain ⟨-, hd₂⟩ := decompress_compress hE hc₂ (by decide)
  have hparts := splitPayload_byteSplitPayload hpay (by omega) hdiv
  refine restores_of_withHeader hw ?_
  rw [decodePayload, if_pos rfl, decodeZstdByteSplitPayload, hparts, ok_bind]
  rw [hext] at hd₁
  rw [hrem] at hd₂
  simp only [hd₁, hd₂, ok_bind, hback]

theorem buildZstdByteSplitHighOnlyWrapper_restores (hdiv : raw.length % elemSize = 0)
    (h : buildZstdByteSplitHighOnlyWrapper E cfg raw elemSize = .ok wrapped) :
    Restores E raw wrapped := by
  obtain ⟨⟨extracted, remaining⟩, hsplit, h₁⟩ := bind_eq_ok h
  obtain ⟨⟨id₁, comp₁⟩, hc₁, h₂⟩ := bind_eq_ok h₁
  simp only [ne_eq] at h₂
  split_ifs at h₂ with hid
  subst hid
  obtain ⟨payload, hpay, hw⟩ := bind_eq_ok h₂
  obtain ⟨hsize, hext, hrem, hback⟩ := lanesOf_split hsplit hdiv
  obtain ⟨-, hd₁⟩ := decompress_compress hE hc₁ (by decide)
  have hparts := splitPayload_byteSplitPayload hpay (by omega) hdiv
  refine restores_of_withHeader hw ?_
  rw [decodePayload, if_neg (by decide), if_neg (by decide), if_neg (by decide),
    if_neg (by decide), if_pos rfl, decodeZstdByteSplitHighOnlyPayload, hparts, ok_bind]
  rw [hext] at hd₁
  simp only [hrem, ne_eq, not_true_eq_false, if_false, hd₁, ok_bind, hback]

theorem zstdDictFor_roundTrips {p : DictPhase} {c : ZstdCodec} (h : E.zstdDictFor p = some c) :
    c.RoundTrips := by
  unfold Codecs.zstdDictFor Codecs.getZstdDict at h
  split_ifs at h
  exact hE.zstdDict _ c h

theorem buildDictWrapper_restores {p : DictPhase} (hdiv : raw.length % elemSize = 0)
    (h : buildDictWrapper p E cfg raw elemSize = .ok wrapped) : Restores E raw wrapped := by
  obtain ⟨oc, hget, h₁⟩ := bind_eq_ok h
  unfold getZstdDictCompressor at hget
  split at hget
  · obtain rfl := Except.ok.inj hget
    cases h₁
  · rename_i c hc
    obtain ⟨-, -, hsome⟩ := bind_eq_ok hget
    obtain rfl := Except.ok.inj hsome
    obtain ⟨⟨extracted, remaining⟩, hsplit, h₂⟩ := bind_eq_ok h₁
    obtain ⟨comp₁, hc₁, h₃⟩ := bind_eq_ok h₂
    obtain ⟨comp₂, hc₂, h₄⟩ := bind_eq_ok h₃
    obtain ⟨payload, hpay, hw⟩ := bind_eq_ok h₄
    obtain ⟨hsize, hext, hrem, hback⟩ := lanesOf_split hsplit hdiv
    have hd₁ := zstdDictFor_roundTrips hE hc _ _ _ hc₁
    have hd₂ := zstdDictFor_roundTrips hE hc _ _ _ hc₂
    have hparts := splitPayload_byteSplitPayload hpay (by omega) hdiv
    refine restores_of_withHeader hw ?_
    rw [decodePayload_dict]
    simp only [decodeZstdDictByteSplitPayload, hc]
    rw [decodeDictByteSplitWith, hparts, ok_bind]
    rw [hext] at hd₁
    rw [hrem] at hd₂
    simp only [hd₁, hd₂, ok_bind, hback]

/-! Every candidate restores the buffer. -/

theorem plainCandidates_restores {cs : List Candidate} (h : plainCandidates E cfg raw = .ok cs)
    {c : Candidate} (hc : c ∈ cs) : Restores E raw c.wrapped := by
  obtain ⟨⟨algoId, w⟩, hbuild, hpure⟩ := bind_eq_ok h
  obtain rfl := Except.ok.inj hpure
  split_ifs at hc with h0
  · cases hc
  · obtain rfl := List.mem_singleton.mp hc
    exact buildPlainWrapper_restores hE hbuild h0

theorem phaseDictCandidates_restores {phase : String} {cs : List Candidate}
    (hdiv : raw.length % elemSize = 0)
    (h : phaseDictCandidates E cfg raw elemSize phase = .ok cs) {c : Candidate} (hc : c ∈ cs) :
    Restores E raw c.wrapped := by
  unfold phaseDictCandidates at h
  split_ifs at h
  · obtain ⟨oc, -, hrest⟩ := bind_eq_ok h
    cases oc with
    | none => obtain rfl := Except.ok.inj hrest; cases hc
    | some d =>
      obtain rfl := Except.ok.inj hrest
      exact candidate_restores (fun w hw => buildDictWrapper_restores hE hdiv hw) hc
  · obtain ⟨oc, -, hrest⟩ := bind_eq_ok h
    cases oc with
    | none => obtain rfl := Except.ok.inj hrest; cases hc
    | some d =>
      obtain rfl := Except.ok.inj hrest
      exact candidate_restores (fun w hw => buildDictWrapper_restores hE hdiv hw) hc
  · obtain rfl := Except.ok.inj h
    cases hc

theorem splitCandidates_restores (hdiv : raw.length % elemSize = 0) {c : Candidate}
    (hc : c ∈ splitCandidates E cfg raw elemSize) : Restores E raw c.wrapped := by
  unfold splitCandidates at hc
  split_ifs at hc
  · exact candidate_restores (fun w hw => buildZstdByteSplitHighOnlyWrapper_restores hE hdiv hw) hc
  · exact candidate_restores (fun w hw => buildZstdByteSplitWrapper_restores hE hdiv hw) hc

theorem generalCandidates_restores {supportsBs : Bool} {cs : List Candidate}
    (hdiv : supportsBs = true → raw.length % elemSize = 0)
    (h : generalCandidates E cfg raw supportsBs elemSize = .ok cs) {c : Candidate} (hc : c ∈ cs) :
    Restores E raw c.wrapped := by
  unfold generalCandidates at h
  by_cases hsingle : cfg.singlePath = true ∧ cfg.algo = .zstd ∧ supportsBs = true
  · rw [if_pos hsingle] at h
    split_ifs at h
    · exact plainCandidates_restores hE h hc
    · obtain rfl := Except.ok.inj h
      exact splitCandidates_restores hE (hdiv hsingle.2.2) hc
  · rw [if_neg hsingle] at h
    obtain ⟨plain, hplain, hpure⟩ := bind_eq_ok h
    obtain rfl := Except.ok.inj hpure
    rcases List.mem_append.mp hc with hp | hp
    · exact plainCandidates_restores hE hplain hp
    · split_ifs at hp with hs
      · exact splitCandidates_restores hE (hdiv hs) hp
      · cases hp

theorem candidates_restores {tensor : Option TensorMeta} {ct : CompressionType}
    {ctx : Option DebugContext} {cs : List Candidate}
    (h : candidates E cfg raw tensor ct ctx = .ok cs) {c : Candidate} (hc : c ∈ cs) :
    Restores E raw c.wrapped := by
  unfold candidates at h
  generalize hbs : supportsByteSplitLayout cfg tensor ct raw.length ctx = supportsBs at h
  have hdiv : supportsBs = true → raw.length % _ = 0 :=
    fun hs => mod_elementSize_of_supports (hbs.trans hs)
  generalize (tensor.map fun t => t.dtype.elementSize).getD 2 = elemSize at h hdiv
  generalize supportsZipnnTransport E cfg tensor ct raw.length ctx = supportsZipnn at h
  have hzipnn : ∀ c ∈ (if supportsZipnn then
      candidate ALGO_ZIPNN (buildZipnnWrapper E cfg raw tensor) else []),
      Restores E raw c.wrapped := by
    intro c hc
    split_ifs at hc
    · exact candidate_restores (fun w hw => buildZipnnWrapper_restores hE hw) hc
    · cases hc
  have hdict : ∀ c ∈ (if supportsBs then candidate ALGO_ZSTD_DICT_BYTE_SPLIT
      (buildZstdDictByteSplitWrapper E cfg raw elemSize) else []), Restores E raw c.wrapped := by
    intro c hc
    split_ifs at hc with hs
    · exact candidate_restores (fun w hw => buildDictWrapper_restores hE (hdiv hs) hw) hc
    · cases hc
  have hhybrid : ∀ c, (c ∈ (if adaptiveHybridPrefersZstdDict cfg ctx then (if supportsBs then
      candidate ALGO_ZSTD_DICT_BYTE_SPLIT (buildZstdDictByteSplitWrapper E cfg raw elemSize)
      else []) else []) ∨ c ∈ (if supportsZipnn then
      candidate ALGO_ZIPNN (buildZipnnWrapper E cfg raw tensor) else [])) →
      Restores E raw c.wrapped := by
    rintro c (hc | hc)
    · by_cases hp : adaptiveHybridPrefersZstdDict cfg ctx = true
      · rw [if_pos hp] at hc; exact hdict c hc
      · rw [if_neg hp] at hc; cases hc
    · exact hzipnn c hc
  split at h
  · obtain rfl := Except.ok.inj h
    exact hzipnn c hc
  · obtain rfl := Except.ok.inj h
    exact hdict c hc
  · obtain rfl := Except.ok.inj h
    exact hdict c hc
  · obtain rfl := Except.ok.inj h
    exact hdict c hc
  · dsimp only at h
    split_ifs at h with hs
    · obtain ⟨phaseDict, hphase, hpure⟩ := bind_eq_ok h
      obtain rfl := Except.ok.inj hpure
      rcases mem_firstNonempty hc with hp | hp
      · exact phaseDictCandidates_restores hE (hdiv hs) hphase hp
      · exact candidate_restores (fun w hw => buildZstdByteSplitWrapper_restores hE (hdiv hs) hw) hp
    · obtain rfl := Except.ok.inj h
      cases hc
  · obtain rfl := Except.ok.inj h
    exact hhybrid c (mem_firstNonempty hc)
  · obtain rfl := Except.ok.inj h
    exact hhybrid c (mem_firstNonempty hc)
  all_goals exact generalCandidates_restores hE hdiv h hc

end Lossless

/-! The round trip. -/

theorem unwrap_of_restores {φ : Type} {E : Codecs} {x : SerializedTensor φ} {wrapped : Bytes}
    {maxDecodedEnv : ℤ} (hcap : x.buffer.length ≤ maxDecodedBytes maxDecodedEnv)
    (h : Restores E x.buffer wrapped) :
    unwrapSerializedTensor E maxDecodedEnv { x with buffer := wrapped } = .ok x := by
  obtain ⟨algoId, payload, hparse, hdecode⟩ := h
  simp only [unwrapSerializedTensor, hparse, gt_iff_lt, if_neg (Nat.not_lt.mpr hcap), hdecode]

/-- Whatever codecs, configuration and context the sender has: when it wraps a tensor whose
buffer is within the receiver's cap, the receiver gets the same tensor back, buffer and all
other fields, and the wire buffer is shorter by more than the minimum gain. -/
theorem unwrap_wrap {φ : Type} {E : Codecs} (hE : E.Lossless) {cfg : Config}
    {x y : SerializedTensor φ} {tensor : Option TensorMeta} {ct : CompressionType}
    {ctx : Option DebugContext} {maxDecodedEnv : ℤ}
    (hcap : x.buffer.length ≤ maxDecodedBytes maxDecodedEnv)
    (h : wrapSerializedTensorImpl E cfg x tensor ct ctx = .ok (y, none)) :
    unwrapSerializedTensor E maxDecodedEnv y = .ok x ∧ y.fields = x.fields ∧
      y.buffer.length + cfg.minGainBytes < x.buffer.length := by
  simp only [wrapSerializedTensorImpl] at h
  split_ifs at h with h1 h2 h3
  · cases h
  · cases h
  · cases h
  · split at h
    · cases h
    · cases h
    · split at h
      · cases h
      · cases h
      · rename_i first rest hcands
        split_ifs at h with hgain
        · cases h
        · obtain ⟨rfl, -⟩ := Prod.mk.inj (Except.ok.inj h)
          have hmem := smallest_mem first rest
          exact ⟨unwrap_of_restores hcap (candidates_restores hE hcands hmem), rfl,
            Nat.lt_of_not_le hgain⟩

def zlibZeros : Bytes := [120, 1, 99, 96, 24, 88, 0, 0, 0, 128, 0, 1]

/-- Only zlib is installed, and only its behaviour on 128 zero bytes is written down. -/
def zlibOnly : Codecs where
  zstd := none
  zstdDict := fun _ => none
  zlibCompress := fun level raw =>
    if level = 1 ∧ raw = List.replicate 128 0 then .ok zlibZeros else .error .codecError
  zlibDecompress := fun payload limit =>
    if payload = zlibZeros ∧ limit = 129 then .ok ⟨List.replicate 128 0, [], true, []⟩
    else .error .codecError
  zipnn := none
  dictPath := ""
  dictPathPrefill := ""
  dictPathDecode := ""

/-- The wrapper switched on with zlib, for buffers of 64 bytes or more. -/
def zlibConfig : Config where
  sendEnabled := true
  algo := .zlib
  level := 1
  layout := .byteSplit
  singlePath := true
  minBytes := 64
  minGainBytes := 32
  layoutTargets := ["*:*:hidden_states"]
  hybridDictBlocks := ["0:20"]
  littleEndian := true

theorem zlibOnly_lossless : zlibOnly.Lossless where
  zstd := by intro c hc; cases hc
  zstdDict := by intro p c hc; cases hc
  zlib := by
    intro level raw out h
    simp only [zlibOnly] at h ⊢
    split_ifs at h with hin
    obtain rfl := Except.ok.inj h
    rw [hin.2, if_pos (by simp)]
  zipnn := by intro z hz; cases hz

set_option maxRecDepth 4096 in
theorem unwrap_wrap_zeros :
    wrapSerializedTensorImpl zlibOnly zlibConfig ⟨List.replicate 128 0, ()⟩ none .none none =
        .ok (⟨[0x42, 0x42, 0x4C, 0x43, 1, 2, 0, 0, 0, 0, 0, 0, 0, 128] ++ zlibZeros, ()⟩, none) ∧
      unwrapSerializedTensor zlibOnly (2 ^ 30)
        ⟨[0x42, 0x42, 0x4C, 0x43, 1, 2, 0, 0, 0, 0, 0, 0, 0, 128] ++ zlibZeros, ()⟩ =
        .ok ⟨List.replicate 128 0, ()⟩ := by
  have hwrap : wrapSerializedTensorImpl zlibOnly zlibConfig ⟨List.replicate 128 0, ()⟩ none .none
      none = .ok (⟨[0x42, 0x42, 0x4C, 0x43, 1, 2, 0, 0, 0, 0, 0, 0, 0, 128] ++ zlibZeros, ()⟩,
        none) := by
    rfl
  have hcap : (List.replicate 128 (0 : UInt8)).length ≤ maxDecodedBytes (2 ^ 30) := by
    rw [List.length_replicate, maxDecodedBytes]
    exact Nat.le_trans (by decide) (Nat.le_max_right _ _)
  exact ⟨hwrap, (unwrap_wrap zlibOnly_lossless hcap hwrap).1⟩

/-! Buffers that are sent as they are. -/

theorem setLanes_length {step start : ℕ} {out ys : Bytes} {srcs : List Bytes}
    (h : setLanes step out start srcs = .ok ys) : ys.length = out.length := by
  induction srcs generalizing out start with
  | nil => obtain rfl := Except.ok.inj h; rfl
  | cons src rest ih =>
    rw [setLanes] at h
    split at h
    · cases h
    · rename_i out' hset
      unfold Strided.setLane at hset
      split_ifs at hset
      obtain rfl := Option.some.inj hset
      rw [ih h, List.length_mapIdx]

theorem reconstruct_length {extracted remaining raw : Bytes} {elemSize n : ℕ}
    (h : reconstructHighByteLane extracted remaining elemSize n = .ok raw) : raw.length = n := by
  simp only [reconstructHighByteLane] at h
  split_ifs at h
  · rw [setLanes_length h, List.length_replicate]
  · rw [setLanes_length h, List.length_replicate]

theorem decompressWithAlgo_length {E : Codecs} {algoId n : ℕ} {payload raw : Bytes}
    (h : decompressWithAlgo E algoId payload n = .ok raw) : raw.length = n := by
  obtain ⟨out, -, hrest⟩ := bind_eq_ok h
  split_ifs at hrest with hlen
  obtain rfl := Except.ok.inj hrest
  exact not_not.mp hlen

theorem decodePayload_length {E : Codecs} {algoId n : ℕ} {payload raw : Bytes}
    (h : decodePayload E algoId payload n = .ok raw) : raw.length = n := by
  have hdict : ∀ p, decodeZstdDictByteSplitPayload E p payload n = .ok raw → raw.length = n := by
    intro p hp
    unfold decodeZstdDictByteSplitPayload at hp
    split at hp
    · cases hp
    · obtain ⟨parts, -, h₁⟩ := bind_eq_ok hp
      obtain ⟨extracted, -, h₂⟩ := bind_eq_ok h₁
      obtain ⟨remaining, -, h₃⟩ := bind_eq_ok h₂
      exact reconstruct_length h₃
  unfold decodePayload at h
  split_ifs at h
  · obtain ⟨parts, -, h₁⟩ := bind_eq_ok h
    obtain ⟨extracted, -, h₂⟩ := bind_eq_ok h₁
    obtain ⟨remaining, -, h₃⟩ := bind_eq_ok h₂
    exact reconstruct_length h₃
  · exact hdict .any h
  · exact hdict .prefill h
  · exact hdict .decode h
  · obtain ⟨parts, -, h₁⟩ := bind_eq_ok h
    simp only at h₁
    split_ifs at h₁
    obtain ⟨extracted, -, h₂⟩ := bind_eq_ok h₁
    exact reconstruct_length h₂
  · exact decompressWithAlgo_length h

def LooksWrapped (buffer : Bytes) : Prop := HEADER_SIZE ≤ buffer.length ∧ buffer.take 4 = MAGIC

theorem parseWrapper_of_not_looksWrapped {buffer : Bytes} (strict : Bool)
    (h : ¬LooksWrapped buffer) : parseWrapper buffer strict = .ok none := by
  unfold parseWrapper
  by_cases hlen : buffer.length < HEADER_SIZE
  · rw [if_pos hlen]
  · rw [if_neg hlen, if_pos fun hm => h ⟨Nat.le_of_not_lt hlen, hm⟩]

/-- A receiver with the smallest cap never returns a buffer that looks wrapped unchanged:
it raises, or it decodes at most one byte. -/
theorem unwrap_ne_of_looksWrapped {φ : Type} {E : Codecs} {x : SerializedTensor φ}
    (h : LooksWrapped x.buffer) : unwrapSerializedTensor E 1 x ≠ .ok x := by
  obtain ⟨hlen, hmagic⟩ := h
  intro hun
  unfold unwrapSerializedTensor parseWrapper at hun
  rw [if_neg (Nat.not_lt.mpr hlen), if_neg (not_not.mpr hmagic)] at hun
  by_cases hv : BigEndian.decode ((x.buffer.drop 4).take 1) ≠ VERSION
  · rw [if_pos hv] at hun
    cases hun
  · rw [if_neg hv] at hun
    generalize BigEndian.decode ((x.buffer.drop 6).take 8) = size at hun
    simp only at hun
    split_ifs at hun with hcap
    split at hun
    · cases hun
    · rename_i raw hraw
      have hbuf : raw = x.buffer := congrArg SerializedTensor.buffer (Except.ok.inj hun)
      have hsize := decodePayload_length hraw
      have hone : maxDecodedBytes 1 = 1 := rfl
      have hhead : HEADER_SIZE = 14 := rfl
      rw [hbuf] at hsize
      omega

/-- A tensor the sender leaves unwrapped is sent as it is, and every receiver, whatever its
cap, returns it unchanged exactly when its buffer does not look wrapped. -/
theorem unwrap_unwrapped_iff {φ : Type} {E : Codecs} {cfg : Config} {x y : SerializedTensor φ}
    {tensor : Option TensorMeta} {ct : CompressionType} {ctx : Option DebugContext}
    {reason : SkipReason} (h : wrapSerializedTensorImpl E cfg x tensor ct ctx = .ok (y, some reason)) :
    (∀ maxDecodedEnv, unwrapSerializedTensor E maxDecodedEnv y = .ok x) ↔
      ¬LooksWrapped x.buffer := by
  have hyx : y = x := by
    simp only [wrapSerializedTensorImpl] at h
    split_ifs at h
    · exact (Prod.mk.inj (Except.ok.inj h)).1.symm
    · exact (Prod.mk.inj (Except.ok.inj h)).1.symm
    · exact (Prod.mk.inj (Except.ok.inj h)).1.symm
    · split at h
      · cases h
      · exact (Prod.mk.inj (Except.ok.inj h)).1.symm
      · split at h
        · cases h
        · exact (Prod.mk.inj (Except.ok.inj h)).1.symm
        · split_ifs at h
          · exact (Prod.mk.inj (Except.ok.inj h)).1.symm
          · cases h
  subst hyx
  constructor
  · intro hall hlook
    exact unwrap_ne_of_looksWrapped hlook (hall 1)
  · intro hlook maxDecodedEnv
    simp only [unwrapSerializedTensor, parseWrapper_of_not_looksWrapped true hlook]

theorem unwrap_unwrapped_iff_disabled :
    wrapSerializedTensorImpl zlibOnly { zlibConfig with sendEnabled := false }
        ⟨[1, 2, 3], ()⟩ none .none none = .ok (⟨[1, 2, 3], ()⟩, some .disabled) ∧
      unwrapSerializedTensor zlibOnly (2 ^ 30) ⟨[1, 2, 3], ()⟩ = .ok ⟨[1, 2, 3], ()⟩ := by
  have hwrap : wrapSerializedTensorImpl zlibOnly { zlibConfig with sendEnabled := false }
      ⟨[1, 2, 3], ()⟩ none .none none = .ok (⟨[1, 2, 3], ()⟩, some .disabled) := rfl
  exact ⟨hwrap, (unwrap_unwrapped_iff hwrap).mpr (fun h => absurd h.1 (by decide)) _⟩

/-- A raw tensor of sixteen bytes that happens to start with the magic. -/
def magicTensor : SerializedTensor Unit :=
  ⟨[0x42, 0x42, 0x4C, 0x43, 0x3C, 0, 0, 0, 0, 0, 0, 0, 0, 0, 0, 0], ()⟩

theorem unwrap_magicTensor_raises :
    wrapSerializedTensorImpl zlibOnly zlibConfig magicTensor none .none none =
        .ok (magicTensor, some .belowMinBytes) ∧
      unwrapSerializedTensor zlibOnly (2 ^ 30) magicTensor = .error (.unsupportedVersion 0x3C) :=
  ⟨rfl, rfl⟩

/-! The byte lanes. -/

/-- Strings of whole elements and pairs of lanes of matching lengths are the same thing. -/
theorem highByteLane_bijective {elemSize : ℕ} (hsize : elemSize = 2 ∨ elemSize = 4) :
    (∀ raw : Bytes, raw.length % elemSize = 0 → ∃ extracted remaining,
      splitHighByteLane raw elemSize = .ok (extracted, remaining) ∧
        remaining.length = extracted.length * (elemSize - 1) ∧
        reconstructHighByteLane extracted remaining elemSize raw.length = .ok raw) ∧
    ∀ extracted remaining : Bytes, remaining.length = extracted.length * (elemSize - 1) →
      ∃ raw, reconstructHighByteLane extracted remaining elemSize
          (extracted.length + remaining.length) = .ok raw ∧
        raw.length = extracted.length + remaining.length ∧
        splitHighByteLane raw elemSize = .ok (extracted, remaining) := by
  constructor
  · intro raw hdiv
    obtain ⟨extracted, remaining, hsplit⟩ := splitHighByteLane_ok hsize hdiv
    obtain ⟨-, hext, hrem, hback⟩ := lanesOf_split hsplit hdiv
    refine ⟨extracted, remaining, hsplit, ?_, hback⟩
    rcases hsize with rfl | rfl <;> omega
  · intro extracted remaining hrem
    rcases hsize with rfl | rfl
    · have hm : extracted.length + remaining.length = extracted.length * 2 := by omega
      rw [hm]
      exact split_reconstruct_two rfl (by omega)
    · have hm : extracted.length + remaining.length = extracted.length * 4 := by omega
      rw [hm]
      exact split_reconstruct_four rfl hrem

/-- Two float32 values, taken apart and put back. -/
theorem highByteLane_bijective_four :
    (∃ extracted remaining, splitHighByteLane [1, 2, 3, 4, 5, 6, 7, 8] 4 = .ok (extracted, remaining) ∧
      remaining.length = extracted.length * 3 ∧
      reconstructHighByteLane extracted remaining 4 8 = .ok [1, 2, 3, 4, 5, 6, 7, 8]) ∧
    ∃ raw, reconstructHighByteLane [4, 8] [1, 2, 3, 5, 6, 7] 4 8 = .ok raw ∧ raw.length = 8 ∧
      splitHighByteLane raw 4 = .ok ([4, 8], [1, 2, 3, 5, 6, 7]) :=
  ⟨(highByteLane_bijective (.inr rfl)).1 [1, 2, 3, 4, 5, 6, 7, 8] rfl,
    (highByteLane_bijective (.inr rfl)).2 [4, 8] [1, 2, 3, 5, 6, 7] rfl⟩

end BloomBee.LosslessTransport
