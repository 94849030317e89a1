import BloomBee.Spec.LosslessTransport

/-! Builders and decoders of the lossless wrapper, and the two entry points
`_wrap_serialized_tensor_impl` and `unwrap_serialized_tensor`. -/

set_option autoImplicit false

namespace BloomBee.LosslessTransport

/-! Builders. -/

def getZstdCompressor (E : Codecs) (level : ℤ) : Except Raised (Option ZstdCodec) :=
  match E.zstd with
  | none => .ok none
  | some c => do
    c.construct level
    return some c

/-- `_get_zstd_dict_compressor` and its two phase variants. -/
def getZstdDictCompressor (E : Codecs) (p : DictPhase) (level : ℤ) :
    Except Raised (Option ZstdCodec) :=
  match E.zstdDictFor p with
  | none => .ok none
  | some c => do
    c.construct level
    return some c

/-- `_compress_with_algo`: algorithm id `0` means that nothing was compressed. -/
def compressWithAlgo (E : Codecs) (raw : Bytes) (algo : Algo) (level : ℤ) :
    Except Raised (ℕ × Bytes) :=
  match algo with
  | .zstd => do
    match ← getZstdCompressor E level with
    | none => return (0, raw)
    | some c => return (ALGO_ZSTD, ← c.compress level raw)
  | .zlib => do return (ALGO_ZLIB, ← E.zlibCompress (max (-1) (min level 9)) raw)
  | _ => return (0, raw)

/-- The header of `raw` in front of a payload. -/
def withHeader (algoId : ℕ) (raw payload : Bytes) : Except Raised Bytes := do
  return (← packHeader algoId raw.length) ++ payload

def buildPlainWrapper (E : Codecs) (cfg : Config) (raw : Bytes) : Except Raised (ℕ × Bytes) := do
  let (algoId, compressed) ← compressWithAlgo E raw cfg.algo cfg.level
  if algoId = 0 then return (0, raw)
  return (algoId, ← withHeader algoId raw compressed)

def buildZipnnWrapper (E : Codecs) (cfg : Config) (raw : Bytes) (tensor : Option TensorMeta) :
    Except Raised Bytes :=
  match tensor.map TensorMeta.dtype, E.zipnn with
  | some (.float name), some z => do
    withHeader ALGO_ZIPNN raw (← z.compress name cfg.level raw)
  | _, _ => .error .missingCodec

/-- The byte-split payload of two lanes that are already in their wire form. -/
def byteSplitPayload (elemSize : ℕ) (extracted remaining : Bytes) : Except Raised Bytes := do
  return (← packByteSplit elemSize extracted.length) ++ extracted ++ remaining

def buildZstdByteSplitWrapper (E : Codecs) (cfg : Config) (raw : Bytes) (elemSize : ℕ) :
    Except Raised Bytes := do
  let (extractedRaw, remainingRaw) ← splitHighByteLane raw elemSize
  let (extractedAlgo, extractedComp) ← compressWithAlgo E extractedRaw .zstd cfg.level
  let (remainingAlgo, remainingComp) ← compressWithAlgo E remainingRaw .zstd cfg.level
  if extractedAlgo ≠ ALGO_ZSTD ∨ remainingAlgo ≠ ALGO_ZSTD then .error .missingCodec
  else withHeader ALGO_ZSTD_BYTE_SPLIT raw (← byteSplitPayload elemSize extractedComp remainingComp)

def buildDictByteSplitWrapperWith (c : ZstdCodec) (level : ℤ) (raw : Bytes) (elemSize algoId : ℕ) :
    Except Raised Bytes := do
  let (extractedRaw, remainingRaw) ← splitHighByteLane raw elemSize
  let extractedComp ← c.compress level extractedRaw
  let remainingComp ← c.compress level remainingRaw
  withHeader algoId raw (← byteSplitPayload elemSize extractedComp remainingComp)

def DictPhase.algoId : DictPhase → ℕ
  | .any => ALGO_ZSTD_DICT_BYTE_SPLIT
  | .prefill => ALGO_ZSTD_DICT_BYTE_SPLIT_PREFILL
  | .decode => ALGO_ZSTD_DICT_BYTE_SPLIT_DECODE

/-- The three dictionary builders, which differ in the dictionary and the id. -/
def buildDictWrapper (p : DictPhase) (E : Codecs) (cfg : Config) (raw : Bytes) (elemSize : ℕ) :
    Except Raised Bytes := do
  match ← getZstdDictCompressor E p cfg.level with
  | none => .error .missingCodec
  | some c => buildDictByteSplitWrapperWith c cfg.level raw elemSize p.algoId

def buildZstdDictByteSplitWrapper := buildDictWrapper .any
def buildZstdDictByteSplitPrefillWrapper := buildDictWrapper .prefill
def buildZstdDictByteSplitDecodeWrapper := buildDictWrapper .decode

/-- Only the high lane is compressed; the rest is shipped raw. -/
def buildZstdByteSplitHighOnlyWrapper (E : Codecs) (cfg : Config) (raw : Bytes) (elemSize : ℕ) :
    Except Raised Bytes := do
  let (extractedRaw, remainingRaw) ← splitHighByteLane raw elemSize
  let (extractedAlgo, extractedComp) ← compressWithAlgo E extractedRaw .zstd cfg.level
  if extractedAlgo ≠ ALGO_ZSTD then .error .missingCodec
  else
    withHeader ALGO_ZSTD_BYTE_SPLIT_HIGH_ONLY raw
      (← byteSplitPayload elemSize extractedComp remainingRaw)

/-! Decoders. -/

def decompressZlibCapped (E : Codecs) (payload : Bytes) (originalSize : ℕ) :
    Except Raised Bytes := do
  let r ← E.zlibDecompress payload (originalSize + 1)
  if r.raw.length > originalSize ∨ r.unconsumedTail ≠ [] then
    .error (.zlibExceedsSize originalSize)
  else if r.eof = false then .error .zlibTruncated
  else if r.unusedData ≠ [] then .error .zlibTrailing
  else return r.raw

def decompressRaw (E : Codecs) (algoId : ℕ) (payload : Bytes) (originalSize : ℕ) :
    Except Raised Bytes :=
  if algoId = ALGO_ZSTD then
    match E.zstd with
    | none => .error .missingCodec
    | some c => c.decompress payload originalSize
  else if algoId = ALGO_ZLIB then decompressZlibCapped E payload originalSize
  else if algoId = ALGO_ZIPNN then
    match E.zipnn with
    | none => .error .missingCodec
    | some z => z.decompress payload
  else .error (.unknownAlgorithm algoId)

def decompressWithAlgo (E : Codecs) (algoId : ℕ) (payload : Bytes) (originalSize : ℕ) :
    Except Raised Bytes := do
  let raw ← decompressRaw E algoId payload originalSize
  if raw.length ≠ originalSize then .error (.sizeMismatch originalSize raw.length)
  else return raw

/-- The parse shared by the byte-split decoders: element size and the two segments. -/
def splitPayload (payload : Bytes) (originalSize : ℕ) : Except Raised (ℕ × Bytes × Bytes) :=
  if payload.length < BYTE_SPLIT_PAYLOAD_SIZE then .error .payloadTruncated
  else
    let elemSize := BigEndian.decode (payload.take 1)
    let extractedEnd := BYTE_SPLIT_PAYLOAD_SIZE + BigEndian.decode ((payload.drop 1).take 4)
    if extractedEnd > payload.length then .error .extractedSegmentTruncated
    else if originalSize % max 1 elemSize ≠ 0 then
      .error (.invalidByteSplitSize elemSize originalSize)
    else if elemSize = 0 then .error .zeroDivision
    else .ok (elemSize, (payload.take extractedEnd).drop BYTE_SPLIT_PAYLOAD_SIZE,
      payload.drop extractedEnd)

def decodeZstdByteSplitPayload (E : Codecs) (payload : Bytes) (originalSize : ℕ) :
    Except Raised Bytes := do
  let (elemSize, extractedComp, remainingComp) ← splitPayload payload originalSize
  let extractedRawSize := originalSize / elemSize
  let extractedRaw ← decompressWithAlgo E ALGO_ZSTD extractedComp extractedRawSize
  let remainingRaw ← decompressWithAlgo E ALGO_ZSTD remainingComp (originalSize - extractedRawSize)
  reconstructHighByteLane extractedRaw remainingRaw elemSize originalSize

def decodeDictByteSplitWith (c : ZstdCodec) (payload : Bytes) (originalSize : ℕ) :
    Except Raised Bytes := do
  let (elemSize, extractedComp, remainingComp) ← splitPayload payload originalSize
  let extractedRawSize := originalSize / elemSize
  let extractedRaw ← c.decompress extractedComp extractedRawSize
  let remainingRaw ← c.decompress remainingComp (originalSize - extractedRawSize)
  reconstructHighByteLane extractedRaw remainingRaw elemSize originalSize

/-- The dictionary decoders, by the dictionary they use. -/
def decodeZstdDictByteSplitPayload (E : Codecs) (p : DictPhase) (payload : Bytes)
    (originalSize : ℕ) : Except Raised Bytes :=
  match E.zstdDictFor p with
  | none => .error .missingCodec
  | some c => decodeDictByteSplitWith c payload originalSize

def decodeZstdByteSplitHighOnlyPayload (E : Codecs) (payload : Bytes) (originalSize : ℕ) :
    Except Raised Bytes := do
  let (elemSize, extractedComp, remainingRaw) ← splitPayload payload originalSize
  let extractedRawSize := originalSize / elemSize
  let remainingRawSize := originalSize - extractedRawSize
  if remainingRaw.length ≠ remainingRawSize then
    .error (.remainingSize remainingRawSize remainingRaw.length)
  else
    let extractedRaw ← decompressWithAlgo E ALGO_ZSTD extractedComp extractedRawSize
    reconstructHighByteLane extractedRaw remainingRaw elemSize originalSize

/-! Sending. -/

structure Candidate where
  algoId : ℕ
  wrapped : Bytes

/-- A builder that raises contributes no candidate. -/
def candidate (algoId : ℕ) : Except Raised Bytes → List Candidate
  | .ok wrapped => [⟨algoId, wrapped⟩]
  | .error _ => []

/-- Later candidates are built only `if not candidates`. -/
def firstNonempty (cs later : List Candidate) : List Candidate := if cs.isEmpty then later else cs

def plainCandidates (E : Codecs) (cfg : Config) (raw : Bytes) : Except Raised (List Candidate) := do
  let (algoId, wrapped) ← buildPlainWrapper E cfg raw
  return if algoId = 0 then [] else [⟨algoId, wrapped⟩]

/-- A phase dictionary is used when the byte-split layout is and the dictionary is there. -/
def phaseDictCandidates (E : Codecs) (cfg : Config) (raw : Bytes) (elemSize : ℕ) (phase : String) :
    Except Raised (List Candidate) := do
  if phase = "prefill" then
    match ← getZstdDictCompressor E .prefill cfg.level with
    | none => return []
    | some _ =>
      return candidate ALGO_ZSTD_DICT_BYTE_SPLIT_PREFILL
        (buildZstdDictByteSplitPrefillWrapper E cfg raw elemSize)
  else if phase = "decode" then
    match ← getZstdDictCompressor E .decode cfg.level with
    | none => return []
    | some _ =>
      return candidate ALGO_ZSTD_DICT_BYTE_SPLIT_DECODE
        (buildZstdDictByteSplitDecodeWrapper E cfg raw elemSize)
  else return []

/-- The candidate of `split_builder`, which the layout chooses. -/
def splitCandidates (E : Codecs) (cfg : Config) (raw : Bytes) (elemSize : ℕ) : List Candidate :=
  if cfg.layout = .byteSplitHighOnly then
    candidate ALGO_ZSTD_BYTE_SPLIT_HIGH_ONLY (buildZstdByteSplitHighOnlyWrapper E cfg raw elemSize)
  else candidate ALGO_ZSTD_BYTE_SPLIT (buildZstdByteSplitWrapper E cfg raw elemSize)

/-- The branch for every other algorithm name. On the single path a plain wrapper is built
only when the byte-split builder raises. -/
def generalCandidates (E : Codecs) (cfg : Config) (raw : Bytes) (supportsBs : Bool)
    (elemSize : ℕ) : Except Raised (List Candidate) :=
  if cfg.singlePath ∧ cfg.algo = .zstd ∧ supportsBs then
    if (splitCandidates E cfg raw elemSize).isEmpty then plainCandidates E cfg raw
    else return splitCandidates E cfg raw elemSize
  else do
    return (← plainCandidates E cfg raw) ++
      if supportsBs then splitCandidates E cfg raw elemSize else []

/-- The candidate buffers, in the order the code appends them. -/
def candidates (E : Codecs) (cfg : Config) (raw : Bytes) (tensor : Option TensorMeta)
    (ct : CompressionType) (ctx : Option DebugContext) : Except Raised (List Candidate) :=
  let supportsBs := supportsByteSplitLayout cfg tensor ct raw.length ctx
  let supportsZipnn := supportsZipnnTransport E cfg tensor ct raw.length ctx
  let elemSize := (tensor.map fun t => t.dtype.elementSize).getD 2
  let dict := if supportsBs then
    candidate ALGO_ZSTD_DICT_BYTE_SPLIT (buildZstdDictByteSplitWrapper E cfg raw elemSize) else []
  let zipnn := if supportsZipnn then
    candidate ALGO_ZIPNN (buildZipnnWrapper E cfg raw tensor) else []
  match cfg.algo with
  | .zipnn => return zipnn
  | .zstdDict | .zstdDictByteSplit | .zstdDictByteSplitZstd => return dict
  | .phaseAwareDict =>
    if supportsBs then do
      let phaseDict ← phaseDictCandidates E cfg raw elemSize ((ctx.map (·.phase)).getD "")
      return firstNonempty phaseDict
        (candidate ALGO_ZSTD_BYTE_SPLIT (buildZstdByteSplitWrapper E cfg raw elemSize))
    else return []
  | .adaptiveHybrid | .hybridAdaptive =>
    return firstNonempty (if adaptiveHybridPrefersZstdDict cfg ctx then dict else []) zipnn
  | .zstd | .zlib | .off | .unknown =>
    generalCandidates E cfg raw supportsBs elemSize

/-- The reason given when there is no candidate. -/
def noCandidateReason (E : Codecs) (cfg : Config) (raw : Bytes) (tensor : Option TensorMeta)
    (ct : CompressionType) (ctx : Option DebugContext) : SkipReason :=
  match cfg.algo with
  | .zipnn => zipnnSkipReason E cfg tensor ct raw.length ctx
  | .zstdDict | .zstdDictByteSplit | .zstdDictByteSplitZstd => .zstdDictByteSplitUnsupported
  | .phaseAwareDict => .phaseAwareDictUnsupported
  | .adaptiveHybrid | .hybridAdaptive =>
    if adaptiveHybridPrefersZstdDict cfg ctx then .adaptiveHybridDictUnsupported
    else zipnnSkipReason E cfg tensor ct raw.length ctx
  | .zstd | .zlib | .off | .unknown => .compressorNotApplied

/-- `min(candidates, key=len)`: the first of the shortest. -/
def smallest : Candidate → List Candidate → Candidate
  | best, [] => best
  | best, c :: rest => smallest (if c.wrapped.length < best.wrapped.length then c else best) rest

/-- `_wrap_serialized_tensor_impl`: the tensor to send, and the reason when it is sent as it
was given. -/
def wrapSerializedTensorImpl {φ : Type} (E : Codecs) (cfg : Config) (x : SerializedTensor φ)
    (tensor : Option TensorMeta) (ct : CompressionType) (ctx : Option DebugContext) :
    Except Raised (SerializedTensor φ × Option SkipReason) :=
  let raw := x.buffer
  if cfg.sendEnabled = false then .ok (x, some .disabled)
  else if raw = [] then .ok (x, some .empty)
  else if raw.length < cfg.minBytes then .ok (x, some .belowMinBytes)
  else
    match parseWrapper raw false with
    | .error e => .error e
    | .ok (some _) => .ok (x, some .alreadyWrapped)
    | .ok none =>
      match candidates E cfg raw tensor ct ctx with
      | .error e => .error e
      | .ok [] => .ok (x, some (noCandidateReason E cfg raw tensor ct ctx))
      | .ok (first :: rest) =>
        let best := smallest first rest
        if best.wrapped.length + cfg.minGainBytes ≥ raw.length then .ok (x, some .minGainNotMet)
        else .ok ({ x with buffer := best.wrapped }, none)

/-! Receiving. -/

/-- `_max_decoded_bytes`, from the value of its environment variable. -/
def maxDecodedBytes (env : ℤ) : ℕ := max 1 env.toNat

def decodePayload (E : Codecs) (algoId : ℕ) (payload : Bytes) (originalSize : ℕ) :
    Except Raised Bytes :=
  if algoId = ALGO_ZSTD_BYTE_SPLIT then decodeZstdByteSplitPayload E payload originalSize
  else if algoId = ALGO_ZSTD_DICT_BYTE_SPLIT then
    decodeZstdDictByteSplitPayload E .any payload originalSize
  else if algoId = ALGO_ZSTD_DICT_BYTE_SPLIT_PREFILL then
    decodeZstdDictByteSplitPayload E .prefill payload originalSize
  else if algoId = ALGO_ZSTD_DICT_BYTE_SPLIT_DECODE then
    decodeZstdDictByteSplitPayload E .decode payload originalSize
  else if algoId = ALGO_ZSTD_BYTE_SPLIT_HIGH_ONLY then
    decodeZstdByteSplitHighOnlyPayload E payload originalSize
  else decompressWithAlgo E algoId payload originalSize

def unwrapSerializedTensor {φ : Type} (E : Codecs) (maxDecodedEnv : ℤ) (x : SerializedTensor φ) :
    Except Raised (SerializedTensor φ) :=
  match parseWrapper x.buffer with
  | .error e => .error e
  | .ok none => .ok x
  | .ok (some (algoId, originalSize, payload)) =>
    if originalSize > maxDecodedBytes maxDecodedEnv then
      .error (.aboveLimit originalSize (maxDecodedBytes maxDecodedEnv))
    else
      match decodePayload E algoId payload originalSize with
      | .error e => .error e
      | .ok raw => .ok { x with buffer := raw }

end BloomBee.LosslessTransport
