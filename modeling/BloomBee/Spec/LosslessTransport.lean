import BloomBee.Lib.BigEndian
import BloomBee.Lib.Strided
import Mathlib.Data.Int.Notation

/-! The lossless wrapper of `utils/lossless_transport.py`. A wrapped buffer is a header
`!4sBBQ` followed by a payload. Here are the codecs, the byte lanes, the header and the
configuration; the builders and decoders stand on them in the next module. The compressors are code of
other packages and enter as parameters; the environment variables enter as the values their
getters return. -/

set_option autoImplicit false

namespace BloomBee.LosslessTransport

abbrev Bytes := List UInt8

/-- `_MAGIC`, the bytes of `BBLC`. -/
def MAGIC : Bytes := [0x42, 0x42, 0x4C, 0x43]
def VERSION : ℕ := 1
def ALGO_ZSTD : ℕ := 1
def ALGO_ZLIB : ℕ := 2
def ALGO_ZSTD_BYTE_SPLIT : ℕ := 3
def ALGO_ZIPNN : ℕ := 4
def ALGO_ZSTD_DICT_BYTE_SPLIT : ℕ := 5
def ALGO_ZSTD_BYTE_SPLIT_HIGH_ONLY : ℕ := 6
def ALGO_ZSTD_DICT_BYTE_SPLIT_PREFILL : ℕ := 7
def ALGO_ZSTD_DICT_BYTE_SPLIT_DECODE : ℕ := 8
def HEADER_SIZE : ℕ := 14
def BYTE_SPLIT_PAYLOAD_SIZE : ℕ := 5

/-- What the transport raises, with the values the texts print. -/
inductive Raised where
  | structError
  | codecError
  | zeroDivision
  | sliceSize
  | unsupportedElemSize (elemSize : ℕ)
  | invalidByteSplitSize (elemSize originalSize : ℕ)
  | extractedSize (expected got : ℕ)
  | remainingSize (expected got : ℕ)
  | payloadTruncated
  | extractedSegmentTruncated
  | zlibExceedsSize (originalSize : ℕ)
  | zlibTruncated
  | zlibTrailing
  | sizeMismatch (expected got : ℕ)
  | unknownAlgorithm (algoId : ℕ)
  | missingCodec
  | unsupportedVersion (version : ℕ)
  | aboveLimit (originalSize limit : ℕ)
  deriving DecidableEq, Repr

/-- The Python types of what the transport raises. -/
inductive ExceptionType where
  | structError
  | codecError
  | zeroDivisionError
  | valueError
  | runtimeError
  deriving DecidableEq, Repr

def Raised.exceptionType : Raised → ExceptionType
  | .structError => .structError
  | .codecError => .codecError
  | .zeroDivision => .zeroDivisionError
  | .missingCodec => .runtimeError
  | _ => .valueError

/-! Codecs. -/

/-- A zstd codec, plain or with one dictionary. `construct` is the constructor of the
compressor, which refuses some levels. -/
structure ZstdCodec where
  construct : ℤ → Except Raised Unit
  compress : ℤ → Bytes → Except Raised Bytes
  decompress : Bytes → ℕ → Except Raised Bytes

/-- What `zlib.decompressobj().decompress(payload, limit)` returns and leaves behind. -/
structure ZlibResult where
  raw : Bytes
  unconsumedTail : Bytes
  eof : Bool
  unusedData : Bytes

inductive FloatName where
  | float16
  | bfloat16
  | float32
  deriving DecidableEq, Repr

structure ZipnnCodec where
  compress : FloatName → ℤ → Bytes → Except Raised Bytes
  decompress : Bytes → Except Raised Bytes

/-- The codecs that are installed and the dictionary files that can be read. The last three
fields are the stripped dictionary path variables. -/
structure Codecs where
  zstd : Option ZstdCodec
  zstdDict : String → Option ZstdCodec
  zlibCompress : ℤ → Bytes → Except Raised Bytes
  zlibDecompress : Bytes → ℕ → Except Raised ZlibResult
  zipnn : Option ZipnnCodec
  dictPath : String
  dictPathPrefill : String
  dictPathDecode : String

/-- `_get_zstd_dict` and the codecs built on it. -/
def Codecs.getZstdDict (E : Codecs) (path : String) : Option ZstdCodec :=
  if E.zstd.isNone ∨ path = "" then none else E.zstdDict path

/-- Which of the three dictionaries a payload was made with. -/
inductive DictPhase where
  | any
  | prefill
  | decode
  deriving DecidableEq, Repr

/-- The dictionary path of a phase, which falls back to the common one. -/
def Codecs.losslessZstdDictPath (E : Codecs) : DictPhase → String
  | .any => E.dictPath
  | .prefill => if E.dictPathPrefill = "" then E.dictPath else E.dictPathPrefill
  | .decode => if E.dictPathDecode = "" then E.dictPath else E.dictPathDecode

def Codecs.zstdDictFor (E : Codecs) (p : DictPhase) : Option ZstdCodec :=
  E.getZstdDict (E.losslessZstdDictPath p)

/-! Byte lanes. -/

/-- Assignments to the lanes `start, start + 1, …` of one bytearray. -/
def setLanes (step : ℕ) : Bytes → ℕ → List Bytes → Except Raised Bytes
  | out, _, [] => .ok out
  | out, start, src :: rest =>
    match Strided.setLane out start step src with
    | none => .error .sliceSize
    | some out' => setLanes step out' (start + 1) rest

def splitHighByteLane (raw : Bytes) (elemSize : ℕ) : Except Raised (Bytes × Bytes) :=
  if elemSize = 2 then .ok (Strided.lane raw 1 2, Strided.lane raw 0 2)
  else if elemSize = 4 then do
    let extracted := Strided.lane raw 3 4
    let remaining ← setLanes 3 (List.replicate (raw.length - extracted.length) 0) 0
      [Strided.lane raw 0 4, Strided.lane raw 1 4, Strided.lane raw 2 4]
    return (extracted, remaining)
  else .error (.unsupportedElemSize elemSize)

def reconstructHighByteLane (extracted remaining : Bytes) (elemSize originalSize : ℕ) :
    Except Raised Bytes :=
  if elemSize = 0 ∨ originalSize % elemSize ≠ 0 then
    .error (.invalidByteSplitSize elemSize originalSize)
  else
    let extractedSize := originalSize / elemSize
    let remainingSize := originalSize - extractedSize
    if extracted.length ≠ extractedSize then
      .error (.extractedSize extractedSize extracted.length)
    else if remaining.length ≠ remainingSize then
      .error (.remainingSize remainingSize remaining.length)
    else
      let out := List.replicate originalSize 0
      if elemSize = 2 then setLanes 2 out 0 [remaining, extracted]
      else if elemSize = 4 then
        setLanes 4 out 0 [Strided.lane remaining 0 3, Strided.lane remaining 1 3,
          Strided.lane remaining 2 3, extracted]
      else .error (.unsupportedElemSize elemSize)

/-! Headers. -/

/-- `_HEADER_STRUCT.pack(_MAGIC, _VERSION, algo_id, size)`. -/
def packHeader (algoId size : ℕ) : Except Raised Bytes :=
  if algoId < 256 ∧ size < 256 ^ 8 then
    .ok (MAGIC ++ BigEndian.encode 1 VERSION ++ BigEndian.encode 1 algoId ++
      BigEndian.encode 8 size)
  else .error .structError

/-- `_BYTE_SPLIT_PAYLOAD_STRUCT.pack(elem_size, len(extracted_comp))`. -/
def packByteSplit (elemSize size : ℕ) : Except Raised Bytes :=
  if elemSize < 256 ∧ size < 256 ^ 4 then
    .ok (BigEndian.encode 1 elemSize ++ BigEndian.encode 4 size)
  else .error .structError

def parseWrapper (buffer : Bytes) (strict : Bool := true) :
    Except Raised (Option (ℕ × ℕ × Bytes)) :=
  if buffer.length < HEADER_SIZE then .ok none
  else if buffer.take 4 ≠ MAGIC then .ok none
  else
    let version := BigEndian.decode ((buffer.drop 4).take 1)
    if version ≠ VERSION then
      if strict then .error (.unsupportedVersion version) else .ok none
    else
      .ok (some (BigEndian.decode ((buffer.drop 5).take 1),
        BigEndian.decode ((buffer.drop 6).take 8), buffer.drop HEADER_SIZE))

/-! Configuration. -/

/-- The values of `_lossless_algo` the code tells apart. -/
inductive Algo where
  | zipnn
  | zstdDict
  | zstdDictByteSplit
  | zstdDictByteSplitZstd
  | phaseAwareDict
  | adaptiveHybrid
  | hybridAdaptive
  | zstd
  | zlib
  /-- The empty string, `none`, `off` and `disabled`. -/
  | off
  | unknown
  deriving DecidableEq, Repr

inductive Layout where
  | byteSplit
  | byteSplitHighOnly
  | other
  deriving DecidableEq, Repr

/-- What the getters of the sender's configuration return. -/
structure Config where
  sendEnabled : Bool
  algo : Algo
  level : ℤ
  layout : Layout
  singlePath : Bool
  minBytes : ℕ
  minGainBytes : ℕ
  layoutTargets : List String
  hybridDictBlocks : List String
  littleEndian : Bool

/-- A non-empty `debug_context`: its entries as strings, stripped, and all but `blocks` in
lower case. -/
structure DebugContext where
  source : String
  channel : String
  tensorName : String
  phase : String
  blocks : String

inductive DType where
  | float (name : FloatName)
  | other (elementSize : ℕ)
  deriving DecidableEq, Repr

def DType.elementSize : DType → ℕ
  | .float .float16 => 2
  | .float .bfloat16 => 2
  | .float .float32 => 4
  | .other n => n

structure TensorMeta where
  dtype : DType
  numel : ℕ

inductive CompressionType where
  | none
  | compressed
  deriving DecidableEq, Repr

/-- A `runtime_pb2.Tensor`: the buffer and all its other fields. -/
structure SerializedTensor (φ : Type) where
  buffer : Bytes
  fields : φ

def matchTargetPattern (actual pattern : String) : Bool :=
  pattern = "*" ∨ pattern = "" ∨ actual = pattern

def contextMatchesTargetSpecs (ctx : Option DebugContext) (specs : List String) : Bool :=
  match ctx with
  | none => false
  | some c => specs.any fun spec =>
    match spec.splitOn ":" with
    | [a, b, d] =>
      matchTargetPattern c.source a && matchTargetPattern c.channel b &&
        matchTargetPattern c.tensorName d
    | _ => false

def adaptiveHybridPrefersZstdDict (cfg : Config) (ctx : Option DebugContext) : Bool :=
  match ctx with
  | none => false
  | some c =>
    c.phase = "prefill" ∧ c.source = "client" ∧ c.channel = "rpc_inference" ∧
      c.tensorName = "hidden_states" ∧ c.blocks ∈ cfg.hybridDictBlocks

def supportsByteSplitLayout (cfg : Config) (tensor : Option TensorMeta) (ct : CompressionType)
    (rawSize : ℕ) (ctx : Option DebugContext) : Bool :=
  cfg.layout ≠ .other &&
  cfg.algo ∈ [.zstd, .zstdDict, .zstdDictByteSplit, .zstdDictByteSplitZstd, .adaptiveHybrid,
    .hybridAdaptive, .phaseAwareDict] &&
  cfg.littleEndian && ct = .none &&
  match tensor with
  | none => false
  | some t =>
    match t.dtype with
    | .float _ => rawSize = t.numel * t.dtype.elementSize &&
        contextMatchesTargetSpecs ctx cfg.layoutTargets
    | .other _ => false

/-- The 4096 bytes of the ZipNN self-test. -/
def zipnnProbe : Bytes := (List.range 4096).map fun i => UInt8.ofNat ((i * 73 + 11) % 256)

def zipnnLosslessDtypeSupported (z : ZipnnCodec) (name : FloatName) : Bool :=
  match z.compress name 3 zipnnProbe with
  | .error _ => false
  | .ok c =>
    match z.decompress c with
    | .error _ => false
    | .ok restored => restored = zipnnProbe

/-- The reasons the code gives when it sends a tensor unwrapped. -/
inductive SkipReason where
  | disabled
  | empty
  | belowMinBytes
  | alreadyWrapped
  | zipnnUnavailable
  | zipnnHivemindCompressed
  | zipnnMissingTensor
  | zipnnUnsupportedDtype
  | zipnnSizeMismatch
  | zipnnTargetMismatch
  | zipnnLosslessVerificationFailed
  | zipnnUnsupported
  | zstdDictByteSplitUnsupported
  | phaseAwareDictUnsupported
  | adaptiveHybridDictUnsupported
  | compressorNotApplied
  | minGainNotMet
  deriving DecidableEq, Repr

def zipnnSkipReason (E : Codecs) (cfg : Config) (tensor : Option TensorMeta) (ct : CompressionType)
    (rawSize : ℕ) (ctx : Option DebugContext) : SkipReason :=
  match E.zipnn with
  | none => .zipnnUnavailable
  | some z =>
    if ct ≠ .none then .zipnnHivemindCompressed
    else
      match tensor with
      | none => .zipnnMissingTensor
      | some t =>
        match t.dtype with
        | .other _ => .zipnnUnsupportedDtype
        | .float name =>
          if rawSize ≠ t.numel * t.dtype.elementSize then .zipnnSizeMismatch
          else if contextMatchesTargetSpecs ctx cfg.layoutTargets = false then .zipnnTargetMismatch
          else if zipnnLosslessDtypeSupported z name = false then .zipnnLosslessVerificationFailed
          else .zipnnUnsupported

/-- `_supports_zipnn_transport`. It makes the checks of `_zipnn_skip_reason` and none other. -/
def supportsZipnnTransport (E : Codecs) (cfg : Config) (tensor : Option TensorMeta)
    (ct : CompressionType) (rawSize : ℕ) (ctx : Option DebugContext) : Bool :=
  zipnnSkipReason E cfg tensor ct rawSize ctx = .zipnnUnsupported

end BloomBee.LosslessTransport
