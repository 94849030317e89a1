import BloomBee.Lib.NDArray
import BloomBee.Lib.ReverseMode
import BloomBee.Lib.Scatter
import BloomBee.Proofs.AsyncOutputBuffer
import BloomBee.Proofs.BackendStep
import BloomBee.Proofs.BlockSelection
import BloomBee.Proofs.BonusToken
import BloomBee.Proofs.CacheHandles
import BloomBee.Proofs.ComputeSpans
import BloomBee.Proofs.ContinuousBatching
import BloomBee.Proofs.Drafter
import BloomBee.Proofs.ExpertQuant
import BloomBee.Proofs.FairSchedule
import BloomBee.Proofs.FalconBlock
import BloomBee.Proofs.FirstRound
import BloomBee.Proofs.FlexgenAttention
import BloomBee.Proofs.GroupCompression
import BloomBee.Proofs.InferenceSession
import BloomBee.Proofs.InferenceSteps
import BloomBee.Proofs.KVBatched
import BloomBee.Proofs.KVMultiplex
import BloomBee.Proofs.KVRowRuns
import BloomBee.Proofs.KVUpdate
import BloomBee.Proofs.LateArrival
import BloomBee.Proofs.LengthGuard
import BloomBee.Proofs.LiveDecode
import BloomBee.Proofs.LiveDecodeLoop
import BloomBee.Proofs.LivePaths
import BloomBee.Proofs.LogitsProcessors
import BloomBee.Proofs.LosslessTransport
import BloomBee.Proofs.MemoryCache
import BloomBee.Proofs.MicrobatchOps
import BloomBee.Proofs.MicrobatchSlice
import BloomBee.Proofs.NeuralPruner
import BloomBee.Proofs.PagedKV
import BloomBee.Proofs.PagedMirror
import BloomBee.Proofs.PagedReads
import BloomBee.Proofs.PagedRecovery
import BloomBee.Proofs.PagedRounds
import BloomBee.Proofs.PrefixHandoff
import BloomBee.Proofs.PrefixIndex
import BloomBee.Proofs.PromptGradients
import BloomBee.Proofs.PushConcurrency
import BloomBee.Proofs.PushPath
import BloomBee.Proofs.PushRouting
import BloomBee.Proofs.RemoteGeneration
import BloomBee.Proofs.RequestFailure
import BloomBee.Proofs.RestoreHidden
import BloomBee.Proofs.RotaryPositions
import BloomBee.Proofs.RouteArithmetic
import BloomBee.Proofs.RoutedExperts
import BloomBee.Proofs.RpcInference
import BloomBee.Proofs.SequenceManager
import BloomBee.Proofs.SequentialAutograd
import BloomBee.Proofs.SequentialBatches
import BloomBee.Proofs.SessionChain
import BloomBee.Proofs.SessionFailure
import BloomBee.Proofs.SessionLength
import BloomBee.Proofs.SimplePruner
import BloomBee.Proofs.SpecCache
import BloomBee.Proofs.SpecDecodingVerify
import BloomBee.Proofs.SpeculativeModel
import BloomBee.Proofs.SpeculativePrompt
import BloomBee.Proofs.SpeculativeSampling
import BloomBee.Proofs.SpeculativeTree
import BloomBee.Proofs.TaskPool
import BloomBee.Proofs.TaskPoolCalls
import BloomBee.Proofs.TensorParallel
import BloomBee.Proofs.TensorStream
import BloomBee.Proofs.TreeBatch
import BloomBee.Proofs.TreeShape
import BloomBee.Proofs.UntrustedBuffers
import BloomBee.Proofs.VerifyBatch
import BloomBee.Spec.MicrobatchOps
import BloomBee.Spec.MicrobatchSlice
import BloomBee.Spec.RoutedExperts
