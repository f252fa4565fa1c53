import Ds4.Server.Json
import Ds4.Server.JsonString
import Ds4.Server.JsonArgs
import Ds4.Server.JsonEscape
import Ds4.Server.JsonMinify
import Ds4.Server.JsonNumber
import Ds4.Server.JsonSkip
import Ds4.Server.Dsml
import Ds4.Server.Prompt
import Ds4.Server.Utf8Hold
import Ds4.Server.PlainStream
import Ds4.Engine.RenderedChat
import Ds4.Lib.Linked
import Ds4.Server.ToolMemory
import Ds4.Server.ToolMemoryInvariant
import Ds4.Server.ToolMemoryHistory
import Ds4.Lib.Sink
import Ds4.Server.ToolMap
import Ds4.Server.ToolMapRecords
import Ds4.Server.ToolMapLoad
import Ds4.Server.ToolMemoryReach
import Ds4.Engine.Graph
import Ds4.Lib.Layered
import Ds4.Engine.Kernels
import Ds4.Engine.Cells
import Ds4.Engine.Compressor
import Ds4.Engine.Create
import Ds4.Lib.Exec
import Ds4.Engine.Payload
import Ds4.Engine.PayloadSave
import Ds4.Engine.PayloadLoad
import Ds4.Engine.PayloadRoundTrip
import Ds4.Engine.CompressorBatch
import Ds4.Engine.Layer
import Ds4.Engine.Evaluate
import Ds4.Engine.Session
import Ds4.Engine.Speculative
import Ds4.Engine.Capacity
import Ds4.Engine.SpeculativeTokens
import Ds4.Engine.SessionShape
import Ds4.Engine.Coherence
import Ds4.Engine.SessionRun
import Ds4.Engine.Progress
import Ds4.Engine.ColdTail
import Ds4.Go.KvCache
import Ds4.Go.Attention
import Ds4.Go.AttentionBounds
import Ds4.Go.Routing
import Ds4.Go.Session
import Ds4.Go.SessionBounds
import Ds4.Lib.Reader
import Ds4.Lib.Records
import Ds4.Lib.Sticky
import Ds4.Go.Payload
import Ds4.Go.PayloadBounds
import Ds4.Go.SessionInvariant
import Ds4.Go.SessionStores
import Ds4.Go.Rewind
import Ds4.Go.PayloadRun
import Ds4.Lib.Checked
import Ds4.Gguf.Format
import Ds4.Gguf.Model
import Ds4.Gguf.ModelBounds
import Ds4.Go.Gguf
import Ds4.Go.GgufReads
import Ds4.Go.GgufSafe
import Ds4.Gguf.Agreement
import Ds4.Gguf.Writer
import Ds4.Gguf.Weights
import Ds4.Gguf.ModelFile
import Ds4.Go.Weights
import Ds4.Gguf.BindAgreement
import Ds4.Lib.PairMerge
import Ds4.Lib.Cutting
import Ds4.Tokenizer.ByteLevel
import Ds4.Tokenizer.Pieces
import Ds4.Tokenizer.Vocab
import Ds4.Tokenizer.Lossless
import Ds4.Tokenizer.Growing
import Ds4.Lib.Utf8
import Ds4.Tokenizer.CharPieces
import Ds4.Tokenizer.ChatPrompt
import Ds4.Go.Tokenizer
import Ds4.Tokenizer.SameCut
import Ds4.Cpu.Half
import Ds4.Lib.RowRing
import Ds4.Cpu.Indexer
import Ds4.Cpu.KvCache
import Ds4.Cpu.Routing
import Ds4.Go.RingRefinement
import Ds4.Go.PayloadSave
import Ds4.Go.PayloadRoundTrip
import Ds4.Go.PayloadFailure
import Ds4.Lib.Blocks
import Ds4.Lib.Tiling
import Ds4.Lib.TopK
import Ds4.Lib.Sampling
import Ds4.Engine.Sampler
import Ds4.Lib.Fips180
import Ds4.Lib.FlatRows
import Ds4.Lib.SoftmaxPool
import Ds4.Exact.Compressor
import Ds4.Exact.Streaming
import Ds4.Server.ToolMapRestore
import Ds4.Server.KvFile
import Ds4.Server.ToolMapRewrite
import Ds4.Server.Sha1
import Ds4.Server.KvDirectory
import Ds4.Server.KvStoreInvariant
import Ds4.Server.KvStoreWrites
import Ds4.Server.KvStoreRun
import Ds4.Lib.Interleaving
import Ds4.Lib.JsonText
import Ds4.Server.JobQueue
import Ds4.Server.JobQueueRun
import Ds4.Server.Http
import Ds4.Server.HttpRead
import Ds4.Lib.Regions
import Ds4.Go.BlockFormats
import Ds4.Go.BpeExact
import Ds4.Go.ChatPrompt
import Ds4.Go.ExpertCache
import Ds4.Go.ExpertCacheRun
import Ds4.Lib.Needles
import Ds4.Server.ToolMarkers
import Ds4.Go.TokenText
import Ds4.Server.KvRestore
import Ds4.Tokenizer.ControlTokens
import Ds4.Server.ToolResults
import Ds4.Cli.Repl
import Ds4.Cli.ReplTranscript
import Ds4.Lib.Binary32
import Ds4.Lib.BlockQuant
import Ds4.Go.Moe
import Ds4.Go.MoeOutput
import Ds4.Server.StructuredStream
import Ds4.Server.OpenaiStream
import Ds4.Server.AnthropicStream
import Ds4.Server.StructuredLimits
import Ds4.Server.StructuredStop
import Ds4.Server.Sha1Digest
import Ds4.Server.KvLookup
import Ds4.Cli.TokenPrinter
import Ds4.Engine.PrefillChunks
import Ds4.Engine.SamplerExact
import Ds4.Server.ToolReplay
import Ds4.Server.AnthropicEvents
import Ds4.Go.ExpertPaths
import Ds4.Go.StoredTypes
import Ds4.Cpu.ParallelFor
import Ds4.Lib.CountingSort
import Ds4.Cpu.RoutedMoe
import Ds4.Cpu.RoutedMoeOne
import Ds4.Cpu.RoutedMoeBatch
import Ds4.Lib.BitRows
import Ds4.Cpu.PrefixAttention
import Ds4.Cpu.PrefixAttentionRows
import Ds4.Cpu.PrefixAttentionLoops
import Ds4.Cpu.PrefixAttentionExact
import Ds4.Go.HalfRounding
import Ds4.Go.LayoutDetection
import Ds4.Go.Fp8
import Ds4.Exact.Rope
import Ds4.Exact.RopeAngles
import Ds4.Go.TurboQuant
import Ds4.Go.TurboQuantExact
import Ds4.Go.Q2kReaders
import Ds4.Go.Q2kAgreement
import Ds4.Go.KQuantDots
import Ds4.Go.MatvecAuto
import Ds4.Go.DiskStreamer
import Ds4.Go.ChatServer
import Ds4.Engine.SamplerKept
import Ds4.Go.Sampler
import Ds4.Go.ParallelFor
import Ds4.Go.SamplerAgreement
import Ds4.Go.Budget
import Ds4.Lib.OpenAddressing
import Ds4.Tokenizer.StringTable
import Ds4.Go.PortableKernels
import Ds4.Exact.Q8KRows
import Ds4.Lib.LoopSums
import Ds4.Exact.Q8KDots
import Ds4.Cpu.HyperConnection
import Ds4.Go.HyperConnection
import Ds4.Go.RenderedText
