import EmpTool.Ir.Program
import EmpTool.Runtime.Error
import EmpTool.Ir.Validate
import EmpTool.Ir.Context
import EmpTool.Ir.Execute
import EmpTool.Ir.Passes
import EmpTool.Ir.Transform
import EmpTool.Ir.Compaction
import EmpTool.Ir.Empbc
import EmpTool.Ir.EmpbcLayout
import EmpTool.Ir.Schedule
import EmpTool.Ir.Levels
import EmpTool.Ir.Scheduling
import EmpTool.Library.Worklist
import EmpTool.Session.FlushPlan
import EmpTool.Session.Flushing
import EmpTool.Session.ChunkRecorder
import EmpTool.Session.ChunkedSession
import EmpTool.Session.Handles
import EmpTool.Session.Plaintext
import EmpTool.Session.Coherence
import EmpTool.Session.Refinement
import EmpTool.Session.Revealing
import EmpTool.Session.Batches
import EmpTool.Session.ChunkWire
import EmpTool.Session.RecorderCounts
import EmpTool.Session.RecorderRefinement
import EmpTool.Ir.Dense
import EmpTool.Frontend.CircuitFn
import EmpTool.Frontend.Recording
import EmpTool.Ir.Compose
import EmpTool.Ir.Flattening
import EmpTool.Crypto.AesTiles
import EmpTool.Crypto.Mitccrh
import EmpTool.Crypto.HashStream
import EmpTool.Garbling.HalfGate
import EmpTool.Crypto.HashReference
import EmpTool.Ir.Uncompaction
import EmpTool.Runtime.Bits
import EmpTool.Ir.Simd
import EmpTool.Frontend.Interpreting
import EmpTool.Ir.InterpretCtx
import EmpTool.Crypto.Hash
import EmpTool.Library.Process
import EmpTool.Io.Channel
import EmpTool.Io.BoolPacking
import EmpTool.Io.Transport
import EmpTool.Io.Buffering
import EmpTool.Io.Traffic
import EmpTool.Io.CallContracts
import EmpTool.Io.Fifo
import EmpTool.Io.Duplex
import EmpTool.Io.FiatShamir
import EmpTool.Io.Sync
import EmpTool.Crypto.Block
import EmpTool.Ir.RecordCtx
import EmpTool.Ir.Renumber
import EmpTool.Library.Codec
import EmpTool.Library.Memory
import EmpTool.Library.ModularPower
import EmpTool.Library.StraightLine
import EmpTool.Library.Table
import EmpTool.Crypto.AesCtr
import EmpTool.Crypto.Prg
import EmpTool.Library.TwoRun
import EmpTool.Crypto.Reseeding
import EmpTool.Library.Interleaving
import EmpTool.Runtime.TestMode
import EmpTool.Runtime.ThreadPool
import EmpTool.Runtime.PoolSteps
import EmpTool.Runtime.Lane0
import EmpTool.Runtime.SoloRun
import EmpTool.Runtime.Lanes
import EmpTool.Runtime.Reproducibility
import EmpTool.Crypto.RandomOracle
import EmpTool.Library.Framing
import EmpTool.Circuits.Kernels
import EmpTool.Library.Arrays
import EmpTool.Library.Binary
import EmpTool.Circuits.Carry
import EmpTool.Circuits.Division
import EmpTool.Circuits.Word
import EmpTool.Circuits.UnsignedInt
import EmpTool.Circuits.SignedInt
import EmpTool.Circuits.Shifts
import EmpTool.Circuits.ModExp
import EmpTool.Circuits.BitCounting
import EmpTool.Circuits.ClearCodec
import EmpTool.Circuits.Batcher
import EmpTool.Library.Network
import EmpTool.Circuits.Sort
import EmpTool.Ir.CompactStructure
import EmpTool.Ir.Canonical
import EmpTool.Ir.Layout
import EmpTool.Ir.Slots
import EmpTool.Ir.PeakLive
import EmpTool.Garbling.PrivacyFree
import EmpTool.Library.BinaryPoly
import EmpTool.Crypto.F2k
import EmpTool.Crypto.F2kVectors
import EmpTool.Circuits.Bitwise
import EmpTool.Circuits.Crypto.AesSbox
import EmpTool.Circuits.Crypto.Fips197
import EmpTool.Circuits.Crypto.Aes128
import EmpTool.Circuits.Crypto.Aes128Ctr
import EmpTool.Circuits.Crypto.Fips180
import EmpTool.Circuits.Crypto.Sha256
import EmpTool.Circuits.Crypto.Fips202
import EmpTool.Circuits.Crypto.Keccak
import EmpTool.Circuits.Crypto.Sha3
import EmpTool.Circuits.HalfFloat
import EmpTool.Crypto.Digests
import EmpTool.Io.BoolTransfer
import EmpTool.Crypto.Stream
import EmpTool.Crypto.AesNi
import EmpTool.Crypto.KeySchedule
import EmpTool.Crypto.ParaEnc
import EmpTool.Crypto.Sswu
import EmpTool.Runtime.Transpose
import EmpTool.Runtime.TransposeGfni
import EmpTool.Library.Await
import EmpTool.Runtime.Joining
import EmpTool.Crypto.Blake3Hash
import EmpTool.Runtime.WorkerRuns
import EmpTool.Library.Separation
import EmpTool.Crypto.SessionId
import EmpTool.Crypto.FreshBlocks
import EmpTool.Crypto.P256
import EmpTool.Crypto.HashToPoint
import EmpTool.Ir.Rounds
import EmpTool.Ir.Analysis
import EmpTool.Frontend.Artifacts
import EmpTool.Library.TypedProgram
import EmpTool.Circuits.Operators
import EmpTool.Circuits.Typed
import EmpTool.Session.ClearSession
