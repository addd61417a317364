import JitGemm.Arm64.Encode
import JitGemm.Config
import JitGemm.Dispatch.Dispatcher
import JitGemm.Foreign.Session
import JitGemm.Generator.Framing
import JitGemm.Generator.Kernel
import JitGemm.Generator.Vector
import JitGemm.Tile.Code
import JitGemm.Proofs.Code.Resolution
import JitGemm.Proofs.Dispatch.QuantizedRoutes
import JitGemm.Proofs.Gemm.Execution
import JitGemm.Proofs.Gemm.FloatAgreement
import JitGemm.Proofs.Tile.Execution
import JitGemm.Work.Team
import JitGemm.X86.Encode
import JitGemm.Proofs.X86.Stream
import JitGemm.Proofs.Generator.Nesting
import JitGemm.Proofs.Arm64.Decode
import JitGemm.Proofs.Arm64.Machine
import JitGemm.Proofs.Generator.SaveArea
import JitGemm.Proofs.X86.Saving
import JitGemm.Proofs.Arm64.Framing
import JitGemm.Proofs.Generator.Branches
import JitGemm.Proofs.Generator.Processor
import JitGemm.Proofs.Generator.Preservation
import JitGemm.Proofs.Code.Assembly
import JitGemm.Proofs.Code.Linking
import JitGemm.Proofs.Generator.Publication
import JitGemm.Proofs.Gemm.Validation
import JitGemm.Proofs.Dispatch.Sequences
import JitGemm.Proofs.Work.Boxes
import JitGemm.Proofs.Dispatch.LogicalCalls
import JitGemm.Proofs.Dispatch.BlockOnly
import JitGemm.Proofs.Dispatch.FailedCalls
import JitGemm.Proofs.Vector.Aliasing
import JitGemm.Proofs.Vector.Comparison
import JitGemm.Proofs.Vector.Extensions
import JitGemm.Proofs.Foreign.Sessions
import JitGemm.Proofs.Scalar.Products
import JitGemm.Proofs.Scalar.OffsetCalls
import JitGemm.Proofs.Scalar.StackPointer
import JitGemm.Proofs.Generator.WorkingStack
import JitGemm.Proofs.Arm64.Stream
import JitGemm.Proofs.X86.RegisterNumbers
import JitGemm.Proofs.Arm64.ShiftAmounts
import JitGemm.Proofs.Vector.Naming
import JitGemm.Proofs.Vector.TableAgreement
import JitGemm.Proofs.Dispatch.LentBias
import JitGemm.Proofs.Foreign.Slices
import JitGemm.Proofs.Dispatch.Capabilities
import JitGemm.Proofs.Work.FairShares
import JitGemm.Proofs.Work.Rounds
import JitGemm.Proofs.Gemm.Indexing
import JitGemm.Proofs.Gemm.PackedLayout
import JitGemm.Proofs.Gemm.Panels
