import MirBackend.Asm.Builder
import MirBackend.Asm.Error
import MirBackend.Asm.Generator
import MirBackend.Asm.Insn
import MirBackend.Asm.Link
import MirBackend.Asm.Machine
import MirBackend.Asm.Opcode
import MirBackend.Asm.Program
import MirBackend.Asm.Select
import MirBackend.BitSet
import MirBackend.CommandLine
import MirBackend.Compile
import MirBackend.Disk
import MirBackend.Dominance.Order
import MirBackend.Dominance.Tree
import MirBackend.Field
import MirBackend.Func
import MirBackend.Func.Draft
import MirBackend.Func.Edges
import MirBackend.Func.Journal
import MirBackend.Func.Reach
import MirBackend.Func.Validity
import MirBackend.Halt
import MirBackend.Instr
import MirBackend.Interp.Arith
import MirBackend.Interp.Error
import MirBackend.Interp.Memory
import MirBackend.Interp.Run
import MirBackend.Interp.Value
import MirBackend.Layout
import MirBackend.Main
import MirBackend.Operand
import MirBackend.Operator
import MirBackend.Pass.BranchFusion
import MirBackend.Pass.DeadCode
import MirBackend.Pass.FrameCleanup
import MirBackend.Pass.ParallelCopy
import MirBackend.Pass.PhiRemoval
import MirBackend.Pass.Pipeline
import MirBackend.Pass.Schedule
import MirBackend.Proofs.BitSet
import MirBackend.Proofs.Func.Blocks
import MirBackend.Proofs.Func.Definitions
import MirBackend.Proofs.Func.Edges
import MirBackend.Proofs.Func.Instrs
import MirBackend.Proofs.Func.Linked
import MirBackend.Proofs.Func.Paths
import MirBackend.Proofs.Func.Splitting
import MirBackend.Proofs.Func.Strict
import MirBackend.Proofs.Func.Validity
import MirBackend.Proofs.Outcome
import MirBackend.Proofs.Pass.BranchFusion
import MirBackend.Proofs.Pass.Compaction
import MirBackend.Proofs.Pass.Delivery
import MirBackend.Proofs.Pass.Grounding
import MirBackend.Proofs.Pass.Isolation
import MirBackend.Proofs.Pass.PhiRemoval
import MirBackend.Proofs.Pass.Removal
import MirBackend.Proofs.Pass.Structure
import MirBackend.Sample
import MirBackend.Source.Printer
import MirBackend.Source.Reader
import MirBackend.Source.Scan
import MirBackend.Source.TypeReader
import MirBackend.Storage
import MirBackend.Text.Json
import MirBackend.Text.Printable
import MirBackend.Text.Quoted
import MirBackend.Text.Utf8
import MirBackend.Ty
import MirBackend.Wire
import MirBackend.Proofs.Field
import MirBackend.Proofs.Func.SplitForm
import MirBackend.Proofs.Interp.Aggregates
import MirBackend.Proofs.Interp.EdgeSplit
import MirBackend.Proofs.Interp.Frame
import MirBackend.Proofs.Pass.CopyPlacement
import MirBackend.Proofs.Pass.CopyRuns
import MirBackend.Proofs.Pass.PhiSemantics
import MirBackend.Proofs.Ty
import MirBackend.Proofs.Interp.Refinement
import MirBackend.Proofs.Pass.TrimmedRuns
import MirBackend.Proofs.Pass.DeadCodeRuns
import MirBackend.Proofs.Pass.FusionRuns
import MirBackend.Proofs.Interp.Memory
import MirBackend.Proofs.Interp.Injection
import MirBackend.Proofs.Pass.FrameRuns
import MirBackend.Proofs.Source.Tokens
import MirBackend.Proofs.Source.Types
import MirBackend.Proofs.Source.TypeWidths
import MirBackend.Proofs.Source.Echo
import MirBackend.Proofs.Source.Lists
import MirBackend.Proofs.Source.Statements
import MirBackend.Proofs.Source.Functions
import MirBackend.Proofs.Source.RoundTrip
import MirBackend.Proofs.Dominance.Tree
import MirBackend.Proofs.Asm.Linking
import MirBackend.Proofs.Asm.BlockCode
import MirBackend.Proofs.Asm.FrameMemory
import MirBackend.Proofs.Asm.FrameRuns
import MirBackend.Proofs.Asm.Placement
import MirBackend.Proofs.Asm.Addresses
import MirBackend.Proofs.Asm.Operators
import MirBackend.Proofs.Func.Editing
import MirBackend.Proofs.Pass.CopyCycles
import MirBackend.Proofs.Spread
import MirBackend.Proofs.Source.Bounds
import MirBackend.Proofs.Source.Readers
import MirBackend.Proofs.Source.Graphs
import MirBackend.Proofs.Asm.Aggregates
import MirBackend.Proofs.Asm.FrameCalls
import MirBackend.Proofs.Asm.TakenAddresses
import MirBackend.Proofs.Asm.FrameGrowth
import MirBackend.Proofs.Asm.Passing
import MirBackend.Proofs.Asm.CallFrames
import MirBackend.Proofs.Asm.RegisterSteps
import MirBackend.Proofs.Asm.RegisterCode
import MirBackend.Proofs.Asm.RegisterCalls
import MirBackend.Proofs.Asm.RegisterRuns
import MirBackend.Proofs.Asm.DeepCalls
import MirBackend.Proofs.Source.Annotations
import MirBackend.Proofs.FrameSize
import MirBackend.Proofs.Dominance.Frontiers
import MirBackend.Proofs.Pass.CriticalEdges
import MirBackend.Proofs.Pass.DeadCodeShape
import MirBackend.Proofs.Source.Counter
import MirBackend.Proofs.Func.Findings
import MirBackend.Proofs.Func.SsaFindings
import MirBackend.Proofs.Pass.RoundBounds
import MirBackend.Proofs.Interp.Supply
import MirBackend.Proofs.Pass.PhiChoice
import MirBackend.Proofs.Pass.Convergence
import MirBackend.Proofs.Interp.PlaceAccess
import MirBackend.Proofs.Interp.TruthTests
import MirBackend.Proofs.PrimeField
import MirBackend.Proofs.SetRegisters
import MirBackend.Proofs.Dominance.PostOrder
import MirBackend.Proofs.Offsets
import MirBackend.Proofs.Asm.Listing
import MirBackend.Proofs.Asm.LabelOrder
