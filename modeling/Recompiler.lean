import Recompiler.Block.Arithmetic
import Recompiler.Block.Branch
import Recompiler.Block.Compile
import Recompiler.Block.Error
import Recompiler.Block.Lowering
import Recompiler.Block.MemoryAccess
import Recompiler.Block.RegisterCache
import Recompiler.Block.Table
import Recompiler.Breach
import Recompiler.Code.Arena
import Recompiler.Code.Assembly
import Recompiler.Code.Stubs
import Recompiler.CommandLine.Arguments
import Recompiler.CommandLine.Execution
import Recompiler.CommandLine.Number
import Recompiler.Event
import Recompiler.Guest.Environment
import Recompiler.Guest.Instruction
import Recompiler.Guest.Interpreter
import Recompiler.Guest.Mnemonic
import Recompiler.Guest.Pattern
import Recompiler.Guest.Register
import Recompiler.Guest.State
import Recompiler.Host.Decoder
import Recompiler.Host.Instruction
import Recompiler.Host.Linkage
import Recompiler.Host.Listing
import Recompiler.Host.Machine
import Recompiler.Host.Operation
import Recompiler.Host.Register
import Recompiler.Host.Sequence
import Recompiler.Main
import Recompiler.Memory.Board
import Recompiler.Memory.Bus
import Recompiler.Memory.Flat
import Recompiler.Memory.Region
import Recompiler.Memory.Trace
import Recompiler.Options
import Recompiler.Proofs.Block.Access
import Recompiler.Proofs.Block.Acting
import Recompiler.Proofs.Block.Answering
import Recompiler.Proofs.Block.Arithmetic
import Recompiler.Proofs.Block.Branching
import Recompiler.Proofs.Block.CacheHistory
import Recompiler.Proofs.Block.CacheOperation
import Recompiler.Proofs.Block.Carrying
import Recompiler.Proofs.Block.Charging
import Recompiler.Proofs.Block.Charted
import Recompiler.Proofs.Block.Coherent
import Recompiler.Proofs.Block.Compile
import Recompiler.Proofs.Block.ContainedAccess
import Recompiler.Proofs.Block.Course
import Recompiler.Proofs.Block.Departing
import Recompiler.Proofs.Block.Determined
import Recompiler.Proofs.Block.Discard
import Recompiler.Proofs.Block.Filled
import Recompiler.Proofs.Block.Flowchart
import Recompiler.Proofs.Block.Flushing
import Recompiler.Proofs.Block.GuardedAccess
import Recompiler.Proofs.Block.Links
import Recompiler.Proofs.Block.Mapping
import Recompiler.Proofs.Block.MaskedAccess
import Recompiler.Proofs.Block.MemoryAccess
import Recompiler.Proofs.Block.Native
import Recompiler.Proofs.Block.Orderly
import Recompiler.Proofs.Block.Outline
import Recompiler.Proofs.Block.Passage
import Recompiler.Proofs.Block.Performing
import Recompiler.Proofs.Block.Quiet
import Recompiler.Proofs.Block.Readable
import Recompiler.Proofs.Block.Registers
import Recompiler.Proofs.Block.Relocation
import Recompiler.Proofs.Block.Rereading
import Recompiler.Proofs.Block.Sandbox
import Recompiler.Proofs.Block.Shape
import Recompiler.Proofs.Block.Steps
import Recompiler.Proofs.Block.Straight
import Recompiler.Proofs.Block.Tidy
import Recompiler.Proofs.Block.Tour
import Recompiler.Proofs.Block.Whole
import Recompiler.Proofs.Block.Wiring
import Recompiler.Proofs.Code.Computing
import Recompiler.Proofs.Code.Edits
import Recompiler.Proofs.Code.Emission
import Recompiler.Proofs.Code.Emitter
import Recompiler.Proofs.Code.Flow
import Recompiler.Proofs.Code.Guarded
import Recompiler.Proofs.Code.Jumps
import Recompiler.Proofs.Code.Layout
import Recompiler.Proofs.Code.Running
import Recompiler.Proofs.Code.Stubs
import Recompiler.Proofs.Code.Writing
import Recompiler.Proofs.Guest.Decoding
import Recompiler.Proofs.Guest.Disassembly
import Recompiler.Proofs.Guest.Fields
import Recompiler.Proofs.Guest.Footprint
import Recompiler.Proofs.Guest.Interpreter
import Recompiler.Proofs.Guest.Lasting
import Recompiler.Proofs.Guest.Lettering
import Recompiler.Proofs.Guest.Lines
import Recompiler.Proofs.Guest.Numbering
import Recompiler.Proofs.Guest.Plain
import Recompiler.Proofs.Host.Contained
import Recompiler.Proofs.Host.Format
import Recompiler.Proofs.Host.Sequence
import Recompiler.Proofs.Memory.Backed
import Recompiler.Proofs.Memory.Hosted
import Recompiler.Proofs.Memory.LastWritten
import Recompiler.Proofs.Memory.Mirrored
import Recompiler.Proofs.Memory.Overlap
import Recompiler.Proofs.Memory.Reach
import Recompiler.Proofs.Memory.Rom
import Recompiler.Proofs.Options
import Recompiler.Proofs.Ranges
import Recompiler.Proofs.Session.Blockwise
import Recompiler.Proofs.Session.Budget
import Recompiler.Proofs.Session.Cleared
import Recompiler.Proofs.Session.Coherence
import Recompiler.Proofs.Session.Compiling
import Recompiler.Proofs.Session.Entering
import Recompiler.Proofs.Session.Failing
import Recompiler.Proofs.Session.Interpreting
import Recompiler.Proofs.Session.Planned
import Recompiler.Proofs.Session.Reachable
import Recompiler.Proofs.Session.Refining
import Recompiler.Proofs.Session.Room
import Recompiler.Proofs.Session.Serving
import Recompiler.Proofs.Session.Sourced
import Recompiler.Proofs.Session.Twins
import Recompiler.Proofs.Session.Uncached
import Recompiler.Proofs.Text.Digits
import Recompiler.Proofs.Word
import Recompiler.Session
import Recompiler.Text.Numeral
import Recompiler.Text.Printable
import Recompiler.Text.Quoted
import Recompiler.Text.Radix
import Recompiler.Word
