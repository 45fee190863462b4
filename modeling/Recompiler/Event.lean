import Recompiler.Guest.Instruction
import Recompiler.Host.Register
import Recompiler.Memory.Bus

/-!
# Events

What the library reports about its work while it does it. Operations collect events; whoever runs
them decides which to show.

* `Event`: the events.
* `Event.level`: how important one is.
* `Event.text`: its wording.
-/

namespace Recompiler

/-- How important an event is, most important first. -/
inductive Level where
  | error | warn | info | debug | trace
  deriving DecidableEq, Repr

namespace Level

/-- The rank of a level; a smaller rank is more important. -/
def rank : Level → Nat
  | error => 0
  | warn => 1
  | info => 2
  | debug => 3
  | trace => 4

/-- The name of a level. -/
def name : Level → String
  | error => "ERROR"
  | warn => "WARN"
  | info => "INFO"
  | debug => "DEBUG"
  | trace => "TRACE"

end Level

/-- Something worth reporting. -/
inductive Event where
  /-- A guest access failed; it read zero or wrote nothing. -/
  | accessFailed (cause : BusError)
  /-- A system call without a handler, made at `pc`. -/
  | unhandledSyscall (code pc : UInt32)
  /-- A guest register was asked for that lives in no host register. -/
  | registerNotMapped (register : Nat) (pc : UInt32)
  /-- No host register could be freed. -/
  | outOfRegisters (pc : UInt32) (resident : List (Nat × HostRegister))
  /-- A guest register is stored to the guest state. -/
  | writeBack (register : Nat) (host : HostRegister)
  | compiling (start : UInt32)
  | instruction (pc : UInt32) (i : Instruction)
  | fetchFailed (pc : UInt32) (cause : BusError)
  | invalidInstruction (word pc : UInt32)
  /-- An instruction that ends a block stands in a delay slot. -/
  | undefinedDelaySlot (i : Instruction) (pc : UInt32)
  /-- An instruction that is refused on purpose. -/
  | refused (i : Instruction) (pc : UInt32)
  | noRoutine (i : Instruction) (pc : UInt32)
  /-- The outcome of a branch is known while it is compiled. -/
  | decidedBranch (pc : UInt32) (taken : Bool)
  | instructionLimit (start : UInt32)
  | finalized (block : Nat) (start : UInt32) (instructions : UInt32) (bytes : Nat)
  | linked (source : Nat) (target : UInt32) (block : Nat)
  | linkFailed (source offset : Nat)
  | invalidated (addr length : UInt32)
  | cacheFull (blocks left : Nat)
  | retrying (addr : UInt32)
  | clearing
  | noFastRegion
  | fastRegion (region : FastRegion) (masked : Bool)
  | coreStateChanged (state : CoreState) (pc : UInt32)
  | hardFault (pc word : UInt32)
  /-- The heading of a block dump. -/
  | dumpBlock (block : Nat) (start : UInt32) (instructions : UInt32)
  /-- A guest instruction in a block dump. -/
  | dumpGuest (addr : UInt32) (word : Except BusError UInt32)
  /-- The heading of the host code in a block dump. -/
  | dumpBytes (bytes : Nat)
  /-- A line of host code in a block dump. -/
  | dumpHost (line : String)

namespace Event

/-- How important an event is. -/
def level : Event → Level
  | registerNotMapped .. | outOfRegisters .. | fetchFailed .. | invalidInstruction ..
  | noRoutine .. | hardFault .. => .error
  | accessFailed .. | unhandledSyscall .. | undefinedDelaySlot .. | refused .. | linkFailed ..
  | invalidated .. | retrying .. => .warn
  | cacheFull .. | clearing | noFastRegion | fastRegion .. | dumpBlock .. | dumpGuest ..
  | dumpBytes .. | dumpHost .. => .info
  | compiling .. | finalized .. | linked .. | coreStateChanged .. => .debug
  | writeBack .. | instruction .. | decidedBranch .. | instructionLimit .. => .trace

/-- A resident register in the list of an exhausted allocation. -/
private def residentText (r : Nat × HostRegister) : String :=
  s!"({r.1}, HostReg({r.2.number}))"

/-- The wording of an event. -/
def text : Event → String
  | accessFailed cause => s!"guest memory access failed: {cause.message}"
  | unhandledSyscall code pc =>
    s!"unhandled syscall {Radix.hex code.toNat} at {Radix.hexWord pc}, stopping"
  | registerNotMapped register pc =>
    s!"guest register {register} used without being mapped at {Radix.hexWord pc}"
  | outOfRegisters pc resident =>
    s!"all host registers are spill locked at {Radix.hexWord pc}: [" ++
      ", ".intercalate (resident.map residentText) ++ "]"
  | writeBack register host => s!"writing back guest register {register} from {host.name}"
  | compiling start => s!"compiling block at {Radix.hexWord start}"
  | instruction pc i => s!"{Radix.hexWord pc}: {i.text}"
  | fetchFailed pc cause =>
    s!"failed to fetch instruction at {Radix.hexWord pc}: {cause.message}"
  | invalidInstruction word pc =>
    s!"invalid instruction {Radix.hexWord word} at {Radix.hexWord pc}"
  | undefinedDelaySlot i pc =>
    s!"{i.text} in the delay slot at {Radix.hexWord pc} is undefined behaviour"
  | refused i pc => s!"{i.text} at {Radix.hexWord pc} is disabled, compiling a hard fault"
  | noRoutine i pc => s!"{i.text} at {Radix.hexWord pc} has no interpreter fallback"
  | decidedBranch pc taken =>
    s!"branch at {Radix.hexWord pc} is always " ++ if taken then "taken" else "skipped"
  | instructionLimit start =>
    s!"block at {Radix.hexWord start} reached the instruction limit"
  | finalized block start instructions bytes =>
    s!"finalized block {block} at {Radix.hexWord start}: {instructions} guest instructions, " ++
      s!"{bytes} bytes"
  | linked source target block =>
    s!"linked block {source} to {Radix.hexWord target} (block {block})"
  | linkFailed source offset =>
    s!"failed to patch exit of block {source} at {Radix.hex offset}"
  | invalidated addr length =>
    s!"code at {Radix.hexWord addr}+{Radix.hex length.toNat} was invalidated, " ++
      "clearing the whole cache"
  | cacheFull blocks left =>
    s!"code cache is full ({blocks} blocks, {Radix.hex left} bytes left), clearing it"
  | retrying addr =>
    s!"block at {Radix.hexWord addr} did not fit in the arena, retrying with an empty cache"
  | clearing => "clearing the code cache"
  | noFastRegion => "no fast memory region, every access goes through the bus"
  | fastRegion region masked =>
    s!"fast memory covers {Radix.hexWord region.start}.." ++
      "0x" ++ Radix.padded 16 8 region.stop ++
      (if masked then ", masked accesses" else ", range checked accesses")
  | coreStateChanged state pc =>
    s!"core state changed to {state.name} at {Radix.hexWord pc}"
  | hardFault pc word => s!"hard fault at {Radix.hexWord pc}: {wordText word}"
  | dumpBlock block start instructions =>
    s!"block {block} at {Radix.hexWord start}, {instructions} guest instructions:"
  | dumpGuest addr (.ok word) => s!"  {Radix.hexWord addr}: {wordText word}"
  | dumpGuest addr (.error cause) => s!"  {Radix.hexWord addr}: {cause.message}"
  | dumpBytes bytes => s!"{bytes} bytes of host code:"
  | dumpHost line => s!"  {line}"

end Event

end Recompiler
