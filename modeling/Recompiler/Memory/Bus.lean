import Recompiler.Guest.State
import Recompiler.Memory.Region

/-!
# The bus

What the rest of the library asks of guest memory: reads and writes of three widths that may fail,
the regions that may be reached directly, and the handling of system calls.

* `Width`: how wide an access is.
* `BusError`: why an access failed.
* `Bus`: the operations.
-/

namespace Recompiler

/-- How wide an access is. -/
inductive Width where
  | byte | half | word
  deriving DecidableEq, Repr

namespace Width

/-- The number of bytes. -/
def size : Width → Nat
  | byte => 1
  | half => 2
  | word => 4

/-- The low part of a value that an access of this width carries. -/
def truncate (w : Width) (value : UInt32) : UInt32 :=
  match w with
  | byte => value.toUInt8.toUInt32
  | half => value.toUInt16.toUInt32
  | word => value

end Width

/-- Why an access failed. -/
inductive BusError where
  /-- No memory at the address. -/
  | addressNotMapped (address : UInt32)
  /-- The first byte is mapped, but not all `length` of them. -/
  | outOfRange (address : UInt32) (length : Nat)
  deriving DecidableEq, Repr

namespace BusError

/-- The wording of a failed access. -/
def message : BusError → String
  | addressNotMapped address => s!"address {Radix.hexWord address} is not mapped"
  | outOfRange address length =>
    s!"{Radix.hex length} bytes at {Radix.hexWord address} do not fit in memory"

end BusError

/-- What became of a system call. -/
inductive SyscallOutcome where
  /-- A handler left the guest in this state. -/
  | handled (state : State)
  /-- There is no handler for the code. -/
  | unhandled
  deriving DecidableEq

/-- The guest memory subsystem. Every operation may change the bus, reads included. -/
class Bus (β : Type) where
  /-- Reads an access of the given width, widened with zeros. -/
  read : Width → (addr : UInt32) → β → Except BusError UInt32 × β
  /-- Writes the low part of a value. -/
  write : Width → (addr value : UInt32) → β → Except BusError Unit × β
  /-- The memory that may be reached directly. The first region is the main one, into which masked
  accesses wrap; the others are tried in order by an address that misses it. -/
  fastRegions : β → List FastRegion := fun _ => []
  /-- Runs the handler of a system call. -/
  syscall : (code : UInt32) → State → β → SyscallOutcome × β := fun _ _ bus => (.unhandled, bus)
  /-- The byte at a host address, if the address belongs to memory behind the bus. -/
  hostByte? : β → (pointer : UInt64) → Option UInt8 := fun _ _ => none
  /-- Replaces the byte at a host address. Other addresses are left alone. -/
  setHostByte : β → (pointer : UInt64) → UInt8 → β := fun bus _ _ => bus

end Recompiler
