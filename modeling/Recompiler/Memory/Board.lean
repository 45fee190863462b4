import Recompiler.Memory.Flat

/-!
# Boards

A bus with several flat memories, a choice of the regions it exposes, and handlers for system
calls.

An access belongs to the first memory that maps its first byte; it is not split between memories.
An access that no memory maps fails as it does in the first memory.
-/

namespace Recompiler

/-- Several memories on one bus. -/
structure Board where
  /-- The memories, in order of precedence. -/
  memories : Array FlatMemory
  /-- The regions the board exposes. -/
  regions : List FastRegion
  /-- The handlers of system calls, by code. -/
  handlers : UInt32 → Option (State → State)

namespace Board

variable (b : Board)

/-- The number of the memory that an access at `addr` belongs to. -/
def route (addr : UInt32) : Nat :=
  (b.memories.findIdx? fun m =>
    m.base ≤ addr && addr.toNat < m.base.toNat + m.size).getD 0

/-- Where an access lies: the memory and the distance from its first byte. -/
def locate (addr : UInt32) (length : Nat) : Except BusError (Nat × Nat) :=
  match b.memories[b.route addr]? with
  | some m => (b.route addr, ·) <$> m.offset addr length
  | none => .error (.addressNotMapped addr)

/-- The value at an address, widened with zeros. -/
def read (width : Width) (addr : UInt32) : Except BusError UInt32 :=
  match b.memories[b.route addr]? with
  | some m => m.read width addr
  | none => .error (.addressNotMapped addr)

/-- The board with bytes written to a place of a memory. -/
def store (memory start : Nat) (bytes : List UInt8) : Board :=
  { b with memories := b.memories.modify memory (·.store start bytes) }

/-- Copies bytes to a guest address. -/
def load (addr : UInt32) (bytes : List UInt8) : Except BusError Board := do
  let (memory, start) ← b.locate addr bytes.length
  return b.store memory start bytes

/-- The memory and the place in it that a host address belongs to. -/
def hostPlace? (pointer : UInt64) : Option (Nat × Nat) :=
  b.memories.zipIdx.findSome? fun (m, i) => (m.hostOffset? pointer).map (i, ·)

end Board

instance : Bus Board where
  read width addr b := (b.read width addr, b)
  write width addr value b :=
    match b.locate addr width.size with
    | .ok (memory, start) =>
      (.ok (), b.store memory start ((Word.bytes value).take width.size))
    | .error e => (.error e, b)
  fastRegions b := b.regions
  syscall code state b :=
    match b.handlers code with
    | some handler => (.handled (handler state), b)
    | none => (.unhandled, b)
  hostByte? b pointer :=
    (b.hostPlace? pointer).bind fun (memory, i) => b.memories[memory]?.map (·.byte i)
  setHostByte b pointer value :=
    match b.hostPlace? pointer with
    | some (memory, i) => b.store memory i [value]
    | none => b

end Recompiler
