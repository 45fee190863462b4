import Recompiler.Block.Error
import Recompiler.Event
import Recompiler.Host.Sequence

/-!
# The register cache

Where each guest register lives while a block is lowered: in the guest state, as a constant
known during lowering, or in a host register. Constants and host registers that were written are
stored to the guest state when they are flushed.

Register zero is the constant zero, or a host register that holds zero; it is never stored.

* `RegisterCache.start`: the cache at the entry of a block.
* `RegisterCache.map` and the combinations `mapSources`, `mapTarget`, `mapTargetSources`: bringing
  guest registers into host registers.
* `RegisterCache.setImmediate`: recording a constant.
* `RegisterCache.flush`, `RegisterCache.flushHost`, `RegisterCache.flushAll`: storing to the guest
  state.

Operations that emit instructions run in `Allocate`, which collects the instructions and events.
-/

namespace Recompiler

/-- A general purpose register of the guest, by number. -/
abbrev GuestIndex := Fin 32

/-- The guest register with a number that the caller knows to be one. -/
def guestIndex (n : Nat) : Except Breach GuestIndex :=
  if h : n < 32 then .ok ⟨n, h⟩ else .error (.indexOutOfBounds 32 n)

/-- The guest register that a register operand names. -/
def guestOperand (value : UInt32) : GuestIndex :=
  Fin.ofNat 32 value.toNat

/-- The register that always holds zero. -/
def zeroRegister : GuestIndex := 0

/-- The register that holds return addresses. -/
def linkRegister : GuestIndex := 31

/-- The offset of a guest register in the guest state. -/
def guestOffset (reg : GuestIndex) : UInt32 :=
  Slot.offset reg

/-- What is going to be done with a mapped register. -/
inductive Access where
  | read
  | readWrite
  /-- The whole register is overwritten; its value is not needed. -/
  | write
  deriving DecidableEq, Repr

/-- The access changes the register. -/
def Access.writes : Access → Bool
  | read => false
  | readWrite | write => true

/-- Where a guest register lives. -/
inductive Location where
  | memory
  | immediate (value : UInt32)
  | host (r : HostRegister)
  deriving DecidableEq, Repr

/-- A host register that can hold guest registers. -/
structure HostSlot where
  /-- The host register. -/
  host : HostRegister
  /-- The guest register it holds. -/
  guest : Option GuestIndex
  /-- The value differs from the guest state. -/
  dirty : Bool
  deriving DecidableEq, Repr

/-- Where the guest registers live. -/
structure RegisterCache where
  /-- The place of each guest register. -/
  locations : Vector Location 32
  /-- Guest registers that must stay in their host registers. -/
  locked : Vector Bool 32
  /-- The host registers, in the order they are handed out. -/
  slots : List HostSlot
  /-- The guest address that failures report. -/
  pc : UInt32
  deriving DecidableEq

namespace RegisterCache

/-- Everything in the guest state, nothing locked. -/
def start (c : RegisterCache) : RegisterCache where
  locations := (Vector.replicate 32 .memory).set 0 (.immediate 0)
  locked := Vector.replicate 32 false
  slots := c.slots.map fun slot => { slot with guest := none, dirty := false }
  pc := c.pc

/-- The cache before anything was mapped. -/
def fresh : RegisterCache where
  locations := (Vector.replicate 32 .memory).set 0 (.immediate 0)
  locked := Vector.replicate 32 false
  slots := HostRegister.allocationOrder.map fun host => ⟨host, none, false⟩
  pc := 0

variable (c : RegisterCache)

/-- Where a guest register lives. -/
def location (reg : GuestIndex) : Location :=
  c.locations[reg]

/-- The constant that a guest register is known to hold. -/
def immediate? (reg : GuestIndex) : Option UInt32 :=
  match c.location reg with
  | .immediate value => some value
  | _ => none

/-- The slot of a host register, if it can hold guest registers. -/
def slot? (host : HostRegister) : Option HostSlot :=
  c.slots.find? (·.host == host)

/-- The guest registers in host registers, with what holds them. -/
def resident : List (GuestIndex × HostRegister) :=
  c.slots.filterMap fun slot => slot.guest.map (·, slot.host)

/-- The host register holds a value that differs from the guest state. -/
def isDirty (host : HostRegister) : Bool :=
  (c.slot? host).any (·.dirty)

/-- The cache with a guest register living elsewhere. -/
def setLocation (reg : GuestIndex) (place : Location) : RegisterCache :=
  { c with locations := c.locations.set reg place }

/-- The cache with the slot of a host register changed. -/
def updateSlot (host : HostRegister) (guest : Option GuestIndex) (dirty : Bool) : RegisterCache :=
  { c with
    slots := c.slots.map fun slot =>
      if slot.host = host then { slot with guest := guest, dirty := dirty } else slot }

/-- Puts a guest register into a host register. -/
def bindHost (host : HostRegister) (reg : GuestIndex) (dirty : Bool) : RegisterCache :=
  (c.updateSlot host (some reg) dirty).setLocation reg (.host host)

/-- Forgets the host register of a guest register, without storing anything. -/
def unbind (reg : GuestIndex) : RegisterCache :=
  match c.location reg with
  | .host host =>
    (c.updateSlot host none false).setLocation reg
      (if reg = zeroRegister then .immediate 0 else .memory)
  | _ => c

/-- The guest register stays in its host register until the locks are released. -/
def lock (reg : GuestIndex) : RegisterCache :=
  { c with locked := c.locked.set reg true }

/-- Releases all locks. -/
def release : RegisterCache :=
  { c with locked := Vector.replicate 32 false }

/-- Records that a guest register holds a constant. What it held before is forgotten. -/
def setImmediate (reg : GuestIndex) (value : UInt32) : RegisterCache :=
  if reg = zeroRegister then c else (c.unbind reg).setLocation reg (.immediate value)

end RegisterCache

/-! ## Operations that emit instructions -/

/-- A register cache at work. -/
structure Allocation where
  /-- The cache. -/
  cache : RegisterCache
  /-- The instructions emitted so far. -/
  code : List HostInstruction
  /-- The events so far. -/
  events : List Event

/-- Operations on a register cache. What was emitted before a failure stays emitted. -/
abbrev Allocate := ExceptT Failure (StateM Allocation)

namespace Allocate

/-- The cache as it stands. -/
def cache : Allocate RegisterCache := do
  return (← get).cache

/-- Changes the cache. -/
def update (f : RegisterCache → RegisterCache) : Allocate Unit :=
  modify fun a => { a with cache := f a.cache }

/-- Emits instructions. -/
def emit (is : List HostInstruction) : Allocate Unit :=
  modify fun a => { a with code := a.code ++ is }

/-- Reports an event. -/
def report (event : Event) : Allocate Unit :=
  modify fun a => { a with events := a.events ++ [event] }

end Allocate

namespace RegisterCache

open Allocate

/-- Stores what a host register holds, if it has to be, and frees it. -/
def flushHost (host : HostRegister) : Allocate Unit := do
  match (← cache).slot? host with
  | some ⟨_, some reg, dirty⟩ =>
    if dirty ∧ reg ≠ zeroRegister then
      report (.writeBack reg host)
      emit (Sequence.storeState (guestOffset reg) host)
    update (·.unbind reg)
  | _ => return

/-- Stores a guest register and leaves it in the guest state. -/
def flush (reg : GuestIndex) : Allocate Unit := do
  match (← cache).location reg with
  | .host host => flushHost host
  | .immediate value =>
    if reg ≠ zeroRegister then
      emit (Sequence.storeStateImmediate (guestOffset reg) value)
      update (·.setLocation reg .memory)
  | .memory => return

/-- Stores everything and releases the locks, which leaves the cache as at the entry of a block. -/
def flushAll : Allocate Unit := do
  (List.finRange 32).forM flush
  update release

/-- A free host register. If there is none, the first whose guest register is not locked is
flushed. -/
def allocate : Allocate HostRegister := do
  let c ← cache
  match c.slots.find? (·.guest.isNone) with
  | some slot => return slot.host
  | none =>
    match c.slots.find? fun slot => slot.guest.any fun reg => !c.locked[reg] with
    | some slot =>
      flushHost slot.host
      return slot.host
    | none =>
      report (.outOfRegisters c.pc (c.resident.map fun (reg, host) => (reg.val, host)))
      throw (.compile (.outOfSpillableRegisters c.pc))

/-- Brings a guest register into a host register, with its value unless the access is
`Access.write`. Writes of register zero land in the scratch register and are lost. -/
def map (reg : GuestIndex) (access : Access) : Allocate HostRegister := do
  if reg = zeroRegister ∧ access.writes then
    if access = .readWrite then emit (Sequence.moveImmediate .scratch 0)
    return .scratch
  match (← cache).location reg with
  | .host host =>
    if access.writes then update (·.updateSlot host (some reg) true)
    return host
  | .immediate value =>
    let host ← allocate
    if access ≠ .write then emit (Sequence.moveImmediate host value)
    -- The guest state never held the constant, so it has to be stored sooner or later.
    update (·.bindHost host reg (reg ≠ zeroRegister))
    return host
  | .memory =>
    let host ← allocate
    if access ≠ .write then emit (Sequence.loadState host (guestOffset reg))
    update (·.bindHost host reg access.writes)
    return host

/-- Maps two registers for reading, and locks both. -/
def mapSources (rs rt : GuestIndex) : Allocate (HostRegister × HostRegister) := do
  update (·.lock rs)
  update (·.lock rt)
  let rs ← map rs .read
  let rt ← map rt .read
  return (rs, rt)

/-- Maps a register for writing and another for reading, and locks both. -/
def mapTarget (dst src : GuestIndex) : Allocate (HostRegister × HostRegister) := do
  update (·.lock dst)
  update (·.lock src)
  let srcHost ← map src .read
  let dstHost ← map dst (if dst = src then .readWrite else .write)
  return (dstHost, srcHost)

/-- Maps a register for writing and two for reading, and locks all. -/
def mapTargetSources (dst rs rt : GuestIndex) :
    Allocate (HostRegister × HostRegister × HostRegister) := do
  update (·.lock dst)
  let (rsHost, rtHost) ← mapSources rs rt
  let dstHost ← map dst (if dst = rs ∨ dst = rt then .readWrite else .write)
  return (dstHost, rsHost, rtHost)

/-- The host register of a guest register that was mapped before. -/
def hostOf (reg : GuestIndex) : Allocate HostRegister := do
  let c ← cache
  match c.location reg with
  | .host host => return host
  | _ =>
    report (.registerNotMapped reg c.pc)
    throw (.compile (.registerNotMapped c.pc reg))

end RegisterCache

end Recompiler
