import Recompiler.Block.RegisterCache
import Recompiler.Code.Stubs
import Recompiler.Host.Linkage
import Recompiler.Options

/-!
# Lowering guest code

The frame in which guest instructions are lowered, one block at a time, to symbolic host code:
what a lowering knows, what it builds up, and the ways out of a block.

* `Surroundings`: the facts that stay fixed while a block is lowered.
* `Lowering`: what has been lowered so far.
* `Lower`: lowering steps. What was lowered before a failure is kept.
* `Lower.writeExit`, `Lower.writeRegisterExit`, `Lower.writeCheckedExit`: leaving a
  block. All guest registers must be flushed before.
* `Lower.hardFault`: refusing an instruction.
* `Lower.interpretCall`: leaving an instruction to the interpreter.
-/

namespace Recompiler

/-- The facts that stay fixed while a block is lowered. -/
structure Surroundings where
  /-- The tuning. -/
  options : Options
  /-- The memory that may be reached directly. -/
  regions : List FastRegion
  /-- The code that blocks leave through. -/
  stubs : Stubs
  /-- The entry of the block at a guest address, which exits may jump to. -/
  entryAt : UInt32 → Option Destination

/-- What has been lowered of a block. -/
structure Lowering (β : Type) where
  /-- Where instructions are read from. -/
  bus : β
  /-- Where the guest registers live. -/
  registers : RegisterCache
  /-- The host code. -/
  code : Array Item
  /-- The events. -/
  events : Array Event
  /-- The number of labels used. -/
  labels : Nat
  /-- The address of the instruction being lowered. -/
  pc : UInt32
  /-- The cycles charged at the next exit. -/
  cycles : UInt32
  /-- The number of guest instructions, delay slots included. -/
  instructions : UInt32
  /-- No instruction has ended the block yet. -/
  isOpen : Bool
  /-- The block was cut short by a refused instruction. -/
  cancelled : Bool

/-- Lowering steps. -/
abbrev Lower (β : Type) := ReaderT Surroundings (ExceptT Failure (StateM (Lowering β)))

namespace Lower

variable {β : Type}

/-- Adds symbolic code. -/
def append (items : List Item) : Lower β Unit :=
  modify fun t => { t with code := t.code ++ items }

/-- Adds instructions. -/
def emit (is : List HostInstruction) : Lower β Unit :=
  append (is.map .instruction)

/-- Adds instructions that may break a contract. -/
def emitChecked (is : Except Breach (List HostInstruction)) : Lower β Unit :=
  match is with
  | .ok is => emit is
  | .error b => throw (.breach b)

/-- Reports an event. -/
def report (event : Event) : Lower β Unit :=
  modify fun t => { t with events := t.events.push event }

/-- A value that may break a contract. -/
def checked {α : Type} (x : Except Breach α) : Lower β α :=
  match x with
  | .ok value => return value
  | .error b => throw (.breach b)

/-- The guest register that an operand names. -/
def registerOperand (x : Except Breach UInt32) : Lower β GuestIndex :=
  guestOperand <$> checked x

/-- A label that was not used before. -/
def freshLabel : Lower β Nat :=
  modifyGet fun t => (t.labels, { t with labels := t.labels + 1 })

/-- The address of the instruction being lowered. -/
def currentPc : Lower β UInt32 := do
  return (← get).pc

/-- The address of the instruction after the one being lowered. -/
def followingPc : Lower β UInt32 := do
  return (← get).pc + 4

/-- Runs an operation on the register cache and adds what it emits. -/
def allocating {α : Type} (x : Allocate α) : Lower β α := do
  let (result, a) := x.run.run ⟨(← get).registers, [], []⟩
  modify fun t => { t with
    registers := a.cache
    code := t.code ++ a.code.map Item.instruction
    events := t.events ++ a.events }
  match result with
  | .ok value => return value
  | .error f => throw f

/-- Changes the register cache. -/
def updateRegisters (f : RegisterCache → RegisterCache) : Lower β Unit :=
  modify fun t => { t with registers := f t.registers }

/-- The constant that a guest register is known to hold. -/
def immediate? (reg : GuestIndex) : Lower β (Option UInt32) := do
  return (← get).registers.immediate? reg

/-- Brings a guest register into a host register. -/
def map (reg : GuestIndex) (access : Access) : Lower β HostRegister :=
  allocating (RegisterCache.map reg access)

/-- Records a constant. -/
def setImmediate (reg : GuestIndex) (value : UInt32) : Lower β Unit :=
  updateRegisters (·.setImmediate reg value)

/-- Stores all guest registers. -/
def flushAll : Lower β Unit :=
  allocating RegisterCache.flushAll

/-- No more instructions are added to the block. -/
def close : Lower β Unit :=
  modify fun t => { t with isOpen := false }

/-- Runs a step and hands on its outcome instead of failing. -/
def attempt {α : Type} (x : Lower β α) : Lower β (Except Failure α) := fun s =>
  ExceptT.mk do
    let outcome ← (x.run s).run
    return .ok outcome

/-! ## Reading instructions -/

section Fetch

variable [Bus β]

/-- The word at a guest address. -/
def fetch (pc : UInt32) : Lower β UInt32 := do
  let result ← modifyGet fun t =>
    let (result, bus) := Bus.read .word pc t.bus
    (result, { t with bus := bus })
  match result with
  | .ok word => return word
  | .error cause =>
    report (.fetchFailed pc cause)
    throw (.compile (.fetch pc cause))

/-- The instruction at a guest address. -/
def decode (pc : UInt32) : Lower β Instruction := do
  let word ← fetch pc
  match Instruction.decode? word with
  | some i => return i
  | none =>
    report (.invalidInstruction word pc)
    throw (.compile (.invalidInstruction pc word))

end Fetch

/-! ## Entry and exits -/

/-- The entry of a block: leaves at once if the budget is spent, and then marks the entry for blocks
that have checked it already. -/
def writeEntry (start : UInt32) : Lower β Unit := do
  let stubs := (← read).stubs
  let normal ← freshLabel
  emit (Sequence.compareState (Slot.offset Slot.downcount) 0)
  append [.jumpIf .greaterEqual normal]
  emit (Sequence.storeStateImmediate (Slot.offset Slot.pc) start)
  append [.jumpTo stubs.outerLoop, .bind normal, .entry]

/-- Leaves for a known guest address, charging `amount` cycles. -/
def writeExitCharging (target amount : UInt32) : Lower β Unit := do
  let s ← read
  let link := if s.options.enableBlockLink then s.entryAt target else none
  emit (Sequence.subtractState (Slot.offset Slot.downcount) amount)
  emit (Sequence.storeStateImmediate (Slot.offset Slot.pc) target)
  append [.jumpIfTo .less s.stubs.outerLoop,
    .leave target (link.getD (.offset s.stubs.dispatcher)) link.isSome]

/-- Leaves for a known guest address, charging the cycles so far. -/
def writeExit (target : UInt32) : Lower β Unit := do
  writeExitCharging target (← get).cycles

/-- Leaves for the guest address in a host register, by way of the dispatcher. -/
def writeRegisterExit (target : HostRegister) : Lower β Unit := do
  emit (Sequence.subtractState (Slot.offset Slot.downcount) (← get).cycles)
  emit (Sequence.storeState (Slot.offset Slot.pc) target)
  append [.jumpTo (← read).stubs.dispatcher]

/-- Leaves for the guest address that is already in the guest state, unless the core state tells the
host to stop. -/
def writeCheckedExit : Lower β Unit := do
  emit (Sequence.subtractState (Slot.offset Slot.downcount) (← get).cycles)
  append [.jumpTo (← read).stubs.dispatcherCheckCoreState]

/-- Ends the block at the current instruction, which generated code refuses to run. -/
def hardFault : Lower β Unit := do
  flushAll
  emit (Sequence.storeStateImmediate (Slot.offset Slot.pc) (← currentPc))
  append [.jumpTo (← read).stubs.hardFault]
  modify fun t => { t with isOpen := false, cancelled := true }

/-! ## The interpreter -/

/-- Stores everything, writes the program counter and has the instruction interpreted. -/
def interpretCall (i : Instruction) (pc : UInt32) : Lower β Unit := do
  if i.mnemonic.isInterpreted then
    flushAll
    emit (Sequence.storeStateImmediate (Slot.offset Slot.pc) pc)
    emitChecked (Sequence.call Helper.interpret.address
      [.context, .immediate i.word, .pointer i.mnemonic.routineAddress])
  else
    let pc ← currentPc
    report (.noRoutine i pc)
    throw (.compile (.noFallback pc i.word))

end Lower

end Recompiler
