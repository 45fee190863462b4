import Recompiler.Block.Arithmetic
import Recompiler.Block.MemoryAccess

/-!
# Lowering branches and jumps

Every transfer of control ends its block, after the instruction in its delay slot.

A condition is tested on the registers before the delay slot and before the return address is
written. If the delay slot changes what is tested, the outcome is kept in a scratch word of the
guest state while it runs. A branch whose operands are known constants is decided during
lowering.

* `Lower.straight`: instructions that do not end a block.
* `Lower.delaySlot`: the instruction after a branch.
* `Lower.branch`, `Lower.jump`, `Lower.registerJump`: the transfers of control.
* `Lower.instruction`: any instruction.
-/

namespace Recompiler

/-- A condition on guest registers: `rs` compared with `rt`, or with zero. -/
structure Test where
  /-- The condition. -/
  condition : Condition
  /-- The left hand side. -/
  rs : GuestIndex
  /-- The right hand side. -/
  rt : Option GuestIndex
  deriving DecidableEq, Repr

/-- The condition of a branch, and whether it compares two registers. -/
def Condition.ofBranch? : Mnemonic → Option (Condition × Bool)
  | .beq | .beql => some (equal, true)
  | .bne | .bnel => some (notEqual, true)
  | .blez | .blezl => some (lessEqual, false)
  | .bgtz | .bgtzl => some (greater, false)
  | .bltz | .bltzl | .bltzal | .bltzall => some (less, false)
  | .bgez | .bgezl | .bgezal | .bgezall => some (greaterEqual, false)
  | _ => none

namespace Test

/-- The test reads a guest register. -/
def reads (t : Test) (reg : GuestIndex) : Bool :=
  reg = t.rs || t.rt == some reg

end Test

namespace Lower

variable {β : Type}

/-! ## Instructions that do not end a block -/

/-- Lowers an instruction that does not end a block. -/
def straight (i : Instruction) : Lower β Unit := do
  let m := i.mnemonic
  if let some (op, signed) := BinaryOp.ofImmediate? m then immediateArithmetic i op signed
  else if let some op := BinaryOp.ofRegister? m then registerArithmetic i op
  else if let some op := MemoryOp.ofMnemonic? m then memoryAccess i op
  else match m with
    | .lui => loadUpper i
    | .sll | .srl | .sra => constantShift i ((ShiftOp.ofMnemonic? m).getD .left)
    | .sllv | .srlv | .srav => variableShift i ((ShiftOp.ofMnemonic? m).getD .left)
    | .mult => product i true
    | .multu => product i false
    | .mfhi => moveFrom i Slot.hi
    | .mflo => moveFrom i Slot.lo
    | .mthi => moveTo i Slot.hi
    | .mtlo => moveTo i Slot.lo
    | .lwl | .lwr | .swl | .swr =>
      report (.refused i (← currentPc))
      hardFault
    | _ => interpretCall i (← currentPc)

variable [Bus β]

/-- Reads the instruction at the current address and lowers it as `body` says. -/
def instructionWith (body : Instruction → Lower β Unit) : Lower β Unit := do
  let pc ← currentPc
  updateRegisters fun c => { c with pc := pc }
  let i ← decode pc
  report (.instruction pc i)
  modify fun t => { t with
    cycles := t.cycles + i.mnemonic.cycles
    instructions := t.instructions + 1 }
  body i
  updateRegisters (·.release)

/-- Lowers the instruction in the delay slot of the branch at the current address, which stays
the current address. An instruction that ends a block is refused there. -/
def delaySlot : Lower β Unit := do
  let pc ← currentPc
  modify fun t => { t with pc := pc + 4 }
  let outcome ← attempt <| instructionWith fun i => do
    if i.mnemonic.endsBlock then
      report (.undefinedDelaySlot i (← currentPc))
      hardFault
    else straight i
  modify fun t => { t with pc := pc, registers := { t.registers with pc := pc } }
  match outcome with
  | .ok () => return
  | .error f => throw f

/-- Lowers the delay slot and what comes after it, which is left out if the delay slot was
refused. -/
def afterDelaySlot (rest : Lower β Unit) : Lower β Unit := do
  delaySlot
  if !(← get).cancelled then rest

/-! ## Conditional branches -/

/-- Compares the operands of a test. -/
def writeCompare (t : Test) : Lower β Unit := do
  updateRegisters (·.lock t.rs)
  if let some rt := t.rt then updateRegisters (·.lock rt)
  let lhs ← map t.rs .read
  let rhs ← match t.rt with
    | none => pure (.immediate 0)
    | some rt =>
      match ← immediate? rt with
      | some value => pure (Source.immediate value)
      | none => Source.register <$> map rt .read
  emit (Sequence.compare lhs rhs)

/-- Leaves for `target`, or for `next` if the condition `skip` holds of the last comparison. -/
def writeBranchExits (skip : Condition) (target next : UInt32) : Lower β Unit := do
  let notTaken ← freshLabel
  append [.jumpIf skip notTaken]
  writeExit target
  append [.bind notTaken]
  writeExit next

/-- A branch whose outcome is known. -/
def decidedBranch (taken likely links : Bool) (target next : UInt32) : Lower β Unit := do
  report (.decidedBranch (← currentPc) taken)
  if links then setImmediate linkRegister next
  let leave : Lower β Unit := do
    flushAll
    writeExit (if taken then target else next)
  if taken || !likely then afterDelaySlot leave else leave

/-- A branch whose delay slot runs only if it is taken. The way around the delay slot is not charged
for it, and exists even if the delay slot cannot be lowered. -/
def likelyBranch (t : Test) (links : Bool) (target next : UInt32) : Lower β Unit := do
  writeCompare t
  flushAll
  if links then emit (Sequence.storeStateImmediate (guestOffset linkRegister) next)
  let notTaken ← freshLabel
  append [.jumpIf t.condition.invert notTaken]
  let { cycles, registers, .. } ← get
  let outcome ← attempt delaySlot
  if outcome matches .ok () then
    if !(← get).cancelled then
      flushAll
      writeExit target
  updateRegisters fun _ => registers
  append [.bind notTaken]
  writeExitCharging next cycles
  match outcome with
  | .ok () => return
  | .error f => throw f

/-- A branch whose delay slot changes an operand of its test: the outcome is kept while the delay
slot runs. -/
def savedBranch (t : Test) (links : Bool) (target next : UInt32) : Lower β Unit := do
  writeCompare t
  emit (Sequence.storeCondition t.condition (Slot.offset Slot.branchTemp))
  updateRegisters (·.release)
  if links then setImmediate linkRegister next
  afterDelaySlot do
    flushAll
    emit (Sequence.compareState (Slot.offset Slot.branchTemp) 0)
    writeBranchExits .equal target next

/-- A branch that is tested after its delay slot, which changes no operand. -/
def lateBranch (t : Test) (links : Bool) (target next : UInt32) : Lower β Unit := do
  if links then setImmediate linkRegister next
  afterDelaySlot do
    writeCompare t
    flushAll
    writeBranchExits t.condition.invert target next

/-- A conditional branch. -/
def branch (i : Instruction) (t : Test) (target : UInt32) : Lower β Unit := do
  let pc ← currentPc
  let next := pc + 8
  let links := i.mnemonic.links
  close
  let lhs ← immediate? t.rs
  let rhs ← match t.rt with
    | none => pure (some 0)
    | some rt => immediate? rt
  match lhs, rhs with
  | some lhs, some rhs =>
    decidedBranch (t.condition.holds lhs rhs) i.mnemonic.discardsDelaySlot links target next
  | _, _ =>
    if i.mnemonic.discardsDelaySlot then likelyBranch t links target next
    else
      let slot ← decode (pc + 4)
      let clobbered := slot.outputRegister?.any fun reg => t.reads (guestOperand reg)
      if clobbered || (links && t.reads linkRegister) then savedBranch t links target next
      else lateBranch t links target next

/-! ## Jumps -/

/-- A jump to a known address. -/
def jump (links : Bool) (target : UInt32) : Lower β Unit := do
  let pc ← currentPc
  close
  if links then setImmediate linkRegister (pc + 8)
  afterDelaySlot do
    flushAll
    writeExit target

/-- A jump to the address in `rs`, with the return address in `rd`. -/
def registerJump (rs rd : GuestIndex) : Lower β Unit := do
  let pc ← currentPc
  let next := pc + 8
  close
  match ← immediate? rs with
  | some target =>
    setImmediate rd next
    afterDelaySlot do
      flushAll
      writeExit target
  | none =>
    let slot ← decode (pc + 4)
    let clobbered := slot.outputRegister?.any fun reg => guestOperand reg = rs
    if clobbered || (rd ≠ zeroRegister && rd = rs) then
      let src ← map rs .read
      emit (Sequence.storeState (Slot.offset Slot.branchTemp) src)
      setImmediate rd next
      afterDelaySlot do
        flushAll
        emit (Sequence.loadState .scratch (Slot.offset Slot.branchTemp))
        writeRegisterExit .scratch
    else
      setImmediate rd next
      afterDelaySlot do
        let src ← map rs .read
        flushAll
        writeRegisterExit src

/-! ## System calls and traps -/

/-- A system call. The handler sees the address of the following instruction, where execution goes
on. -/
def systemCall (i : Instruction) : Lower β Unit := do
  interpretCall i (← followingPc)
  writeCheckedExit
  close

/-- A trap, which halts the guest. -/
def trap : Lower β Unit := do
  let next ← followingPc
  flushAll
  emit (Sequence.storeStateImmediate (Slot.offset Slot.coreState) CoreState.halted.toWord)
  emit (Sequence.storeStateImmediate (Slot.offset Slot.pc) next)
  writeCheckedExit
  close

/-- Lowers the instruction at the current address. -/
def instruction : Lower β Unit :=
  instructionWith fun i => do
    let target := (i.staticTarget? (← currentPc)).getD 0
    match i.mnemonic with
    | .syscall => systemCall i
    | .breakpoint => trap
    | .j => jump false target
    | .jal => jump true target
    | .jr => registerJump (← registerOperand i.rs) zeroRegister
    | .jalr => registerJump (← registerOperand i.rs) (← registerOperand i.rd)
    | m =>
      match Condition.ofBranch? m with
      | some (c, true) =>
        branch i ⟨c, ← registerOperand i.rs, some (← registerOperand i.rt)⟩ target
      | some (c, false) => branch i ⟨c, ← registerOperand i.rs, none⟩ target
      | none => straight i

end Lower

end Recompiler
