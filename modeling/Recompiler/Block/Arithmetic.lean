import Recompiler.Block.Lowering

/-!
# Lowering arithmetic

Arithmetic, logic, comparisons, shifts, products and moves of HI and LO. An instruction whose
operands are all known constants is carried out during lowering and emits nothing. HI and LO
always live in the guest state.

* `BinaryOp.fold`: the value of a two operand instruction.
* `Lower.immediateArithmetic`, `Lower.registerArithmetic`, `Lower.constantShift`,
  `Lower.variableShift`, `Lower.product`, `Lower.moveFrom`, `Lower.moveTo`: one kind of instruction
  each.
-/

namespace Recompiler

/-- How an instruction combines its two operands. -/
inductive BinaryOp where
  | alu (op : AluOp)
  /-- One if the condition holds, zero if not. -/
  | set (c : Condition)
  deriving DecidableEq, Repr

namespace BinaryOp

/-- The value of the operation. -/
def fold (op : BinaryOp) (lhs rhs : UInt32) : UInt32 :=
  match op with
  | alu op => op.fold lhs rhs
  | set c => bit (c.holds lhs rhs)

/-- The instructions for the operation. -/
def sequence (op : BinaryOp) (dst lhs : HostRegister) (rhs : Source) : List HostInstruction :=
  match op with
  | alu op => Sequence.alu op dst lhs rhs
  | set c => Sequence.setCondition c dst lhs rhs

/-- The operands may be exchanged by the compiler. -/
def isCommutative : BinaryOp → Bool
  | alu op => op.isCommutative
  | set _ => false

/-- The operation of a register instruction. -/
def ofRegister? : Mnemonic → Option BinaryOp
  | .add | .addu => some (alu .add)
  | .sub | .subu => some (alu .sub)
  | .and => some (alu .and)
  | .or => some (alu .or)
  | .xor => some (alu .xor)
  | .nor => some (alu .nor)
  | .slt => some (set .less)
  | .sltu => some (set .below)
  | _ => none

/-- The operation of an immediate instruction, and whether the immediate carries a sign. -/
def ofImmediate? : Mnemonic → Option (BinaryOp × Bool)
  | .addi | .addiu => some (alu .add, true)
  | .slti => some (set .less, true)
  | .sltiu => some (set .below, true)
  | .andi => some (alu .and, false)
  | .ori => some (alu .or, false)
  | .xori => some (alu .xor, false)
  | _ => none

end BinaryOp

/-- The shift that an instruction does, by a constant or by a register. -/
def ShiftOp.ofMnemonic? : Mnemonic → Option ShiftOp
  | .sll | .sllv => some left
  | .srl | .srlv => some right
  | .sra | .srav => some signedRight
  | _ => none

namespace Lower

variable {β : Type} (i : Instruction)

/-- An operation on a register and an immediate. -/
def immediateArithmetic (op : BinaryOp) (signed : Bool) : Lower β Unit := do
  let rt ← registerOperand i.rt
  let rs ← registerOperand i.rs
  if rt = zeroRegister then return
  let imm ← checked (if signed then i.signedImmediate else i.immediate)
  match ← immediate? rs with
  | some value => setImmediate rt (op.fold value imm)
  | none =>
    let (dst, src) ← allocating (RegisterCache.mapTarget rt rs)
    emit (op.sequence dst src (.immediate imm))

/-- A constant for the upper half of a register. -/
def loadUpper : Lower β Unit := do
  let rt ← registerOperand i.rt
  if rt ≠ zeroRegister then setImmediate rt ((← checked i.immediate) <<< 16)

/-- An operation on two registers. -/
def registerArithmetic (op : BinaryOp) : Lower β Unit := do
  let rd ← registerOperand i.rd
  let rs ← registerOperand i.rs
  let rt ← registerOperand i.rt
  if rd = zeroRegister then return
  match ← immediate? rs, ← immediate? rt with
  | some lhs, some rhs => setImmediate rd (op.fold lhs rhs)
  | none, some rhs =>
    let (dst, lhs) ← allocating (RegisterCache.mapTarget rd rs)
    emit (op.sequence dst lhs (.immediate rhs))
  | lhs?, none =>
    match lhs?.filter fun _ => op.isCommutative with
    | some lhs =>
      let (dst, rhs) ← allocating (RegisterCache.mapTarget rd rt)
      emit (op.sequence dst rhs (.immediate lhs))
    | none =>
      let (dst, lhs, rhs) ← allocating (RegisterCache.mapTargetSources rd rs rt)
      emit (op.sequence dst lhs (.register rhs))

/-- A shift by a constant. -/
def constantShift (op : ShiftOp) : Lower β Unit := do
  let rd ← registerOperand i.rd
  let rt ← registerOperand i.rt
  let amount ← checked i.shiftAmount
  if rd = zeroRegister then return
  match ← immediate? rt with
  | some value => setImmediate rd (op.fold value amount)
  | none =>
    let (dst, src) ← allocating (RegisterCache.mapTarget rd rt)
    emit (Sequence.shift op dst src (.immediate amount))

/-- A shift by the low five bits of a register. -/
def variableShift (op : ShiftOp) : Lower β Unit := do
  let rd ← registerOperand i.rd
  let rs ← registerOperand i.rs
  let rt ← registerOperand i.rt
  if rd = zeroRegister then return
  match ← immediate? rt, ← immediate? rs with
  | some value, some amount => setImmediate rd (op.fold value amount)
  | none, some amount =>
    let (dst, src) ← allocating (RegisterCache.mapTarget rd rt)
    emit (Sequence.shift op dst src (.immediate (amount &&& 31)))
  | _, none =>
    let (dst, value, amount) ← allocating (RegisterCache.mapTargetSources rd rt rs)
    emit (Sequence.shift op dst value (.register amount))

/-- A product, stored in HI and LO. -/
def product (signed : Bool) : Lower β Unit := do
  let rs ← registerOperand i.rs
  let rt ← registerOperand i.rt
  let (lhs, rhs) ← allocating (RegisterCache.mapSources rs rt)
  emit (Sequence.multiply signed lhs rhs (Slot.offset Slot.hi) (Slot.offset Slot.lo))

/-- Reads HI or LO into a register. -/
def moveFrom (slot : Nat) : Lower β Unit := do
  let rd ← registerOperand i.rd
  if rd ≠ zeroRegister then
    let dst ← map rd .write
    emit (Sequence.loadState dst (Slot.offset slot))

/-- Writes a register to HI or LO. -/
def moveTo (slot : Nat) : Lower β Unit := do
  let rs ← registerOperand i.rs
  match ← immediate? rs with
  | some value => emit (Sequence.storeStateImmediate (Slot.offset slot) value)
  | none =>
    let src ← map rs .read
    emit (Sequence.storeState (Slot.offset slot) src)

end Lower

end Recompiler
