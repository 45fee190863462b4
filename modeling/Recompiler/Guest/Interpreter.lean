import Recompiler.Guest.Environment

/-!
# Interpreting single instructions

The effect of each guest instruction that does not transfer control. Branches and jumps have none
here, and the four unaligned word accesses are left out: they are refused wherever they occur.
Arithmetic never traps, so `add` does what `addu` does.

* `Mnemonic.isInterpreted`: the instructions with an effect here.
* `Instruction.interpreted?`: the interpreted instruction that a word encodes.
* `Instruction.interpret`: its effect.
-/

namespace Recompiler

/-- The instruction can be interpreted on its own. -/
def Mnemonic.isInterpreted (m : Mnemonic) : Bool :=
  match m with
  | .lwl | .lwr | .swl | .swr => false
  | _ => !m.hasDelaySlot

namespace Instruction

/-- The interpreted instruction that a word encodes. -/
def interpreted? (word : UInt32) : Option Instruction :=
  (decode? word).filter (·.mnemonic.isInterpreted)

/-- An operand as a number. Instructions are interpreted only with the operands they have; any
other counts as zero. -/
def value (i : Instruction) (op : Operand) : UInt32 :=
  (i.get? op).getD 0

/-- The number of the register that an operand names. -/
def registerOf (i : Instruction) (op : Operand) : Nat :=
  (i.value op).toNat

variable {β : Type} (i : Instruction) (e : Environment β)

/-- Writes the destination register with a function of the source and target registers. -/
def withRegisters (f : (rs rt : UInt32) → UInt32) : Environment β :=
  e.setRegister (i.registerOf .destination)
    (f (e.register (i.registerOf .source)) (e.register (i.registerOf .target)))

/-- Writes the target register with a function of the source register and the immediate field. -/
def withImmediate (f : (rs imm : UInt32) → UInt32) : Environment β :=
  e.setRegister (i.registerOf .target)
    (f (e.register (i.registerOf .source)) (i.value .immediate))

/-- Writes the destination register with a function of the target register and the shift
amount. -/
def withAmount (f : (rt amount : UInt32) → UInt32) : Environment β :=
  e.setRegister (i.registerOf .destination)
    (f (e.register (i.registerOf .target)) (i.value .immediate))

/-- Writes HI and LO with a function of the source and target registers. -/
def withHiLo (f : (rs rt : UInt32) → UInt32 × UInt32) : Environment β :=
  let (hi, lo) := f (e.register (i.registerOf .source)) (e.register (i.registerOf .target))
  (e.setWord Slot.hi hi).setWord Slot.lo lo

/-- The address of a memory access. -/
def effectiveAddress : UInt32 :=
  e.register (i.registerOf .base) + Word.signExtend16 (i.value .offset)

variable [Bus β]

/-- Loads the target register. -/
def loadTarget (kind : LoadKind) : Environment β :=
  let (value, e) := e.load kind (i.effectiveAddress e)
  e.setRegister (i.registerOf .target) value

/-- Stores the target register. -/
def storeTarget (width : Width) : Environment β :=
  e.write width (i.effectiveAddress e) (e.register (i.registerOf .target))

end Instruction

/-! ## Arithmetic -/

/-- The words of the signed product. -/
def signedProduct (a b : UInt32) : UInt32 × UInt32 :=
  let product := (a.toInt32.toInt64 * b.toInt32.toInt64).toUInt64
  ((product >>> 32).toUInt32, product.toUInt32)

/-- The words of the unsigned product. -/
def unsignedProduct (a b : UInt32) : UInt32 × UInt32 :=
  let product := a.toUInt64 * b.toUInt64
  ((product >>> 32).toUInt32, product.toUInt32)

/-- The remainder and the quotient, rounded toward zero. Division by zero leaves the dividend as the
remainder and a quotient of all ones, or of one if the dividend is negative. -/
def signedQuotient (a b : UInt32) : UInt32 × UInt32 :=
  if b = 0 then (a, if Word.lessSigned a 0 then 1 else 0xFFFFFFFF)
  else ((a.toInt32 % b.toInt32).toUInt32, (a.toInt32 / b.toInt32).toUInt32)

/-- The remainder and the quotient. Division by zero leaves the dividend as the remainder and a
quotient of all ones. -/
def unsignedQuotient (a b : UInt32) : UInt32 × UInt32 :=
  if b = 0 then (a, 0xFFFFFFFF) else (a % b, a / b)

/-- One for true, zero for false. -/
def bit (b : Bool) : UInt32 :=
  if b then 1 else 0

/-- The effect of an instruction that does not transfer control. -/
def Instruction.interpret {β : Type} [Bus β] (i : Instruction) (e : Environment β) :
    Environment β :=
  match i.mnemonic with
  | .add | .addu => i.withRegisters e (· + ·)
  | .sub | .subu => i.withRegisters e (· - ·)
  | .and => i.withRegisters e (· &&& ·)
  | .or => i.withRegisters e (· ||| ·)
  | .xor => i.withRegisters e (· ^^^ ·)
  | .nor => i.withRegisters e fun rs rt => ~~~(rs ||| rt)
  | .slt => i.withRegisters e fun rs rt => bit (Word.lessSigned rs rt)
  | .sltu => i.withRegisters e fun rs rt => bit (rs < rt)
  | .max => i.withRegisters e fun rs rt => if Word.lessSigned rs rt then rt else rs
  | .min => i.withRegisters e fun rs rt => if Word.lessSigned rt rs then rt else rs
  | .sllv => i.withRegisters e fun rs rt => rt <<< (rs &&& 31)
  | .srlv => i.withRegisters e fun rs rt => rt >>> (rs &&& 31)
  | .srav => i.withRegisters e fun rs rt => Word.shiftRightSigned rt rs
  | .addi | .addiu => i.withImmediate e fun rs imm => rs + Word.signExtend16 imm
  | .slti => i.withImmediate e fun rs imm => bit (Word.lessSigned rs (Word.signExtend16 imm))
  | .sltiu => i.withImmediate e fun rs imm => bit (rs < Word.signExtend16 imm)
  | .andi => i.withImmediate e (· &&& ·)
  | .ori => i.withImmediate e (· ||| ·)
  | .xori => i.withImmediate e (· ^^^ ·)
  | .lui => e.setRegister (i.registerOf .target) (i.value .immediate <<< 16)
  | .clz => i.withRegisters e fun rs _ => Word.leadingZeros rs
  | .clo => i.withRegisters e fun rs _ => Word.leadingZeros (~~~rs)
  | .seb => i.withRegisters e fun _ rt => Word.signExtend8 rt
  | .seh => i.withRegisters e fun _ rt => Word.signExtend16 rt
  | .sll => i.withAmount e (· <<< ·)
  | .srl => i.withAmount e (· >>> ·)
  | .sra => i.withAmount e Word.shiftRightSigned
  | .movz =>
    if e.register (i.registerOf .target) = 0 then i.withRegisters e fun rs _ => rs else e
  | .movn =>
    if e.register (i.registerOf .target) = 0 then e else i.withRegisters e fun rs _ => rs
  | .mult => i.withHiLo e signedProduct
  | .multu => i.withHiLo e unsignedProduct
  | .div => i.withHiLo e signedQuotient
  | .divu => i.withHiLo e unsignedQuotient
  | .mfhi => e.setRegister (i.registerOf .destination) (e.state.get Slot.hi)
  | .mflo => e.setRegister (i.registerOf .destination) (e.state.get Slot.lo)
  | .mthi => e.setWord Slot.hi (e.register (i.registerOf .source))
  | .mtlo => e.setWord Slot.lo (e.register (i.registerOf .source))
  | .lb => i.loadTarget e .s8
  | .lbu => i.loadTarget e .u8
  | .lh => i.loadTarget e .s16
  | .lhu => i.loadTarget e .u16
  | .lw => i.loadTarget e .u32
  | .sb => i.storeTarget e .byte
  | .sh => i.storeTarget e .half
  | .sw => i.storeTarget e .word
  | .syscall => e.syscall (i.value .immediate)
  | .breakpoint => { e with state := e.state.setCoreState .halted }
  | _ => e

end Recompiler
