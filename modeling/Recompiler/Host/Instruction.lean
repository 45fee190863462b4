import Recompiler.Host.Operation
import Recompiler.Host.Register

/-!
# Host instructions

The x86-64 instructions that generated code is made of, and their machine code.

* `HostInstruction`: the instructions.
* `HostInstruction.pieces`: the machine code, in the pieces in which it is handed to a code buffer.
  A buffer takes a piece whole or not at all.
* `HostInstruction.encode`: the machine code as one run of bytes.
-/

namespace Recompiler

/-- A host memory operand: a base register, perhaps an index register, and a displacement that is
widened with its sign. -/
structure HostAddress where
  /-- The base register. -/
  base : HostRegister
  /-- The index register, added as it stands. -/
  index : Option HostRegister
  /-- The displacement. -/
  displacement : UInt32
  deriving DecidableEq, Repr

/-- What an instruction operates on. -/
inductive Place where
  | register (r : HostRegister)
  | memory (a : HostAddress)
  deriving DecidableEq, Repr

/-- The width of a host operand. -/
inductive OperandSize where
  | byte | half | word | wide
  deriving DecidableEq, Repr

/-- The operand size of a guest access. -/
def Width.operandSize : Width → OperandSize
  | .byte => .byte
  | .half => .half
  | .word => .word

/-- The two operand instructions that share one group of encodings. -/
inductive GroupOp where
  | add | or | and | sub | xor | compare
  deriving DecidableEq, Repr

namespace GroupOp

/-- The number of the operation within its group. -/
def digit : GroupOp → UInt8
  | add => 0
  | or => 1
  | and => 4
  | sub => 5
  | xor => 6
  | compare => 7

/-- Every operation of the group. -/
def all : List GroupOp := [add, or, and, sub, xor, compare]

/-- The instruction that does the work of an arithmetic operation, a final complement apart. -/
def ofAlu : AluOp → GroupOp
  | .add => add
  | .sub => sub
  | .and => and
  | .or | .nor => or
  | .xor => xor

end GroupOp

/-- The number of a shift within its group. -/
def ShiftOp.digit : ShiftOp → UInt8
  | left => 4
  | right => 5
  | signedRight => 7

/-- The four bits that stand for a condition. -/
def Condition.code : Condition → UInt8
  | below => 0x2
  | aboveEqual => 0x3
  | equal => 0x4
  | notEqual => 0x5
  | belowEqual => 0x6
  | above => 0x7
  | less => 0xC
  | greaterEqual => 0xD
  | lessEqual => 0xE
  | greater => 0xF

/-- An instruction of generated code. Unless said otherwise operands are 32 bits wide, and writing a
register clears its upper half. -/
inductive HostInstruction where
  | move (dst src : HostRegister)
  /-- Copies all 64 bits. -/
  | moveWide (dst src : HostRegister)
  | moveImmediate (dst : HostRegister) (value : UInt32)
  /-- Loads a 64-bit constant. -/
  | movePointer (dst : HostRegister) (value : UInt64)
  /-- Loads from memory, widening to 32 bits. -/
  | load (kind : LoadKind) (dst : HostRegister) (src : HostAddress)
  | store (width : Width) (dst : HostAddress) (src : HostRegister)
  | storeImmediate (dst : HostAddress) (value : UInt32)
  /-- `dst op= src`, or a comparison, which writes the flags only. -/
  | group (op : GroupOp) (dst src : HostRegister)
  | groupImmediate (op : GroupOp) (dst : Place) (value : UInt32)
  /-- `dst = -dst`. -/
  | negate (dst : HostRegister)
  /-- Inverts every bit. -/
  | complement (dst : HostRegister)
  | shift (op : ShiftOp) (dst : HostRegister) (amount : UInt8)
  /-- Shifts by the low byte of `rcx`. -/
  | shiftByCount (op : ShiftOp) (dst : HostRegister)
  /-- `edx:eax = eax * factor`. -/
  | multiply (signed : Bool) (factor : HostRegister)
  /-- Sets the low byte of `rax` to 1 or 0. -/
  | setLow (c : Condition)
  /-- Copies the low byte of `rax`, widened with zeros. -/
  | widenLow (dst : HostRegister)
  /-- `dst` = the low half of the address itself. -/
  | loadAddress (dst : HostRegister) (src : HostAddress)
  | call (target : HostRegister)
  | jumpRegister (target : HostRegister)
  | push (src : HostRegister)
  | pop (dst : HostRegister)
  /-- Moves the stack pointer down. -/
  | growStack (bytes : UInt8)
  /-- Moves the stack pointer up. -/
  | shrinkStack (bytes : UInt8)
  | ret
  /-- Jumps by a distance from the end of the instruction. -/
  | jump (distance : UInt32)
  | jumpIf (c : Condition) (distance : UInt32)
  /-- Filler that must not be reached. -/
  | trap
  | nop
  deriving DecidableEq, Repr

namespace HostInstruction

/-! ## Parts of an encoding -/

/-- The byte that selects 64-bit operands and the upper eight registers. -/
def rex (wide reg index base : Bool) : UInt8 :=
  0x40 + (if wide then 8 else 0) + (if reg then 4 else 0) + (if index then 2 else 0)
    + (if base then 1 else 0)

/-- A byte with a two bit and two three bit fields. -/
def packed (high middle low : UInt8) : UInt8 :=
  (high <<< 6) ||| ((middle &&& 7) <<< 3) ||| (low &&& 7)

/-- The register is one of the upper eight. -/
def upper (r : UInt8) : Bool :=
  8 ≤ r

/-- The low byte of the register can be named only with a register selection byte in front. -/
def needsRex (size : OperandSize) (r : UInt8) : Bool :=
  size == .byte && 4 ≤ r && r < 8

/-- How many bytes of a displacement are written. A base of `rbp` or `r13` always takes some,
because the form without stands for something else. -/
def displacementMode (a : HostAddress) : UInt8 :=
  if a.displacement = 0 ∧ a.base.number &&& 7 ≠ 5 then 0
  else if Word.fitsByte a.displacement then 1
  else 2

/-- The written bytes of a displacement. -/
def displacementBytes (a : HostAddress) : List UInt8 :=
  if displacementMode a = 0 then []
  else if displacementMode a = 1 then [a.displacement.toUInt8]
  else Word.bytes a.displacement

/-- The operand bytes of an instruction that names the register or digit `reg` and a place. -/
def operandBytes (reg : UInt8) : Place → List UInt8
  | .register r => [packed 3 reg r.number]
  | .memory a =>
    match a.index with
    | some index =>
      packed (displacementMode a) reg 4 :: packed 0 index.number a.base.number
        :: displacementBytes a
    | none =>
      if a.base.number &&& 7 = 4 then
        packed (displacementMode a) reg 4 :: packed 0 4 a.base.number :: displacementBytes a
      else packed (displacementMode a) reg a.base.number :: displacementBytes a

/-- The register selection byte, if one is needed. -/
def selection (size : OperandSize) (reg : UInt8) (p : Place) : List UInt8 :=
  let byte :=
    match p with
    | .register r => rex (size == .wide) (upper reg) false (upper r.number)
    | .memory a =>
      rex (size == .wide) (upper reg) (a.index.any (upper ·.number)) (upper a.base.number)
  let forced :=
    needsRex size reg ||
      match p with
      | .register r => needsRex size r.number
      | .memory _ => false
  if forced || byte != 0x40 then [byte] else []

/-- The machine code of an instruction up to its constant operand. -/
def coded (size : OperandSize) (opcode : List UInt8) (reg : UInt8) (p : Place) : List UInt8 :=
  (if size = .half then [0x66] else []) ++ selection size reg p ++ opcode ++ operandBytes reg p

/-- The opcode of a load. -/
def loadOpcode : LoadKind → List UInt8
  | .u8 => [0x0F, 0xB6]
  | .s8 => [0x0F, 0xBE]
  | .u16 => [0x0F, 0xB7]
  | .s16 => [0x0F, 0xBF]
  | .u32 => [0x8B]

/-- The opcode of a store. -/
def storeOpcode : Width → UInt8
  | .byte => 0x88
  | .half | .word => 0x89

/-- A one byte opcode that holds the number of a register. -/
def short (opcode : UInt8) (r : HostRegister) : List UInt8 :=
  if upper r.number then [0x41, opcode + (r.number &&& 7)] else [opcode + r.number]

/-! ## Machine code -/

/-- The machine code of an instruction in the pieces in which it is written. -/
def pieces : HostInstruction → List (List UInt8)
  | move dst src => [coded .word [0x89] src.number (.register dst)]
  | moveWide dst src => [coded .wide [0x89] src.number (.register dst)]
  | moveImmediate dst value =>
    (if upper dst.number then [[0x41]] else []) ++
      [[0xB8 + (dst.number &&& 7)], Word.bytes value]
  | movePointer dst value =>
    [[rex true false false (upper dst.number), 0xB8 + (dst.number &&& 7)], Word.bytes64 value]
  | load kind dst src => [coded .word (loadOpcode kind) dst.number (.memory src)]
  | store width dst src =>
    [coded width.operandSize [storeOpcode width] src.number (.memory dst)]
  | storeImmediate dst value => [coded .word [0xC7] 0 (.memory dst) ++ Word.bytes value]
  | group op dst src => [coded .word [8 * op.digit + 1] src.number (.register dst)]
  | groupImmediate op dst value =>
    if Word.fitsByte value then [coded .word [0x83] op.digit dst ++ [value.toUInt8]]
    else [coded .word [0x81] op.digit dst ++ Word.bytes value]
  | negate dst => [coded .word [0xF7] 3 (.register dst)]
  | complement dst => [coded .word [0xF7] 2 (.register dst)]
  | shift op dst amount => [coded .word [0xC1] op.digit (.register dst) ++ [amount]]
  | shiftByCount op dst => [coded .word [0xD3] op.digit (.register dst)]
  | multiply signed factor => [coded .word [0xF7] (if signed then 5 else 4) (.register factor)]
  | setLow c => [coded .byte [0x0F, 0x90 ||| c.code] 0 (.register .rax)]
  | widenLow dst => [coded .word [0x0F, 0xB6] dst.number (.register .rax)]
  | loadAddress dst src => [coded .word [0x8D] dst.number (.memory src)]
  | call target => [coded .word [0xFF] 2 (.register target)]
  | jumpRegister target => [coded .word [0xFF] 4 (.register target)]
  | push src => [short 0x50 src]
  | pop dst => [short 0x58 dst]
  | growStack bytes => [[0x48, 0x83, 0xEC, bytes]]
  | shrinkStack bytes => [[0x48, 0x83, 0xC4, bytes]]
  | ret => [[0xC3]]
  | jump distance => [[0xE9], Word.bytes distance]
  | jumpIf c distance => [[0x0F, 0x80 ||| c.code], Word.bytes distance]
  | trap => [[0xCC]]
  | nop => [[0x90]]

/-- The machine code of an instruction. -/
def encode (i : HostInstruction) : List UInt8 :=
  i.pieces.flatten

end HostInstruction

end Recompiler
