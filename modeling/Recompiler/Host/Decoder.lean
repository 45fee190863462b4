import Recompiler.Host.Instruction

/-!
# Reading machine code

Reading the instructions of generated code back from their bytes, by the rules of the instruction
format: an operand size byte, a register selection byte, the opcode, the operand bytes and a
constant.

* `HostInstruction.decode?`: the first instruction of a run of bytes, and the bytes after it. There
  is no answer when the bytes are cut short, or hold something that generated code never does.
* `blankPointers`: code without the host addresses in it.
-/

namespace Recompiler

namespace HostInstruction

/-- What stands in front of an opcode. -/
structure Lead where
  /-- Sixteen bit operands. -/
  half : Bool
  /-- Sixty-four bit operands. -/
  wide : Bool
  /-- Four bits of each register number: added to the register or digit operand, -/
  reg : UInt8
  /-- to the index, -/
  index : UInt8
  /-- and to the base, or to a register that takes the place of memory. -/
  base : UInt8
  deriving DecidableEq, Repr

/-- Reads what stands in front of an opcode. -/
def readLead (bytes : List UInt8) : Lead × List UInt8 :=
  let (half, bytes) :=
    match bytes with
    | 0x66 :: rest => (true, rest)
    | _ => (false, bytes)
  match bytes with
  | b :: rest =>
    if b &&& 0xF0 = 0x40 then
      (⟨half, b &&& 8 ≠ 0, (b &&& 4) <<< 1, (b &&& 2) <<< 2, (b &&& 1) <<< 3⟩, rest)
    else (⟨half, false, 0, 0, 0⟩, bytes)
  | [] => (⟨half, false, 0, 0, 0⟩, [])

/-- Reads a 32-bit constant. -/
def readWord : List UInt8 → Option (UInt32 × List UInt8)
  | a :: b :: c :: d :: rest => some (Word.ofBytes [a, b, c, d], rest)
  | _ => none

/-- Reads a 64-bit constant. -/
def readDoubleWord : List UInt8 → Option (UInt64 × List UInt8)
  | a :: b :: c :: d :: e :: f :: g :: h :: rest =>
    some (Word.ofBytes64 [a, b, c, d, e, f, g, h], rest)
  | _ => none

/-- Reads an eight bit constant, widened with its sign. -/
def readByte : List UInt8 → Option (UInt32 × List UInt8)
  | b :: rest => some (Word.signExtend8 b.toUInt32, rest)
  | [] => none

/-- Reads a displacement. -/
def readDisplacement (mode : UInt8) (bytes : List UInt8) : Option (UInt32 × List UInt8) :=
  if mode = 0 then some (0, bytes)
  else if mode = 1 then readByte bytes
  else readWord bytes

/-- Reads the operand bytes: a register or digit, and a place. -/
def readOperands (lead : Lead) : List UInt8 → Option (UInt8 × Place × List UInt8)
  | [] => none
  | b :: rest => do
    let mode := b >>> 6
    let reg := ((b >>> 3) &&& 7) + lead.reg
    let low := b &&& 7
    if mode = 3 then return (reg, .register ⟨low + lead.base⟩, rest)
    if low = 4 then
      let s :: rest := rest | none
      let base := s &&& 7
      if s >>> 6 ≠ 0 ∨ (mode = 0 ∧ base = 5) then none
      let index := ((s >>> 3) &&& 7) + lead.index
      let (displacement, rest) ← readDisplacement mode rest
      let index := if index = 4 then none else some ⟨index⟩
      return (reg, .memory ⟨⟨base + lead.base⟩, index, displacement⟩, rest)
    if mode = 0 ∧ low = 5 then none
    let (displacement, rest) ← readDisplacement mode rest
    return (reg, .memory ⟨⟨low + lead.base⟩, none, displacement⟩, rest)

/-- The condition with a code. -/
def conditionOfCode? (code : UInt8) : Option Condition :=
  [Condition.equal, .notEqual, .less, .lessEqual, .greater, .greaterEqual, .below, .belowEqual,
    .above, .aboveEqual].find? (·.code == code)

/-- The shift with a number. -/
def shiftOfDigit? (digit : UInt8) : Option ShiftOp :=
  [ShiftOp.left, .right, .signedRight].find? (·.digit == digit)

/-- The operation of the two operand group with a number. -/
def groupOfDigit? (digit : UInt8) : Option GroupOp :=
  GroupOp.all.find? (·.digit == digit)

/-- Reads the operands of an instruction with a memory operand. -/
def readMemory (lead : Lead) (bytes : List UInt8) :
    Option (HostRegister × HostAddress × List UInt8) := do
  let (reg, .memory a, rest) ← readOperands lead bytes | none
  return (⟨reg⟩, a, rest)

/-- Reads the operands of an instruction with two register operands. -/
def readRegisters (lead : Lead) (bytes : List UInt8) :
    Option (HostRegister × HostRegister × List UInt8) := do
  let (reg, .register r, rest) ← readOperands lead bytes | none
  return (⟨reg⟩, r, rest)

/-- Reads an instruction whose opcode starts with `0F`. -/
def readExtended (lead : Lead) : List UInt8 → Option (HostInstruction × List UInt8)
  | [] => none
  | opcode :: rest => do
    let load (kind : LoadKind) : Option (HostInstruction × List UInt8) := do
      let (dst, src, rest) ← readMemory lead rest
      return (.load kind dst src, rest)
    if opcode &&& 0xF0 = 0x80 then
      let c ← conditionOfCode? (opcode &&& 0xF)
      let (distance, rest) ← readWord rest
      return (.jumpIf c distance, rest)
    else if opcode &&& 0xF0 = 0x90 then
      let c ← conditionOfCode? (opcode &&& 0xF)
      let (_, r, rest) ← readRegisters lead rest
      if r = .rax then return (.setLow c, rest) else none
    else if opcode = 0xB6 then
      match ← readOperands lead rest with
      | (reg, .memory src, rest) => return (.load .u8 ⟨reg⟩ src, rest)
      | (reg, .register r, rest) => if r = .rax then return (.widenLow ⟨reg⟩, rest) else none
    else if opcode = 0xBE then load .s8
    else if opcode = 0xB7 then load .u16
    else if opcode = 0xBF then load .s16
    else none

/-- Reads an instruction of the two operand group with a constant. -/
def readGroupImmediate (lead : Lead) (isShort : Bool) (bytes : List UInt8) :
    Option (HostInstruction × List UInt8) := do
  let (digit, place, rest) ← readOperands lead bytes
  let op ← groupOfDigit? (digit - lead.reg)
  let (value, rest) ← if isShort then readByte rest else readWord rest
  if lead.wide then
    if place ≠ .register .rsp ∨ !isShort then none
    else if op = .sub then return (.growStack value.toUInt8, rest)
    else if op = .add then return (.shrinkStack value.toUInt8, rest)
    else none
  else return (.groupImmediate op place value, rest)

/-- Reads an instruction with a digit and a register operand. -/
def readUnary (opcode : UInt8) (lead : Lead) (bytes : List UInt8) :
    Option (HostInstruction × List UInt8) := do
  let (⟨reg⟩, r, rest) ← readRegisters lead bytes
  let digit := reg - lead.reg
  if opcode = 0xF7 then
    if digit = 2 then return (.complement r, rest)
    else if digit = 3 then return (.negate r, rest)
    else if digit = 4 then return (.multiply false r, rest)
    else if digit = 5 then return (.multiply true r, rest)
    else none
  else if opcode = 0xFF then
    if digit = 2 then return (.call r, rest)
    else if digit = 4 then return (.jumpRegister r, rest)
    else none
  else if opcode = 0xD3 then
    return (.shiftByCount (← shiftOfDigit? digit) r, rest)
  else
    let op ← shiftOfDigit? digit
    let amount :: rest := rest | none
    return (.shift op r amount, rest)

/-- Reads an instruction after what stands in front of its opcode. -/
def readOpcode (lead : Lead) : List UInt8 → Option (HostInstruction × List UInt8)
  | [] => none
  | opcode :: rest => do
    if opcode = 0x0F then readExtended lead rest
    else if opcode &&& 0xF8 = 0x50 then return (.push ⟨(opcode &&& 7) + lead.base⟩, rest)
    else if opcode &&& 0xF8 = 0x58 then return (.pop ⟨(opcode &&& 7) + lead.base⟩, rest)
    else if opcode &&& 0xF8 = 0xB8 then
      let dst : HostRegister := ⟨(opcode &&& 7) + lead.base⟩
      if lead.wide then
        let (value, rest) ← readDoubleWord rest
        return (.movePointer dst value, rest)
      else
        let (value, rest) ← readWord rest
        return (.moveImmediate dst value, rest)
    else if opcode = 0x8B then
      let (dst, src, rest) ← readMemory lead rest
      return (.load .u32 dst src, rest)
    else if opcode = 0x88 then
      let (src, dst, rest) ← readMemory lead rest
      return (.store .byte dst src, rest)
    else if opcode = 0x89 then
      match ← readOperands lead rest with
      | (src, .memory dst, rest) =>
        return (.store (if lead.half then .half else .word) dst ⟨src⟩, rest)
      | (src, .register dst, rest) =>
        return (if lead.wide then .moveWide dst ⟨src⟩ else .move dst ⟨src⟩, rest)
    else if opcode = 0xC7 then
      let (_, dst, rest) ← readMemory lead rest
      let (value, rest) ← readWord rest
      return (.storeImmediate dst value, rest)
    else if opcode = 0x8D then
      let (dst, src, rest) ← readMemory lead rest
      return (.loadAddress dst src, rest)
    else if opcode = 0x83 then readGroupImmediate lead true rest
    else if opcode = 0x81 then readGroupImmediate lead false rest
    else if opcode = 0xF7 ∨ opcode = 0xFF ∨ opcode = 0xD3 ∨ opcode = 0xC1 then
      readUnary opcode lead rest
    else if opcode = 0xE9 then
      let (distance, rest) ← readWord rest
      return (.jump distance, rest)
    else if opcode = 0xC3 then return (.ret, rest)
    else if opcode = 0xCC then return (.trap, rest)
    else if opcode = 0x90 then return (.nop, rest)
    else if opcode < 0x40 ∧ opcode &&& 7 = 1 then
      let op ← groupOfDigit? (opcode >>> 3)
      let (src, dst, rest) ← readRegisters lead rest
      return (.group op dst src, rest)
    else none

/-- The first instruction of a run of bytes, and the bytes after it. -/
def decode? (bytes : List UInt8) : Option (HostInstruction × List UInt8) :=
  let (lead, rest) := readLead bytes
  readOpcode lead rest

/-- The longest instruction, in bytes. -/
def maxLength : Nat := 15

end HostInstruction

/-- At most `fuel` instructions with their 64-bit constants zeroed. A byte that starts no
instruction is kept. -/
def blankPointersFrom : (fuel : Nat) → List UInt8 → List UInt8
  | 0, bytes => bytes
  | _, [] => []
  | fuel + 1, b :: rest =>
    match HostInstruction.decode? (b :: rest) with
    | some (.movePointer _ _, after) =>
      (b :: rest).take 2 ++ List.replicate 8 0 ++ blankPointersFrom fuel after
    | some (_, after) =>
      (b :: rest).take (rest.length + 1 - after.length) ++ blankPointersFrom fuel after
    | none => b :: blankPointersFrom fuel rest

/-- Code with its 64-bit constants zeroed: the part that does not depend on where functions and
memory lie. -/
def blankPointers (code : List UInt8) : List UInt8 :=
  blankPointersFrom code.length code

end Recompiler
