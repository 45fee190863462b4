import Recompiler.Proofs.Host.Encoding

/-!
# The instruction format

Machine code read by the general rules of the format, without regard to what generated code is made
of: what stands in front of the opcode decides how wide the operands are and which registers are
meant, and the opcode decides what is done, where the operands are and how constants are widened.

* `MachineInstruction`: an instruction with the width of its operands and the operands themselves.
* `Opcode.ofByte?`: the opcodes, by what follows them.
* `MachineInstruction.read?`: reading one instruction.
* `MachineInstruction.Reads`: a run of bytes is a sequence of instructions, without a rest.
* `HostInstruction.asMachine`, `HostInstruction.read?_encode`: the instructions of generated code.
-/

namespace Recompiler

/-! ## Instructions -/

/-- What an instruction does. -/
inductive Operation where
  | move
  /-- Copies a value of the given size, widened with zeros. -/
  | moveZeroExtended (source : OperandSize)
  /-- Copies a value of the given size, widened with its sign. -/
  | moveSignExtended (source : OperandSize)
  | loadAddress
  | group (op : GroupOp)
  | negate | complement
  | multiply (signed : Bool)
  | shift (op : ShiftOp)
  | set (c : Condition)
  | jump | jumpIf (c : Condition)
  | call | ret | push | pop | trap | nop
  deriving DecidableEq, Repr

/-- The size of a place that the operation works on, where registers have the size `size`. -/
def Operation.placeSize (size : OperandSize) : Operation → OperandSize
  | moveZeroExtended source | moveSignExtended source => source
  | _ => size

/-- An operand of an instruction. -/
inductive HostOperand where
  | register (r : HostRegister)
  /-- The second byte of one of the first four registers. -/
  | highByte (r : HostRegister)
  | memory (a : HostAddress)
  /-- A constant, widened with its sign to the size of the operands. -/
  | constant (value : UInt64)
  /-- A distance from the end of the instruction. -/
  | distance (value : Int)
  deriving DecidableEq, Repr

/-- An instruction as the format describes it. -/
structure MachineInstruction where
  /-- What it does. -/
  operation : Operation
  /-- The size of its operands. -/
  size : OperandSize
  /-- The operands, destination first. -/
  operands : List HostOperand
  deriving DecidableEq, Repr

/-- A constant at an operand size. -/
def OperandSize.widen (size : OperandSize) (value : UInt32) : UInt64 :=
  match size with
  | byte => value.toUInt8.toUInt64
  | half => value.toUInt16.toUInt64
  | word => value.toUInt64
  | wide => value.toInt32.toInt64.toUInt64

/-! ## Opcodes -/

/-- What comes after a place. -/
inductive Tail where
  | nothing
  /-- A constant of eight bits, widened with its sign. -/
  | byte
  /-- A constant of 32 bits, widened with its sign. -/
  | word
  /-- An amount of eight bits. -/
  | amount
  /-- Nothing: the amount is the low byte of `rcx`. -/
  | count
  deriving DecidableEq, Repr

/-- Where the operands of an instruction are. -/
inductive Layout where
  /-- There are none. -/
  | nothing
  /-- A distance of 32 bits. -/
  | distance
  /-- A register, in the opcode. -/
  | short
  /-- A register, in the opcode, and a constant of its size. -/
  | shortConstant
  | place (tail : Tail)
  | placeRegister
  | registerPlace
  /-- A register and a place that is in memory. -/
  | registerMemory
  deriving DecidableEq, Repr

/-- How the size of the operands is told. -/
inductive SizeRule where
  /-- They are bytes. -/
  | byte
  /-- By what stands in front of the opcode. -/
  | told
  /-- They have 64 bits. -/
  | wide
  deriving DecidableEq, Repr

/-- The size of the operands. -/
def SizeRule.size (rule : SizeRule) (lead : HostInstruction.Lead) : OperandSize :=
  match rule with
  | byte => .byte
  | told => if lead.wide then .wide else if lead.half then .half else .word
  | wide => .wide

/-- What an opcode says. -/
structure Opcode where
  /-- The size of the operands. -/
  rule : SizeRule
  /-- Where they are. -/
  layout : Layout
  /-- What is done, by the digit that stands in place of a register. -/
  operation : (digit : UInt8) → Option Operation

open HostInstruction in
/-- The opcodes of one byte, and those behind `0F`. -/
def Opcode.ofByte? (extended : Bool) (b : UInt8) : Option Opcode :=
  if extended then
    if b &&& 0xF0 = 0x80 then
      some ⟨.wide, .distance, fun _ => .jumpIf <$> conditionOfCode? (b &&& 0xF)⟩
    else if b &&& 0xF0 = 0x90 then
      some ⟨.byte, .place .nothing, fun _ => .set <$> conditionOfCode? (b &&& 0xF)⟩
    else if b = 0xB6 then some ⟨.told, .registerPlace, fun _ => some (.moveZeroExtended .byte)⟩
    else if b = 0xB7 then some ⟨.told, .registerPlace, fun _ => some (.moveZeroExtended .half)⟩
    else if b = 0xBE then some ⟨.told, .registerPlace, fun _ => some (.moveSignExtended .byte)⟩
    else if b = 0xBF then some ⟨.told, .registerPlace, fun _ => some (.moveSignExtended .half)⟩
    else none
  else if b < 0x40 ∧ b &&& 7 = 1 then
    some ⟨.told, .placeRegister, fun _ => .group <$> groupOfDigit? (b >>> 3)⟩
  else if b &&& 0xF8 = 0x50 then some ⟨.wide, .short, fun _ => some .push⟩
  else if b &&& 0xF8 = 0x58 then some ⟨.wide, .short, fun _ => some .pop⟩
  else if b &&& 0xF8 = 0xB8 then some ⟨.told, .shortConstant, fun _ => some .move⟩
  else if b = 0x81 then some ⟨.told, .place .word, fun digit => .group <$> groupOfDigit? digit⟩
  else if b = 0x83 then some ⟨.told, .place .byte, fun digit => .group <$> groupOfDigit? digit⟩
  else if b = 0x88 then some ⟨.byte, .placeRegister, fun _ => some .move⟩
  else if b = 0x89 then some ⟨.told, .placeRegister, fun _ => some .move⟩
  else if b = 0x8B then some ⟨.told, .registerPlace, fun _ => some .move⟩
  else if b = 0x8D then some ⟨.told, .registerMemory, fun _ => some .loadAddress⟩
  else if b = 0x90 then some ⟨.told, .nothing, fun _ => some .nop⟩
  else if b = 0xC1 then some ⟨.told, .place .amount, fun digit => .shift <$> shiftOfDigit? digit⟩
  else if b = 0xC3 then some ⟨.wide, .nothing, fun _ => some .ret⟩
  else if b = 0xC7 then
    some ⟨.told, .place .word, fun digit => if digit = 0 then some .move else none⟩
  else if b = 0xCC then some ⟨.told, .nothing, fun _ => some .trap⟩
  else if b = 0xD3 then some ⟨.told, .place .count, fun digit => .shift <$> shiftOfDigit? digit⟩
  else if b = 0xE9 then some ⟨.wide, .distance, fun _ => some .jump⟩
  else if b = 0xF7 then
    some ⟨.told, .place .nothing, fun digit =>
      if digit = 2 then some .complement
      else if digit = 3 then some .negate
      else if digit = 4 then some (.multiply false)
      else if digit = 5 then some (.multiply true)
      else none⟩
  else if b = 0xFF then
    some ⟨.wide, .place .nothing, fun digit =>
      if digit = 2 then some .call else if digit = 4 then some .jump else none⟩
  else none

namespace MachineInstruction

open HostInstruction

/-! ## Reading -/

/-- There is a register selection byte in front of the opcode. -/
def isSelected : List UInt8 → Bool
  | 0x66 :: b :: _ => b &&& 0xF0 == 0x40
  | b :: _ => b &&& 0xF0 == 0x40
  | [] => false

/-- The operand that a register number means. Without a selection byte the numbers from four to
seven mean the second bytes of the first four registers. -/
def registerAt (size : OperandSize) (selected : Bool) (r : HostRegister) : HostOperand :=
  if !selected && needsRex size r.number then .highByte ⟨r.number - 4⟩ else .register r

/-- The operand that a place means. -/
def placeAt (size : OperandSize) (selected : Bool) : Place → HostOperand
  | .register r => registerAt size selected r
  | .memory a => .memory a

/-- Reads a constant of the size of the operands, if they have 32 or 64 bits. -/
def readFull (size : OperandSize) (bytes : List UInt8) : Option (UInt64 × List UInt8) :=
  match size with
  | .word => (readWord bytes).map fun (value, rest) => (value.toUInt64, rest)
  | .wide => readDoubleWord bytes
  | .byte | .half => none

/-- Reads what comes after a place. Constants of sixteen bits are left out. -/
def readTail (size : OperandSize) (tail : Tail) (bytes : List UInt8) :
    Option (List HostOperand × List UInt8) :=
  match tail with
  | .nothing => some ([], bytes)
  | .byte => (readByte bytes).map fun (value, rest) => ([.constant (size.widen value)], rest)
  | .word =>
    if size = .half then none
    else (readWord bytes).map fun (value, rest) => ([.constant (size.widen value)], rest)
  | .amount => bytes.head?.map fun amount => ([.constant amount.toUInt64], bytes.tail)
  | .count => some ([.register .rcx], bytes)

/-- Reads the operands behind an opcode. -/
def readOperands? (lead : Lead) (selected : Bool) (b : UInt8) (o : Opcode) (bytes : List UInt8) :
    Option (MachineInstruction × List UInt8) := do
  let size := o.rule.size lead
  let short : HostOperand := .register ⟨(b &&& 7) + lead.base⟩
  match o.layout with
  | .nothing => if selected then none else return (⟨← o.operation 0, size, []⟩, bytes)
  | .distance =>
    let (value, rest) ← readWord bytes
    return (⟨← o.operation 0, size, [.distance (Word.toInt value)]⟩, rest)
  | .short => return (⟨← o.operation 0, size, [short]⟩, bytes)
  | .shortConstant =>
    let (value, rest) ← readFull size bytes
    return (⟨← o.operation 0, size, [short, .constant value]⟩, rest)
  | .place tail =>
    let (reg, place, rest) ← readOperands lead bytes
    let operation ← o.operation (reg - lead.reg)
    let (operands, rest) ← readTail size tail rest
    return (⟨operation, size, placeAt size selected place :: operands⟩, rest)
  | .placeRegister =>
    let (reg, place, rest) ← readOperands lead bytes
    let operation ← o.operation (reg - lead.reg)
    return (⟨operation, size, [placeAt size selected place, registerAt size selected ⟨reg⟩]⟩, rest)
  | .registerPlace =>
    let (reg, place, rest) ← readOperands lead bytes
    let operation ← o.operation (reg - lead.reg)
    return (⟨operation, size,
      [registerAt size selected ⟨reg⟩, placeAt (operation.placeSize size) selected place]⟩, rest)
  | .registerMemory =>
    let (reg, .memory a, rest) ← readOperands lead bytes | none
    let operation ← o.operation (reg - lead.reg)
    return (⟨operation, size, [registerAt size selected ⟨reg⟩, .memory a]⟩, rest)

/-- The first instruction of a run of bytes, and the bytes after it. -/
def read? (bytes : List UInt8) : Option (MachineInstruction × List UInt8) :=
  let (lead, rest) := readLead bytes
  match rest with
  | 0x0F :: b :: rest => do readOperands? lead (isSelected bytes) b (← Opcode.ofByte? true b) rest
  | b :: rest => do readOperands? lead (isSelected bytes) b (← Opcode.ofByte? false b) rest
  | [] => none

/-- The bytes are these instructions, one after the other and with nothing left over. -/
inductive Reads : List UInt8 → List MachineInstruction → Prop
  | nil : Reads [] []
  | cons {bytes rest : List UInt8} {i : MachineInstruction} {is : List MachineInstruction}
      (h : read? bytes = some (i, rest)) (hrest : Reads rest is) : Reads bytes (i :: is)

/-- A run of bytes is read in one way only. -/
theorem Reads.unique {bytes : List UInt8} {is js : List MachineInstruction} (h : Reads bytes is)
    (h' : Reads bytes js) : is = js := by
  induction h generalizing js with
  | nil =>
    cases h' with
    | nil => rfl
    | cons h _ => cases h
  | cons h _ ih =>
    cases h' with
    | nil => cases h
    | cons h' hrest =>
      obtain ⟨rfl, rfl⟩ := Prod.mk.inj (Option.some.inj (h.symm.trans h'))
      rw [ih hrest]

end MachineInstruction

/-! ## The instructions of generated code -/

/-- The operand that a place is. -/
def Place.operand : Place → HostOperand
  | register r => .register r
  | memory a => .memory a

namespace HostInstruction

/-- How a load widens its value. -/
def loadOperation : LoadKind → Operation
  | .u8 => .moveZeroExtended .byte
  | .s8 => .moveSignExtended .byte
  | .u16 => .moveZeroExtended .half
  | .s16 => .moveSignExtended .half
  | .u32 => .move

/-- An instruction of generated code as the format describes it. -/
def asMachine : HostInstruction → MachineInstruction
  | move dst src => ⟨.move, .word, [.register dst, .register src]⟩
  | moveWide dst src => ⟨.move, .wide, [.register dst, .register src]⟩
  | moveImmediate dst value => ⟨.move, .word, [.register dst, .constant value.toUInt64]⟩
  | movePointer dst value => ⟨.move, .wide, [.register dst, .constant value]⟩
  | load kind dst src => ⟨loadOperation kind, .word, [.register dst, .memory src]⟩
  | store width dst src => ⟨.move, width.operandSize, [.memory dst, .register src]⟩
  | storeImmediate dst value => ⟨.move, .word, [.memory dst, .constant value.toUInt64]⟩
  | group op dst src => ⟨.group op, .word, [.register dst, .register src]⟩
  | groupImmediate op dst value =>
    ⟨.group op, .word, [dst.operand, .constant value.toUInt64]⟩
  | negate dst => ⟨.negate, .word, [.register dst]⟩
  | complement dst => ⟨.complement, .word, [.register dst]⟩
  | shift op dst amount => ⟨.shift op, .word, [.register dst, .constant amount.toUInt64]⟩
  | shiftByCount op dst => ⟨.shift op, .word, [.register dst, .register .rcx]⟩
  | multiply signed factor => ⟨.multiply signed, .word, [.register factor]⟩
  | setLow c => ⟨.set c, .byte, [.register .rax]⟩
  | widenLow dst => ⟨.moveZeroExtended .byte, .word, [.register dst, .register .rax]⟩
  | loadAddress dst src => ⟨.loadAddress, .word, [.register dst, .memory src]⟩
  | call target => ⟨.call, .wide, [.register target]⟩
  | jumpRegister target => ⟨.jump, .wide, [.register target]⟩
  | push src => ⟨.push, .wide, [.register src]⟩
  | pop dst => ⟨.pop, .wide, [.register dst]⟩
  | growStack bytes =>
    ⟨.group .sub, .wide,
      [.register .rsp, .constant (OperandSize.wide.widen (Word.signExtend8 bytes.toUInt32))]⟩
  | shrinkStack bytes =>
    ⟨.group .add, .wide,
      [.register .rsp, .constant (OperandSize.wide.widen (Word.signExtend8 bytes.toUInt32))]⟩
  | ret => ⟨.ret, .wide, []⟩
  | jump distance => ⟨.jump, .wide, [.distance (Word.toInt distance)]⟩
  | jumpIf c distance => ⟨.jumpIf c, .wide, [.distance (Word.toInt distance)]⟩
  | trap => ⟨.trap, .word, []⟩
  | nop => ⟨.nop, .word, []⟩

end HostInstruction

namespace MachineInstruction

open HostInstruction

/-! ### What stands in front -/

theorem isSelected_of_isOpcode {b : UInt8} (h : IsOpcode b) (rest : List UInt8) :
    isSelected (b :: rest) = false := by
  unfold isSelected
  split
  · next heq => exact absurd (List.cons.inj heq).1 h.1
  · next heq =>
    cases heq
    simpa using h.2
  · rfl

theorem isSelected_half_of_isOpcode {b : UInt8} (h : IsOpcode b) (rest : List UInt8) :
    isSelected (0x66 :: b :: rest) = false := by
  simpa [isSelected] using h.2

theorem isSelected_rex (wide reg index base : Bool) (rest : List UInt8) :
    isSelected (rex wide reg index base :: rest) = true ∧
      isSelected (0x66 :: rex wide reg index base :: rest) = true := by
  cases wide <;> cases reg <;> cases index <;> cases base <;> exact ⟨rfl, rfl⟩

/-- A selection byte is seen where one is written. -/
theorem isSelected_selected (half wide reg index base forced : Bool) {b : UInt8} (h : IsOpcode b)
    (more : List UInt8) :
    isSelected ((if half then [0x66] else []) ++
        (if forced || rex wide reg index base != 0x40 then [rex wide reg index base] else []) ++
        b :: more) =
      (forced || rex wide reg index base != 0x40) := by
  cases forced || rex wide reg index base != 0x40 with
  | true =>
    cases half with
    | false => exact (isSelected_rex ..).1
    | true => exact (isSelected_rex ..).2
  | false =>
    cases half with
    | false => exact isSelected_of_isOpcode h more
    | true => exact isSelected_half_of_isOpcode h more

/-- Registers that need a selection byte have one. -/
theorem isSelected_coded {size : OperandSize} {b : UInt8} (h : IsOpcode b) (opcode : List UInt8)
    {reg : UInt8} {p : Place} {r : HostRegister} (hr : r.number = reg ∨ p = .register r)
    (hneeds : needsRex size r.number = true) (rest : List UInt8) :
    isSelected (coded size (b :: opcode) reg p ++ rest) = true := by
  rw [coded, ite_half]
  simp only [List.append_assoc, List.cons_append]
  rw [← List.append_assoc]
  cases p with
  | register q =>
    refine (isSelected_selected _ _ _ false _ _ h _).trans ?_
    obtain rfl | hq := hr
    · simp [hneeds]
    · obtain rfl : q = r := Place.register.inj hq
      simp [hneeds]
  | memory a =>
    refine (isSelected_selected _ _ _ _ _ _ h _).trans ?_
    obtain rfl | hq := hr
    · simp [hneeds]
    · cases hq

/-- With its selection byte a register is what its number says. -/
theorem registerAt_eq {size : OperandSize} {selected : Bool} {r : HostRegister}
    (h : needsRex size r.number = true → selected = true) :
    registerAt size selected r = .register r := by
  unfold registerAt
  split
  · next hhigh =>
    simp only [Bool.and_eq_true, Bool.not_eq_true'] at hhigh
    rw [h hhigh.2] at hhigh
    cases hhigh.1
  · rfl

theorem needsRex_of_ne_byte {size : OperandSize} (h : size ≠ .byte) (r : UInt8) :
    needsRex size r = false := by
  cases size <;> first | rfl | exact absurd rfl h

theorem placeAt_of_ne_byte {size : OperandSize} (h : size ≠ .byte) (selected : Bool) (p : Place) :
    placeAt size selected p = p.operand := by
  cases p with
  | register r => exact registerAt_eq fun hneeds => by simp [needsRex_of_ne_byte h] at hneeds
  | memory a => rfl

/-! ### Opcodes and operands -/

/-- The bytes of an opcode. -/
def opcodeBytes (extended : Bool) (b : UInt8) : List UInt8 :=
  if extended then [0x0F, b] else [b]

theorem read?_opcode {bytes rest : List UInt8} {lead : Lead} {b : UInt8} {o : Opcode}
    (hlead : readLead bytes = (lead, b :: rest)) (hb : b ≠ 0x0F)
    (ho : Opcode.ofByte? false b = some o) :
    read? bytes = readOperands? lead (isSelected bytes) b o rest := by
  simp only [read?]
  rw [hlead]
  split
  · next heq => exact absurd (List.cons.inj heq).1 hb
  · next heq =>
    obtain ⟨rfl, rfl⟩ := List.cons.inj heq
    rw [ho]
    rfl
  · next heq => cases heq

theorem read?_extended {bytes rest : List UInt8} {lead : Lead} {b : UInt8} {o : Opcode}
    (hlead : readLead bytes = (lead, 0x0F :: b :: rest)) (ho : Opcode.ofByte? true b = some o) :
    read? bytes = readOperands? lead (isSelected bytes) b o rest := by
  simp only [read?]
  rw [hlead]
  simp only [ho]
  rfl

section Coded

variable {size : OperandSize} {e : Bool} {b reg : UInt8} {p : Place} {o : Opcode}
  {operation : Operation} {rest : List UInt8}

/-- Reading an instruction with operand bytes, up to them. -/
theorem read?_coded (ho : Opcode.ofByte? e b = some o)
    (hb : e = false → IsOpcode b ∧ b ≠ 0x0F) :
    read? (coded size (opcodeBytes e b) reg p ++ rest) =
      readOperands? (leadOf size reg p)
        (isSelected (coded size (opcodeBytes e b) reg p ++ rest)) b o
        (operandBytes reg p ++ rest) := by
  cases e with
  | true => exact read?_extended (readLead_coded size (by decide) [b] reg p rest) ho
  | false =>
    obtain ⟨hopcode, hne⟩ := hb rfl
    exact read?_opcode (readLead_coded size hopcode [] reg p rest) hne ho

/-- Registers of an instruction are meant as they are numbered. -/
theorem registerAt_coded (hb : e = false → IsOpcode b) {r : HostRegister}
    (hr : r.number = reg ∨ p = .register r) :
    registerAt size (isSelected (coded size (opcodeBytes e b) reg p ++ rest)) r =
      .register r := by
  refine registerAt_eq fun hneeds => ?_
  cases e with
  | true => exact isSelected_coded (by decide) [b] hr hneeds rest
  | false => exact isSelected_coded (hb rfl) [] hr hneeds rest

theorem placeAt_coded (hb : e = false → IsOpcode b) :
    placeAt size (isSelected (coded size (opcodeBytes e b) reg p ++ rest)) p =
      p.operand := by
  cases p with
  | register r => exact registerAt_coded hb (.inr rfl)
  | memory a => rfl

/-- Reading an instruction whose last operand is a register. -/
theorem read?_placeRegister (hb : e = false → IsOpcode b ∧ b ≠ 0x0F)
    (ho : Opcode.ofByte? e b = some o) (hlayout : o.layout = .placeRegister)
    (hsize : o.rule.size (leadOf size reg p) = size)
    (hoperation : ∀ digit, o.operation digit = some operation) (hreg : reg < 16) (hp : p.Valid) :
    read? (coded size (opcodeBytes e b) reg p ++ rest) =
      some (⟨operation, size, [p.operand, .register ⟨reg⟩]⟩, rest) := by
  rw [read?_coded ho hb]
  simp only [readOperands?, hlayout, hsize, readOperands_operandBytes size hreg hp]
  simp [hoperation, placeAt_coded fun h => (hb h).1,
    registerAt_coded (p := p) (r := ⟨reg⟩) (fun h => (hb h).1) (.inl rfl)]

/-- Reading an instruction whose first operand is a register, and whose place means the same at the
size of its operands and at that of the place. -/
theorem read?_registerPlace (hb : e = false → IsOpcode b ∧ b ≠ 0x0F)
    (ho : Opcode.ofByte? e b = some o) (hlayout : o.layout = .registerPlace)
    (hsize : o.rule.size (leadOf size reg p) = size)
    (hoperation : ∀ digit, o.operation digit = some operation) (hreg : reg < 16) (hp : p.Valid)
    (hplace : ∀ selected, placeAt (operation.placeSize size) selected p = p.operand) :
    read? (coded size (opcodeBytes e b) reg p ++ rest) =
      some (⟨operation, size, [.register ⟨reg⟩, p.operand]⟩, rest) := by
  rw [read?_coded ho hb]
  simp only [readOperands?, hlayout, hsize, readOperands_operandBytes size hreg hp]
  simp [hoperation, hplace,
    registerAt_coded (p := p) (r := ⟨reg⟩) (fun h => (hb h).1) (.inl rfl)]

/-- Reading an instruction with a digit in place of a register. Its operands may be wider than what
stands in front of the opcode tells. -/
theorem read?_place {told : OperandSize} {tail : Tail} {more : List UInt8}
    {operands : List HostOperand} (hb : e = false → IsOpcode b ∧ b ≠ 0x0F)
    (ho : Opcode.ofByte? e b = some o) (hlayout : o.layout = .place tail)
    (hsize : o.rule.size (leadOf told reg p) = size) (htold : told = size ∨ size ≠ .byte)
    (hoperation : o.operation reg = some operation) (hreg : reg < 8) (hp : p.Valid)
    (htail : readTail size tail more = some (operands, rest)) :
    read? (coded told (opcodeBytes e b) reg p ++ more) =
      some (⟨operation, size, p.operand :: operands⟩, rest) := by
  have hlt : reg < 16 := Nat.lt_trans hreg (by decide)
  have hplace : placeAt size (isSelected (coded told (opcodeBytes e b) reg p ++ more)) p =
      p.operand := by
    obtain rfl | hne := htold
    · exact placeAt_coded fun h => (hb h).1
    · exact placeAt_of_ne_byte hne _ p
  rw [read?_coded ho hb]
  simp only [readOperands?, hlayout, hsize, readOperands_operandBytes told hlt hp, reg_leadOf hreg,
    UInt8.sub_zero]
  simp [hoperation, htail, hplace]

/-- Reading an instruction whose first operand is a register and whose place is in memory. -/
theorem read?_registerMemory {a : HostAddress} (hb : e = false → IsOpcode b ∧ b ≠ 0x0F)
    (ho : Opcode.ofByte? e b = some o) (hlayout : o.layout = .registerMemory)
    (hsize : o.rule.size (leadOf size reg (.memory a)) = size)
    (hoperation : ∀ digit, o.operation digit = some operation) (hreg : reg < 16) (ha : a.Valid) :
    read? (coded size (opcodeBytes e b) reg (.memory a) ++ rest) =
      some (⟨operation, size, [.register ⟨reg⟩, .memory a]⟩, rest) := by
  rw [read?_coded ho hb]
  simp only [readOperands?, hlayout, hsize,
    readOperands_operandBytes size hreg (p := .memory a) ha]
  simp [hoperation,
    registerAt_coded (p := .memory a) (r := ⟨reg⟩) (fun h => (hb h).1) (.inl rfl)]

end Coded

/-! ### Whole instructions -/

/-- An opcode behind the escape byte may be any byte. -/
theorem isOpcode_of_extended {b : UInt8} (h : true = false) : IsOpcode b ∧ b ≠ 0x0F :=
  absurd h (by decide)

theorem read?_load (kind : LoadKind) {dst : HostRegister} {src : HostAddress} (hdst : dst.Valid)
    (hsrc : src.Valid) (rest : List UInt8) :
    read? ((load kind dst src).encode ++ rest) = some ((load kind dst src).asMachine, rest) := by
  rw [encode, pieces, List.flatten_cons, List.flatten_nil, List.append_nil]
  have hplace : ∀ selected, placeAt ((loadOperation kind).placeSize .word) selected (.memory src) =
      (Place.memory src).operand := fun _ => rfl
  cases kind with
  | u8 =>
    exact read?_registerPlace (e := true) (b := 0xB6) isOpcode_of_extended rfl rfl rfl
      (fun _ => rfl) hdst hsrc hplace
  | s8 =>
    exact read?_registerPlace (e := true) (b := 0xBE) isOpcode_of_extended rfl rfl rfl
      (fun _ => rfl) hdst hsrc hplace
  | u16 =>
    exact read?_registerPlace (e := true) (b := 0xB7) isOpcode_of_extended rfl rfl rfl
      (fun _ => rfl) hdst hsrc hplace
  | s16 =>
    exact read?_registerPlace (e := true) (b := 0xBF) isOpcode_of_extended rfl rfl rfl
      (fun _ => rfl) hdst hsrc hplace
  | u32 =>
    exact read?_registerPlace (e := false) (b := 0x8B) (fun _ => by decide) rfl rfl rfl
      (fun _ => rfl) hdst hsrc hplace

theorem read?_store (width : Width) {dst : HostAddress} {src : HostRegister} (hdst : dst.Valid)
    (hsrc : src.Valid) (rest : List UInt8) :
    read? ((store width dst src).encode ++ rest) =
      some ((store width dst src).asMachine, rest) := by
  rw [encode, pieces, List.flatten_cons, List.flatten_nil, List.append_nil]
  cases width with
  | byte =>
    exact read?_placeRegister (e := false) (b := 0x88) (p := .memory dst)
      (fun _ => by decide) rfl rfl rfl (fun _ => rfl) hsrc hdst
  | half | word =>
    exact read?_placeRegister (e := false) (b := 0x89) (p := .memory dst)
      (fun _ => by decide) rfl rfl rfl (fun _ => rfl) hsrc hdst

theorem read?_group (op : GroupOp) {dst src : HostRegister} (hdst : dst.Valid) (hsrc : src.Valid)
    (rest : List UInt8) :
    read? ((group op dst src).encode ++ rest) = some ((group op dst src).asMachine, rest) := by
  rw [encode, pieces, List.flatten_cons, List.flatten_nil, List.append_nil]
  have hopcode : Opcode.ofByte? false (8 * op.digit + 1) =
      some ⟨.told, .placeRegister,
        fun _ => .group <$> groupOfDigit? ((8 * op.digit + 1) >>> 3)⟩ := by
    cases op <;> rfl
  have hdigit : groupOfDigit? ((8 * op.digit + 1) >>> 3) = some op := by cases op <;> rfl
  exact read?_placeRegister (e := false) (p := .register dst)
    (fun _ => by cases op <;> decide) hopcode rfl rfl (fun _ => by rw [hdigit]; rfl) hsrc hdst

/-- A constant that is written in eight bits is the whole constant. -/
theorem read?_groupImmediate (op : GroupOp) {dst : Place} (value : UInt32) (hdst : dst.Valid)
    (rest : List UInt8) :
    read? ((groupImmediate op dst value).encode ++ rest) =
      some ((groupImmediate op dst value).asMachine, rest) := by
  have hdigit : op.digit < 8 := by cases op <;> decide
  have hoperation : Operation.group <$> groupOfDigit? op.digit = some (.group op) := by
    cases op <;> rfl
  rw [encode, pieces]
  split
  · next hfits =>
    rw [List.flatten_cons, List.flatten_nil, List.append_nil, List.append_assoc,
      List.singleton_append]
    refine read?_place (e := false) (b := 0x83) (fun _ => by decide) rfl rfl rfl (.inl rfl)
      hoperation hdigit hdst ?_
    simp [readTail, readByte_toUInt8 hfits, OperandSize.widen]
  · rw [List.flatten_cons, List.flatten_nil, List.append_nil, List.append_assoc]
    refine read?_place (e := false) (b := 0x81) (fun _ => by decide) rfl rfl rfl (.inl rfl)
      hoperation hdigit hdst ?_
    simp [readTail, readWord_bytes, OperandSize.widen]

theorem read?_shift (op : ShiftOp) {dst : HostRegister} (amount : UInt8) (hdst : dst.Valid)
    (rest : List UInt8) :
    read? ((shift op dst amount).encode ++ rest) =
      some ((shift op dst amount).asMachine, rest) := by
  rw [encode, pieces, List.flatten_cons, List.flatten_nil, List.append_nil, List.append_assoc]
  exact read?_place (e := false) (b := 0xC1) (p := .register dst) (fun _ => by decide) rfl
    rfl rfl (.inl rfl) (by cases op <;> rfl) (by cases op <;> decide) hdst rfl

theorem read?_shiftByCount (op : ShiftOp) {dst : HostRegister} (hdst : dst.Valid)
    (rest : List UInt8) :
    read? ((shiftByCount op dst).encode ++ rest) =
      some ((shiftByCount op dst).asMachine, rest) := by
  rw [encode, pieces, List.flatten_cons, List.flatten_nil, List.append_nil]
  exact read?_place (e := false) (b := 0xD3) (p := .register dst) (fun _ => by decide) rfl
    rfl rfl (.inl rfl) (by cases op <;> rfl) (by cases op <;> decide) hdst rfl

theorem short_opcode_not_lt {opcode : UInt8} (h : opcode = 0x50 ∨ opcode = 0x58 ∨ opcode = 0xB8)
    (r : UInt8) : ¬ opcode + (r &&& 7) < 0x40 := by
  have hall : ∀ o ∈ [(0x50 : UInt8), 0x58, 0xB8], ∀ i : Fin 8, ¬ o + UInt8.ofNat i < 0x40 := by
    decide +kernel
  have hlow := hall opcode (by simpa using h) ⟨_, low_lt r⟩
  rwa [UInt8.ofNat_toNat] at hlow

theorem read?_push {r : HostRegister} (hr : r.Valid) (rest : List UInt8) :
    read? ((push r).encode ++ rest) = some ((push r).asMachine, rest) := by
  obtain ⟨hopcode, hne, hmask, hlow⟩ := short_opcode (.inl rfl) r.number
  have hlt := short_opcode_not_lt (.inl rfl) r.number
  have ho : Opcode.ofByte? false (0x50 + (r.number &&& 7)) =
      some ⟨.wide, .short, fun _ => some .push⟩ := by
    simp [Opcode.ofByte?, hlt, hmask]
  rw [encode, pieces, List.flatten_cons, List.flatten_nil, List.append_nil, short_eq hr,
    List.append_assoc, List.singleton_append,
    read?_opcode (readLead_upper hopcode r.number rest) hne ho]
  simp [readOperands?, hlow, low_add_upper hr, asMachine, SizeRule.size]

theorem read?_pop {r : HostRegister} (hr : r.Valid) (rest : List UInt8) :
    read? ((pop r).encode ++ rest) = some ((pop r).asMachine, rest) := by
  obtain ⟨hopcode, hne, hmask, hlow⟩ := short_opcode (.inr (.inl rfl)) r.number
  have hlt := short_opcode_not_lt (.inr (.inl rfl)) r.number
  have ho : Opcode.ofByte? false (0x58 + (r.number &&& 7)) =
      some ⟨.wide, .short, fun _ => some .pop⟩ := by
    simp [Opcode.ofByte?, hlt, hmask]
  rw [encode, pieces, List.flatten_cons, List.flatten_nil, List.append_nil, short_eq hr,
    List.append_assoc, List.singleton_append,
    read?_opcode (readLead_upper hopcode r.number rest) hne ho]
  simp [readOperands?, hlow, low_add_upper hr, asMachine, SizeRule.size]

theorem read?_moveImmediate {dst : HostRegister} (hdst : dst.Valid) (value : UInt32)
    (rest : List UInt8) :
    read? ((moveImmediate dst value).encode ++ rest) =
      some ((moveImmediate dst value).asMachine, rest) := by
  obtain ⟨hopcode, hne, hmask, hlow⟩ := short_opcode (.inr (.inr rfl)) dst.number
  have hlt := short_opcode_not_lt (.inr (.inr rfl)) dst.number
  have ho : Opcode.ofByte? false (0xB8 + (dst.number &&& 7)) =
      some ⟨.told, .shortConstant, fun _ => some .move⟩ := by
    simp [Opcode.ofByte?, hlt, hmask]
  rw [encode_moveImmediate, List.append_assoc, List.cons_append,
    read?_opcode (readLead_upper hopcode dst.number _) hne ho]
  simp [readOperands?, hlow, low_add_upper hdst, asMachine, SizeRule.size, readFull, readWord_bytes]

theorem read?_movePointer {dst : HostRegister} (hdst : dst.Valid) (value : UInt64)
    (rest : List UInt8) :
    read? ((movePointer dst value).encode ++ rest) =
      some ((movePointer dst value).asMachine, rest) := by
  obtain ⟨hopcode, hne, hmask, hlow⟩ := short_opcode (.inr (.inr rfl)) dst.number
  have hlt := short_opcode_not_lt (.inr (.inr rfl)) dst.number
  have ho : Opcode.ofByte? false (0xB8 + (dst.number &&& 7)) =
      some ⟨.told, .shortConstant, fun _ => some .move⟩ := by
    simp [Opcode.ofByte?, hlt, hmask]
  rw [encode_movePointer, List.cons_append, List.cons_append,
    read?_opcode (readLead_rex true false false (upper dst.number) _) hne ho]
  simp [readOperands?, hlow, low_add_upper hdst, asMachine, SizeRule.size, readFull,
    readDoubleWord_bytes64]

/-- An instruction of generated code is read back from its machine code, whatever follows. -/
theorem read?_encode {i : HostInstruction} (h : i.Valid) (rest : List UInt8) :
    read? (i.encode ++ rest) = some (i.asMachine, rest) := by
  -- The table of opcodes says how operands follow. In each case its row is looked up, and the
  -- operands are read by the lemma about that kind of row.
  cases i with
  | load kind dst src => exact read?_load kind h.1 h.2 rest
  | store width dst src => exact read?_store width h.1 h.2 rest
  | group op dst src => exact read?_group op h.1 h.2 rest
  | groupImmediate op dst value => exact read?_groupImmediate op value h rest
  | shift op dst amount => exact read?_shift op amount h rest
  | shiftByCount op dst => exact read?_shiftByCount op h rest
  | push r => exact read?_push h rest
  | pop r => exact read?_pop h rest
  | moveImmediate dst value => exact read?_moveImmediate h value rest
  | movePointer dst value => exact read?_movePointer h value rest
  | growStack bytes | shrinkStack bytes =>
    have hlead (modes : UInt8) : readLead ([0x48, 0x83, modes, bytes] ++ rest) =
        (⟨false, true, 0, 0, 0⟩, 0x83 :: modes :: bytes :: rest) := rfl
    exact (read?_opcode (hlead _) (by decide) rfl).trans rfl
  | ret | trap | nop => rfl
  | jump distance =>
    have hlead : readLead ((jump distance).encode ++ rest) =
        (⟨false, false, 0, 0, 0⟩, 0xE9 :: (Word.bytes distance ++ rest)) := rfl
    rw [read?_opcode hlead (by decide) rfl]
    simp [readOperands?, readWord_bytes, asMachine, SizeRule.size]
  | jumpIf c distance =>
    obtain ⟨hcode, hmask⟩ := conditionOfCode?_code c 0x80 (.inl rfl)
    have hlead : readLead ((jumpIf c distance).encode ++ rest) =
        (⟨false, false, 0, 0, 0⟩, 0x0F :: (0x80 ||| c.code) :: (Word.bytes distance ++ rest)) := rfl
    have ho : Opcode.ofByte? true (0x80 ||| c.code) =
        some ⟨.wide, .distance,
          fun _ => .jumpIf <$> conditionOfCode? ((0x80 ||| c.code) &&& 0xF)⟩ := by
      simp [Opcode.ofByte?, hmask]
    rw [read?_extended hlead ho]
    simp [readOperands?, readWord_bytes, asMachine, SizeRule.size, hcode]
  | setLow c =>
    obtain ⟨hcode, hmask⟩ := conditionOfCode?_code c 0x90 (.inr rfl)
    rw [encode, pieces, List.flatten_cons, List.flatten_nil, List.append_nil]
    have ho : Opcode.ofByte? true (0x90 ||| c.code) =
        some ⟨.byte, .place .nothing,
          fun _ => .set <$> conditionOfCode? ((0x90 ||| c.code) &&& 0xF)⟩ := by
      simp [Opcode.ofByte?, hmask]
    exact read?_place (e := true) (p := .register .rax) isOpcode_of_extended ho rfl rfl
      (.inl rfl) (by simp [hcode]) (by decide) (show HostRegister.rax.Valid by decide) rfl
  | widenLow dst =>
    rw [encode, pieces, List.flatten_cons, List.flatten_nil, List.append_nil]
    refine read?_registerPlace (e := true) (b := 0xB6) (p := .register .rax)
      isOpcode_of_extended rfl rfl rfl (fun _ => rfl) h
      (show HostRegister.rax.Valid by decide) fun selected => ?_
    cases selected <;> rfl
  | loadAddress dst src =>
    rw [encode, pieces, List.flatten_cons, List.flatten_nil, List.append_nil]
    exact read?_registerMemory (e := false) (b := 0x8D) (fun _ => by decide) rfl rfl rfl
      (fun _ => rfl) h.1 h.2
  | move dst src | moveWide dst src =>
    rw [encode, pieces, List.flatten_cons, List.flatten_nil, List.append_nil]
    exact read?_placeRegister (e := false) (b := 0x89) (p := .register dst)
      (fun _ => by decide) rfl rfl rfl (fun _ => rfl) h.2 h.1
  | storeImmediate dst value =>
    rw [encode, pieces, List.flatten_cons, List.flatten_nil, List.append_nil, List.append_assoc]
    refine read?_place (e := false) (b := 0xC7) (p := .memory dst) (fun _ => by decide) rfl
      rfl rfl (.inl rfl) rfl (by decide) h ?_
    simp [readTail, readWord_bytes, OperandSize.widen]
  | negate r | complement r =>
    rw [encode, pieces, List.flatten_cons, List.flatten_nil, List.append_nil]
    exact read?_place (e := false) (b := 0xF7) (p := .register r) (fun _ => by decide) rfl
      rfl rfl (.inl rfl) rfl (by decide) h rfl
  | multiply signed r =>
    rw [encode, pieces, List.flatten_cons, List.flatten_nil, List.append_nil]
    cases signed with
    | false =>
      exact read?_place (e := false) (b := 0xF7) (p := .register r) (fun _ => by decide) rfl
        rfl rfl (.inl rfl) rfl (by decide) h rfl
    | true =>
      exact read?_place (e := false) (b := 0xF7) (p := .register r) (fun _ => by decide) rfl
        rfl rfl (.inl rfl) rfl (by decide) h rfl
  | call r | jumpRegister r =>
    rw [encode, pieces, List.flatten_cons, List.flatten_nil, List.append_nil]
    exact read?_place (e := false) (b := 0xFF) (p := .register r) (fun _ => by decide) rfl
      rfl rfl (.inr (by decide)) rfl (by decide) h rfl

/-- A sequence of instructions of generated code is read back from its machine code, and nothing is
left over. -/
theorem reads_encode {is : List HostInstruction} (h : ∀ i ∈ is, i.Valid) :
    Reads (is.flatMap encode) (is.map asMachine) := by
  induction is with
  | nil => exact .nil
  | cons i is ih =>
    obtain ⟨hi, his⟩ := List.forall_mem_cons.1 h
    rw [List.flatMap_cons]
    exact .cons (read?_encode hi _) (ih his)

end MachineInstruction

end Recompiler
