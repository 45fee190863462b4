import Recompiler.Guest.Mnemonic
import Recompiler.Guest.Pattern
import Recompiler.Guest.Register
import Recompiler.Text.Radix
import Recompiler.Word

/-!
# Guest instructions

The table of encodings, decoding by it, and what a decoded instruction says about itself.

* `Entry.table`: the 32-bit integer set with a few extensions, one entry per mnemonic.
* `Instruction.decode?`: the first entry that a word matches.
* `Instruction.operand`: an operand that the instruction must have.
* `Instruction.staticTarget?`, `Instruction.outputRegister?`: where it jumps and what it writes.
* `Instruction.text`: its assembly text.
-/

namespace Recompiler

/-- How an operand that is no register is printed. -/
inductive Signedness where
  /-- Signed decimal of the low half. -/
  | signed16
  /-- Hexadecimal of the whole value. -/
  | unsigned32
  /-- Hexadecimal of the low half. -/
  | unsigned16
  deriving DecidableEq, Repr

/-- The text of a number. -/
def Signedness.format (s : Signedness) (num : UInt32) : String :=
  match s with
  | signed16 => toString (Word.toInt (Word.signExtend16 num))
  | unsigned32 => Radix.hex num.toNat
  | unsigned16 => Radix.hex num.toUInt16.toNat

/-- One row of the decoder table. -/
structure Entry where
  /-- The mnemonic of the row. -/
  mnemonic : Mnemonic
  /-- Its encoding. -/
  pattern : Pattern
  /-- The operands in the order they are written, with the way each one is printed. -/
  operands : List (Operand × Signedness)
  deriving DecidableEq, Repr

namespace Entry

open Operand in
/-- Three registers, told apart by the low six bits. -/
private def threeRegister (m : Mnemonic) (function : UInt32) : Entry where
  mnemonic := m
  pattern := .ofPieces [.fixed 6 0, .field source 5, .field target 5, .field destination 5,
    .fixed 5 0, .fixed 6 function]
  operands := [(destination, .unsigned32), (source, .unsigned32), (target, .unsigned32)]

open Operand in
/-- A shift by a register, which is written last. -/
private def variableShift (m : Mnemonic) (function : UInt32) : Entry where
  mnemonic := m
  pattern := .ofPieces [.fixed 6 0, .field source 5, .field target 5, .field destination 5,
    .fixed 5 0, .fixed 6 function]
  operands := [(destination, .unsigned32), (target, .unsigned32), (source, .unsigned32)]

open Operand in
/-- A source and a destination register. -/
private def oneSource (m : Mnemonic) (function : UInt32) : Entry where
  mnemonic := m
  pattern := .ofPieces [.fixed 6 0, .field source 5, .fixed 5 0, .field destination 5,
    .fixed 5 0, .fixed 6 function]
  operands := [(destination, .unsigned32), (source, .unsigned32)]

open Operand in
/-- Two source registers and no destination. -/
private def twoSource (m : Mnemonic) (function : UInt32) : Entry where
  mnemonic := m
  pattern := .ofPieces [.fixed 6 0, .field source 5, .field target 5, .fixed 10 0,
    .fixed 6 function]
  operands := [(source, .unsigned32), (target, .unsigned32)]

open Operand in
/-- A single source register. -/
private def sourceOnly (m : Mnemonic) (function : UInt32) : Entry where
  mnemonic := m
  pattern := .ofPieces [.fixed 6 0, .field source 5, .fixed 15 0, .fixed 6 function]
  operands := [(source, .unsigned32)]

open Operand in
/-- A single destination register. -/
private def destinationOnly (m : Mnemonic) (function : UInt32) : Entry where
  mnemonic := m
  pattern := .ofPieces [.fixed 16 0, .field destination 5, .fixed 5 0, .fixed 6 function]
  operands := [(destination, .unsigned32)]

open Operand in
/-- A shift by a constant. -/
private def constantShift (m : Mnemonic) (function : UInt32) : Entry where
  mnemonic := m
  pattern := .ofPieces [.fixed 11 0, .field target 5, .field destination 5, .field immediate 5,
    .fixed 6 function]
  operands := [(destination, .unsigned32), (target, .unsigned32), (immediate, .unsigned32)]

open Operand in
/-- A widening of the low part of a register. -/
private def extension (m : Mnemonic) (selector : UInt32) : Entry where
  mnemonic := m
  pattern := .ofPieces [.fixed 6 0x1F, .fixed 5 0, .field target 5, .field destination 5,
    .fixed 5 selector, .fixed 6 0x20]
  operands := [(destination, .unsigned32), (target, .unsigned32)]

open Operand in
/-- A register and a half word constant. -/
private def withImmediate (m : Mnemonic) (opcode : UInt32) (sign : Signedness) : Entry where
  mnemonic := m
  pattern := .ofPieces [.fixed 6 opcode, .field source 5, .field target 5, .field immediate 16]
  operands := [(target, .unsigned32), (source, .unsigned32), (immediate, sign)]

open Operand in
/-- A branch that compares two registers. -/
private def compareBranch (m : Mnemonic) (opcode : UInt32) : Entry where
  mnemonic := m
  pattern := .ofPieces [.fixed 6 opcode, .field source 5, .field target 5, .field offset 16]
  operands := [(source, .unsigned32), (target, .unsigned32), (offset, .signed16)]

open Operand in
/-- A branch that compares a register with zero. -/
private def zeroBranch (m : Mnemonic) (opcode selector : UInt32) : Entry where
  mnemonic := m
  pattern := .ofPieces [.fixed 6 opcode, .field source 5, .fixed 5 selector, .field offset 16]
  operands := [(source, .unsigned32), (offset, .signed16)]

open Operand in
/-- A jump to an absolute address. -/
private def absoluteJump (m : Mnemonic) (opcode : UInt32) : Entry where
  mnemonic := m
  pattern := .ofPieces [.fixed 6 opcode, .field immediate 26]
  operands := [(immediate, .unsigned32)]

open Operand in
/-- A load or store. -/
private def memoryAccess (m : Mnemonic) (opcode : UInt32) : Entry where
  mnemonic := m
  pattern := .ofPieces [.fixed 6 opcode, .field base 5, .field target 5, .field offset 16]
  operands := [(target, .unsigned32), (offset, .signed16), (base, .unsigned32)]

open Mnemonic Operand in
/-- The instruction set, in alphabetical order. No word matches two rows. -/
def table : List Entry :=
  [threeRegister add 0x20,
   withImmediate addi 0x08 .signed16,
   withImmediate addiu 0x09 .signed16,
   threeRegister addu 0x21,
   threeRegister .and 0x24,
   withImmediate andi 0x0C .unsigned16,
   compareBranch beq 0x04,
   compareBranch beql 0x14,
   zeroBranch bgez 0x01 0x01,
   zeroBranch bgezal 0x01 0x11,
   zeroBranch bgezall 0x01 0x13,
   zeroBranch bgezl 0x01 0x03,
   zeroBranch bgtz 0x07 0x00,
   zeroBranch bgtzl 0x17 0x00,
   zeroBranch blez 0x06 0x00,
   zeroBranch blezl 0x16 0x00,
   zeroBranch bltz 0x01 0x00,
   zeroBranch bltzal 0x01 0x10,
   zeroBranch bltzall 0x01 0x12,
   zeroBranch bltzl 0x01 0x02,
   compareBranch bne 0x05,
   compareBranch bnel 0x15,
   ⟨breakpoint, .ofPieces [.fixed 6 0, .field immediate 20, .fixed 6 0x0D], []⟩,
   ⟨cache,
    .ofPieces [.fixed 6 0x2F, .field base 5, .field immediate 5, .field offset 16],
    [(immediate, .unsigned32), (offset, .signed16), (base, .unsigned32)]⟩,
   oneSource clo 0x17,
   oneSource clz 0x16,
   twoSource div 0x1A,
   twoSource divu 0x1B,
   absoluteJump j 0x02,
   absoluteJump jal 0x03,
   oneSource jalr 0x09,
   sourceOnly jr 0x08,
   memoryAccess lb 0x20,
   memoryAccess lbu 0x24,
   memoryAccess lh 0x21,
   memoryAccess lhu 0x25,
   ⟨lui,
    .ofPieces [.fixed 6 0x0F, .fixed 5 0, .field target 5, .field immediate 16],
    [(target, .unsigned32), (immediate, .unsigned16)]⟩,
   memoryAccess lw 0x23,
   memoryAccess lwl 0x22,
   memoryAccess lwr 0x26,
   threeRegister .max 0x2C,
   destinationOnly mfhi 0x10,
   destinationOnly mflo 0x12,
   threeRegister .min 0x2D,
   threeRegister movn 0x0B,
   threeRegister movz 0x0A,
   sourceOnly mthi 0x11,
   sourceOnly mtlo 0x13,
   twoSource mult 0x18,
   twoSource multu 0x19,
   threeRegister nor 0x27,
   threeRegister .or 0x25,
   withImmediate ori 0x0D .unsigned16,
   memoryAccess sb 0x28,
   extension seb 0x10,
   extension seh 0x18,
   memoryAccess sh 0x29,
   constantShift sll 0x00,
   variableShift sllv 0x04,
   threeRegister slt 0x2A,
   withImmediate slti 0x0A .signed16,
   withImmediate sltiu 0x0B .signed16,
   threeRegister sltu 0x2B,
   constantShift sra 0x03,
   variableShift srav 0x07,
   constantShift srl 0x02,
   variableShift srlv 0x06,
   threeRegister sub 0x22,
   threeRegister subu 0x23,
   memoryAccess sw 0x2B,
   memoryAccess swl 0x2A,
   memoryAccess swr 0x2E,
   ⟨sync, .ofPieces [.fixed 21 0, .field immediate 5, .fixed 6 0x0F], []⟩,
   ⟨syscall,
    .ofPieces [.fixed 6 0, .field immediate 20, .fixed 6 0x0C],
    [(immediate, .unsigned32)]⟩,
   threeRegister .xor 0x26,
   withImmediate xori 0x0E .unsigned16]

/-- The name of the register that an operand value names. -/
def registerText (number : UInt32) : Except Breach String :=
  match GeneralRegister.ofNumber? number.toNat with
  | some r => .ok r.name
  | none => .error (.indexOutOfBounds GeneralRegister.all.length number.toNat)

/-- The texts of the operands of a word. An offset before a base is written `offset(base)` and ends
the list; an operand that the encoding lacks counts as zero. -/
def operandTexts (p : Pattern) (word : UInt32) :
    List (Operand × Signedness) → Except Breach (List String)
  | [] => .ok []
  | (.offset, sign) :: (.base, _) :: _ => do
    let base ← registerText ((p.get? .base word).getD 0)
    return [sign.format ((p.get? .offset word).getD 0) ++ "(" ++ base ++ ")"]
  | (op, sign) :: rest => do
    let num := (p.get? op word).getD 0
    let text ← if op.isRegister then registerText num else .ok (sign.format num)
    return text :: (← operandTexts p word rest)

/-- The assembly text of a word read as this row. The zero word is `nop` in every row. -/
def format (e : Entry) (word : UInt32) : Except Breach String := do
  if word = 0 then return "nop"
  let name := e.mnemonic.name
  match ← operandTexts e.pattern word e.operands with
  | [] => return name
  | texts => return name.pushn ' ' (8 - name.length) ++ ", ".intercalate texts

end Entry

/-- A word together with the row of the table it matches. -/
structure Instruction where
  /-- The row. -/
  entry : Entry
  /-- The encoded word. -/
  word : UInt32
  deriving DecidableEq, Repr

namespace Instruction

/-- The instruction that a word encodes. -/
def decode? (word : UInt32) : Option Instruction :=
  (Entry.table.find? (·.pattern.accepts word)).map (⟨·, word⟩)

variable (i : Instruction)

/-- The mnemonic of the instruction. -/
def mnemonic : Mnemonic :=
  i.entry.mnemonic

/-- The value of an operand, if the encoding has a field for it. -/
def get? (op : Operand) : Option UInt32 :=
  i.entry.pattern.get? op i.word

/-- The value of an operand that the caller knows to be there, called `what`. -/
def operand (op : Operand) (what : String) : Except Breach UInt32 :=
  match i.get? op with
  | some value => .ok value
  | none => .error (.missingOperand what i.mnemonic.name)

/-- The source register. -/
def rs : Except Breach UInt32 :=
  i.operand .source "source register"

/-- The target register. -/
def rt : Except Breach UInt32 :=
  i.operand .target "target register"

/-- The destination register. -/
def rd : Except Breach UInt32 :=
  i.operand .destination "destination register"

/-- The base register of a memory access. -/
def base : Except Breach UInt32 :=
  i.operand .base "base register"

/-- The amount of a constant shift. -/
def shiftAmount : Except Breach UInt32 :=
  i.operand .immediate "shift amount"

/-- The immediate field as it stands. -/
def immediate : Except Breach UInt32 :=
  i.operand .immediate "immediate"

/-- The immediate field, widened from sixteen bits with its sign. -/
def signedImmediate : Except Breach UInt32 :=
  Word.signExtend16 <$> i.immediate

/-- The memory or branch offset, widened from sixteen bits with its sign. -/
def offset : Except Breach UInt32 :=
  Word.signExtend16 <$> i.operand .offset "offset"

/-- The target of a branch whose delay slot lies at `slot`: its offset counts words from there. -/
def branchTarget (slot offset : UInt32) : UInt32 :=
  slot + (Word.signExtend16 offset <<< 2)

/-- The target of an absolute jump whose delay slot lies at `slot`: a word number within the
quarter gigabyte of the delay slot. -/
def jumpTarget (slot index : UInt32) : UInt32 :=
  (slot &&& (0xF0000000 : UInt32)) ||| (index <<< (2 : UInt32))

/-- The target of a relative branch or absolute jump at `pc`. -/
def staticTarget? (pc : UInt32) : Option UInt32 :=
  if i.mnemonic.isBranch then (i.get? .offset).map (branchTarget (pc + 4))
  else if i.mnemonic = .j ∨ i.mnemonic = .jal then (i.get? .immediate).map (jumpTarget (pc + 4))
  else none

/-- The operand that names the register an instruction writes, links apart. -/
def outputOperand? (m : Mnemonic) : Option Operand :=
  match m with
  | .add | .addu | .sub | .subu | .and | .or | .xor | .nor | .slt | .sltu | .sll | .srl | .sra
  | .sllv | .srlv | .srav | .mfhi | .mflo | .movz | .movn | .clz | .clo | .max | .min | .seb | .seh
  | .jalr => some .destination
  | .addi | .addiu | .slti | .sltiu | .andi | .ori | .xori | .lui | .lb | .lbu | .lh | .lhu | .lw
  | .lwl | .lwr => some .target
  | _ => none

/-- The general purpose register the instruction writes. Register zero, which keeps its value, is
not reported. -/
def outputRegister? : Option UInt32 :=
  let register :=
    match outputOperand? i.mnemonic with
    | some op => i.get? op
    | none => if i.mnemonic.links then some 31 else none
  register.filter (· != 0)

/-- The assembly text of the instruction. -/
def text : String :=
  match i.entry.format i.word with
  | .ok s => s
  | .error _ => i.mnemonic.name

end Instruction

/-! ## Words

A word that encodes no instruction still has a place in a run of words: it ends the run, has no
delay slot and counts for one cycle. -/

/-- No straight line run of words goes on after this one, its delay slot apart. -/
def wordEndsBlock (word : UInt32) : Bool :=
  (Instruction.decode? word).all (·.mnemonic.endsBlock)

/-- The word after this one runs before control is transferred. -/
def wordHasDelaySlot (word : UInt32) : Bool :=
  (Instruction.decode? word).any (·.mnemonic.hasDelaySlot)

/-- Estimated number of guest cycles of a word. -/
def wordCycles (word : UInt32) : UInt32 :=
  ((Instruction.decode? word).map (·.mnemonic.cycles)).getD 1

/-- The target of the relative branch or absolute jump that a word at `pc` encodes. -/
def wordTarget? (word pc : UInt32) : Option UInt32 :=
  (Instruction.decode? word).bind (·.staticTarget? pc)

/-- The assembly text of a word, which need not encode an instruction. -/
def wordText (word : UInt32) : String :=
  match Instruction.decode? word with
  | some i => i.text
  | none => "unknown: " ++ Radix.binaryWord word

end Recompiler
