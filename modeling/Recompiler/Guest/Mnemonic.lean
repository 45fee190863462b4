/-!
# Guest mnemonics

The instructions of the 32-bit integer set by name, and how each one bears on control flow.

* `Mnemonic.endsBlock`, `Mnemonic.hasDelaySlot`, `Mnemonic.discardsDelaySlot`, `Mnemonic.links`:
  the classes that decide how far a run of instructions reaches.
* `Mnemonic.cycles`: the estimated cost.
-/

namespace Recompiler

/-- The name of a guest instruction. -/
inductive Mnemonic where
  | add | addi | addiu | addu | and | andi
  | beq | beql | bgez | bgezal | bgezall | bgezl | bgtz | bgtzl | blez | blezl
  | bltz | bltzal | bltzall | bltzl | bne | bnel
  | breakpoint | cache | clo | clz | div | divu | j | jal | jalr | jr
  | lb | lbu | lh | lhu | lui | lw | lwl | lwr
  | max | mfhi | mflo | min | movn | movz | mthi | mtlo | mult | multu
  | nor | or | ori | sb | seb | seh | sh | sll | sllv
  | slt | slti | sltiu | sltu | sra | srav | srl | srlv
  | sub | subu | sw | swl | swr | sync | syscall | xor | xori
  deriving DecidableEq, Repr

namespace Mnemonic

/-- Every mnemonic, in alphabetical order. -/
def all : List Mnemonic :=
  [add, addi, addiu, addu, and, andi,
   beq, beql, bgez, bgezal, bgezall, bgezl, bgtz, bgtzl, blez, blezl,
   bltz, bltzal, bltzall, bltzl, bne, bnel,
   breakpoint, cache, clo, clz, div, divu, j, jal, jalr, jr,
   lb, lbu, lh, lhu, lui, lw, lwl, lwr,
   max, mfhi, mflo, min, movn, movz, mthi, mtlo, mult, multu,
   nor, or, ori, sb, seb, seh, sh, sll, sllv,
   slt, slti, sltiu, sltu, sra, srav, srl, srlv,
   sub, subu, sw, swl, swr, sync, syscall, xor, xori]

/-- The text of a mnemonic. -/
def name : Mnemonic → String
  | add => "add" | addi => "addi" | addiu => "addiu" | addu => "addu"
  | and => "and" | andi => "andi"
  | beq => "beq" | beql => "beql"
  | bgez => "bgez" | bgezal => "bgezal" | bgezall => "bgezall" | bgezl => "bgezl"
  | bgtz => "bgtz" | bgtzl => "bgtzl" | blez => "blez" | blezl => "blezl"
  | bltz => "bltz" | bltzal => "bltzal" | bltzall => "bltzall" | bltzl => "bltzl"
  | bne => "bne" | bnel => "bnel"
  | breakpoint => "break" | cache => "cache" | clo => "clo" | clz => "clz"
  | div => "div" | divu => "divu" | j => "j" | jal => "jal" | jalr => "jalr" | jr => "jr"
  | lb => "lb" | lbu => "lbu" | lh => "lh" | lhu => "lhu"
  | lui => "lui" | lw => "lw" | lwl => "lwl" | lwr => "lwr"
  | max => "max" | mfhi => "mfhi" | mflo => "mflo" | min => "min"
  | movn => "movn" | movz => "movz" | mthi => "mthi" | mtlo => "mtlo"
  | mult => "mult" | multu => "multu" | nor => "nor" | or => "or" | ori => "ori"
  | sb => "sb" | seb => "seb" | seh => "seh" | sh => "sh"
  | sll => "sll" | sllv => "sllv" | slt => "slt" | slti => "slti"
  | sltiu => "sltiu" | sltu => "sltu" | sra => "sra" | srav => "srav"
  | srl => "srl" | srlv => "srlv" | sub => "sub" | subu => "subu"
  | sw => "sw" | swl => "swl" | swr => "swr"
  | sync => "sync" | syscall => "syscall" | xor => "xor" | xori => "xori"

/-- A conditional branch relative to the program counter. -/
def isBranch : Mnemonic → Bool
  | beq | beql | bgez | bgezal | bgezall | bgezl | bgtz | bgtzl | blez | blezl
  | bltz | bltzal | bltzall | bltzl | bne | bnel => true
  | _ => false

/-- An unconditional jump. -/
def isJump : Mnemonic → Bool
  | j | jal | jalr | jr => true
  | _ => false

/-- No straight line run of instructions goes on after this one, its delay slot apart. -/
def endsBlock (m : Mnemonic) : Bool :=
  m.isBranch || m.isJump || m == syscall || m == breakpoint

/-- A likely branch: its delay slot runs only when it is taken. -/
def discardsDelaySlot : Mnemonic → Bool
  | beql | bgezall | bgezl | bgtzl | blezl | bltzall | bltzl | bnel => true
  | _ => false

/-- The following instruction runs before control is transferred. -/
def hasDelaySlot (m : Mnemonic) : Bool :=
  m.isBranch || m.isJump

/-- The return address is written into `ra`, whatever the outcome of the branch. -/
def links : Mnemonic → Bool
  | jal | bgezal | bgezall | bltzal | bltzall => true
  | _ => false

/-- Estimated number of guest cycles, used for scheduling. -/
def cycles : Mnemonic → UInt32
  | mult | multu => 5
  | div | divu => 36
  | _ => 1

/-- The mnemonic with a text, if there is one. -/
def ofName? (s : String) : Option Mnemonic :=
  all.find? (·.name == s)

theorem endsBlock_of_hasDelaySlot {m : Mnemonic} (h : m.hasDelaySlot = true) :
    m.endsBlock = true := by
  cases m <;> first | rfl | exact absurd h (by decide)

end Mnemonic

end Recompiler
