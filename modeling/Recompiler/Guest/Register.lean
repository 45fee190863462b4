/-!
# Guest registers

The thirty-two general purpose registers and the three registers that no operand field names.
Both kinds are numbered from zero, and the number is the place in the register file.

* `GeneralRegister.name`, `SpecialRegister.name`: the name of a register.
* `GeneralRegister.ofNumber?`, `SpecialRegister.ofNumber?`: the register with a number.
* `GeneralRegister.ofInt`, `SpecialRegister.ofInt`: the register in an integer of any width.
-/

namespace Recompiler

/-- A general purpose register. -/
inductive GeneralRegister where
  | zero
  /-- Reserved for the assembler. -/
  | assembler
  | v0 | v1 | a0 | a1 | a2 | a3
  | t0 | t1 | t2 | t3 | t4 | t5 | t6 | t7
  | s0 | s1 | s2 | s3 | s4 | s5 | s6 | s7
  | t8 | t9 | k0 | k1 | gp | sp | s8 | ra
  deriving DecidableEq, Repr

/-- A register that no operand field of an instruction can name. -/
inductive SpecialRegister where
  /-- Upper word of a product, or the remainder of a division. -/
  | hi
  /-- Lower word of a product, or the quotient of a division. -/
  | lo
  /-- The program counter. -/
  | pc
  deriving DecidableEq, Repr

namespace GeneralRegister

/-- Every general purpose register, in order of the numbers. -/
def all : List GeneralRegister :=
  [zero, assembler, v0, v1, a0, a1, a2, a3, t0, t1, t2, t3, t4, t5, t6, t7,
   s0, s1, s2, s3, s4, s5, s6, s7, t8, t9, k0, k1, gp, sp, s8, ra]

/-- The number of a register. -/
def number (r : GeneralRegister) : Nat :=
  r.ctorIdx

/-- The name of a register. -/
def name : GeneralRegister → String
  | zero => "zero" | assembler => "at" | v0 => "v0" | v1 => "v1"
  | a0 => "a0" | a1 => "a1" | a2 => "a2" | a3 => "a3"
  | t0 => "t0" | t1 => "t1" | t2 => "t2" | t3 => "t3"
  | t4 => "t4" | t5 => "t5" | t6 => "t6" | t7 => "t7"
  | s0 => "s0" | s1 => "s1" | s2 => "s2" | s3 => "s3"
  | s4 => "s4" | s5 => "s5" | s6 => "s6" | s7 => "s7"
  | t8 => "t8" | t9 => "t9" | k0 => "k0" | k1 => "k1"
  | gp => "gp" | sp => "sp" | s8 => "s8" | ra => "ra"

/-- The register with a number, if there is one. -/
def ofNumber? (n : Nat) : Option GeneralRegister :=
  all[n]?

theorem ofNumber?_number (r : GeneralRegister) : ofNumber? r.number = some r := by
  cases r <;> rfl

end GeneralRegister

namespace SpecialRegister

/-- Every special register, in order of the numbers. -/
def all : List SpecialRegister :=
  [hi, lo, pc]

/-- The number of a register. -/
def number (r : SpecialRegister) : Nat :=
  r.ctorIdx

/-- The name of a register. -/
def name : SpecialRegister → String
  | hi => "hi" | lo => "lo" | pc => "pc"

/-- The register with a number, if there is one. -/
def ofNumber? (n : Nat) : Option SpecialRegister :=
  all[n]?

theorem ofNumber?_number (r : SpecialRegister) : ofNumber? r.number = some r := by
  cases r <;> rfl

end SpecialRegister

/-- The register number in an integer: its low eight bits, whatever its width and sign. -/
def registerNumber (value : Int) : Nat :=
  (value % 256).toNat

/-- No register has the number in `value`. -/
structure InvalidRegister where
  /-- The whole integer, not just the bits that were looked up. -/
  value : Int
  deriving DecidableEq, Repr

namespace InvalidRegister

/-- The wording of a failed conversion. -/
def message (e : InvalidRegister) : String :=
  s!"invalid register index: {e.value}"

end InvalidRegister

/-- The general purpose register that an integer names by its low eight bits. -/
def GeneralRegister.ofInt (value : Int) : Except InvalidRegister GeneralRegister :=
  match ofNumber? (registerNumber value) with
  | some r => .ok r
  | none => .error ⟨value⟩

/-- The special register that an integer names by its low eight bits. -/
def SpecialRegister.ofInt (value : Int) : Except InvalidRegister SpecialRegister :=
  match ofNumber? (registerNumber value) with
  | some r => .ok r
  | none => .error ⟨value⟩

end Recompiler
