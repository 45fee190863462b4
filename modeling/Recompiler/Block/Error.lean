import Recompiler.Breach
import Recompiler.Memory.Bus

/-!
# Failed compilations

Why a block could not be compiled.
-/

namespace Recompiler

/-- Why a block could not be compiled. -/
inductive CompileError where
  /-- Every host register holds a guest register that is in use. -/
  | outOfSpillableRegisters (pc : UInt32)
  /-- A guest register was asked for that lives in no host register. -/
  | registerNotMapped (pc : UInt32) (register : Nat)
  | invalidInstruction (pc word : UInt32)
  /-- There is neither code for an instruction nor an interpretation of it. -/
  | noFallback (pc word : UInt32)
  /-- An instruction could not be read. -/
  | fetch (pc : UInt32) (cause : BusError)
  | codeSpaceExhausted
  deriving DecidableEq, Repr

namespace CompileError

/-- The wording of a failed compilation. -/
def message : CompileError → String
  | outOfSpillableRegisters pc => s!"all host registers are spill locked at {Radix.hexWord pc}"
  | registerNotMapped pc register =>
    s!"guest register {register} is not mapped at {Radix.hexWord pc}"
  | invalidInstruction pc word =>
    s!"invalid instruction {Radix.hexWord word} at {Radix.hexWord pc}"
  | noFallback pc word =>
    s!"no code generation or interpreter routine for {Radix.hexWord word} at {Radix.hexWord pc}"
  | fetch pc _ => s!"failed to fetch the instruction at {Radix.hexWord pc}"
  | codeSpaceExhausted => "ran out of code space"

end CompileError

/-- Why an operation on blocks gave no result. -/
inductive Failure where
  | compile (e : CompileError)
  | breach (b : Breach)
  deriving DecidableEq, Repr

end Recompiler
