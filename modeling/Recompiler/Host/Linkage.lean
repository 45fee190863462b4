import Recompiler.Guest.Interpreter

/-!
# Linkage

The host addresses that generated code knows: those of the guest state, of the code itself, of the
stack, and of the helpers it calls. Guest memory lies outside the ranges given here.

* `Helper`: the functions that generated code calls.
* `Helper.address`, `Helper.ofAddress?`: their host addresses.
* `Mnemonic.routineAddress`: what stands for the interpretation of an instruction.
-/

namespace Recompiler

namespace Linkage

/-- The host address of the guest state. -/
def contextBase : UInt64 := 0x100000000000

/-- The host address of generated code. -/
def codeBase : UInt64 := 0x200000000000

/-- The host address of the lowest stack slot. -/
def stackBase : UInt64 := 0x300000000000

/-- The number of stack slots. -/
def stackSlots : Nat := 16

/-- The address that generated code returns to. -/
def returnAddress : UInt64 := 0x400000000000

/-- The host address of the first helper. -/
def helperBase : UInt64 := 0x500000000000

/-- The host address of the first interpreter routine. -/
def routineBase : UInt64 := 0x600000000000

/-- The distance between the addresses of two functions. -/
def functionSize : UInt64 := 16

/-- The host address of memory number `n` behind the bus. -/
def memoryBase (n : Nat) : UInt64 :=
  (n + 1).toUInt64 <<< 48

end Linkage

/-- A function that generated code calls. -/
inductive Helper where
  /-- Reads guest memory: context and address in, the widened value out. -/
  | load (kind : LoadKind)
  /-- Writes guest memory: context, address and value. -/
  | store (width : Width)
  /-- Interprets an instruction: context, word and routine. -/
  | interpret
  deriving DecidableEq, Repr

namespace Helper

/-- Every helper. -/
def all : List Helper :=
  [.load .u8, .load .s8, .load .u16, .load .s16, .load .u32,
   .store .byte, .store .half, .store .word, .interpret]

/-- The host address of a helper. -/
def address (h : Helper) : UInt64 :=
  Linkage.helperBase + (all.idxOf h).toUInt64 * Linkage.functionSize

/-- The helper at a host address. -/
def ofAddress? (a : UInt64) : Option Helper :=
  all.find? (·.address == a)

end Helper

/-- The host address of the routine that interprets an instruction. Instructions with the same
effect may have different addresses. -/
def Mnemonic.routineAddress (m : Mnemonic) : UInt64 :=
  Linkage.routineBase + m.ctorIdx.toUInt64 * Linkage.functionSize

end Recompiler
