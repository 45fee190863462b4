/-!
# Host registers

The general purpose registers of the host by number, and the roles that generated code gives them.
A number above fifteen names no register; encodings keep what fits of it.
-/

namespace Recompiler

/-- A host register, by number. -/
structure HostRegister where
  /-- The number. -/
  number : UInt8
  deriving DecidableEq, Repr

namespace HostRegister

/-- The names of the sixteen registers. -/
def names : List String :=
  ["rax", "rcx", "rdx", "rbx", "rsp", "rbp", "rsi", "rdi",
   "r8", "r9", "r10", "r11", "r12", "r13", "r14", "r15"]

/-- The name of a register. -/
def name (r : HostRegister) : String :=
  names[r.number.toNat]?.getD "r?"

def rax : HostRegister := ⟨0⟩
def rcx : HostRegister := ⟨1⟩
def rdx : HostRegister := ⟨2⟩
def rbx : HostRegister := ⟨3⟩
def rsp : HostRegister := ⟨4⟩
def rbp : HostRegister := ⟨5⟩
def rsi : HostRegister := ⟨6⟩
def rdi : HostRegister := ⟨7⟩
def r8 : HostRegister := ⟨8⟩
def r9 : HostRegister := ⟨9⟩
def r10 : HostRegister := ⟨10⟩
def r11 : HostRegister := ⟨11⟩
def r12 : HostRegister := ⟨12⟩
def r13 : HostRegister := ⟨13⟩
def r14 : HostRegister := ⟨14⟩
def r15 : HostRegister := ⟨15⟩

/-! ## Roles -/

/-- Holds the address of the guest state while generated code runs. -/
def context : HostRegister := r15

/-- Holds the host address of the main fast region while generated code runs. -/
def memoryBase : HostRegister := r14

/-- Free for address computations; holds the results of calls. -/
def scratch : HostRegister := rax

/-- Holds the base of another fast region for the length of one access. -/
def pointer : HostRegister := rdx

/-- Registers that may hold guest registers, in the order they are handed out. Calls preserve
them. -/
def allocationOrder : List HostRegister := [rbx, rbp, r12, r13]

/-- Registers that carry the arguments of a call, in order. -/
def arguments : List HostRegister := [rdi, rsi, rdx, rcx]

/-- Registers that a function must give back unchanged, in the order they are saved. -/
def preserved : List HostRegister := [rbx, rbp, r12, r13, r14, r15]

/-- Registers that a call may change. -/
def volatile : List HostRegister := [rax, rcx, rdx, rsi, rdi, r8, r9, r10, r11]

end HostRegister

end Recompiler
