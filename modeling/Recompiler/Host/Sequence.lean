import Recompiler.Breach
import Recompiler.Guest.State
import Recompiler.Host.Instruction

/-!
# Instruction sequences

The instruction sequences that generated code is put together from. Registers have fixed roles
(`HostRegister.context` and following); operands may otherwise alias in any way.

Transfers between registers and the guest state leave the flags alone, so that they can stand
between a comparison and the jump that asks for its outcome.

* `Sequence.alu`, `Sequence.shift`, `Sequence.setCondition`, `Sequence.multiply`: arithmetic.
* `Sequence.loadState`, `Sequence.storeState` and following: the guest state.
* `Sequence.loadHost`, `Sequence.storeHost`: memory reached directly.
* `Sequence.call`: calling a helper.
* `Sequence.enter`, `Sequence.leave`: the ways into generated code and back.
-/

namespace Recompiler

/-- The right hand side of an operation. -/
inductive Source where
  | register (r : HostRegister)
  | immediate (value : UInt32)
  deriving DecidableEq, Repr

/-- An address in memory that is reached directly. -/
inductive FastAddress where
  /-- An offset from the main region, held in a register. -/
  | indexed (index : HostRegister)
  /-- A constant offset from the main region. -/
  | fixed (offset : UInt32)
  /-- An offset held in a register, from a host address held in another. -/
  | based (base index : HostRegister)
  deriving DecidableEq, Repr

/-- The host address of a fast address. A constant offset must be a positive displacement. -/
def FastAddress.resolve : FastAddress → Except Breach HostAddress
  | indexed index => .ok ⟨.memoryBase, some index, 0⟩
  | fixed offset =>
    if offset < 0x80000000 then .ok ⟨.memoryBase, none, offset⟩
    else .error .displacementOutOfRange
  | based base index => .ok ⟨base, some index, 0⟩

/-- An argument of a helper. -/
inductive Argument where
  /-- The address of the guest state. -/
  | context
  | register (r : HostRegister)
  | immediate (value : UInt32)
  /-- A 64-bit constant. -/
  | pointer (value : UInt64)
  deriving DecidableEq, Repr

namespace Sequence

open HostRegister

/-! ## Registers and the guest state -/

/-- The host address of the state word `offset` bytes behind the first. -/
def stateAddress (offset : UInt32) : HostAddress :=
  ⟨.context, none, offset⟩

def loadState (dst : HostRegister) (offset : UInt32) : List HostInstruction :=
  [.load .u32 dst (stateAddress offset)]

def storeState (offset : UInt32) (src : HostRegister) : List HostInstruction :=
  [.store .word (stateAddress offset) src]

def storeStateImmediate (offset value : UInt32) : List HostInstruction :=
  [.storeImmediate (stateAddress offset) value]

/-- Copies a register; nothing for a register and itself. -/
def move (dst src : HostRegister) : List HostInstruction :=
  if dst = src then [] else [.move dst src]

def moveImmediate (dst : HostRegister) (value : UInt32) : List HostInstruction :=
  [.moveImmediate dst value]

def movePointer (dst : HostRegister) (value : UInt64) : List HostInstruction :=
  [.movePointer dst value]

/-! ## Arithmetic -/

/-- `dst op= src` for an operation of the two operand group. -/
def group (op : GroupOp) (dst : HostRegister) : Source → HostInstruction
  | .register src => .group op dst src
  | .immediate value => .groupImmediate op (.register dst) value

/-- `dst = lhs op rhs`. -/
def alu (op : AluOp) (dst lhs : HostRegister) (rhs : Source) : List HostInstruction :=
  let body :=
    if rhs = .register dst ∧ lhs ≠ dst then
      if op.isCommutative then [.group (.ofAlu op) dst lhs]
      else [.negate dst, .group .add dst lhs]
    else move dst lhs ++ [group (.ofAlu op) dst rhs]
  if op = .nor then body ++ [.complement dst] else body

/-- `dst = src shifted by amount`. -/
def shift (op : ShiftOp) (dst src : HostRegister) : (amount : Source) → List HostInstruction
  | .immediate amount =>
    move dst src ++
      if amount &&& 31 = 0 then [] else [.shift op dst (amount &&& 31).toUInt8]
  | .register amount => move rcx amount ++ move dst src ++ [.shiftByCount op dst]

def compare (lhs : HostRegister) (rhs : Source) : List HostInstruction :=
  [group .compare lhs rhs]

/-- `dst = 1` if the condition holds of the operands, and `0` if not. -/
def setCondition (c : Condition) (dst lhs : HostRegister) (rhs : Source) :
    List HostInstruction :=
  compare lhs rhs ++ [.setLow c, .widenLow dst]

/-- Compares a state word with a constant. -/
def compareState (offset value : UInt32) : List HostInstruction :=
  [.groupImmediate .compare (.memory (stateAddress offset)) value]

/-- Takes a constant off a state word; the flags are those of comparing the old word with it. -/
def subtractState (offset value : UInt32) : List HostInstruction :=
  [.groupImmediate .sub (.memory (stateAddress offset)) value]

/-- Stores the outcome of the last comparison in a state word, as 1 or 0. -/
def storeCondition (c : Condition) (offset : UInt32) : List HostInstruction :=
  [.setLow c, .widenLow rax] ++ storeState offset rax

/-- Stores the two halves of a product in two state words. -/
def multiply (signed : Bool) (lhs rhs : HostRegister) (hi lo : UInt32) : List HostInstruction :=
  move rax lhs ++ [.multiply signed rhs] ++ storeState lo rax ++ storeState hi rdx

/-- `dst = base + displacement`. -/
def loadAddress (dst base : HostRegister) (displacement : UInt32) : List HostInstruction :=
  [.loadAddress dst ⟨base, none, displacement⟩]

/-! ## Memory -/

def loadHost (kind : LoadKind) (dst : HostRegister) (addr : FastAddress) :
    Except Breach (List HostInstruction) := do
  return [.load kind dst (← addr.resolve)]

def storeHost (width : Width) (addr : FastAddress) (src : HostRegister) :
    Except Breach (List HostInstruction) := do
  return [.store width (← addr.resolve) src]

/-! ## Calls -/

/-- Moves an argument into its register. -/
def passArgument (dst : HostRegister) : Argument → List HostInstruction
  | .context => [.moveWide dst .context]
  | .register src => move dst src
  | .immediate value => moveImmediate dst value
  | .pointer value => movePointer dst value

/-- Calls the function at a host address. The result lands in `HostRegister.scratch`. -/
def call (function : UInt64) (args : List Argument) : Except Breach (List HostInstruction) :=
  if HostRegister.arguments.length < args.length then .error .tooManyArguments
  else .ok ((HostRegister.arguments.zip args).flatMap (fun (dst, arg) => passArgument dst arg)
    ++ movePointer rax function ++ [.call rax])

/-- The way in: saves what the host expects back, gives registers their roles, and jumps to the
entry. It is called with the address of the guest state, the address of the main region and the
entry. -/
def enter : List HostInstruction :=
  HostRegister.preserved.map .push ++
    -- Six saved registers and a return address leave the stack off its sixteen byte boundary.
    [.growStack 8, .moveWide .context rdi, .moveWide .memoryBase rsi, .jumpRegister rdx]

/-- The way out: undoes `enter` and returns what `HostRegister.scratch` holds. -/
def leave : List HostInstruction :=
  [.shrinkStack 8] ++ HostRegister.preserved.reverse.map .pop ++ [.ret]

end Sequence

end Recompiler
