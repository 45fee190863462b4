import Recompiler.Code.Arena
import Recompiler.Host.Decoder
import Recompiler.Host.Linkage

/-!
# Running generated code

A host processor that runs the code in an arena: sixteen registers, the flags that conditions ask
for, a small stack, and beyond them the guest with its memory.

Code is read from its bytes, so that a jump that was patched goes where its bytes say. A call runs
the helper at the called address and loses what calls may change. Code that does anything else than
generated code does gets stuck.

* `Flags.holds`: the conditions.
* `HostMachine.execute`: the effect of one instruction.
* `HostMachine.run`: running until control returns to the host.
-/

namespace Recompiler

/-! ## Flags -/

/-- The flags that conditions ask for. -/
structure Flags where
  /-- Unsigned overflow. -/
  carry : Bool
  /-- The result is zero. -/
  zero : Bool
  /-- The sign of the result. -/
  sign : Bool
  /-- Signed overflow. -/
  overflow : Bool
  deriving DecidableEq, Repr

namespace Flags

/-- No flag is set. -/
def clear : Flags := ⟨false, false, false, false⟩

/-- The sign bit of a word. -/
def signBit (w : UInt32) : Bool :=
  0x80000000 ≤ w

/-- The flags of a subtraction or comparison. -/
def ofSub (a b : UInt32) : Flags where
  carry := a < b
  zero := a == b
  sign := signBit (a - b)
  overflow := signBit ((a ^^^ b) &&& (a ^^^ (a - b)))

/-- The flags of an addition. -/
def ofAdd (a b : UInt32) : Flags where
  carry := a + b < a
  zero := a + b == 0
  sign := signBit (a + b)
  overflow := signBit ((a ^^^ (a + b)) &&& (b ^^^ (a + b)))

/-- The flags of a logical operation with the given result. -/
def ofLogic (result : UInt32) : Flags :=
  ⟨false, result == 0, signBit result, false⟩

/-- The condition holds of the flags. -/
def holds (f : Flags) : Condition → Bool
  | .equal => f.zero
  | .notEqual => !f.zero
  | .less => f.sign != f.overflow
  | .lessEqual => f.zero || f.sign != f.overflow
  | .greater => !(f.zero || f.sign != f.overflow)
  | .greaterEqual => f.sign == f.overflow
  | .below => f.carry
  | .belowEqual => f.carry || f.zero
  | .above => !(f.carry || f.zero)
  | .aboveEqual => !f.carry

end Flags

/-- The result and the flags of an operation of the two operand group. A comparison has the result
of its left hand side. -/
def GroupOp.apply (op : GroupOp) (a b : UInt32) : UInt32 × Flags :=
  match op with
  | add => (a + b, .ofAdd a b)
  | or => (a ||| b, .ofLogic (a ||| b))
  | and => (a &&& b, .ofLogic (a &&& b))
  | sub => (a - b, .ofSub a b)
  | xor => (a ^^^ b, .ofLogic (a ^^^ b))
  | compare => (a, .ofSub a b)

/-! ## The machine -/

/-- A host processor with the guest it works on. -/
structure HostMachine (β : Type) where
  /-- The registers by number. -/
  registers : Vector UInt64 16
  /-- The flags. -/
  flags : Flags
  /-- The stack, lowest address first. -/
  stack : Vector UInt64 Linkage.stackSlots
  /-- The offset of the next instruction. -/
  ip : Nat
  /-- The guest. -/
  env : Environment β

namespace HostMachine

variable {β : Type} (m : HostMachine β)

/-- What a register holds. -/
def get (r : HostRegister) : UInt64 :=
  m.registers[Fin.ofNat 16 r.number.toNat]

/-- The machine with a register written. -/
def set (r : HostRegister) (value : UInt64) : HostMachine β :=
  { m with registers := m.registers.set (Fin.ofNat 16 r.number.toNat) value }

/-- The low half of a register. -/
def getWord (r : HostRegister) : UInt32 :=
  (m.get r).toUInt32

/-- The machine with the low half of a register written and the upper half cleared. -/
def setWord (r : HostRegister) (value : UInt32) : HostMachine β :=
  m.set r value.toUInt64

/-- The machine with other flags. -/
def setFlags (flags : Flags) : HostMachine β :=
  { m with flags := flags }

/-- What calls leave in the registers they may change. -/
def lost : UInt64 := 0xCDCDCDCDCDCDCDCD

/-- The machine after a call lost what it may lose. -/
def loseVolatile : HostMachine β :=
  HostRegister.volatile.foldl (fun m r => m.set r lost) m

/-! ### Memory -/

/-- The address of a memory operand. -/
def address (a : HostAddress) : UInt64 :=
  m.get a.base + (a.index.map m.get).getD 0 + a.displacement.toInt32.toInt64.toUInt64

/-- The state word at a host address. -/
def stateSlot? (addr : UInt64) : Option Nat :=
  let distance := addr - Linkage.contextBase
  if distance &&& 3 = 0 ∧ (distance >>> 2).toNat < Slot.count then some (distance >>> 2).toNat
  else none

/-- The number of the stack slot at a host address. -/
def stackSlot? (addr : UInt64) : Option (Fin Linkage.stackSlots) :=
  let distance := addr - Linkage.stackBase
  let slot := (distance >>> 3).toNat
  if h : slot < Linkage.stackSlots then if distance &&& 7 = 0 then some ⟨slot, h⟩ else none
  else none

variable [Bus β]

/-- Reads a value of a width, widened with zeros. State words are read whole. -/
def readMemory (width : Width) (addr : UInt64) : Option UInt32 :=
  match stateSlot? addr with
  | some slot => if width = .word then some (m.env.state.get slot) else none
  | none =>
    Word.ofBytes <$> (List.range width.size).mapM fun i =>
      Bus.hostByte? m.env.bus (addr + i.toUInt64)

/-- Writes the low part of a value. -/
def writeMemory (width : Width) (addr : UInt64) (value : UInt32) : Option (HostMachine β) :=
  match stateSlot? addr with
  | some slot =>
    if width = .word then some { m with env := m.env.setWord slot value } else none
  | none =>
    if (List.range width.size).all fun i =>
        (Bus.hostByte? m.env.bus (addr + i.toUInt64)).isSome then
      let bytes := ((Word.bytes value).take width.size).zipIdx
      let ⟨registers, flags, stack, ip, ⟨state, bus, events⟩⟩ := m
      let bus := bytes.foldl (fun bus (b, i) => Bus.setHostByte bus (addr + i.toUInt64) b) bus
      some ⟨registers, flags, stack, ip, ⟨state, bus, events⟩⟩
    else none

/-- Reads what an instruction operates on. -/
def readPlace : Place → Option UInt32
  | .register r => some (m.getWord r)
  | .memory a => m.readMemory .word (m.address a)

/-- Writes what an instruction operates on. -/
def writePlace (p : Place) (value : UInt32) : Option (HostMachine β) :=
  match p with
  | .register r => some (m.setWord r value)
  | .memory a => m.writeMemory .word (m.address a) value

/-! ### The stack and calls -/

omit [Bus β] in
/-- Pushes a value. -/
def pushValue (value : UInt64) : Option (HostMachine β) := do
  let top := m.get .rsp - 8
  let slot ← stackSlot? top
  let m := m.set .rsp top
  return { m with stack := m.stack.set slot value }

omit [Bus β] in
/-- Pops a value. -/
def popValue : Option (UInt64 × HostMachine β) := do
  let top := m.get .rsp
  let slot ← stackSlot? top
  return (m.stack[slot], m.set .rsp (top + 8))

/-- Runs a helper with the arguments in the argument registers. -/
def callHelper (h : Helper) : Option (HostMachine β) := do
  if m.get .rdi ≠ Linkage.contextBase then none
  let second := m.getWord .rsi
  let third := m.get .rdx
  let ⟨registers, flags, stack, ip, env⟩ := m
  match h with
  | .load kind =>
    let (value, env) := env.load kind second
    let m : HostMachine β := ⟨registers, flags, stack, ip, env⟩
    return m.loseVolatile.setWord .rax value
  | .store width =>
    let m : HostMachine β := ⟨registers, flags, stack, ip, env.write width second third.toUInt32⟩
    return m.loseVolatile
  | .interpret =>
    let i ← Instruction.interpreted? second
    if i.mnemonic.routineAddress ≠ third then none
    let m : HostMachine β := ⟨registers, flags, stack, ip, i.interpret env⟩
    return m.loseVolatile

/-! ### Instructions -/

/-- Where a step leads. -/
inductive Outcome (β : Type) where
  | running (m : HostMachine β)
  /-- Control returned to the host. -/
  | returned (m : HostMachine β)

/-- The offset of the code at a host address. -/
def codeOffset (addr : UInt64) : Nat :=
  (addr - Linkage.codeBase).toNat

omit [Bus β] in
/-- Jumps by a distance. -/
def jumpBy (distance : UInt32) : HostMachine β :=
  { m with ip := (m.ip.toUInt64 + distance.toInt32.toInt64.toUInt64).toNat }

/-- The effect of an instruction on a machine whose `ip` already lies behind it, jumps and returns
apart. -/
def executeStraight : HostInstruction → Option (HostMachine β)
  | .move dst src => some (m.setWord dst (m.getWord src))
  | .moveWide dst src => some (m.set dst (m.get src))
  | .moveImmediate dst value => some (m.setWord dst value)
  | .movePointer dst value => some (m.set dst value)
  | .load kind dst src => do
    let value ← m.readMemory kind.width (m.address src)
    return m.setWord dst (kind.extend value)
  | .store width dst src => m.writeMemory width (m.address dst) (m.getWord src)
  | .storeImmediate dst value => m.writeMemory .word (m.address dst) value
  | .group op dst src => do
    let (result, flags) := op.apply (m.getWord dst) (m.getWord src)
    let m := m.setFlags flags
    return if op = .compare then m else m.setWord dst result
  | .groupImmediate op dst value => do
    let (result, flags) := op.apply (← m.readPlace dst) value
    let m := m.setFlags flags
    if op = .compare then return m else m.writePlace dst result
  | .negate dst =>
    let value := m.getWord dst
    some ((m.setWord dst (0 - value)).setFlags (.ofSub 0 value))
  | .complement dst => some (m.setWord dst (~~~(m.getWord dst)))
  | .shift op dst amount =>
    -- The flags after a shift or a product are not relied on.
    some ((m.setWord dst (op.fold (m.getWord dst) amount.toUInt32)).setFlags .clear)
  | .shiftByCount op dst =>
    let amount := (m.getWord .rcx).toUInt8.toUInt32
    some ((m.setWord dst (op.fold (m.getWord dst) amount)).setFlags .clear)
  | .multiply signed factor =>
    let (hi, lo) := (if signed then signedProduct else unsignedProduct) (m.getWord .rax)
      (m.getWord factor)
    some (((m.setWord .rax lo).setWord .rdx hi).setFlags .clear)
  | .setLow c =>
    let upper := m.get .rax &&& 0xFFFFFFFFFFFFFF00
    some (m.set .rax (upper ||| (bit (m.flags.holds c)).toUInt64))
  | .widenLow dst => some (m.setWord dst (m.getWord .rax).toUInt8.toUInt32)
  | .loadAddress dst src => some (m.setWord dst (m.address src).toUInt32)
  | .call target => do m.callHelper (← Helper.ofAddress? (m.get target))
  | .push src => m.pushValue (m.get src)
  | .pop dst => do
    let (value, m) ← m.popValue
    return m.set dst value
  | .growStack bytes => some (m.set .rsp (m.get .rsp - bytes.toUInt64))
  | .shrinkStack bytes => some (m.set .rsp (m.get .rsp + bytes.toUInt64))
  | .nop => some m
  | .jump _ | .jumpIf .. | .jumpRegister _ | .ret | .trap => none

/-- The effect of an instruction on a machine whose `ip` already lies behind it. -/
def execute : HostInstruction → Option (Outcome β)
  | .jump distance => some (.running (m.jumpBy distance))
  | .jumpIf c distance =>
    some (.running (if m.flags.holds c then m.jumpBy distance else m))
  | .jumpRegister target => some (.running { m with ip := codeOffset (m.get target) })
  | .ret => do
    let (target, m) ← m.popValue
    if target = Linkage.returnAddress then return .returned m else none
  | i => .running <$> m.executeStraight i

/-- Runs the instruction at the current offset. -/
def step (code : Arena) : Option (Outcome β) := do
  let window := code.window m.ip HostInstruction.maxLength
  let (i, rest) ← HostInstruction.decode? window
  execute { m with ip := m.ip + (window.length - rest.length) } i

/-- Runs at most `fuel` instructions, until control returns to the host. -/
def run (code : Arena) : (fuel : Nat) → HostMachine β → Option (HostMachine β)
  | 0, _ => none
  | fuel + 1, m =>
    match m.step code with
    | some (.running m) => run code fuel m
    | some (.returned m) => some m
    | none => none

/-- The machine that calls the code at offset `enter` with the address of the guest state, that of
the main region and that of the code at offset `entry`. -/
def start (env : Environment β) (memoryBase : UInt64) (enter entry : Nat) : HostMachine β :=
  let top := Linkage.stackBase + 8 * (Linkage.stackSlots - 1).toUInt64
  let m : HostMachine β :=
    { registers := Vector.replicate 16 lost
      flags := .clear
      stack := (Vector.replicate Linkage.stackSlots 0).set (Linkage.stackSlots - 1)
        Linkage.returnAddress
      ip := enter
      env := env }
  m.set .rsp top |>.set .rdi Linkage.contextBase |>.set .rsi memoryBase
    |>.set .rdx (Linkage.codeBase + entry.toUInt64)

end HostMachine

end Recompiler
