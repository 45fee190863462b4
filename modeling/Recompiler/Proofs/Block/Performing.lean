import Recompiler.Block.Branch
import Recompiler.Proofs.Block.GuardedAccess
import Recompiler.Proofs.Code.Calls
import Recompiler.Proofs.Guest.Interpreter
import Recompiler.Proofs.Memory.Backed

/-!
# What generated code makes of an instruction

Generated code does what the interpreter does, with two differences. Loads and stores that lie in a
fast region bypass the bus, and an instruction that is left to the interpreter finds its address in
the guest state.

* `Options.place?`: where a load or store bypasses the bus.
* `MemoryOp.act`: a single access, by the bus or past it.
* `Instruction.perform`: the effect of an instruction that does not transfer control.
* `Instruction.calls`: the calls for interpretation.
* `Instruction.Spares.get_perform`, `Instruction.evolves_perform`: what it leaves alone.
-/

namespace Recompiler

variable {β : Type} [Bus β]

/-! ## Accesses -/

/-- Where an access goes to host memory, if it does not go to the bus. An address that is `known`
during lowering is looked up there. Any other is masked, or compared with one region after the
other. -/
def Options.place? (o : Options) (regions : List FastRegion) (known : Bool) (addr : UInt32)
    (size : Nat) : Option UInt64 :=
  if known then (findRegion regions addr size).map fun x => x.2.1.pointer + x.2.2.toUInt64
  else
    match regions with
    | [] => none
    | main :: _ =>
      if o.fastMemory then
        if main.length.toNat < size then none
        else
          let mask := (main.length - 1) &&& ~~~(size.toUInt32 - 1)
          some (main.pointer + ((addr - main.start) &&& mask).toUInt64)
      else
        (Lower.firstHit regions.zipIdx addr size).map fun x => x.1.1.pointer + x.2.toUInt64

namespace MemoryOp

/-- The access is a load. -/
def isLoad : MemoryOp → Bool
  | load _ => true
  | store _ => false

/-- The value that an access loads, and the guest afterwards. Host memory that is not there reads as
zero. -/
def act (op : MemoryOp) (place? : Option UInt64) (addr stored : UInt32) (e : Environment β) :
    UInt32 × Environment β :=
  match place?, op with
  | none, load kind => e.load kind addr
  | none, store width => (0, e.write width addr stored)
  | some pointer, load kind =>
    (kind.extend ((Bus.hostWord? e.bus kind.width pointer).getD 0), e)
  | some pointer, store width =>
    (0, { e with bus := Bus.setHostWord e.bus width pointer stored })

variable (op : MemoryOp) (place? : Option UInt64) (addr stored : UInt32) (e : Environment β)

theorem state_act : (op.act place? addr stored e).2.state = e.state := by
  cases place? <;> cases op
  · exact Environment.state_load _ _
  · exact Environment.state_write _ _ _
  · rfl
  · rfl

theorem evolves_act : Bus.Evolves e.bus (op.act place? addr stored e).2.bus := by
  cases place? <;> cases op
  · exact e.evolves_load _ _
  · exact e.evolves_write _ _ _
  · exact .refl _
  · exact .setHostWord _ _ _ _

/-- Accesses do not look at the guest processor. -/
theorem act_congr {e e' : Environment β} (hbus : e'.bus = e.bus) (hevents : e'.events = e.events) :
    op.act place? addr stored e' =
      ((op.act place? addr stored e).1,
        { (op.act place? addr stored e).2 with state := e'.state }) := by
  obtain ⟨state, bus, events⟩ := e
  obtain ⟨state', bus', events'⟩ := e'
  cases hbus
  cases hevents
  cases place? <;> cases op
  · next kind =>
    simp only [act, Environment.load, Environment.read]
    generalize Bus.read kind.width addr bus = r
    obtain ⟨_ | _, b⟩ := r <;> rfl
  · next width =>
    simp only [act, Environment.write]
    generalize Bus.write width addr (width.truncate stored) bus = r
    obtain ⟨_ | _, b⟩ := r <;> rfl
  · rfl
  · rfl

/-- The guest after an access of the register `rt`. -/
def effect (place? : Option UInt64) (rt : Nat) : Environment β :=
  let r := op.act place? addr (e.register rt) e
  match op with
  | load _ => r.2.setRegister rt r.1
  | store _ => r.2

end MemoryOp

/-! ## Instructions -/

/-- The instruction is lowered to code of its own. -/
def Mnemonic.isNative (m : Mnemonic) : Bool :=
  (BinaryOp.ofImmediate? m).isSome || (BinaryOp.ofRegister? m).isSome ||
    match m with
    | .lui | .sll | .srl | .sra | .sllv | .srlv | .srav | .mult | .multu | .mfhi | .mflo | .mthi
    | .mtlo => true
    | _ => false

namespace Instruction

/-- The guest after the code for an instruction at `pc` that does not transfer control. -/
def perform (o : Options) (regions : List FastRegion) (known : Bool) (i : Instruction) (pc : UInt32)
    (e : Environment β) : Environment β :=
  match MemoryOp.ofMnemonic? i.mnemonic with
  | some op =>
    if op.isLoad ∧ i.registerOf .target = 0 then e
    else
      let addr := i.effectiveAddress e
      op.effect addr e (o.place? regions known addr op.size) (i.registerOf .target)
  | none =>
    if i.mnemonic.isNative then i.interpret e else i.interpret (e.setWord Slot.pc pc)

variable {o : Options} {regions : List FastRegion} {known : Bool} {i : Instruction} {pc : UInt32}
  {e : Environment β}

theorem evolves_perform : Bus.Evolves e.bus (i.perform o regions known pc e).bus := by
  unfold perform
  split
  · next op _ =>
    split
    · exact .refl _
    · have hact := op.evolves_act (o.place? regions known (i.effectiveAddress e) op.size)
        (i.effectiveAddress e) (e.register (i.registerOf .target)) e
      cases op <;> exact hact
  · split
    · exact i.evolves_interpret e
    · exact i.evolves_interpret (e.setWord Slot.pc pc)

/-- An instruction that does not end a block writes its output, HI, LO and the program counter at
most. -/
theorem Spares.get_perform {slot : Nat} (h : i.Spares slot) (hhi : slot ≠ Slot.hi)
    (hlo : slot ≠ Slot.lo) (hpc : slot ≠ Slot.pc) (hends : i.mnemonic.endsBlock = false) :
    (i.perform o regions known pc e).state.get slot = e.state.get slot := by
  unfold perform
  split
  · next op hop =>
    split
    · rfl
    · have hstate := op.state_act (o.place? regions known (i.effectiveAddress e) op.size)
        (i.effectiveAddress e) (e.register (i.registerOf .target)) e
      cases op with
      | store width => exact congrArg (State.get · slot) hstate
      | load kind =>
        have houtput : outputOperand? i.mnemonic = some .target := by
          revert hop
          cases i.mnemonic <;> rintro ⟨⟩ <;> rfl
        exact (h.get_setRegister houtput _).trans (congrArg (State.get · slot) hstate)
  · split
    · exact h.get_interpret hhi hlo hends
    · exact (h.get_interpret hhi hlo hends).trans (State.get_set_of_ne _ (Ne.symm hpc) _)

/-- The calls that the code for an instruction at `pc` makes. -/
def calls (i : Instruction) (pc : UInt32) (e : Environment β) : List (Call β) :=
  if (MemoryOp.ofMnemonic? i.mnemonic).isNone && !i.mnemonic.isNative then
    [⟨i.word, e.setWord Slot.pc pc⟩]
  else []

end Instruction

end Recompiler
