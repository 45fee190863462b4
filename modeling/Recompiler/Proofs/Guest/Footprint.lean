import Recompiler.Memory.Trace
import Recompiler.Proofs.Guest.Interpreter
import Recompiler.Proofs.Memory.Rom

/-!
# What interpreted instructions write

The register that an instruction is said to write is the only one it does write. Whether a condition
may be tested after a delay slot is decided by what is said, so that it has to cover what is done.

* `Mnemonic.writesHiLo`, `Mnemonic.stores`: the instructions that write HI and LO, and memory.
* `Instruction.Spares.get_interpret_of_not_writesHiLo`: the words that an instruction leaves alone.
* `Instruction.busCalls`, `Instruction.interpret_withCalls`: what an instruction asks of the bus.
* `Instruction.Footprint`, `Instruction.interpret_writes_output`: what interpreting any instruction
  leaves alone.
-/

namespace Recompiler

namespace Mnemonic

/-- The instruction writes HI or LO. -/
def writesHiLo : Mnemonic → Bool
  | mult | multu | div | divu | mthi | mtlo => true
  | _ => false

/-- The instruction writes guest memory. -/
def stores : Mnemonic → Bool
  | sb | sh | sw => true
  | _ => false

/-- Of the instructions that end a block, traps and system calls alone are interpreted. -/
theorem eq_of_isInterpreted {m : Mnemonic} (h : m.isInterpreted = true)
    (hends : m.endsBlock = true) : m = .breakpoint ∨ m = .syscall := by
  cases m <;> simp_all [isInterpreted, hasDelaySlot, endsBlock, isBranch, isJump]

end Mnemonic

/-- A part of a part is the part. -/
theorem Width.truncate_truncate (w : Width) (value : UInt32) :
    w.truncate (w.truncate value) = w.truncate value := by
  cases w with
  | byte => exact congrArg UInt8.toUInt32 (UInt8.toUInt8_toUInt32 _)
  | half => exact congrArg UInt16.toUInt32 (UInt16.toUInt16_toUInt32 _)
  | word => rfl

variable {β : Type} [Bus β]

/-! ## Words of the guest state -/

namespace Instruction

variable {i : Instruction} {e : Environment β} {slot : Nat} {word : UInt32}

theorem isInterpreted_of_interpreted? (h : interpreted? word = some i) :
    i.mnemonic.isInterpreted = true :=
  (Option.filter_eq_some_iff.1 h).2

/-- To an instruction that computes neither HI nor LO they are words like the others. -/
theorem Spares.get_interpret_of_not_writesHiLo (h : i.Spares slot)
    (hwrites : i.mnemonic.writesHiLo = false) (hends : i.mnemonic.endsBlock = false) :
    (i.interpret e).state.get slot = e.state.get slot := by
  unfold interpret
  split
  all_goals
    next hm =>
    first
    | exact absurd (hm ▸ hends) (by decide)
    | exact absurd (hm ▸ hwrites) (by decide)
    | simp only [h.get_withRegisters, h.get_withImmediate, h.get_withAmount, h.get_loadTarget,
        h.get_setRegister, get_storeTarget, hm, outputOperand?]
    -- The conditional moves are left.
    | split <;> simp only [h.get_withRegisters, hm, outputOperand?]

/-- A trap changes the core state alone. -/
theorem get_interpret_breakpoint (hm : i.mnemonic = .breakpoint) (hslot : slot ≠ Slot.coreState) :
    (i.interpret e).state.get slot = e.state.get slot := by
  have hinterpret : i.interpret e = { e with state := e.state.setCoreState .halted } := by
    simp only [interpret, hm]
  rw [hinterpret]
  exact State.get_set_of_ne _ hslot.symm _

/-- Interpreting an instruction changes its output, HI and LO, and the core state at most, and each
of them by the instructions only that are meant to. -/
theorem Spares.get_interpret_of_interpreted (h : i.Spares slot)
    (hinterpreted : i.mnemonic.isInterpreted = true) (hsyscall : i.mnemonic ≠ .syscall)
    (hHiLo : slot = Slot.hi ∨ slot = Slot.lo → i.mnemonic.writesHiLo = false)
    (hcore : slot = Slot.coreState → i.mnemonic ≠ .breakpoint) :
    (i.interpret e).state.get slot = e.state.get slot := by
  by_cases hends : i.mnemonic.endsBlock = true
  · obtain hm | hm := Mnemonic.eq_of_isInterpreted hinterpreted hends
    · exact get_interpret_breakpoint hm fun hslot => hcore hslot hm
    · exact absurd hm hsyscall
  · have hends : i.mnemonic.endsBlock = false := by simpa using hends
    by_cases hslot : slot = Slot.hi ∨ slot = Slot.lo
    · exact h.get_interpret_of_not_writesHiLo (hHiLo hslot) hends
    · rw [not_or] at hslot
      exact h.get_interpret hslot.1 hslot.2 hends

end Instruction

/-! ## Calls of the bus -/

/-- The call changes memory. -/
def BusCall.isWrite : BusCall → Bool
  | write .. => true
  | _ => false

namespace Environment

/-- The guest with its bus traced, after some calls. -/
def withCalls (e : Environment β) (calls : Array BusCall) : Environment (Traced β) :=
  ⟨e.state, ⟨e.bus, calls⟩, e.events⟩

variable (e : Environment β) (calls : Array BusCall)

theorem load_withCalls (kind : LoadKind) (addr : UInt32) :
    (e.withCalls calls).load kind addr =
      ((e.load kind addr).1,
        (e.load kind addr).2.withCalls (calls.push (.read kind.width addr))) := by
  obtain ⟨state, bus, events⟩ := e
  rcases hread : Bus.read kind.width addr bus with ⟨_ | value, bus'⟩ <;>
    simp [load, read, withCalls, Bus.read, hread]

theorem write_withCalls (width : Width) (addr value : UInt32) :
    (e.withCalls calls).write width addr value =
      (e.write width addr value).withCalls
        (calls.push (.write width addr (width.truncate value))) := by
  obtain ⟨state, bus, events⟩ := e
  rcases hwrite : Bus.write width addr (width.truncate value) bus with ⟨_ | value, bus'⟩ <;>
    simp [write, withCalls, Bus.write, hwrite, Width.truncate_truncate]

theorem syscall_withCalls (code : UInt32) :
    (e.withCalls calls).syscall code =
      (e.syscall code).withCalls (calls.push (.syscall code e.state.pc)) := by
  obtain ⟨state, bus, events⟩ := e
  rcases hcall : Bus.syscall code state bus with ⟨_ | _, bus'⟩ <;>
    simp [syscall, withCalls, Bus.syscall, hcall]

end Environment

namespace Instruction

variable (i : Instruction) (e : Environment β)

/-- What the interpretation of an instruction asks of the bus. -/
def busCalls : List BusCall :=
  match i.mnemonic with
  | .lb | .lbu => [.read .byte (i.effectiveAddress e)]
  | .lh | .lhu => [.read .half (i.effectiveAddress e)]
  | .lw => [.read .word (i.effectiveAddress e)]
  | .sb => [stored .byte]
  | .sh => [stored .half]
  | .sw => [stored .word]
  | .syscall => [.syscall (i.value .immediate) e.state.pc]
  | _ => []
where
  /-- The write of the target register. -/
  stored (width : Width) : BusCall :=
    .write width (i.effectiveAddress e) (width.truncate (e.register (i.registerOf .target)))

variable {i e}

omit [Bus β] in
/-- Stores are the only instructions that write memory. -/
theorem stores_of_mem_busCalls {c : BusCall} (h : c ∈ i.busCalls e) (hc : c.isWrite = true) :
    i.mnemonic.stores = true := by
  unfold busCalls at h
  split at h
  all_goals
    next hm =>
    first
    | (rw [hm]; rfl)
    | (obtain rfl := List.mem_singleton.1 h; cases hc)
    | cases h

theorem loadTarget_withCalls (kind : LoadKind) (calls : Array BusCall) :
    i.loadTarget (e.withCalls calls) kind =
      (i.loadTarget e kind).withCalls
        (calls ++ #[.read kind.width (i.effectiveAddress e)]) := by
  have hload := e.load_withCalls calls kind (i.effectiveAddress e)
  change ((e.withCalls calls).load kind (i.effectiveAddress e)).2.setRegister _
    ((e.withCalls calls).load kind (i.effectiveAddress e)).1 = _
  rw [hload, ← Array.push_eq_append]
  rfl

theorem storeTarget_withCalls (width : Width) (calls : Array BusCall) :
    i.storeTarget (e.withCalls calls) width =
      (i.storeTarget e width).withCalls (calls ++ #[busCalls.stored i e width]) := by
  rw [← Array.push_eq_append]
  exact e.write_withCalls calls width _ _

/-- Tracing the bus changes nothing but the trace, which grows by the calls of the instruction. -/
theorem interpret_withCalls (calls : Array BusCall) :
    i.interpret (e.withCalls calls) =
      (i.interpret e).withCalls (calls ++ (i.busCalls e).toArray) := by
  unfold interpret busCalls
  cases i.mnemonic with
  | lb | lbu | lh | lhu | lw => exact loadTarget_withCalls _ calls
  | sb | sh | sw => exact storeTarget_withCalls _ calls
  | syscall =>
    rw [← Array.push_eq_append]
    exact e.syscall_withCalls calls _
  | movz | movn =>
    rw [Array.append_empty]
    by_cases hzero : e.state.get (i.registerOf .target) = 0 <;>
      simp [Environment.register, Environment.withCalls, hzero, withRegisters,
        Environment.setRegister]
  | _ => simp only [Array.append_empty] <;> rfl

end Instruction

/-! ## The footprint -/

namespace Instruction

variable {i : Instruction} {word : UInt32}

/-- What interpreting an instruction leaves of a guest. -/
structure Footprint (i : Instruction) (e : Environment β) : Prop where
  /-- No general register changes but the one that the instruction is said to write. -/
  register : ∀ r < 32, (∀ out, i.outputRegister? = some out → out.toNat ≠ r) →
    (i.interpret e).register r = e.register r
  /-- Register zero, the program counter, the budget and the scratch word never change. -/
  reserved : ∀ slot ∈ [0, Slot.pc, Slot.downcount, Slot.branchTemp],
    (i.interpret e).state.get slot = e.state.get slot
  /-- The core state changes by traps only. -/
  coreState : i.mnemonic ≠ .breakpoint →
    (i.interpret e).state.get Slot.coreState = e.state.get Slot.coreState
  /-- HI and LO change by products, quotients and moves to them only. -/
  hiLo : i.mnemonic.writesHiLo = false →
    ∀ slot ∈ [Slot.hi, Slot.lo], (i.interpret e).state.get slot = e.state.get slot
  /-- A bus that is traced sees writes of stores only, and is no different otherwise. -/
  calls : ∃ calls, i.interpret (e.withCalls #[]) = (i.interpret e).withCalls calls ∧
    ∀ c ∈ calls, c.isWrite = true → i.mnemonic.stores = true

/-- Interpreting an instruction writes the register that it is said to write and little else,
whatever the guest and the bus. System calls are left to their handlers. -/
theorem interpret_writes_output (h : interpreted? word = some i) (hsyscall : i.mnemonic ≠ .syscall)
    (e : Environment β) : i.Footprint e := by
  have hinterpreted := isInterpreted_of_interpreted? h
  have htable := mem_table_of_interpreted? h
  refine ⟨?register, ?reserved, ?coreState, ?hiLo, ?calls⟩
  case register =>
    intro r hr hspares
    -- HI, LO and the core state are no registers.
    refine Spares.get_interpret_of_interpreted hspares hinterpreted hsyscall ?_ ?_
    · rintro (rfl | rfl) <;> exact absurd hr (by decide)
    · rintro rfl
      exact absurd hr (by decide)
  case reserved =>
    intro slot hslot
    have hspares : i.Spares slot := by
      obtain rfl | hslot := List.mem_cons.1 hslot
      · exact spares_zero i
      · refine spares_of_le htable ?_
        revert slot
        decide
    refine hspares.get_interpret_of_interpreted hinterpreted hsyscall ?_ ?_
    · rintro (rfl | rfl) <;> exact absurd hslot (by decide)
    · rintro rfl
      exact absurd hslot (by decide)
  case coreState =>
    intro hm
    have hspares : i.Spares Slot.coreState := spares_of_le htable (by decide)
    refine hspares.get_interpret_of_interpreted hinterpreted hsyscall ?_ fun _ => hm
    rintro (h | h) <;> exact absurd h (by decide)
  case hiLo =>
    intro hwrites slot hslot
    have hspares : i.Spares slot := spares_of_le htable (by revert slot; decide)
    refine hspares.get_interpret_of_interpreted hinterpreted hsyscall (fun _ => hwrites) ?_
    rintro rfl
    exact absurd hslot (by decide)
  case calls =>
    refine ⟨_, interpret_withCalls #[], ?_⟩
    intro c hc hwrites
    exact stores_of_mem_busCalls (by simpa using hc) hwrites

/-- A conditional move writes its destination only, whichever way it goes. -/
theorem interpret_writes_output_of_movz :
    ∃ i, interpreted? 0x0085100A = some i ∧ i.mnemonic ≠ .syscall ∧ i.outputRegister? = some 2 ∧
      ∀ e : Environment Rom, i.Footprint e := by
  have hmovz : interpreted? 0x0085100A = some _ := rfl
  exact ⟨_, hmovz, by decide, rfl, fun e => interpret_writes_output hmovz (by decide) e⟩

end Instruction

end Recompiler
