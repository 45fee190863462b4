import Recompiler.Proofs.Block.MemoryAccess
import Recompiler.Proofs.Guest.Reference
import Recompiler.Proofs.Memory.Mirrored

/-!
# A machine that interprets every instruction

Generated code takes shortcuts: accesses to fast regions bypass the bus, and loads into register zero
are left out. Where reading is harmless and the bus mirrors host memory that makes no difference: the
guest does what it would do if every instruction was interpreted.

* `Guest.interprets`: the effect of an instruction that is interpreted.
* `Options.place?_eq_some`: accesses that bypass the bus lie in a region.
* `Instruction.agrees_perform`: an instruction does what the interpreter does.
* `Guest.Run.interprets`: so does a run.
-/

namespace Recompiler

variable {β : Type} [Bus β]

/-! ## Accesses -/

/-- An access of generated code that bypasses the bus lies in a region, unless addresses are masked or
regions reach past the end of the address space. -/
theorem Options.place?_eq_some {o : Options} {regions : List FastRegion} {known : Bool}
    {op : MemoryOp} {addr : UInt32} {pointer : UInt64} (hfast : o.fastMemory = false)
    (hends : ∀ r ∈ regions, r.stop ≤ UInt32.size)
    (h : o.place? regions known addr op.size = some pointer) :
    ∃ r ∈ regions, ∃ offset, r.offset? addr op.size = some offset ∧
      pointer = r.pointer + offset.toUInt64 := by
  have hpos : 0 < op.size := by cases op <;> exact Width.size_pos _
  unfold place? at h
  split at h
  · obtain ⟨⟨n, r, offset⟩, hfound, rfl⟩ := Option.map_eq_some_iff.1 h
    obtain ⟨hr, hoffset⟩ := Lower.findRegion_eq_some hfound
    exact ⟨r, List.mem_of_getElem? hr, offset, hoffset, rfl⟩
  · split at h
    · cases h
    · rw [if_neg (by simp [hfast])] at h
      obtain ⟨⟨⟨r, n⟩, offset⟩, hfound, rfl⟩ := Option.map_eq_some_iff.1 h
      obtain ⟨hr, hoffset⟩ := Lower.firstHit_eq_some hfound
      have hmem := List.mem_of_getElem? (List.mem_zipIdx_iff_getElem?.1 hr)
      have hstop := hends r hmem
      dsimp only at hoffset
      rw [FastRegion.wrapped?_eq op.size_le fun _ => by omega] at hoffset
      exact ⟨r, hmem, offset, hoffset, rfl⟩

namespace MemoryOp

variable {op : MemoryOp} {regions : List FastRegion} {addr stored : UInt32} {e : Environment β}

/-- An access to host memory is the access of the bus. -/
theorem act_of_mirrors (h : Bus.Mirrors regions e.bus) {r : FastRegion} (hr : r ∈ regions)
    {offset : UInt32} (hoffset : r.offset? addr op.size = some offset) :
    op.act (some (r.pointer + offset.toUInt64)) addr stored e = op.act none addr stored e := by
  obtain ⟨state, bus, events⟩ := e
  cases op with
  | load kind =>
    obtain ⟨value, hvalue, hread⟩ := h.read r hr kind.width addr offset hoffset
    dsimp only at hvalue hread
    simp only [act, Environment.load, Environment.read]
    rw [hvalue, hread]
    rfl
  | store width =>
    have hwrite := h.write r hr width addr offset hoffset stored
    dsimp only at hwrite
    simp only [act, Environment.write]
    rw [hwrite]

end MemoryOp

/-! ## Instructions -/

namespace Guest

/-- The instruction is interpreted, with its address in the program counter. -/
def interprets : Effect β :=
  fun i pc e e' => e' = i.interpret (e.setWord Slot.pc pc)

end Guest

namespace Instruction

variable {o : Options} {regions : List FastRegion} {known : Bool} {i : Instruction} {pc : UInt32}
  {e : Environment β}

theorem interpret_eq_effect {op : MemoryOp} (h : MemoryOp.ofMnemonic? i.mnemonic = some op) :
    i.interpret e = op.effect (i.effectiveAddress e) e none (i.registerOf .target) := by
  unfold interpret
  generalize i.mnemonic = m at h
  cases m <;> cases h <;> rfl

/-- A load into register zero leaves the guest as it is. -/
theorem agrees_load_zero (hharmless : Bus.Harmless β) {op : MemoryOp} (hload : op.isLoad = true)
    (addr : UInt32) : e.Agrees (op.effect addr e none 0) := by
  obtain ⟨state, bus, events⟩ := e
  cases op with
  | store width => cases hload
  | load kind =>
    have hbus := hharmless kind.width addr bus
    simp only [MemoryOp.effect, MemoryOp.act, Environment.load, Environment.read]
    generalize Bus.read kind.width addr bus = r at hbus ⊢
    obtain ⟨_ | value, b⟩ := r <;> exact ⟨fun _ _ _ => rfl, hbus⟩

/-- The code for an instruction does what the interpreter does, once the program counter is set. -/
theorem agrees_perform (hfast : o.fastMemory = false) (hends : ∀ r ∈ regions, r.stop ≤ UInt32.size)
    (hharmless : Bus.Harmless β) (hmirrors : Bus.Mirrors regions e.bus)
    (hi : i.entry ∈ Entry.table) (hgoes : i.mnemonic.endsBlock = false) (next : UInt32) :
    ((i.interpret (e.setWord Slot.pc pc)).setWord Slot.pc next).Agrees
      ((i.perform o regions known pc e).setWord Slot.pc next) := by
  have hinterpret : (i.interpret (e.setWord Slot.pc pc)).setWord Slot.pc next =
      (i.interpret e).setWord Slot.pc next := by
    rw [interpret_setWord hi (by decide) hgoes, Environment.setWord_setWord]
  unfold perform
  split
  · next op hop =>
    rw [hinterpret, interpret_eq_effect hop]
    split
    · next hzero =>
      obtain ⟨hload, hzero⟩ := hzero
      rw [hzero]
      exact ((agrees_load_zero hharmless hload _).setWord_both _ _).symm
    -- A place in a region that mirrors the bus holds what the bus would answer.
    · have hact (stored : UInt32) :
          op.act (o.place? regions known (i.effectiveAddress e) op.size) (i.effectiveAddress e)
            stored e = op.act none (i.effectiveAddress e) stored e := by
        cases hplace : o.place? regions known (i.effectiveAddress e) op.size with
        | none => rfl
        | some pointer =>
          obtain ⟨r, hr, offset, hoffset, rfl⟩ := Options.place?_eq_some hfast hends hplace
          exact MemoryOp.act_of_mirrors hmirrors hr hoffset
      unfold MemoryOp.effect
      dsimp only
      rw [hact]
      exact .refl _
  · split
    · rw [hinterpret]
      exact .refl _
    · exact .refl _

end Instruction

/-! ## Runs -/

namespace Guest

variable {o : Options} {regions : List FastRegion} {fetch : β → UInt32 → Instruction → Prop}
  {e e' : Environment β} {cs : List (Call β)} {c : Nat}

/-- A step does nothing to the bus but operations, if the effect of instructions is no more. -/
theorem Step.evolves {act : Effect β}
    (hact : ∀ i pc (e e' : Environment β), act i pc e e' → Bus.Evolves e.bus e'.bus)
    (h : Step fetch act e cs c e') : Bus.Evolves e.bus e'.bus := by
  cases h with
  | straight hpc hi hends hrefused h =>
    have hevolves := hact _ _ _ _ h
    exact hevolves
  | syscall => exact Instruction.evolves_interpret _ (Environment.setWord _ _ _)
  | trap => exact Instruction.evolves_interpret _ _
  | @transfer _ pc i j hpc hi hj hdelays hends hrefused hannuls h =>
    have hslot := hact _ _ _ _ h
    rwa [Instruction.bus_link] at hslot
  | @annulled pc i =>
    change Bus.Evolves e.bus (i.link pc e).bus
    rw [Instruction.bus_link]
    exact .refl _

theorem Run.evolves {act : Effect β}
    (hact : ∀ i pc (e e' : Environment β), act i pc e e' → Bus.Evolves e.bus e'.bus)
    (h : Run fetch act e cs c e') : Bus.Evolves e.bus e'.bus := by
  induction h with
  | refl h => exact h.bus ▸ .refl _
  | step h hstep _ ih => exact h.bus ▸ (hstep.evolves hact).trans ih

omit [Bus β] in
theorem Refuses.bus (h : Refuses fetch e e') : e'.bus = e.bus := by
  cases h with
  | here => rfl
  | @slot pc i => exact i.bus_link pc e

theorem evolves_of_performs {i : Instruction} {pc : UInt32} {e e' : Environment β}
    (h : performs o regions i pc e e') : Bus.Evolves e.bus e'.bus := by
  obtain ⟨known, rfl⟩ := h
  exact Instruction.evolves_perform

theorem evolves_of_interprets {i : Instruction} {pc : UInt32} {e e' : Environment β}
    (h : interprets i pc e e') : Bus.Evolves e.bus e'.bus := by
  obtain rfl := h
  exact Instruction.evolves_interpret i (e.setWord Slot.pc pc)

section Interprets

variable (hfast : o.fastMemory = false) (hends : ∀ r ∈ regions, r.stop ≤ UInt32.size)
  (hharmless : Bus.Harmless β)

include hfast hends hharmless

/-- A step of generated code is a step in which every instruction is interpreted. -/
theorem Step.interprets (htable : ∀ b pc i, fetch b pc i → i.entry ∈ Entry.table)
    (hmirrors : Bus.Mirrors regions e.bus) (h : Step fetch (performs o regions) e cs c e') :
    ∃ e'', Step fetch Guest.interprets e cs c e'' ∧ e''.Agrees e' := by
  cases h with
  | straight hpc hi hgoes hrefused hact =>
    obtain ⟨known, rfl⟩ := hact
    exact ⟨_, .straight hpc hi hgoes hrefused rfl,
      Instruction.agrees_perform hfast hends hharmless hmirrors (htable _ _ _ hi) hgoes _⟩
  | syscall hpc hi hm => exact ⟨_, .syscall hpc hi hm, .refl _⟩
  | trap hpc hi hm => exact ⟨_, .trap hpc hi hm, .refl _⟩
  | @transfer _ pc i j hpc hi hj hdelays hgoes hrefused hannuls hact =>
    obtain ⟨known, rfl⟩ := hact
    have hmirrors : Bus.Mirrors regions (i.link pc e).bus := by rwa [Instruction.bus_link]
    exact ⟨_, .transfer hpc hi hj hdelays hgoes hrefused hannuls rfl,
      Instruction.agrees_perform hfast hends hharmless hmirrors (htable _ _ _ hj) hgoes _⟩
  | annulled hpc hi hdelays hannuls => exact ⟨_, .annulled hpc hi hdelays hannuls, .refl _⟩

/-- A run of generated code is a run in which every instruction is interpreted. -/
theorem Run.interprets (htable : ∀ b pc i, fetch b pc i → i.entry ∈ Entry.table)
    (hmirrored : Bus.Mirrored regions e.bus) (h : Run fetch (performs o regions) e cs c e') :
    Run fetch Guest.interprets e cs c e' := by
  induction h with
  | refl h => exact .refl h
  | @step e e₁ e₂ e' cs cs' c c' h hstep _ ih =>
    have hmirrored : Bus.Mirrored regions e₁.bus := h.bus ▸ hmirrored
    obtain ⟨e₃, hstep', hagrees⟩ := hstep.interprets hfast hends hharmless htable hmirrored.mirrors
    have hevolves := hstep.evolves fun _ _ _ _ => evolves_of_performs
    exact .step h hstep' (.of_agrees hagrees (ih (hmirrored.evolves hevolves)))

end Interprets

end Guest

end Recompiler
