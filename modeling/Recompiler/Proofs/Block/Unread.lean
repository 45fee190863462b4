import Recompiler.Proofs.Block.Arithmetic
import Recompiler.Proofs.Block.Course

/-!
# Words that instructions do not read

The words of the guest state past HI and LO belong to generated code and to the host. An instruction
that does not end a block does the same whatever they hold, and leaves them as they are.

* `Instruction.interpret_setWord`, `Instruction.perform_setWord`: instructions.
* `Instruction.link_setWord`, `Instruction.isTaken_setWord`: transfers of control.
-/

namespace Recompiler

variable {β : Type}

namespace Environment

variable {e : Environment β} {slot r : Nat} {v : UInt32}

theorem register_setWord (hne : slot ≠ r) : (e.setWord slot v).register r = e.register r :=
  State.get_set_of_ne _ hne v

theorem setRegister_setWord (hne : slot ≠ r) (w : UInt32) :
    (e.setWord slot v).setRegister r w = (e.setRegister r w).setWord slot v := by
  unfold setRegister State.setRegister
  split
  · rfl
  · exact setWord_comm hne v w

end Environment

/-! ## Instructions -/

theorem Slot.Reserved.ne_hi {slot : Nat} (h : Slot.Reserved slot) : slot ≠ Slot.hi :=
  Ne.symm (Nat.ne_of_lt (Nat.lt_trans (by decide : Slot.hi < Slot.lo) h.1))

theorem Slot.Reserved.ne_lo {slot : Nat} (h : Slot.Reserved slot) : slot ≠ Slot.lo :=
  Ne.symm (Nat.ne_of_lt h.1)

/-- An access has the same effect, whatever the word holds. -/
theorem MemoryOp.effect_setWord [Bus β] (op : MemoryOp) (place? : Option UInt64) (addr : UInt32)
    {e : Environment β} {slot rt : Nat} (hne : slot ≠ rt) (v : UInt32) :
    op.effect addr (e.setWord slot v) place? rt = (op.effect addr e place? rt).setWord slot v := by
  have hact := op.act_congr place? addr (e.register rt) (show (e.setWord slot v).bus = e.bus from rfl)
    rfl
  have hstate := op.state_act place? addr (e.register rt) e
  unfold effect
  rw [Environment.register_setWord hne, hact]
  generalize op.act place? addr (e.register rt) e = r at hstate ⊢
  obtain ⟨value, e'⟩ := r
  have hsame : Environment.mk (e.setWord slot v).state e'.bus e'.events = e'.setWord slot v := by
    rw [Environment.setWord, ← hstate]
    rfl
  dsimp only
  rw [hsame]
  cases op with
  | load kind => exact Environment.setRegister_setWord hne value
  | store width => rfl

namespace Instruction

variable {i : Instruction} {e : Environment β} {slot : Nat} {v : UInt32}

/-- A word that belongs to generated code is no register operand. -/
theorem ne_registerOf (hi : i.entry ∈ Entry.table) (hslot : Slot.Reserved slot) {op : Operand}
    (hop : op.isRegister = true) : slot ≠ i.registerOf op := by
  have hlt := registerOf_lt hi hop
  have hlo : 33 < slot := hslot.1
  omega

theorem withRegisters_setWord (hi : i.entry ∈ Entry.table) (hslot : Slot.Reserved slot)
    (f : (rs rt : UInt32) → UInt32) :
    i.withRegisters (e.setWord slot v) f = (i.withRegisters e f).setWord slot v := by
  unfold withRegisters
  rw [Environment.setRegister_setWord (ne_registerOf hi hslot rfl),
    Environment.register_setWord (ne_registerOf hi hslot rfl),
    Environment.register_setWord (ne_registerOf hi hslot rfl)]

theorem withImmediate_setWord (hi : i.entry ∈ Entry.table) (hslot : Slot.Reserved slot)
    (f : (rs imm : UInt32) → UInt32) :
    i.withImmediate (e.setWord slot v) f = (i.withImmediate e f).setWord slot v := by
  unfold withImmediate
  rw [Environment.setRegister_setWord (ne_registerOf hi hslot rfl),
    Environment.register_setWord (ne_registerOf hi hslot rfl)]

theorem withAmount_setWord (hi : i.entry ∈ Entry.table) (hslot : Slot.Reserved slot)
    (f : (rt amount : UInt32) → UInt32) :
    i.withAmount (e.setWord slot v) f = (i.withAmount e f).setWord slot v := by
  unfold withAmount
  rw [Environment.setRegister_setWord (ne_registerOf hi hslot rfl),
    Environment.register_setWord (ne_registerOf hi hslot rfl)]

theorem withHiLo_setWord (hi : i.entry ∈ Entry.table) (hslot : Slot.Reserved slot)
    (f : (rs rt : UInt32) → UInt32 × UInt32) :
    i.withHiLo (e.setWord slot v) f = (i.withHiLo e f).setWord slot v := by
  unfold withHiLo
  rw [Environment.register_setWord (ne_registerOf hi hslot rfl),
    Environment.register_setWord (ne_registerOf hi hslot rfl)]
  dsimp only
  rw [Environment.setWord_comm hslot.ne_hi, Environment.setWord_comm hslot.ne_lo]

theorem effectiveAddress_setWord (hi : i.entry ∈ Entry.table) (hslot : Slot.Reserved slot) :
    i.effectiveAddress (e.setWord slot v) = i.effectiveAddress e := by
  unfold effectiveAddress
  rw [Environment.register_setWord (ne_registerOf hi hslot rfl)]

variable [Bus β]

theorem loadTarget_setWord (hi : i.entry ∈ Entry.table) (hslot : Slot.Reserved slot)
    (kind : LoadKind) :
    i.loadTarget (e.setWord slot v) kind = (i.loadTarget e kind).setWord slot v := by
  have heffect (e : Environment β) : i.loadTarget e kind =
      (MemoryOp.load kind).effect (i.effectiveAddress e) e none (i.registerOf .target) := rfl
  rw [heffect, heffect, effectiveAddress_setWord hi hslot,
    MemoryOp.effect_setWord _ _ _ (ne_registerOf hi hslot rfl)]

theorem storeTarget_setWord (hi : i.entry ∈ Entry.table) (hslot : Slot.Reserved slot)
    (width : Width) :
    i.storeTarget (e.setWord slot v) width = (i.storeTarget e width).setWord slot v := by
  have heffect (e : Environment β) : i.storeTarget e width =
      (MemoryOp.store width).effect (i.effectiveAddress e) e none (i.registerOf .target) := rfl
  rw [heffect, heffect, effectiveAddress_setWord hi hslot,
    MemoryOp.effect_setWord _ _ _ (ne_registerOf hi hslot rfl)]

/-- An interpreted instruction that does not end a block has the same effect, whatever the word
holds. -/
theorem interpret_setWord (hi : i.entry ∈ Entry.table) (hslot : Slot.Reserved slot)
    (hends : i.mnemonic.endsBlock = false) :
    i.interpret (e.setWord slot v) = (i.interpret e).setWord slot v := by
  have htarget : slot ≠ i.registerOf .target := ne_registerOf hi hslot rfl
  have hsource : slot ≠ i.registerOf .source := ne_registerOf hi hslot rfl
  have hdestination : slot ≠ i.registerOf .destination := ne_registerOf hi hslot rfl
  have hget {other : Nat} (hne : slot ≠ other) :
      (e.setWord slot v).state.get other = e.state.get other := State.get_set_of_ne _ hne v
  unfold interpret
  cases hm : i.mnemonic <;> dsimp only
  all_goals
    first
    | exact absurd (hm ▸ hends) (by decide)
    | simp only [withRegisters_setWord hi hslot, withImmediate_setWord hi hslot,
        withAmount_setWord hi hslot, withHiLo_setWord hi hslot, loadTarget_setWord hi hslot,
        storeTarget_setWord hi hslot, Environment.register_setWord htarget,
        Environment.register_setWord hsource, Environment.setRegister_setWord htarget,
        Environment.setRegister_setWord hdestination, Environment.setWord_comm hslot.ne_hi,
        Environment.setWord_comm hslot.ne_lo, hget hslot.ne_hi, hget hslot.ne_lo]
  -- The conditional moves are left.
  · split <;> rfl
  · split <;> rfl

/-- The code for an instruction does the same, whatever the word holds. -/
theorem perform_setWord {o : Options} {regions : List FastRegion} {known : Bool} {pc : UInt32}
    (hi : i.entry ∈ Entry.table) (hslot : Slot.Reserved slot) (hpc : slot ≠ Slot.pc)
    (hends : i.mnemonic.endsBlock = false) :
    i.perform o regions known pc (e.setWord slot v) =
      (i.perform o regions known pc e).setWord slot v := by
  unfold perform
  split
  · rw [effectiveAddress_setWord hi hslot]
    split
    · rfl
    · exact MemoryOp.effect_setWord _ _ _ (ne_registerOf hi hslot rfl) v
  · split
    · exact interpret_setWord hi hslot hends
    · rw [Environment.setWord_comm hpc]
      exact interpret_setWord hi hslot hends

/-! ## Transfers of control -/

omit [Bus β] in
theorem isTaken_setWord (hi : i.entry ∈ Entry.table) (hslot : Slot.Reserved slot) :
    i.isTaken (e.setWord slot v) = i.isTaken e := by
  unfold isTaken
  rw [Environment.register_setWord (ne_registerOf hi hslot rfl),
    Environment.register_setWord (ne_registerOf hi hslot rfl)]

omit [Bus β] in
theorem destination_setWord (hi : i.entry ∈ Entry.table) (hslot : Slot.Reserved slot)
    (pc : UInt32) : i.destination pc (e.setWord slot v) = i.destination pc e := by
  unfold destination
  rw [isTaken_setWord hi hslot, Environment.register_setWord (ne_registerOf hi hslot rfl)]

omit [Bus β] in
theorem link_setWord (hi : i.entry ∈ Entry.table) (hslot : Slot.Reserved slot) (pc : UInt32) :
    i.link pc (e.setWord slot v) = (i.link pc e).setWord slot v := by
  have hra : slot ≠ Slot.ra := Ne.symm (Nat.ne_of_lt (Nat.lt_trans (by decide : Slot.ra < Slot.lo)
    hslot.1))
  unfold link
  split
  · exact Environment.setRegister_setWord (ne_registerOf hi hslot rfl) _
  split
  · exact Environment.setRegister_setWord hra _
  · rfl

/-- The scratch word of branches makes no difference to a delay slot. -/
theorem perform_keep {j : Instruction} {o : Options} {regions : List FastRegion} {known : Bool}
    {pc pc' : UInt32} (hi : i.entry ∈ Entry.table) (hj : j.entry ∈ Entry.table)
    (hends : j.mnemonic.endsBlock = false) (kept : Option UInt32) :
    j.perform o regions known pc' (i.link pc (e.keep kept)) =
      (j.perform o regions known pc' (i.link pc e)).keep kept := by
  cases kept with
  | none => rfl
  | some value =>
    have hslot : Slot.Reserved Slot.branchTemp := by decide
    rw [Environment.keep, link_setWord hi hslot, perform_setWord hj hslot (by decide) hends]
    rfl

end Instruction

end Recompiler
