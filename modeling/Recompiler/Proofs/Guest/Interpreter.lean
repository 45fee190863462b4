import Recompiler.Guest.Interpreter

/-!
# What interpreted instructions leave alone

An interpreted instruction writes registers, HI and LO, the core state and memory. The other words of
the guest state belong to generated code, and stay as they are unless the handler of a system call
writes them.

* `Instruction.get?_lt`: operands that name registers are numbers of registers.
* `Slot.Reserved`, `Bus.Respects`, `Bus.Maintains`: the words, and handlers that leave one alone or
  keep what holds of it.
* `Instruction.Spares.get_interpret`: the words and the registers that are not written stay.
-/

namespace Recompiler

/-! ## Register operands -/

/-- The fields of register operands are five bits wide. -/
theorem Entry.width_of_isRegister : ∀ e ∈ Entry.table, ∀ f ∈ e.pattern.fields,
    f.operand.isRegister = true → f.width = 5 := by
  decide +kernel

theorem Field.extract_lt {f : Field} (h : f.width = 5) (word : UInt32) : f.extract word < 32 := by
  have hle : (word >>> f.shift.toUInt32 &&& 31).toNat ≤ 31 := Nat.and_le_right
  have hmask : (0xFFFFFFFF : UInt32) >>> (32 - f.width).toUInt32 = 31 := by
    rw [h]
    decide
  rw [extract, hmask]
  exact UInt32.lt_iff_toNat_lt.2 (Nat.lt_succ_of_le hle)

namespace Instruction

variable {i : Instruction} {word : UInt32}

theorem mem_table_of_decode? (h : decode? word = some i) : i.entry ∈ Entry.table := by
  obtain ⟨e, hfind, rfl⟩ := Option.map_eq_some_iff.1 h
  exact List.mem_of_find?_eq_some hfind

theorem mem_table_of_interpreted? (h : interpreted? word = some i) : i.entry ∈ Entry.table := by
  obtain ⟨e, hfind, rfl⟩ := Option.map_eq_some_iff.1 (Option.eq_some_of_filter_eq_some h)
  exact List.mem_of_find?_eq_some hfind

/-- Operands that name registers are numbers of registers. -/
theorem get?_lt (h : i.entry ∈ Entry.table) {op : Operand} (hop : op.isRegister = true)
    {value : UInt32} (hvalue : i.get? op = some value) : value < 32 := by
  obtain ⟨f, hfind, rfl⟩ := Option.map_eq_some_iff.1 hvalue
  have heq : f.operand = op := by simpa using List.find?_some hfind
  exact Field.extract_lt (Entry.width_of_isRegister _ h f (List.mem_of_find?_eq_some hfind)
    (by rwa [heq])) _

theorem registerOf_lt (h : i.entry ∈ Entry.table) {op : Operand} (hop : op.isRegister = true) :
    i.registerOf op < 32 := by
  rw [registerOf, value]
  cases hget : i.get? op with
  | none => decide
  | some value => exact UInt32.lt_iff_toNat_lt.1 (get?_lt h hop hget)

end Instruction

/-! ## Reserved words -/

/-- The word of the guest state belongs to generated code. -/
def Slot.Reserved (slot : Nat) : Prop :=
  Slot.lo < slot ∧ slot ≠ Slot.coreState

instance (slot : Nat) : Decidable (Slot.Reserved slot) :=
  inferInstanceAs (Decidable (_ ∧ _))

/-- Handlers of system calls leave the word alone. -/
def Bus.Respects (β : Type) [Bus β] (slot : Nat) : Prop :=
  ∀ (code : UInt32) (s s' : State) (bus bus' : β), Bus.syscall code s bus = (.handled s', bus') →
    s'.get slot = s.get slot

/-- Handlers of system calls keep what holds of the word. -/
def Bus.Maintains (β : Type) [Bus β] (slot : Nat) (p : UInt32 → Prop) : Prop :=
  ∀ (code : UInt32) (s s' : State) (bus bus' : β), Bus.syscall code s bus = (.handled s', bus') →
    p (s.get slot) → p (s'.get slot)

theorem Bus.Respects.maintains {β : Type} [Bus β] {slot : Nat} (h : Respects β slot)
    (p : UInt32 → Prop) : Maintains β slot p :=
  fun code s s' bus bus' hcall hs => (h code s s' bus bus' hcall).symm ▸ hs

variable {β : Type} {e : Environment β} {slot : Nat}

theorem Environment.get_setRegister {r : Nat} (hr : r < 32) (hslot : Slot.Reserved slot)
    (value : UInt32) : (e.setRegister r value).state.get slot = e.state.get slot := by
  rw [setRegister, State.setRegister]
  have hne : r ≠ slot := by
    have hlo : 33 < slot := hslot.1
    omega
  split
  · rfl
  · exact State.get_set_of_ne _ hne value

section Memory

variable [Bus β]

theorem Environment.state_load (kind : LoadKind) (addr : UInt32) :
    (e.load kind addr).2.state = e.state := by
  change (e.read kind.width addr).2.state = e.state
  rw [read]
  split <;> rfl

theorem Environment.state_write (width : Width) (addr value : UInt32) :
    (e.write width addr value).state = e.state := by
  rw [write]
  split <;> rfl

end Memory

namespace Instruction

variable {i : Instruction}

section Memory

variable [Bus β]

theorem get_storeTarget (width : Width) :
    (i.storeTarget e width).state.get slot = e.state.get slot :=
  congrArg (State.get · slot) (Environment.state_write width _ _)

end Memory

end Instruction

/-! ## Registers that are not written -/

namespace Instruction

variable {i : Instruction}

/-- The instruction writes no register of that number. -/
def Spares (i : Instruction) (slot : Nat) : Prop :=
  ∀ r, i.outputRegister? = some r → r.toNat ≠ slot

theorem spares_zero (i : Instruction) : i.Spares 0 := by
  intro r hr hzero
  obtain ⟨-, hne⟩ := Option.filter_eq_some_iff.1 hr
  exact absurd (UInt32.toNat_inj.1 hzero) (by simpa using hne)

theorem spares_of_le (h : i.entry ∈ Entry.table) (hslot : 32 ≤ slot) : i.Spares slot := by
  intro r hr heq
  have hlt : r < 32 := by
    obtain ⟨hr, -⟩ := Option.filter_eq_some_iff.1 hr
    split at hr
    · next op hop =>
      have hregister : op.isRegister = true := by
        revert hop
        unfold outputOperand?
        split <;> rintro ⟨⟩ <;> rfl
      exact get?_lt h hregister hr
    · split at hr <;> cases hr
      decide
  have hnat : r.toNat < 32 := UInt32.lt_iff_toNat_lt.1 hlt
  omega

theorem Spares.get_setRegister (h : i.Spares slot) {op : Operand}
    (hop : outputOperand? i.mnemonic = some op) (value : UInt32) :
    (e.setRegister (i.registerOf op) value).state.get slot = e.state.get slot := by
  rw [Environment.setRegister, State.setRegister]
  split
  · rfl
  · next hzero =>
    refine State.get_set_of_ne _ (fun heq => ?_) value
    rw [registerOf, Instruction.value] at hzero heq
    cases hget : i.get? op with
    | none =>
      rw [hget] at hzero
      exact hzero rfl
    | some v =>
      rw [hget] at hzero heq
      refine h v ?_ heq
      have hne : v ≠ 0 := fun hv => hzero (by rw [hv]; rfl)
      rw [outputRegister?, hop]
      simp [hget, hne]

theorem Spares.get_withRegisters (h : i.Spares slot)
    (hop : outputOperand? i.mnemonic = some .destination) (f : (rs rt : UInt32) → UInt32) :
    (i.withRegisters e f).state.get slot = e.state.get slot :=
  h.get_setRegister hop _

theorem Spares.get_withImmediate (h : i.Spares slot)
    (hop : outputOperand? i.mnemonic = some .target) (f : (rs imm : UInt32) → UInt32) :
    (i.withImmediate e f).state.get slot = e.state.get slot :=
  h.get_setRegister hop _

theorem Spares.get_withAmount (h : i.Spares slot)
    (hop : outputOperand? i.mnemonic = some .destination) (f : (rt amount : UInt32) → UInt32) :
    (i.withAmount e f).state.get slot = e.state.get slot :=
  h.get_setRegister hop _

theorem get_setWord_of_ne {other : Nat} (hne : slot ≠ other) (value : UInt32) :
    (e.setWord other value).state.get slot = e.state.get slot :=
  State.get_set_of_ne _ hne.symm _

theorem get_withHiLo_of_ne (hhi : slot ≠ Slot.hi) (hlo : slot ≠ Slot.lo)
    (f : (rs rt : UInt32) → UInt32 × UInt32) :
    (i.withHiLo e f).state.get slot = e.state.get slot :=
  (get_setWord_of_ne hlo _).trans (get_setWord_of_ne hhi _)

variable [Bus β]

theorem Spares.get_loadTarget (h : i.Spares slot) (hop : outputOperand? i.mnemonic = some .target)
    (kind : LoadKind) : (i.loadTarget e kind).state.get slot = e.state.get slot :=
  (h.get_setRegister hop _).trans (congrArg (State.get · slot) (Environment.state_load kind _))

/-- An instruction that does not end a block writes its output, HI and LO at most. -/
theorem Spares.get_interpret (h : i.Spares slot) (hhi : slot ≠ Slot.hi) (hlo : slot ≠ Slot.lo)
    (hends : i.mnemonic.endsBlock = false) :
    (i.interpret e).state.get slot = e.state.get slot := by
  unfold interpret
  split
  all_goals
    next hm =>
    first
    | exact absurd (hm ▸ hends) (by decide)
    | simp only [h.get_withRegisters, h.get_withImmediate, h.get_withAmount, h.get_loadTarget,
        h.get_setRegister, get_storeTarget, get_withHiLo_of_ne hhi hlo, get_setWord_of_ne hhi,
        get_setWord_of_ne hlo, hm, outputOperand?]
    -- The conditional moves are left.
    | split <;> simp only [h.get_withRegisters, hm, outputOperand?]
end Instruction

end Recompiler
