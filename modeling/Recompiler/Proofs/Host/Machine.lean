import Recompiler.Host.Machine
import Recompiler.Host.Sequence
import Recompiler.Proofs.Host.Encoding

/-!
# Straight runs of the machine

What single instructions do to registers, flags and the guest state, and what runs of them without
jumps come to.

* `HostMachine.Keeps`: some registers may have changed, and nothing else that matters.
* `HostMachine.Frame`: what generated code gives back as it found it.
* `HostMachine.Runs`: a run of instructions that can be encoded.
* `HostMachine.readMemory_slot`, `HostMachine.writeMemory_slot`: the words of the guest state.
* `Flags.holds_ofSub`: conditions after a comparison.
-/

namespace Recompiler

/-- The instruction goes on with the one behind it. -/
def HostInstruction.isStraight : HostInstruction → Bool
  | jump _ | jumpIf .. | jumpRegister _ | ret | trap => false
  | _ => true

/-! ## Registers -/

namespace HostMachine

variable {β : Type} (m : HostMachine β) {r q : HostRegister}

@[simp] theorem get_set_self (r : HostRegister) (value : UInt64) : (m.set r value).get r = value := by
  simp [get, set]

theorem index_ne (h : r.Valid) (h' : q.Valid) (hne : r ≠ q) :
    Fin.ofNat 16 r.number.toNat ≠ Fin.ofNat 16 q.number.toNat := by
  have hr : r.number.toNat < 16 := UInt8.lt_iff_toNat_lt.1 h
  have hq : q.number.toNat < 16 := UInt8.lt_iff_toNat_lt.1 h'
  intro heq
  have hnat : r.number.toNat % 16 = q.number.toNat % 16 := congrArg Fin.val heq
  rw [Nat.mod_eq_of_lt hr, Nat.mod_eq_of_lt hq] at hnat
  exact hne (congrArg HostRegister.mk (UInt8.toNat_inj.1 hnat))

theorem get_set_of_ne (h : r.Valid) (h' : q.Valid) (hne : r ≠ q) (value : UInt64) :
    (m.set r value).get q = m.get q := by
  have hindex : (Fin.ofNat 16 r.number.toNat).val ≠ (Fin.ofNat 16 q.number.toNat).val :=
    fun heq => index_ne h h' hne (Fin.ext heq)
  exact Vector.getElem_set_ne (Fin.isLt _) (Fin.isLt _) hindex

@[simp] theorem get_setWord_self (r : HostRegister) (value : UInt32) :
    (m.setWord r value).get r = value.toUInt64 :=
  m.get_set_self r _

@[simp] theorem getWord_setWord_self (r : HostRegister) (value : UInt32) :
    (m.setWord r value).getWord r = value := by
  rw [getWord, get_setWord_self]
  simp

theorem getWord_of_get {m : HostMachine β} {value : UInt32} (h : m.get r = value.toUInt64) :
    m.getWord r = value := by
  rw [getWord, h]
  exact UInt32.toUInt32_toUInt64 value

theorem get_setWord_of_ne (h : r.Valid) (h' : q.Valid) (hne : r ≠ q) (value : UInt32) :
    (m.setWord r value).get q = m.get q :=
  m.get_set_of_ne h h' hne _

@[simp] theorem get_setFlags (flags : Flags) : (m.setFlags flags).get r = m.get r := rfl

@[simp] theorem flags_setFlags (flags : Flags) : (m.setFlags flags).flags = flags := rfl

/-- The machine with a word of the guest state written. -/
def setSlot (slot : Nat) (value : UInt32) : HostMachine β :=
  { m with env := m.env.setWord slot value }

@[simp] theorem get_setSlot (slot : Nat) (value : UInt32) : (m.setSlot slot value).get r = m.get r :=
  rfl

/-! ## What instructions keep -/

/-- What generated code gives back as it found it. -/
structure Frame where
  /-- The address of the guest state. -/
  context : UInt64
  /-- The address of the main region. -/
  memoryBase : UInt64
  /-- The stack pointer. -/
  top : UInt64
  /-- The stack. -/
  stack : Vector UInt64 Linkage.stackSlots

/-- The frame that the machine works in. -/
def frame : Frame :=
  ⟨m.get .context, m.get .memoryBase, m.get .rsp, m.stack⟩

/-- Only the registers on the list may have changed, and the flags. -/
structure Keeps (lost : List HostRegister) (m n : HostMachine β) : Prop where
  env : n.env = m.env
  stack : n.stack = m.stack
  registers : ∀ r : HostRegister, r.Valid → r ∉ lost → n.get r = m.get r

namespace Keeps

variable {m} {n p : HostMachine β} {lost lost' : List HostRegister}

theorem refl (lost : List HostRegister) (m : HostMachine β) : Keeps lost m m :=
  ⟨rfl, rfl, fun _ _ _ => rfl⟩

theorem trans (h : Keeps lost m n) (h' : Keeps lost n p) : Keeps lost m p :=
  ⟨h'.env.trans h.env, h'.stack.trans h.stack, fun r hr hnot =>
    (h'.registers r hr hnot).trans (h.registers r hr hnot)⟩

theorem mono (h : Keeps lost m n) (hsub : lost ⊆ lost') : Keeps lost' m n :=
  ⟨h.env, h.stack, fun r hr hnot => h.registers r hr fun hmem => hnot (hsub hmem)⟩

theorem set (hr : r.Valid) (hmem : r ∈ lost) (m : HostMachine β) (value : UInt64) :
    Keeps lost m (m.set r value) :=
  ⟨rfl, rfl, fun _ hq hnot => m.get_set_of_ne hr hq (fun heq => hnot (heq ▸ hmem)) value⟩

theorem setWord (hr : r.Valid) (hmem : r ∈ lost) (m : HostMachine β) (value : UInt32) :
    Keeps lost m (m.setWord r value) :=
  .set hr hmem m _

theorem setFlags (m : HostMachine β) (flags : Flags) : Keeps lost m (m.setFlags flags) :=
  ⟨rfl, rfl, fun _ _ _ => rfl⟩

theorem setSlot (h : Keeps lost m n) (slot : Nat) (value : UInt32) :
    Keeps lost (m.setSlot slot value) (n.setSlot slot value) :=
  ⟨congrArg (fun e : Environment β => e.setWord slot value) h.env, h.stack, h.registers⟩

theorem getWord (h : Keeps lost m n) (hr : r.Valid) (hnot : r ∉ lost) :
    n.getWord r = m.getWord r :=
  congrArg UInt64.toUInt32 (h.registers r hr hnot)

/-- Registers that do not belong to the frame may change. -/
theorem frame (h : Keeps lost m n) (hcontext : .context ∉ lost) (hbase : .memoryBase ∉ lost)
    (htop : .rsp ∉ lost) : n.frame = m.frame := by
  rw [HostMachine.frame, HostMachine.frame, h.stack, h.registers _ (by decide) hcontext,
    h.registers _ (by decide) hbase, h.registers _ (by decide) htop]

end Keeps

/-! ## Runs of instructions -/

variable [Bus β]

/-- The machine comes from one state to another by some instructions, all of which can be
encoded. -/
def Runs : List HostInstruction → HostMachine β → HostMachine β → Prop
  | [], m, n => n = m
  | i :: is, m, n => i.Valid ∧ ∃ m₁, m.executeStraight i = some m₁ ∧ Runs is m₁ n

variable {m} {n p : HostMachine β} {i : HostInstruction} {is js : List HostInstruction}

theorem Runs.cons {m₁ : HostMachine β} (hi : i.Valid) (h : m.executeStraight i = some m₁)
    (h' : Runs is m₁ n) : Runs (i :: is) m n :=
  ⟨hi, m₁, h, h'⟩

theorem Runs.one (hi : i.Valid) (h : m.executeStraight i = some n) : Runs [i] m n :=
  ⟨hi, n, h, rfl⟩

theorem Runs.append (h : Runs is m n) (h' : Runs js n p) : Runs (is ++ js) m p := by
  induction is generalizing m with
  | nil =>
    obtain rfl : n = m := h
    exact h'
  | cons i is ih =>
    obtain ⟨hi, m₁, hstep, hrest⟩ := h
    exact ⟨hi, m₁, hstep, ih hrest⟩

/-! ## Words of the guest state -/

omit [Bus β] in
/-- The address of a word of the guest state. -/
theorem stateSlot?_address (hcontext : m.get .context = Linkage.contextBase) {slot : Nat}
    (hslot : slot < Slot.count) :
    stateSlot? (m.address (Sequence.stateAddress (Slot.offset slot))) = some slot := by
  have hall : ∀ i : Fin Slot.count, stateSlot? (Linkage.contextBase + 0 +
      (Slot.offset i).toInt32.toInt64.toUInt64) = some i.val := by
    decide +kernel
  have haddress : m.address (Sequence.stateAddress (Slot.offset slot)) =
      m.get .context + 0 + (Slot.offset slot).toInt32.toInt64.toUInt64 := rfl
  rw [haddress, hcontext]
  exact hall ⟨slot, hslot⟩

theorem readMemory_slot (hcontext : m.get .context = Linkage.contextBase) {slot : Nat}
    (hslot : slot < Slot.count) :
    m.readMemory .word (m.address (Sequence.stateAddress (Slot.offset slot))) =
      some (m.env.state.get slot) := by
  rw [readMemory, stateSlot?_address hcontext hslot]
  rfl

theorem writeMemory_slot (hcontext : m.get .context = Linkage.contextBase) {slot : Nat}
    (hslot : slot < Slot.count) (value : UInt32) :
    m.writeMemory .word (m.address (Sequence.stateAddress (Slot.offset slot))) value =
      some (m.setSlot slot value) := by
  rw [writeMemory, stateSlot?_address hcontext hslot]
  rfl

end HostMachine

/-! ## Conditions -/

namespace Flags

theorem signBit_eq_msb (w : UInt32) : signBit w = w.toBitVec.msb := by
  rw [BitVec.msb_eq_decide]
  rfl

theorem lessSigned_eq (a b : UInt32) :
    Word.lessSigned a b = ((a.toBitVec.msb != b.toBitVec.msb) ^^ decide (a < b)) := by
  have hslt : Word.lessSigned a b = a.toBitVec.slt b.toBitVec := by
    rw [Bool.eq_iff_iff, Word.lessSigned, decide_eq_true_iff]
    rfl
  rw [hslt, BitVec.slt_eq_ult]
  rfl

/-- The sign of a difference, corrected by the signed overflow, tells the order. -/
theorem sign_bne_overflow (a b : UInt32) :
    (signBit (a - b) != signBit ((a ^^^ b) &&& (a ^^^ (a - b)))) = Word.lessSigned a b := by
  have hdiff : (a - b).toBitVec.msb = decide (2 ^ 31 ≤ (a - b).toNat) := BitVec.msb_eq_decide _
  have ha : a.toBitVec.msb = decide (2 ^ 31 ≤ a.toNat) := BitVec.msb_eq_decide _
  have hb : b.toBitVec.msb = decide (2 ^ 31 ≤ b.toNat) := BitVec.msb_eq_decide _
  have hsub := UInt32.toNat_sub a b
  have hlt : decide (a < b) = decide (a.toNat < b.toNat) := rfl
  have ha_lt := a.toNat_lt
  have hb_lt := b.toNat_lt
  rw [lessSigned_eq, signBit_eq_msb, signBit_eq_msb, UInt32.toBitVec_and, UInt32.toBitVec_xor,
    UInt32.toBitVec_xor, BitVec.msb_and, BitVec.msb_xor, BitVec.msb_xor, hdiff, ha, hb, hlt]
  by_cases h1 : 2 ^ 31 ≤ a.toNat <;> by_cases h2 : 2 ^ 31 ≤ b.toNat <;>
    by_cases h3 : 2 ^ 31 ≤ (a - b).toNat <;> by_cases h4 : a.toNat < b.toNat <;>
    simp only [h1, h2, h3, h4, decide_true, decide_false, Bool.xor_true, Bool.xor_false,
      Bool.and_true, Bool.and_false, bne_self_eq_false, Bool.not_false] <;>
    omega

theorem equal_or_lessSigned (a b : UInt32) :
    (a == b || Word.lessSigned a b) = !Word.lessSigned b a := by
  have hinj : a = b ↔ a.toInt32.toInt = b.toInt32.toInt := by
    rw [Int32.toInt_inj]
    exact ⟨fun h => h ▸ rfl, fun h => by rw [← UInt32.toUInt32_toInt32 a, h, UInt32.toUInt32_toInt32]⟩
  rw [Bool.eq_iff_iff]
  simp only [Word.lessSigned, Bool.or_eq_true, beq_iff_eq, decide_eq_true_eq, Bool.not_eq_true',
    decide_eq_false_iff_not, Int32.lt_iff_toInt_lt, hinj]
  omega

theorem below_or_equal (a b : UInt32) : (decide (a < b) || a == b) = !decide (b < a) := by
  rw [Bool.eq_iff_iff]
  simp only [Bool.or_eq_true, beq_iff_eq, decide_eq_true_eq, Bool.not_eq_true',
    decide_eq_false_iff_not, UInt32.lt_iff_toNat_lt, ← UInt32.toNat_inj]
  omega

/-- After a comparison the flags tell which conditions hold of its operands. -/
theorem holds_ofSub (c : Condition) (a b : UInt32) : (ofSub a b).holds c = c.holds a b := by
  have hless := sign_bne_overflow a b
  have hnotLess : (signBit (a - b) == signBit ((a ^^^ b) &&& (a ^^^ (a - b)))) =
      !Word.lessSigned a b := by
    rw [← hless, bne, Bool.not_not]
  cases c with
  | equal => rfl
  | notEqual => rfl
  | less => exact hless
  | lessEqual => simp only [holds, ofSub, hless, equal_or_lessSigned, Condition.holds]
  | greater =>
    simp only [holds, ofSub, hless, equal_or_lessSigned, Condition.holds, Bool.not_not]
  | greaterEqual => exact hnotLess
  | below => rfl
  | belowEqual => simp only [holds, ofSub, below_or_equal, Condition.holds]
  | above => simp only [holds, ofSub, below_or_equal, Condition.holds, Bool.not_not]
  | aboveEqual => rfl

end Flags

end Recompiler
