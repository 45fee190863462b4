import Recompiler.Block.MemoryAccess
import Recompiler.Proofs.Host.Sequence

/-!
# Instructions that stay where they may

What an instruction may touch while a block runs: the words of the guest state and the fast regions,
besides registers without a fixed role, and helpers are all it may call.

* `HostInstruction.written`, `HostMachine.get_executeStraight`: the registers an instruction changes.
* `HostMachine.Roles`: the registers with fixed roles hold what they should.
* `HostInstruction.Contained`: the instruction touches nothing else.
* `HostInstruction.Tame`: it works on registers and words of the guest state only, whatever the
  machine.
* `Sequence.tame_alu` and following: the sequences that are tame.
-/

namespace Recompiler

variable {β : Type}

/-! ## What an instruction changes -/

/-- The registers that an instruction may change. -/
def HostInstruction.written : HostInstruction → List HostRegister
  | move dst _ | moveWide dst _ | moveImmediate dst _ | movePointer dst _ | load _ dst _
  | group _ dst _ | groupImmediate _ (.register dst) _ | negate dst | complement dst
  | shift _ dst _ | shiftByCount _ dst | widenLow dst | loadAddress dst _ => [dst]
  | multiply .. => [.rax, .rdx]
  | setLow _ => [.rax]
  | call _ => HostRegister.volatile
  | push _ | growStack _ | shrinkStack _ => [.rsp]
  | pop dst => [dst, .rsp]
  | _ => []

namespace HostMachine

section Frame

variable [Bus β] {m n : HostMachine β} {r : HostRegister}

theorem registers_writeMemory {width : Width} {addr : UInt64} {value : UInt32}
    (h : m.writeMemory width addr value = some n) : n.registers = m.registers := by
  rw [writeMemory] at h
  split at h <;> split at h <;> cases h <;> rfl

theorem get_callHelper {helper : Helper} (h : m.callHelper helper = some n) (hr : r.Valid)
    (hnot : r ∉ HostRegister.volatile) : n.get r = m.get r := by
  have hlost (m : HostMachine β) : m.loseVolatile.get r = m.get r :=
    (Keeps.loseVolatile m).registers r hr hnot
  by_cases hcontext : m.get .rdi = Linkage.contextBase
  · cases helper with
    | load kind =>
      rw [callHelper_load hcontext] at h
      cases h
      have hrax : HostRegister.rax ≠ r := by
        rintro rfl
        exact hnot (by decide)
      rw [get_setWord_of_ne _ (by decide) hr hrax, hlost]
      rfl
    | store width =>
      rw [callHelper_store hcontext] at h
      cases h
      exact hlost _
    | interpret =>
      rw [callHelper, if_neg (not_not_intro hcontext)] at h
      obtain ⟨i, -, hrest⟩ := Option.bind_eq_some_iff.1 h
      split at hrest
      · cases hrest
      · cases hrest
        exact hlost _
  · rw [callHelper, if_pos hcontext] at h
    cases h

/-- An instruction leaves all other registers alone. -/
theorem get_executeStraight {i : HostInstruction} (h : m.executeStraight i = some n) (hi : i.Valid)
    (hr : r.Valid) (hnot : r ∉ i.written) : n.get r = m.get r := by
  have hset (dst : HostRegister) (hdst : dst.Valid) (hne : r ∉ [dst]) (m : HostMachine β)
      (v : UInt64) : (m.set dst v).get r = m.get r := by
    refine get_set_of_ne m hdst hr ?_ v
    rintro rfl
    exact hne (List.mem_singleton_self _)
  have hsame (h : n.registers = m.registers) : n.get r = m.get r :=
    congrArg (fun v : Vector UInt64 16 => v[Fin.ofNat 16 r.number.toNat]) h
  -- All but stores, comparisons and jumps set registers that they name, one or two of them.
  cases i with
  | move dst src => cases h; exact hset _ hi.1 hnot m _
  | moveWide dst src => cases h; exact hset _ hi.1 hnot m _
  | moveImmediate dst value => cases h; exact hset _ hi hnot m _
  | movePointer dst value => cases h; exact hset _ hi hnot m _
  | load kind dst src =>
    obtain ⟨v, -, hload⟩ := Option.bind_eq_some_iff.1 h
    cases hload
    exact hset _ hi.1 hnot m _
  | store width dst src => exact hsame (registers_writeMemory h)
  | storeImmediate dst value => exact hsame (registers_writeMemory h)
  | group op dst src =>
    cases op with
    | compare => cases h; rfl
    | _ => cases h; exact hset _ hi.1 hnot (m.setFlags _) _
  | groupImmediate op dst value =>
    obtain ⟨old, -, hwrite⟩ := Option.bind_eq_some_iff.1 h
    dsimp only at hwrite
    split at hwrite
    · cases hwrite
      rfl
    · cases dst with
      | register dst => cases hwrite; exact hset _ hi hnot (m.setFlags _) _
      | memory a => exact hsame (registers_writeMemory (m := m.setFlags (op.apply old value).2) hwrite)
  | negate dst => cases h; exact hset _ hi hnot m _
  | complement dst => cases h; exact hset _ hi hnot m _
  | shift op dst amount => cases h; exact hset _ hi hnot m _
  | shiftByCount op dst => cases h; exact hset _ hi hnot m _
  | multiply signed factor =>
    cases h
    have hne : r ∉ [HostRegister.rax] ∧ r ∉ [HostRegister.rdx] := by
      simpa [HostInstruction.written] using hnot
    refine (hset .rdx (by decide) hne.2 _ _).trans ?_
    exact hset .rax (by decide) hne.1 m _
  | setLow c => cases h; exact hset .rax (by decide) hnot m _
  | widenLow dst => cases h; exact hset _ hi hnot m _
  | loadAddress dst src => cases h; exact hset _ hi.1 hnot m _
  | call target =>
    obtain ⟨helper, -, hcall⟩ := Option.bind_eq_some_iff.1 h
    exact get_callHelper hcall hr hnot
  | push src =>
    obtain ⟨slot, -, hpush⟩ := Option.bind_eq_some_iff.1 h
    cases hpush
    exact hset .rsp (by decide) hnot m _
  | pop dst =>
    obtain ⟨⟨v, m₁⟩, hpop, hwrite⟩ := Option.bind_eq_some_iff.1 h
    obtain ⟨slot, -, hvalue⟩ := Option.bind_eq_some_iff.1 hpop
    cases hvalue
    cases hwrite
    have hne : r ∉ [dst] ∧ r ∉ [HostRegister.rsp] := by
      simpa [HostInstruction.written] using hnot
    exact (hset _ hi hne.1 _ _).trans (hset .rsp (by decide) hne.2 m _)
  | growStack bytes => cases h; exact hset .rsp (by decide) hnot m _
  | shrinkStack bytes => cases h; exact hset .rsp (by decide) hnot m _
  | nop => cases h; rfl
  | jumpRegister target => cases h
  | ret => cases h
  | jump distance => cases h
  | jumpIf c distance => cases h
  | trap => cases h

end Frame

end HostMachine

/-! ## What an instruction may touch -/

/-- The register may hold anything while a block runs. -/
structure HostRegister.Spare (r : HostRegister) : Prop where
  valid : r.Valid
  context : r ≠ .context
  main : r ≠ .memoryBase
  stack : r ≠ .rsp

instance (r : HostRegister) : Decidable r.Spare :=
  decidable_of_iff (r.Valid ∧ r ≠ .context ∧ r ≠ .memoryBase ∧ r ≠ .rsp)
    ⟨fun h => ⟨h.1, h.2.1, h.2.2.1, h.2.2.2⟩, fun h => ⟨h.valid, h.context, h.main, h.stack⟩⟩

theorem HostRegister.spare_of_mem_allocationOrder {r : HostRegister}
    (h : r ∈ HostRegister.allocationOrder) : r.Spare :=
  (by decide : ∀ r ∈ HostRegister.allocationOrder, r.Spare) r h

/-- The place of a word of the guest state other than the budget. -/
def Slot.Free (slot : Nat) : Prop :=
  slot < Slot.count ∧ slot ≠ Slot.downcount

instance (slot : Nat) : Decidable (Slot.Free slot) :=
  inferInstanceAs (Decidable (_ ∧ _))

/-- The registers with fixed roles hold the address of the guest state and that of the main
region. -/
structure HostMachine.Roles (regions : List FastRegion) (m : HostMachine β) : Prop where
  context : m.get .context = Linkage.contextBase
  main : ∀ r, regions[0]? = some r → m.get .memoryBase = r.pointer

/-- An access of `size` bytes at a host address lies whole in the region. -/
def FastRegion.Spans (r : FastRegion) (pointer : UInt64) (size : Nat) : Prop :=
  ∃ offset : UInt32, pointer = r.pointer + offset.toUInt64 ∧ offset.toNat + size ≤ r.length.toNat

/-- A dealing with guest memory: an access by the host itself, or a call. -/
inductive Dealing where
  | direct (op : MemoryOp) (pointer : UInt64)
  | call (function : UInt64)
  deriving DecidableEq, Repr

/-- The address may be that of the word of the guest state that holds the budget. -/
def HostAddress.mayBeBudget (a : HostAddress) : Bool :=
  a.base = .context && (a.index.isSome || a.displacement = Slot.offset Slot.downcount)

namespace HostInstruction

/-- The dealing of an instruction. Accesses relative to the guest state are none. -/
def dealing? (m : HostMachine β) : HostInstruction → Option Dealing
  | load kind _ a => if a.base = .context then none else some (.direct (.load kind) (m.address a))
  | store width a _ =>
    if a.base = .context then none else some (.direct (.store width) (m.address a))
  | call target => some (.call (m.get target))
  | _ => none

/-- The instruction touches words of the guest state, whole accesses in the regions and registers
only, and calls helpers only. -/
def Contained (regions : List FastRegion) (m : HostMachine β) : HostInstruction → Prop
  | load kind _ a =>
    if a.base = .context then
      kind.width = .word ∧ (HostMachine.stateSlot? (m.address a)).isSome = true
    else ∃ r ∈ regions, r.Spans (m.address a) kind.width.size
  | store width a _ =>
    if a.base = .context then
      width = .word ∧ (HostMachine.stateSlot? (m.address a)).isSome = true
    else ∃ r ∈ regions, r.Spans (m.address a) width.size
  | storeImmediate a _ | groupImmediate _ (.memory a) _ =>
    (HostMachine.stateSlot? (m.address a)).isSome = true
  | call target => (Helper.ofAddress? (m.get target)).isSome = true
  | push _ | pop _ | ret | jumpRegister _ => False
  | _ => True

/-- The instruction works on registers and flags only. -/
def inRegisters : HostInstruction → Bool
  | move .. | moveWide .. | moveImmediate .. | movePointer .. | group .. | negate _ | complement _
  | groupImmediate _ (.register _) _ | shift .. | shiftByCount .. | multiply .. | setLow _
  | widenLow _ | loadAddress .. => true
  | _ => false

/-- The instruction may write the word of the guest state that holds the budget. -/
def touchesBudget : HostInstruction → Bool
  | store _ a _ | storeImmediate a _ => a.mayBeBudget
  | groupImmediate op (.memory a) _ => op ≠ .compare && a.mayBeBudget
  | _ => false

/-- The instruction can be encoded, goes on with the one behind it, and leaves the registers with
fixed roles and the budget alone. Whatever the other registers hold, it touches nothing but
registers and words of the guest state. -/
structure Tame (i : HostInstruction) : Prop where
  valid : i.Valid
  straight : i.isStraight = true
  written : ∀ r ∈ i.written, r.Spare
  contained : ∀ {β : Type} (regions : List FastRegion) (m : HostMachine β), m.Roles regions →
    i.Contained regions m
  silent : ∀ {β : Type} (m : HostMachine β), i.dealing? m = none
  budget : i.touchesBudget = false

end HostInstruction

theorem HostMachine.Roles.executeStraight [Bus β] {regions : List FastRegion} {m n : HostMachine β}
    {i : HostInstruction} (h : m.Roles regions) (hi : i.Valid)
    (hwritten : ∀ r ∈ i.written, r.Spare) (hexecute : m.executeStraight i = some n) :
    n.Roles regions where
  context := (get_executeStraight hexecute hi (by decide) fun hmem =>
    (hwritten _ hmem).context rfl).trans h.context
  main r hr := (get_executeStraight hexecute hi (by decide) fun hmem =>
    (hwritten _ hmem).main rfl).trans (h.main r hr)

/-! ## Tame sequences -/

/-- The argument is in a register, or needs none. -/
def Argument.Valid : Argument → Prop
  | .register r => r.Valid
  | _ => True

namespace Sequence

open HostInstruction

variable {dst lhs src base : HostRegister} {rhs : Source} {slot : Nat}

/-- Every instruction of the sequence is tame. -/
def Tame (is : List HostInstruction) : Prop :=
  ∀ i ∈ is, i.Tame

theorem tame_nil : Tame [] := by
  simp [Tame]

theorem Tame.append {is js : List HostInstruction} (h : Tame is) (h' : Tame js) :
    Tame (is ++ js) := by
  intro i hi
  exact (List.mem_append.1 hi).elim (h i) (h' i)

theorem tame_one {i : HostInstruction} (h : i.Tame) : Tame [i] := by
  simpa [Tame] using h

theorem tame_of_inRegisters {i : HostInstruction} (hin : i.inRegisters = true) (hvalid : i.Valid)
    (hwritten : ∀ r ∈ i.written, r.Spare) : i.Tame := by
  cases i with
  | groupImmediate op dst value =>
    cases dst with
    | register dst => exact ⟨hvalid, rfl, hwritten, fun _ _ _ => trivial, fun _ => rfl, rfl⟩
    | memory a => cases hin
  | _ =>
    first
    | exact ⟨hvalid, rfl, hwritten, fun _ _ _ => trivial, fun _ => rfl, rfl⟩
    | cases hin

/-- An instruction that works on registers and writes one of them. -/
theorem tame_write {i : HostInstruction} (hin : i.inRegisters = true) (hvalid : i.Valid)
    (hwritten : i.written = [dst]) (hdst : dst.Spare) : Sequence.Tame [i] :=
  tame_one (tame_of_inRegisters hin hvalid (by simpa [hwritten] using hdst))

/-! ### The guest state -/

theorem base_stateAddress {offset : UInt32} : (stateAddress offset).base = .context := rfl

theorem isSome_stateSlot? (hslot : slot < Slot.count) {regions : List FastRegion}
    {m : HostMachine β} (h : m.Roles regions) :
    (HostMachine.stateSlot? (m.address (stateAddress (Slot.offset slot)))).isSome = true := by
  rw [HostMachine.stateSlot?_address h.context hslot]
  rfl

theorem mayBeBudget_stateAddress (hslot : Slot.Free slot) :
    (stateAddress (Slot.offset slot)).mayBeBudget = false :=
  (by decide : ∀ slot : Fin Slot.count, slot.val ≠ Slot.downcount →
    (stateAddress (Slot.offset slot)).mayBeBudget = false) ⟨slot, hslot.1⟩ hslot.2

theorem tame_loadState (hdst : dst.Spare) (hslot : slot < Slot.count) :
    Tame (loadState dst (Slot.offset slot)) :=
  tame_one ⟨⟨hdst.valid, valid_stateAddress _⟩, rfl, by simpa [written] using hdst,
    fun _ _ h => by rw [Contained, if_pos base_stateAddress]; exact ⟨rfl, isSome_stateSlot? hslot h⟩,
    fun _ => by rw [dealing?, if_pos base_stateAddress], rfl⟩

theorem tame_storeState (hsrc : src.Valid) (hslot : Slot.Free slot) :
    Tame (storeState (Slot.offset slot) src) :=
  tame_one ⟨⟨valid_stateAddress _, hsrc⟩, rfl, by simp [written],
    fun _ _ h => by rw [Contained, if_pos base_stateAddress]; exact ⟨rfl, isSome_stateSlot? hslot.1 h⟩,
    fun _ => by rw [dealing?, if_pos base_stateAddress], mayBeBudget_stateAddress hslot⟩

theorem tame_storeStateImmediate (hslot : Slot.Free slot) (value : UInt32) :
    Tame (storeStateImmediate (Slot.offset slot) value) :=
  tame_one ⟨valid_stateAddress _, rfl, by simp [written], fun _ _ h => isSome_stateSlot? hslot.1 h,
    fun _ => rfl, mayBeBudget_stateAddress hslot⟩

theorem tame_compareState (hslot : slot < Slot.count) (value : UInt32) :
    Tame (compareState (Slot.offset slot) value) :=
  tame_one ⟨valid_stateAddress _, rfl, by simp [written], fun _ _ h => isSome_stateSlot? hslot h,
    fun _ => rfl, rfl⟩

/-! ### Arithmetic -/

theorem tame_move (hdst : dst.Spare) (hsrc : src.Valid) : Tame (move dst src) := by
  rw [move]
  split
  · exact tame_nil
  · exact tame_write rfl ⟨hdst.valid, hsrc⟩ rfl hdst

theorem tame_moveImmediate (hdst : dst.Spare) (value : UInt32) : Tame (moveImmediate dst value) :=
  tame_write rfl hdst.valid rfl hdst

theorem tame_movePointer (hdst : dst.Spare) (value : UInt64) : Tame (movePointer dst value) :=
  tame_write rfl hdst.valid rfl hdst

theorem tame_group (op : GroupOp) (hdst : dst.Spare) (hrhs : rhs.Valid) :
    Tame [group op dst rhs] := by
  cases rhs with
  | register src => exact tame_write rfl ⟨hdst.valid, hrhs⟩ rfl hdst
  | immediate value => exact tame_write rfl hdst.valid rfl hdst

theorem tame_alu (op : AluOp) (hdst : dst.Spare) (hlhs : lhs.Valid) (hrhs : rhs.Valid) :
    Tame (alu op dst lhs rhs) := by
  have hbody : Tame (if rhs = .register dst ∧ lhs ≠ dst then
      if op.isCommutative then [.group (.ofAlu op) dst lhs]
      else [.negate dst, .group .add dst lhs]
      else move dst lhs ++ [group (.ofAlu op) dst rhs]) := by
    have hgroup (op : GroupOp) : Tame [.group op dst lhs] :=
      tame_write rfl ⟨hdst.valid, hlhs⟩ rfl hdst
    split
    · split
      · exact hgroup _
      · exact (tame_write (i := .negate dst) rfl hdst.valid rfl hdst).append (hgroup _)
    · exact (tame_move hdst hlhs).append (tame_group _ hdst hrhs)
  unfold alu
  extract_lets body
  split
  · exact hbody.append (tame_write (i := .complement dst) rfl hdst.valid rfl hdst)
  · exact hbody

theorem tame_shift (op : ShiftOp) (hdst : dst.Spare) (hsrc : src.Valid) (hrhs : rhs.Valid) :
    Tame (shift op dst src rhs) := by
  cases rhs with
  | immediate amount =>
    refine (tame_move hdst hsrc).append ?_
    split
    · exact tame_nil
    · exact tame_write rfl hdst.valid rfl hdst
  | register amount =>
    exact ((tame_move (by decide) hrhs).append (tame_move hdst hsrc)).append
      (tame_write rfl hdst.valid rfl hdst)

theorem tame_compare (hlhs : lhs.Spare) (hrhs : rhs.Valid) : Tame (compare lhs rhs) :=
  tame_group .compare hlhs hrhs

theorem tame_setLow (c : Condition) (hdst : dst.Spare) : Tame [.setLow c, .widenLow dst] :=
  (tame_write (i := .setLow c) rfl trivial rfl (by decide)).append
    (tame_write rfl hdst.valid rfl hdst)

theorem tame_setCondition (c : Condition) (hdst : dst.Spare) (hlhs : lhs.Spare)
    (hrhs : rhs.Valid) : Tame (setCondition c dst lhs rhs) :=
  (tame_compare hlhs hrhs).append (tame_setLow c hdst)

theorem tame_storeCondition (c : Condition) (hslot : Slot.Free slot) :
    Tame (storeCondition c (Slot.offset slot)) :=
  (tame_setLow c (by decide)).append (tame_storeState (by decide) hslot)

theorem tame_multiply (signed : Bool) {hi lo : Nat} (hlhs : lhs.Valid) (hsrc : src.Valid)
    (hhi : Slot.Free hi) (hlo : Slot.Free lo) :
    Tame (multiply signed lhs src (Slot.offset hi) (Slot.offset lo)) := by
  have hproduct : Tame [.multiply signed src] :=
    tame_one (tame_of_inRegisters rfl hsrc (by simp only [written]; decide))
  exact (((tame_move (by decide) hlhs).append hproduct).append
    (tame_storeState (by decide) hlo)).append (tame_storeState (by decide) hhi)

theorem tame_loadAddress (hdst : dst.Spare) (hbase : base.Valid) (displacement : UInt32) :
    Tame (loadAddress dst base displacement) :=
  tame_write rfl ⟨hdst.valid, hbase, by simp⟩ rfl hdst

/-! ### Calls -/

theorem tame_passArgument (hdst : dst.Spare) {arg : Argument} (harg : arg.Valid) :
    Tame (passArgument dst arg) := by
  cases arg with
  | context => exact tame_write rfl ⟨hdst.valid, by decide⟩ rfl hdst
  | register src => exact tame_move hdst harg
  | immediate value => exact tame_moveImmediate hdst value
  | pointer value => exact tame_movePointer hdst value

/-- A call passes its arguments, and then goes to where it should. -/
theorem exists_of_call {function : UInt64} {args : List Argument} {is : List HostInstruction}
    (h : call function args = .ok is) (hargs : ∀ arg ∈ args, arg.Valid) :
    ∃ passing, is = passing ++ movePointer .rax function ++ [.call .rax] ∧ Tame passing := by
  rw [call] at h
  split at h
  · cases h
  · cases h
    refine ⟨_, rfl, fun i hi => ?_⟩
    obtain ⟨⟨dst, arg⟩, hzip, hmem⟩ := List.mem_flatMap.1 hi
    have hdst := (by decide : ∀ r ∈ HostRegister.arguments, r.Spare) dst (List.of_mem_zip hzip).1
    exact tame_passArgument hdst (hargs arg (List.of_mem_zip hzip).2) i hmem

end Sequence

end Recompiler
