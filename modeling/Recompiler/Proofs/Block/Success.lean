import Recompiler.Proofs.Block.CacheHistory
import Recompiler.Proofs.Block.Charted
import Recompiler.Proofs.Guest.Interpreter

/-!
# Lowering succeeds

No instruction of the table is beyond the lowering: every operand that is asked for has a field, no
more than three guest registers are locked at a time, and what has no code of its own is interpreted.

* `Mnemonic.operandsRead`: the operands that are asked for.
* `RegisterCache.Locks`: the guest registers that may be locked.
* `Allocate.Succeeds`, `Lower.Succeeds`: operations on the register cache and steps that succeed.
* `Succeeds.straight`: instructions that do not end a block.
* `Succeeds.writeCompare`, `Succeeds.writeExit` and following: the steps of the others.
-/

namespace Recompiler

variable {β : Type}

/-! ## Operands -/

/-- The operands that the lowering of an instruction asks for. -/
def Mnemonic.operandsRead (m : Mnemonic) : List Operand :=
  if (BinaryOp.ofImmediate? m).isSome then [.target, .source, .immediate]
  else if (BinaryOp.ofRegister? m).isSome then [.destination, .source, .target]
  else if (MemoryOp.ofMnemonic? m).isSome then [.target, .base, .offset]
  else match m with
    | .lui => [.target, .immediate]
    | .sll | .srl | .sra => [.destination, .target, .immediate]
    | .sllv | .srlv | .srav => [.destination, .source, .target]
    | .mult | .multu => [.source, .target]
    | .mfhi | .mflo => [.destination]
    | .mthi | .mtlo | .jr => [.source]
    | .jalr => [.source, .destination]
    | _ =>
      match Condition.ofBranch? m with
      | some (_, true) => [.source, .target]
      | some (_, false) => [.source]
      | none => []

theorem Mnemonic.operandsRead_of_ofBranch? {m : Mnemonic} {c : Condition} {two : Bool}
    (h : Condition.ofBranch? m = some (c, two)) :
    m.operandsRead = if two then [.source, .target] else [.source] := by
  cases m <;> cases h <;> rfl

theorem Mnemonic.hasDelaySlot_of_ofBranch? {m : Mnemonic} {x : Condition × Bool}
    (h : Condition.ofBranch? m = some x) : m.hasDelaySlot = true := by
  cases m <;> cases h <;> rfl

/-- Every operand that is asked for has a field. -/
theorem Entry.find?_operandsRead : ∀ e ∈ Entry.table, ∀ op ∈ e.mnemonic.operandsRead,
    (e.pattern.fields.find? (·.operand == op)).isSome = true := by
  decide +kernel

namespace Instruction

variable {i : Instruction} {op : Operand}

theorem exists_operand (hi : i.entry ∈ Entry.table) (hop : op ∈ i.mnemonic.operandsRead)
    (what : String) : ∃ value, i.operand op what = .ok value := by
  obtain ⟨f, hf⟩ := Option.isSome_iff_exists.1 (Entry.find?_operandsRead _ hi _ hop)
  have hget : i.get? op = some (f.extract i.word) := by
    rw [get?, Pattern.get?, hf]
    rfl
  exact ⟨_, by rw [operand, hget]⟩

end Instruction

/-! ## Locks -/

/-- The cache is sound, and no guest registers are locked but these. -/
structure RegisterCache.Locks (kept : List GuestIndex) (c : RegisterCache) : Prop
    extends c.Sound where
  mem : ∀ reg, c.locked.get reg = true → reg ∈ kept

namespace RegisterCache

variable {c d : RegisterCache} {kept kept' : List GuestIndex}

theorem Locks.mono (h : c.Locks kept) (hsub : kept ⊆ kept') : c.Locks kept' :=
  ⟨h.toSound, fun reg hreg => hsub (h.mem reg hreg)⟩

theorem Locks.of_locked_eq (h : c.Locks kept) (hd : d.Sound) (hlocked : d.locked = c.locked) :
    d.Locks kept :=
  ⟨hd, fun reg hreg => h.mem reg (hlocked ▸ hreg)⟩

theorem Locks.lock (h : c.Locks kept) (reg : GuestIndex) : (c.lock reg).Locks (reg :: kept) := by
  refine ⟨h.setLocked _, fun r hr => ?_⟩
  change (c.locked.set reg true)[r.val] = true at hr
  rw [Vector.getElem_set] at hr
  split at hr
  · next heq => exact Fin.ext heq ▸ List.mem_cons_self
  · exact List.mem_cons_of_mem _ (h.mem r hr)

theorem Sound.release (h : c.Sound) : c.release.Locks [] := by
  refine ⟨h.setLocked _, fun reg hreg => ?_⟩
  change (Vector.replicate 32 false)[reg.val] = true at hreg
  simp at hreg

theorem Sound.setPc (h : c.Sound) (pc : UInt32) : Sound { c with pc := pc } :=
  ⟨⟨h.hosts, h.resident⟩, h.zero⟩

theorem Locks.setPc (h : c.Locks kept) (pc : UInt32) : Locks kept { c with pc := pc } :=
  ⟨h.toSound.setPc pc, h.mem⟩

theorem locks_fresh : fresh.Locks [] :=
  sound_fresh.release

theorem locked_setImmediate (c : RegisterCache) (reg : GuestIndex) (value : UInt32) :
    (c.setImmediate reg value).locked = c.locked := by
  unfold setImmediate unbind
  split
  · rfl
  · split <;> rfl

end RegisterCache

/-- The operation succeeds while no guest registers are locked but these, and leaves those locked. -/
def Allocate.Succeeds {α : Type} (kept : List GuestIndex) (x : Allocate α)
    (kept' : List GuestIndex) : Prop :=
  ∀ a : Allocation, a.cache.Locks kept → ∃ r, (exec x a).1 = .ok r ∧ (exec x a).2.cache.Locks kept'

namespace Allocate.Succeeds

open RegisterCache

variable {α γ : Type} {x : Allocate α} {kept kept' kept'' : List GuestIndex}

theorem pure (r : α) : Succeeds kept (Pure.pure r : Allocate α) kept :=
  fun _ ha => ⟨r, rfl, ha⟩

theorem bind {f : α → Allocate γ} (hx : Succeeds kept x kept')
    (hf : ∀ r, Succeeds kept' (f r) kept'') : Succeeds kept (x >>= f) kept'' := by
  intro a ha
  obtain ⟨r, hok, hb⟩ := hx a ha
  rw [exec_bind_of_ok (Prod.ext hok rfl)]
  exact hf r _ hb

theorem lock_bind (reg : GuestIndex) {k : Allocate α} (hk : Succeeds (reg :: kept) k kept') :
    Succeeds kept (update (·.lock reg) >>= fun _ => k) kept' :=
  fun a ha => hk { a with cache := a.cache.lock reg } (ha.lock reg)

/-- There is a host register for a guest register while three of them are locked at most. -/
theorem map (hkept : kept.length ≤ 3) (reg : GuestIndex) (access : Access) :
    Succeeds kept (RegisterCache.map reg access) kept := by
  intro a ha
  obtain ⟨host, hok⟩ := map_ok ha.toPaired hkept ha.mem reg access
  obtain ⟨n, hmoves, hspares, -⟩ := maps ha.consistent reg access
  exact ⟨host, hok, ha.of_locked_eq hmoves.consistent.sound hspares.locked⟩

theorem mapSources (rs rt : GuestIndex) :
    Succeeds [] (RegisterCache.mapSources rs rt) [rt, rs] :=
  lock_bind rs <| lock_bind rt <| .bind (.map (by simp) rs .read) fun _ =>
    .bind (.map (by simp) rt .read) fun _ => .pure _

theorem mapTarget (dst src : GuestIndex) :
    Succeeds [] (RegisterCache.mapTarget dst src) [src, dst] :=
  lock_bind dst <| lock_bind src <| .bind (.map (by simp) src .read) fun _ =>
    .bind (.map (by simp) dst _) fun _ => .pure _

theorem mapTargetSources (dst rs rt : GuestIndex) :
    Succeeds [] (RegisterCache.mapTargetSources dst rs rt) [rt, rs, dst] := by
  have hsources : Succeeds [dst] (RegisterCache.mapSources rs rt) [rt, rs, dst] :=
    lock_bind rs <| lock_bind rt <| .bind (.map (by simp) rs .read) fun _ =>
      .bind (.map (by simp) rt .read) fun _ => .pure _
  exact lock_bind dst <| .bind hsources fun _ => .bind (.map (by simp) dst _) fun _ => .pure _

theorem flushAll : Succeeds kept RegisterCache.flushAll [] := by
  intro a ha
  obtain ⟨n, hok, hmoves, -⟩ := stores_flushes ha.consistent (List.finRange 32)
  rw [RegisterCache.flushAll, exec_bind_of_ok (Prod.ext hok rfl), exec_update]
  exact ⟨(), rfl, hmoves.consistent.sound.release⟩

end Allocate.Succeeds

/-! ## Steps that succeed -/

/-- The same is read next, and the block was not opened again. -/
structure Lowering.Onward (t u : Lowering β) : Prop where
  bus : u.bus = t.bus
  pc : u.pc = t.pc
  isOpen : u.isOpen = true → t.isOpen = true

theorem Lowering.Onward.refl (t : Lowering β) : t.Onward t :=
  ⟨rfl, rfl, id⟩

theorem Lowering.Onward.trans {t u v : Lowering β} (h : t.Onward u) (h' : u.Onward v) :
    t.Onward v :=
  ⟨h'.bus.trans h.bus, h'.pc.trans h.pc, h.isOpen ∘ h'.isOpen⟩

namespace Lower

variable {α γ : Type}

/-- The step succeeds while no guest registers are locked but these, and leaves those locked. -/
def Succeeds (kept : List GuestIndex) (x : Lower β α) (kept' : List GuestIndex) : Prop :=
  ∀ s t, t.registers.Locks kept →
    ∃ r u, exec x s t = (.ok r, u) ∧ u.registers.Locks kept' ∧ t.Onward u

namespace Succeeds

variable {x : Lower β α} {kept kept' kept'' : List GuestIndex}

/-! ### Putting steps together -/

theorem pure (r : α) : Succeeds kept (Pure.pure r : Lower β α) kept :=
  fun _ t ht => ⟨r, t, rfl, ht, .refl t⟩

theorem bind {f : α → Lower β γ} (hx : Succeeds kept x kept')
    (hf : ∀ r, Succeeds kept' (f r) kept'') : Succeeds kept (x >>= f) kept'' := by
  intro s t ht
  obtain ⟨r, u, hexec, hu, honward⟩ := hx s t ht
  obtain ⟨q, v, hexec', hv, honward'⟩ := hf r s u hu
  exact ⟨q, v, (exec_bind_of_ok hexec).trans hexec', hv, honward.trans honward'⟩

theorem mono (hx : Succeeds kept x kept') (hsub : kept' ⊆ kept'') : Succeeds kept x kept'' := by
  intro s t ht
  obtain ⟨r, u, hexec, hu, honward⟩ := hx s t ht
  exact ⟨r, u, hexec, hu.mono hsub, honward⟩

/-- The step succeeds, whatever it leaves locked. -/
theorem any (hx : Succeeds kept x kept') : Succeeds kept x (List.finRange 32) :=
  hx.mono fun reg _ => List.mem_finRange reg

theorem any_of (kept' : List GuestIndex) (hx : Succeeds kept x kept') :
    Succeeds kept x (List.finRange 32) :=
  hx.any

theorem ite {c : Prop} [Decidable c] {x y : Lower β α} (hx : Succeeds kept x kept')
    (hy : Succeeds kept y kept') : Succeeds kept (if c then x else y) kept' := by
  split
  · exact hx
  · exact hy

/-- A step that is done on a condition, before the others. -/
theorem optional {c : Prop} [Decidable c] {x : Lower β Unit} {k : Unit → Lower β γ}
    (hx : Succeeds kept x kept) (hk : Succeeds kept (k ()) kept') :
    Succeeds kept (if c then x >>= k else k ()) kept' :=
  ite (hx.bind fun _ => hk) hk

theorem get_bind {k : Lowering β → Lower β α} (h : ∀ t, Succeeds kept (k t) kept') :
    Succeeds kept (get >>= k) kept' :=
  fun s t ht => h t s t ht

theorem read_bind {k : Surroundings → Lower β α} (h : ∀ s, Succeeds kept (k s) kept') :
    Succeeds kept (read >>= k) kept' :=
  fun s t ht => h s s t ht

theorem modify {f : Lowering β → Lowering β}
    (hlocks : ∀ t, t.registers.Locks kept → (f t).registers.Locks kept')
    (honward : ∀ t : Lowering β, t.Onward (f t)) : Succeeds kept (modify f : Lower β PUnit) kept' :=
  fun _ t ht => ⟨(), f t, rfl, hlocks t ht, honward t⟩

/-! ### Single steps -/

theorem append (items : List Item) : Succeeds kept (Lower.append items : Lower β Unit) kept :=
  modify (fun _ ht => ht) fun _ => ⟨rfl, rfl, id⟩

theorem emit (is : List HostInstruction) : Succeeds kept (Lower.emit is : Lower β Unit) kept :=
  append _

theorem emitChecked {is? : Except Breach (List HostInstruction)} (h : ∃ is, is? = .ok is) :
    Succeeds kept (Lower.emitChecked is? : Lower β Unit) kept := by
  obtain ⟨is, rfl⟩ := h
  exact emit is

theorem report (event : Event) : Succeeds kept (Lower.report event : Lower β Unit) kept :=
  modify (fun _ ht => ht) fun _ => ⟨rfl, rfl, id⟩

theorem checked {value? : Except Breach α} (h : ∃ value, value? = .ok value) :
    Succeeds kept (Lower.checked value? : Lower β α) kept := by
  obtain ⟨value, rfl⟩ := h
  exact pure value

theorem registerOperand {value? : Except Breach UInt32} (h : ∃ value, value? = .ok value) :
    Succeeds kept (Lower.registerOperand value? : Lower β GuestIndex) kept :=
  (checked h).bind fun _ => pure _

theorem freshLabel : Succeeds kept (Lower.freshLabel : Lower β Nat) kept :=
  fun _ t ht => ⟨t.labels, _, rfl, ht, rfl, rfl, id⟩

theorem currentPc : Succeeds kept (Lower.currentPc : Lower β UInt32) kept :=
  get_bind fun _ => pure _

theorem followingPc : Succeeds kept (Lower.followingPc : Lower β UInt32) kept :=
  get_bind fun _ => pure _

theorem immediate? (reg : GuestIndex) :
    Succeeds kept (Lower.immediate? reg : Lower β (Option UInt32)) kept :=
  get_bind fun _ => pure _

theorem updateRegisters {f : RegisterCache → RegisterCache}
    (h : ∀ c, c.Locks kept → (f c).Locks kept') :
    Succeeds kept (Lower.updateRegisters f : Lower β Unit) kept' :=
  modify (fun _ ht => h _ ht) fun _ => ⟨rfl, rfl, id⟩

theorem lock (reg : GuestIndex) :
    Succeeds kept (Lower.updateRegisters (·.lock reg) : Lower β Unit) (reg :: kept) :=
  updateRegisters fun _ hc => hc.lock reg

theorem release : Succeeds kept (Lower.updateRegisters (·.release) : Lower β Unit) [] :=
  updateRegisters fun _ hc => hc.release

theorem setImmediate (reg : GuestIndex) (value : UInt32) :
    Succeeds kept (Lower.setImmediate reg value : Lower β Unit) kept :=
  updateRegisters fun c hc => hc.of_locked_eq (hc.toSound.setImmediate reg value)
    (c.locked_setImmediate reg value)

theorem allocating {y : Allocate α} (hy : y.Succeeds kept kept') :
    Succeeds kept (Lower.allocating y : Lower β α) kept' := by
  intro s t ht
  obtain ⟨r, hok, hlocks⟩ := hy ⟨t.registers, [], []⟩ ht
  refine ⟨r, _, (exec_allocating y s t).trans (Prod.ext hok rfl), hlocks, rfl, rfl, id⟩

theorem map (hkept : kept.length ≤ 3) (reg : GuestIndex) (access : Access) :
    Succeeds kept (Lower.map reg access : Lower β HostRegister) kept :=
  allocating (.map hkept reg access)

theorem flushAll : Succeeds kept (Lower.flushAll : Lower β Unit) [] :=
  allocating .flushAll

theorem hardFault : Succeeds kept (Lower.hardFault : Lower β Unit) [] :=
  flushAll.bind fun _ => currentPc.bind fun _ => (emit _).bind fun _ => read_bind fun _ =>
    (append _).bind fun _ => modify (fun _ ht => ht) fun _ => ⟨rfl, rfl, nofun⟩

/-! ### Arithmetic -/

section Arithmetic

variable {i : Instruction}

theorem operand (hi : i.entry ∈ Entry.table) {op : Operand} {what : String}
    (hop : op ∈ i.mnemonic.operandsRead) :
    Succeeds kept (Lower.registerOperand (i.operand op what) : Lower β GuestIndex) kept :=
  registerOperand (i.exists_operand hi hop what)

theorem immediateArithmetic (hi : i.entry ∈ Entry.table) {op : BinaryOp} {signed : Bool}
    (hop : BinaryOp.ofImmediate? i.mnemonic = some (op, signed)) :
    Succeeds [] (Lower.immediateArithmetic i op signed : Lower β Unit) (List.finRange 32) := by
  have hreads : i.mnemonic.operandsRead = [.target, .source, .immediate] := by
    simp [Mnemonic.operandsRead, hop]
  have himmediate : ∃ imm, (if signed then i.signedImmediate else i.immediate) = .ok imm := by
    obtain ⟨imm, h⟩ := i.exists_operand hi (show .immediate ∈ _ by simp [hreads]) "immediate"
    split
    · exact ⟨Word.signExtend16 imm, by rw [Instruction.signedImmediate, Instruction.immediate, h]; rfl⟩
    · exact ⟨imm, h⟩
  refine (operand hi (by simp [hreads])).bind fun rt => (operand hi (by simp [hreads])).bind fun rs =>
    .ite (pure _).any ?_
  refine (checked himmediate).bind fun imm => (immediate? rs).bind fun value? => ?_
  cases value? with
  | some value => exact (setImmediate _ _).any
  | none => exact ((allocating (.mapTarget rt rs)).bind fun _ => emit _).any

theorem loadUpper (hi : i.entry ∈ Entry.table) (hm : i.mnemonic = .lui) :
    Succeeds [] (Lower.loadUpper i : Lower β Unit) (List.finRange 32) := by
  have hreads : i.mnemonic.operandsRead = [.target, .immediate] := by rw [hm]; rfl
  refine (operand hi (by simp [hreads])).bind fun rt => .ite ?_ (pure _).any
  exact ((checked (i.exists_operand hi (by simp [hreads]) _)).bind fun _ => setImmediate _ _).any

theorem registerArithmetic (hi : i.entry ∈ Entry.table) {op : BinaryOp}
    (hop : BinaryOp.ofRegister? i.mnemonic = some op) :
    Succeeds [] (Lower.registerArithmetic i op : Lower β Unit) (List.finRange 32) := by
  have hreads : i.mnemonic.operandsRead = [.destination, .source, .target] := by
    revert hop
    cases i.mnemonic <;> rintro ⟨⟩ <;> rfl
  refine (operand hi (by simp [hreads])).bind fun rd => (operand hi (by simp [hreads])).bind fun rs =>
    (operand hi (by simp [hreads])).bind fun rt => .ite (pure _).any ?_
  refine (immediate? rs).bind fun lhs? => (immediate? rt).bind fun rhs? => ?_
  split
  · exact (setImmediate _ _).any
  · exact ((allocating (.mapTarget rd rs)).bind fun _ => emit _).any
  · split
    · exact ((allocating (.mapTarget rd rt)).bind fun _ => emit _).any
    · exact ((allocating (.mapTargetSources rd rs rt)).bind fun _ => emit _).any

theorem constantShift (hi : i.entry ∈ Entry.table) (op : ShiftOp)
    (hm : i.mnemonic = .sll ∨ i.mnemonic = .srl ∨ i.mnemonic = .sra) :
    Succeeds [] (Lower.constantShift i op : Lower β Unit) (List.finRange 32) := by
  have hreads : i.mnemonic.operandsRead = [.destination, .target, .immediate] := by
    rcases hm with hm | hm | hm <;> rw [hm] <;> rfl
  refine (operand hi (by simp [hreads])).bind fun rd => (operand hi (by simp [hreads])).bind fun rt =>
    (checked (i.exists_operand hi (by simp [hreads]) _)).bind fun amount => .ite (pure _).any ?_
  refine (immediate? rt).bind fun value? => ?_
  cases value? with
  | some value => exact (setImmediate _ _).any
  | none => exact ((allocating (.mapTarget rd rt)).bind fun _ => emit _).any

theorem variableShift (hi : i.entry ∈ Entry.table) (op : ShiftOp)
    (hm : i.mnemonic = .sllv ∨ i.mnemonic = .srlv ∨ i.mnemonic = .srav) :
    Succeeds [] (Lower.variableShift i op : Lower β Unit) (List.finRange 32) := by
  have hreads : i.mnemonic.operandsRead = [.destination, .source, .target] := by
    rcases hm with hm | hm | hm <;> rw [hm] <;> rfl
  refine (operand hi (by simp [hreads])).bind fun rd => (operand hi (by simp [hreads])).bind fun rs =>
    (operand hi (by simp [hreads])).bind fun rt => .ite (pure _).any ?_
  refine (immediate? rt).bind fun value? => (immediate? rs).bind fun amount? => ?_
  split
  · exact (setImmediate _ _).any
  · exact ((allocating (.mapTarget rd rt)).bind fun _ => emit _).any
  · exact ((allocating (.mapTargetSources rd rt rs)).bind fun _ => emit _).any

theorem product (hi : i.entry ∈ Entry.table) (signed : Bool)
    (hm : i.mnemonic = .mult ∨ i.mnemonic = .multu) :
    Succeeds [] (Lower.product i signed : Lower β Unit) (List.finRange 32) := by
  have hreads : i.mnemonic.operandsRead = [.source, .target] := by
    rcases hm with hm | hm <;> rw [hm] <;> rfl
  refine (operand hi (by simp [hreads])).bind fun rs => (operand hi (by simp [hreads])).bind fun rt => ?_
  exact ((allocating (.mapSources rs rt)).bind fun _ => emit _).any

theorem moveFrom (hi : i.entry ∈ Entry.table) (slot : Nat)
    (hm : i.mnemonic = .mfhi ∨ i.mnemonic = .mflo) :
    Succeeds [] (Lower.moveFrom i slot : Lower β Unit) (List.finRange 32) := by
  have hreads : i.mnemonic.operandsRead = [.destination] := by
    rcases hm with hm | hm <;> rw [hm] <;> rfl
  refine (operand hi (by simp [hreads])).bind fun rd => .ite ?_ (pure _).any
  exact ((map (by simp) rd .write).bind fun _ => emit _).any

theorem moveTo (hi : i.entry ∈ Entry.table) (slot : Nat)
    (hm : i.mnemonic = .mthi ∨ i.mnemonic = .mtlo) :
    Succeeds [] (Lower.moveTo i slot : Lower β Unit) (List.finRange 32) := by
  have hreads : i.mnemonic.operandsRead = [.source] := by
    rcases hm with hm | hm <;> rw [hm] <;> rfl
  refine (operand hi (by simp [hreads])).bind fun rs => (immediate? rs).bind fun value? => ?_
  cases value? with
  | some value => exact (emit _).any
  | none => exact ((map (by simp) rs .read).bind fun _ => emit _).any

end Arithmetic

/-! ### Memory -/

section Memory

variable (op : MemoryOp) (value : HostRegister)

theorem direct {addr : FastAddress} (haddr : ∃ host, addr.resolve = .ok host) :
    Succeeds kept (Lower.emitChecked (op.direct value addr) : Lower β Unit) kept := by
  obtain ⟨host, haddr⟩ := haddr
  refine emitChecked ?_
  cases op with
  | load kind => exact ⟨_, by rw [MemoryOp.direct, Sequence.loadHost, haddr]; rfl⟩
  | store width => exact ⟨_, by rw [MemoryOp.direct, Sequence.storeHost, haddr]; rfl⟩

theorem slow : Succeeds kept (Lower.emitChecked (op.slow value) : Lower β Unit) kept := by
  refine emitChecked ?_
  cases op with
  | load kind => exact ⟨_, rfl⟩
  | store width => exact ⟨_, rfl⟩

/-- A constant offset is used as a displacement only if it is one. -/
theorem constantAddress_bind (n : Nat) (region : FastRegion) (offset : UInt32)
    {k : FastAddress → Lower β α}
    (hk : ∀ addr : FastAddress, (∃ host, addr.resolve = .ok host) → Succeeds kept (k addr) kept') :
    Succeeds kept (Lower.constantAddress n region offset >>= k) kept' := by
  unfold Lower.constantAddress
  by_cases hfixed : n = 0 ∧ offset < 0x80000000
  · rw [if_pos hfixed, pure_bind]
    exact hk _ ⟨_, by rw [FastAddress.resolve, if_pos hfixed.2]⟩
  · rw [if_neg hfixed, bind_assoc]
    refine (emit _).bind fun _ => ?_
    split
    · rw [pure_bind]
      exact hk _ ⟨_, rfl⟩
    · rw [bind_assoc]
      refine (emit _).bind fun _ => ?_
      rw [pure_bind]
      exact hk _ ⟨_, rfl⟩

theorem constantAccess (hkept : kept.length ≤ 3) (rt : GuestIndex) (addr : UInt32) :
    Succeeds kept (Lower.constantAccess op rt addr : Lower β Unit) kept := by
  refine read_bind fun s => ?_
  split
  · refine (map hkept rt .write).bind fun dst => ?_
    exact constantAddress_bind _ _ _ fun addr haddr => direct _ dst haddr
  · refine (emit _).bind fun _ => (emitChecked ⟨_, rfl⟩).bind fun _ => ?_
    exact (map hkept rt .write).bind fun _ => emit _
  · refine (map hkept rt .read).bind fun src => ?_
    exact constantAddress_bind _ _ _ fun addr haddr => direct _ src haddr
  · exact (map hkept rt .read).bind fun src => (emit _).bind fun _ => slow _ src

theorem maskedAccess (main : FastRegion) :
    Succeeds kept (Lower.maskedAccess op value main : Lower β Unit) kept := by
  unfold Lower.maskedAccess
  refine ite (slow op value) (optional (emit _) ?_)
  exact (emit _).bind fun _ => direct op value ⟨_, rfl⟩

theorem guardedRegion (n : Nat) (region : FastRegion) (done : Nat) :
    Succeeds kept (Lower.guardedRegion op value n region done : Lower β Unit) kept := by
  refine freshLabel.bind fun miss => ?_
  have hmiss : Succeeds (β := β) kept (do
      Lower.append [.jump done, .bind miss]
      if region.start ≠ 0 then
        Lower.emit (Sequence.alu .add .scratch .scratch (.immediate region.start))) kept :=
    (append _).bind fun _ => ite (emit _) (pure _)
  refine optional (emit _) <| (emit _).bind fun _ => (append _).bind fun _ => ?_
  dsimp only
  split
  · exact (direct op value ⟨_, rfl⟩).bind fun _ => hmiss
  · exact (emit _).bind fun _ => (direct op value ⟨_, rfl⟩).bind fun _ => hmiss

theorem guardedRegions (regions : List (FastRegion × Nat)) :
    Succeeds kept (Lower.guardedRegions op value regions : Lower β (List Nat)) kept := by
  induction regions with
  | nil => exact pure _
  | cons entry rest ih =>
    refine ite (freshLabel.bind fun done => ?_) ih
    exact (guardedRegion op value _ _ done).bind fun _ => ih.bind fun _ => pure _

theorem dynamicAccess : Succeeds kept (Lower.dynamicAccess op value : Lower β Unit) kept := by
  refine read_bind fun s => ?_
  split
  · exact slow op value
  · refine ite (maskedAccess op value _) ?_
    exact (guardedRegions op value _).bind fun _ => (slow op value).bind fun _ => append _

theorem memoryAccess {i : Instruction} (hi : i.entry ∈ Entry.table)
    (hop : MemoryOp.ofMnemonic? i.mnemonic = some op) :
    Succeeds [] (Lower.memoryAccess i op : Lower β Unit) (List.finRange 32) := by
  have hreads : i.mnemonic.operandsRead = [.target, .base, .offset] := by
    revert hop
    cases i.mnemonic <;> rintro ⟨⟩ <;> rfl
  have hoffset : ∃ offset, i.offset = .ok offset := by
    obtain ⟨offset, h⟩ := i.exists_operand hi (show .offset ∈ _ by simp [hreads]) "offset"
    exact ⟨Word.signExtend16 offset, by rw [Instruction.offset, h]; rfl⟩
  refine (operand hi (by simp [hreads])).bind fun rt => (operand hi (by simp [hreads])).bind fun base =>
    (checked hoffset).bind fun offset => ?_
  cases op with
  | load kind =>
    refine .ite (pure _).any ((immediate? base).bind fun addr? => ?_)
    cases addr? with
    | some addr => exact (constantAccess _ (by simp) rt _).any
    | none =>
      refine any_of [rt, base] <| (lock base).bind fun _ => (lock rt).bind fun _ =>
        (map (by simp) base .read).bind fun _ => (map (by simp) rt .write).bind fun dst => ?_
      exact (emit _).bind fun _ => dynamicAccess _ dst
  | store width =>
    refine (immediate? base).bind fun addr? => ?_
    cases addr? with
    | some addr => exact (constantAccess _ (by simp) rt _).any
    | none =>
      refine any_of [rt, base] <| (allocating (.mapSources base rt)).bind fun r => ?_
      exact (emit _).bind fun _ => dynamicAccess _ r.2

end Memory

/-! ### Instructions that do not end a block -/

theorem interpretCall {i : Instruction} (hi : i.mnemonic.isInterpreted = true) (pc : UInt32) :
    Succeeds kept (Lower.interpretCall i pc : Lower β Unit) [] := by
  unfold Lower.interpretCall
  rw [if_pos hi]
  exact flushAll.bind fun _ => (emit _).bind fun _ => emitChecked ⟨_, rfl⟩

/-- What has no code of its own, is not refused and does not end a block is interpreted. -/
theorem straight {i : Instruction} (hi : i.entry ∈ Entry.table) (hends : i.mnemonic.endsBlock = false) :
    Succeeds [] (Lower.straight i : Lower β Unit) (List.finRange 32) := by
  unfold Lower.straight
  dsimp only
  split
  · next h => exact immediateArithmetic hi h
  split
  · next h => exact registerArithmetic hi h
  split
  · next h => exact memoryAccess _ hi h
  split
  · next h => exact loadUpper hi h
  · next h => exact constantShift hi _ (by simp [h])
  · next h => exact constantShift hi _ (by simp [h])
  · next h => exact constantShift hi _ (by simp [h])
  · next h => exact variableShift hi _ (by simp [h])
  · next h => exact variableShift hi _ (by simp [h])
  · next h => exact variableShift hi _ (by simp [h])
  · next h => exact product hi _ (by simp [h])
  · next h => exact product hi _ (by simp [h])
  · next h => exact moveFrom hi _ (by simp [h])
  · next h => exact moveFrom hi _ (by simp [h])
  · next h => exact moveTo hi _ (by simp [h])
  · next h => exact moveTo hi _ (by simp [h])
  -- The four unaligned accesses are refused with a hard fault.
  iterate 4
    · exact (currentPc.bind fun _ => (report _).bind fun _ => hardFault).any
  · next hlwl hlwr hswl hswr =>
    have hinterpreted : i.mnemonic.isInterpreted = true := by
      revert hends hlwl hlwr hswl hswr
      cases i.mnemonic <;> simp [Mnemonic.isInterpreted, Mnemonic.endsBlock, Mnemonic.hasDelaySlot,
        Mnemonic.isBranch, Mnemonic.isJump]
    exact (currentPc.bind fun _ => interpretCall hinterpreted _).any

/-! ### Comparisons and exits -/

theorem writeCompare (t : Test) :
    Succeeds [] (Lower.writeCompare t : Lower β Unit) (List.finRange 32) := by
  obtain ⟨c, rs, rt?⟩ := t
  cases rt? with
  | none =>
    exact ((lock rs).bind fun _ => (map (by simp) rs .read).bind fun _ => (pure _).bind fun _ =>
      emit _).any
  | some rt =>
    refine any_of [rt, rs] <| (lock rs).bind fun _ => (lock rt).bind fun _ =>
      (map (by simp) rs .read).bind fun _ => (immediate? rt).bind fun value? => ?_
    cases value? with
    | some value => exact (pure _).bind fun _ => emit _
    | none =>
      have hrhs : Succeeds (β := β) [rt, rs] (Source.register <$> Lower.map rt .read) [rt, rs] :=
        (map (by simp) rt .read).bind fun _ => pure _
      exact hrhs.bind fun _ => emit _

theorem writeExitCharging (target amount : UInt32) :
    Succeeds kept (Lower.writeExitCharging target amount : Lower β Unit) kept :=
  read_bind fun _ => (emit _).bind fun _ => (emit _).bind fun _ => append _

theorem writeExit (target : UInt32) :
    Succeeds kept (Lower.writeExit target : Lower β Unit) kept :=
  get_bind fun _ => writeExitCharging _ _

theorem writeRegisterExit (target : HostRegister) :
    Succeeds kept (Lower.writeRegisterExit target : Lower β Unit) kept :=
  get_bind fun _ => (emit _).bind fun _ => (emit _).bind fun _ => read_bind fun _ => append _

theorem writeCheckedExit : Succeeds kept (Lower.writeCheckedExit : Lower β Unit) kept :=
  get_bind fun _ => (emit _).bind fun _ => read_bind fun _ => append _

theorem writeBranchExits (skip : Condition) (target next : UInt32) :
    Succeeds kept (Lower.writeBranchExits skip target next : Lower β Unit) kept :=
  freshLabel.bind fun _ => (append _).bind fun _ => (writeExit _).bind fun _ =>
    (append _).bind fun _ => writeExit _

end Succeeds

end Lower

end Recompiler
