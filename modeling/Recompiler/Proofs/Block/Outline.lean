import Recompiler.Proofs.Block.Transferring

/-!
# What a step leaves of the outline of a block

The outline of a block: how many words were read from which bus, whether more are to come, and the
guest addresses that the exits lead to. Most steps leave it alone, and an exit adds one address.

* `Lowering.outline`: the outline of what was lowered so far.
* `Lower.Exits`: a step that adds exits to some addresses, and changes nothing else of the outline.
* `Exits.writeExit`, `Exits.writeBranchExits` and following: ways out.
* `Exits.straight`: instructions that do not end a block have no exits.
-/

namespace Recompiler

variable {β α γ : Type}

/-- The guest address that an item leaves for, if it is known during lowering. -/
def Item.target? : Item → Option UInt32
  | .leave target _ _ => some target
  | _ => none

/-- What tells the words that a block covers, and where its exits lead. -/
structure Outline (β : Type) where
  /-- Where instructions are read from. -/
  bus : β
  /-- The address of the instruction being lowered. -/
  pc : UInt32
  /-- The number of guest instructions, delay slots included. -/
  instructions : UInt32
  /-- No instruction has ended the block yet. -/
  isOpen : Bool
  /-- The block was cut short by a refused instruction. -/
  cancelled : Bool
  /-- The guest addresses that exits lead to, in order. -/
  targets : List UInt32

/-- The guest addresses that the exits so far lead to. -/
def Lowering.targets (t : Lowering β) : List UInt32 :=
  t.code.toList.filterMap Item.target?

/-- The outline of what was lowered so far. -/
def Lowering.outline (t : Lowering β) : Outline β :=
  ⟨t.bus, t.pc, t.instructions, t.isOpen, t.cancelled, t.targets⟩

/-- The outline with more exits. -/
def Outline.leaving (o : Outline β) (targets : List UInt32) : Outline β :=
  { o with targets := o.targets ++ targets }

@[simp] theorem Outline.leaving_nil (o : Outline β) : o.leaving [] = o := by
  simp [leaving]

theorem Outline.leaving_append (o : Outline β) (targets more : List UInt32) :
    o.leaving (targets ++ more) = (o.leaving targets).leaving more := by
  simp [leaving]

/-- The block is cut short at a refused instruction. -/
def Outline.cut (o : Outline β) : Outline β :=
  { o with isOpen := false, cancelled := true }

namespace Lowering

theorem targets_append (t : Lowering β) (items : List Item) :
    ({ t with code := t.code ++ items } : Lowering β).targets =
      t.targets ++ items.filterMap Item.target? := by
  rw [targets, targets, Array.toList_appendList, List.filterMap_append]

theorem outline_append (t : Lowering β) (items : List Item) :
    ({ t with code := t.code ++ items } : Lowering β).outline =
      t.outline.leaving (items.filterMap Item.target?) := by
  rw [outline, targets_append]
  rfl

/-- Host instructions are no exits. -/
theorem outline_instructions (t : Lowering β) (is : List HostInstruction) :
    ({ t with code := t.code ++ is.map Item.instruction } : Lowering β).outline = t.outline := by
  have hnone : (is.map Item.instruction).filterMap Item.target? = [] := by
    simp [List.filterMap_map, Function.comp_def, Item.target?]
  rw [outline_append, hnone, Outline.leaving_nil]

end Lowering

namespace Lower

/-- Where it succeeds, the step adds exits to these addresses and changes nothing else of the
outline. -/
def Exits (targets : List UInt32) (x : Lower β α) : Prop :=
  ∀ ⦃s t r u⦄, exec x s t = (.ok r, u) → u.outline = t.outline.leaving targets

namespace Exits

variable {targets more : List UInt32} {x : Lower β α}

/-! ## Putting steps together -/

theorem pure (r : α) : Exits [] (Pure.pure r : Lower β α) := by
  intro s t q u h
  obtain rfl := (Prod.mk.inj h).2
  exact t.outline.leaving_nil.symm

theorem throw (e : Failure) : Exits targets (MonadExcept.throw e : Lower β α) := by
  intro s t r u h
  cases h

/-- The exits of two steps, one after the other. -/
theorem bind {f : α → Lower β γ} (hx : Exits targets x) (hf : ∀ r, Exits more (f r)) :
    Exits (targets ++ more) (x >>= f) := by
  intro s t r v h
  obtain ⟨q, u, hfirst, hrest⟩ := exec_bind_eq_ok h
  rw [hf q hrest, hx hfirst, Outline.leaving_append]

/-- A step without exits, before the others. -/
theorem after {f : α → Lower β γ} (hx : Exits [] x) (hf : ∀ r, Exits targets (f r)) :
    Exits targets (x >>= f) :=
  bind hx hf

theorem map (f : α → γ) (hx : Exits [] x) : Exits [] (f <$> x) :=
  after hx fun r => pure (f r)

theorem ite {c : Prop} [Decidable c] {y : Lower β α} (hx : Exits targets x)
    (hy : Exits targets y) : Exits targets (if c then x else y) := by
  split
  · exact hx
  · exact hy

/-- A step that is done on a condition, before the others. -/
theorem optional {c : Prop} [Decidable c] {x : Lower β Unit} {k : Unit → Lower β γ}
    (hx : Exits [] x) (hk : Exits targets (k ())) :
    Exits targets (if c then x >>= k else k ()) :=
  ite (after hx fun _ => hk) hk

theorem get_bind {k : Lowering β → Lower β α} (h : ∀ t, Exits targets (k t)) :
    Exits targets (get >>= k) :=
  fun _ t _ _ hexec => h t hexec

theorem read_bind {k : Surroundings → Lower β α} (h : ∀ s, Exits targets (k s)) :
    Exits targets (read >>= k) :=
  fun s _ _ _ hexec => h s hexec

/-- A change of what is not in the outline. -/
theorem modify {f : Lowering β → Lowering β} (h : ∀ t, (f t).outline = t.outline) :
    Exits [] (modify f : Lower β PUnit) := by
  intro s t r u hexec
  obtain rfl := (Prod.mk.inj hexec).2
  rw [h, Outline.leaving_nil]

/-! ## Single steps -/

theorem append (items : List Item) :
    Exits (items.filterMap Item.target?) (Lower.append items : Lower β Unit) := by
  intro s t r u hexec
  obtain rfl := (Prod.mk.inj hexec).2
  exact t.outline_append items

theorem emit (is : List HostInstruction) : Exits [] (Lower.emit is : Lower β Unit) := by
  intro s t r u hexec
  obtain rfl := (Prod.mk.inj hexec).2
  rw [Outline.leaving_nil]
  exact t.outline_instructions is

theorem emitChecked (is? : Except Breach (List HostInstruction)) :
    Exits [] (Lower.emitChecked is? : Lower β Unit) := by
  cases is? with
  | ok is => exact emit is
  | error b => exact throw _

theorem report (event : Event) : Exits [] (Lower.report event : Lower β Unit) :=
  modify fun _ => rfl

theorem checked (v : Except Breach α) : Exits [] (Lower.checked v : Lower β α) := by
  cases v with
  | ok value => exact pure value
  | error b => exact throw _

theorem registerOperand (v : Except Breach UInt32) :
    Exits [] (Lower.registerOperand v : Lower β GuestIndex) :=
  map _ (checked v)

theorem freshLabel : Exits [] (Lower.freshLabel : Lower β Nat) := by
  intro s t r u hexec
  obtain rfl := (Prod.mk.inj hexec).2
  exact t.outline.leaving_nil.symm

theorem currentPc : Exits [] (Lower.currentPc : Lower β UInt32) :=
  get_bind fun _ => pure _

theorem followingPc : Exits [] (Lower.followingPc : Lower β UInt32) :=
  get_bind fun _ => pure _

theorem immediate? (reg : GuestIndex) :
    Exits [] (Lower.immediate? reg : Lower β (Option UInt32)) :=
  get_bind fun _ => pure _

theorem updateRegisters (f : RegisterCache → RegisterCache) :
    Exits [] (Lower.updateRegisters f : Lower β Unit) :=
  modify fun _ => rfl

theorem setImmediate (reg : GuestIndex) (value : UInt32) :
    Exits [] (Lower.setImmediate reg value : Lower β Unit) :=
  updateRegisters _

theorem allocating (y : Allocate α) : Exits [] (Lower.allocating y : Lower β α) := by
  intro s t r u hexec
  rw [exec_allocating] at hexec
  obtain rfl := (Prod.mk.inj hexec).2
  rw [Outline.leaving_nil]
  exact Lowering.outline_instructions { t with registers := _, events := _ } _

theorem map_register (reg : GuestIndex) (access : Access) :
    Exits [] (Lower.map reg access : Lower β HostRegister) :=
  allocating _

theorem flushAll : Exits [] (Lower.flushAll : Lower β Unit) :=
  allocating _

/-! ## Ways out -/

theorem writeExitCharging (target amount : UInt32) :
    Exits [target] (Lower.writeExitCharging target amount : Lower β Unit) :=
  read_bind fun _ => after (emit _) fun _ => after (emit _) fun _ => append _

theorem writeExit (target : UInt32) :
    Exits [target] (Lower.writeExit target : Lower β Unit) :=
  get_bind fun _ => writeExitCharging target _

theorem writeRegisterExit (target : HostRegister) :
    Exits [] (Lower.writeRegisterExit target : Lower β Unit) :=
  get_bind fun _ => after (emit _) fun _ => after (emit _) fun _ => read_bind fun _ => append _

theorem writeCheckedExit : Exits [] (Lower.writeCheckedExit : Lower β Unit) :=
  get_bind fun _ => after (emit _) fun _ => read_bind fun _ => append _

theorem writeBranchExits (skip : Condition) (target next : UInt32) :
    Exits [target, next] (Lower.writeBranchExits skip target next : Lower β Unit) :=
  after freshLabel fun _ => after (append _) fun _ => bind (writeExit target) fun _ =>
    after (append _) fun _ => writeExit next

theorem interpretCall (i : Instruction) (pc : UInt32) :
    Exits [] (Lower.interpretCall i pc : Lower β Unit) := by
  refine ite ?_ ?_
  · exact after flushAll fun _ => after (emit _) fun _ => emitChecked _
  · exact after currentPc fun _ => after (report _) fun _ => throw _

/-! ## Arithmetic -/

section Arithmetic

variable (i : Instruction)

theorem immediateArithmetic (op : BinaryOp) (signed : Bool) :
    Exits [] (Lower.immediateArithmetic i op signed : Lower β Unit) := by
  refine after (registerOperand _) fun rt => after (registerOperand _) fun rs => ite (pure _) ?_
  refine after (checked _) fun imm => after (immediate? _) fun value? => ?_
  cases value? with
  | some value => exact setImmediate _ _
  | none => exact after (allocating _) fun _ => emit _

theorem loadUpper : Exits [] (Lower.loadUpper i : Lower β Unit) := by
  refine after (registerOperand _) fun rt => ite ?_ (pure _)
  exact after (checked _) fun _ => setImmediate _ _

theorem registerArithmetic (op : BinaryOp) :
    Exits [] (Lower.registerArithmetic i op : Lower β Unit) := by
  refine after (registerOperand _) fun rd => after (registerOperand _) fun rs =>
    after (registerOperand _) fun rt => ite (pure _) ?_
  refine after (immediate? _) fun lhs? => after (immediate? _) fun rhs? => ?_
  split
  · exact setImmediate _ _
  · exact after (allocating _) fun _ => emit _
  · split
    · exact after (allocating _) fun _ => emit _
    · exact after (allocating _) fun _ => emit _

theorem constantShift (op : ShiftOp) : Exits [] (Lower.constantShift i op : Lower β Unit) := by
  refine after (registerOperand _) fun rd => after (registerOperand _) fun rt =>
    after (checked _) fun amount => ite (pure _) ?_
  refine after (immediate? _) fun value? => ?_
  cases value? with
  | some value => exact setImmediate _ _
  | none => exact after (allocating _) fun _ => emit _

theorem variableShift (op : ShiftOp) : Exits [] (Lower.variableShift i op : Lower β Unit) := by
  refine after (registerOperand _) fun rd => after (registerOperand _) fun rs =>
    after (registerOperand _) fun rt => ite (pure _) ?_
  refine after (immediate? _) fun value? => after (immediate? _) fun amount? => ?_
  split
  · exact setImmediate _ _
  · exact after (allocating _) fun _ => emit _
  · exact after (allocating _) fun _ => emit _

theorem product (signed : Bool) : Exits [] (Lower.product i signed : Lower β Unit) :=
  after (registerOperand _) fun _ => after (registerOperand _) fun _ =>
    after (allocating _) fun _ => emit _

theorem moveFrom (slot : Nat) : Exits [] (Lower.moveFrom i slot : Lower β Unit) := by
  refine after (registerOperand _) fun rd => ite ?_ (pure _)
  exact after (map_register _ _) fun _ => emit _

theorem moveTo (slot : Nat) : Exits [] (Lower.moveTo i slot : Lower β Unit) := by
  refine after (registerOperand _) fun rs => after (immediate? _) fun value? => ?_
  cases value? with
  | some value => exact emit _
  | none => exact after (map_register _ _) fun _ => emit _

end Arithmetic

/-! ## Memory accesses -/

section Memory

variable (op : MemoryOp)

theorem constantAddress (n : Nat) (region : FastRegion) (offset : UInt32) :
    Exits [] (Lower.constantAddress n region offset : Lower β FastAddress) := by
  refine ite (pure _) (after (emit _) fun _ => ite (pure _) ?_)
  exact after (emit _) fun _ => pure _

theorem constantAccess (rt : GuestIndex) (addr : UInt32) :
    Exits [] (Lower.constantAccess op rt addr : Lower β Unit) := by
  refine read_bind fun s => ?_
  split
  · exact after (map_register _ _) fun _ => after (constantAddress _ _ _) fun _ => emitChecked _
  · exact after (emit _) fun _ => after (emitChecked _) fun _ =>
      after (map_register _ _) fun _ => emit _
  · exact after (map_register _ _) fun _ => after (constantAddress _ _ _) fun _ => emitChecked _
  · exact after (map_register _ _) fun _ => after (emit _) fun _ => emitChecked _

theorem maskedAccess (value : HostRegister) (main : FastRegion) :
    Exits [] (Lower.maskedAccess op value main : Lower β Unit) := by
  refine ite (emitChecked _) ?_
  exact optional (emit _) (after (emit _) fun _ => emitChecked _)

theorem guardedRegion (value : HostRegister) (n : Nat) (region : FastRegion) (done : Nat) :
    Exits [] (Lower.guardedRegion op value n region done : Lower β Unit) := by
  refine after freshLabel fun miss => optional (emit _) (after (emit _) fun _ =>
    after (append _) fun _ => ?_)
  have htail : Exits (β := β) [] (Lower.append [.jump done, .bind miss] >>= fun _ =>
      if region.start ≠ 0 then
        Lower.emit (Sequence.alu .add .scratch .scratch (.immediate region.start))
      else Pure.pure ()) :=
    after (append _) fun _ => ite (emit _) (pure _)
  refine ite ?_ ?_
  · exact after (emitChecked _) fun _ => htail
  · exact after (emit _) fun _ => after (emitChecked _) fun _ => htail

theorem guardedRegions (value : HostRegister) (regions : List (FastRegion × Nat)) :
    Exits [] (Lower.guardedRegions op value regions : Lower β (List Nat)) := by
  induction regions with
  | nil => exact pure []
  | cons region rest ih =>
    refine ite ?_ ih
    exact after freshLabel fun _ => after (guardedRegion _ _ _ _ _) fun _ =>
      after ih fun _ => pure _

theorem guardedAccess (value : HostRegister) (regions : List FastRegion) :
    Exits [] (Lower.guardedAccess op value regions : Lower β Unit) := by
  refine after (guardedRegions _ _ _) fun hits => after (emitChecked _) fun _ => ?_
  have hnone : (hits.map Item.bind).filterMap Item.target? = [] := by
    simp [List.filterMap_map, Function.comp_def, Item.target?]
  exact hnone ▸ append (hits.map Item.bind)

theorem dynamicAccess (value : HostRegister) :
    Exits [] (Lower.dynamicAccess op value : Lower β Unit) := by
  refine read_bind fun s => ?_
  split
  · exact emitChecked _
  · exact ite (maskedAccess _ _ _) (guardedAccess _ _ _)

theorem memoryAccess (i : Instruction) :
    Exits [] (Lower.memoryAccess i op : Lower β Unit) := by
  refine after (registerOperand _) fun rt => after (registerOperand _) fun base =>
    after (checked _) fun offset => ?_
  cases op with
  | load kind =>
    refine ite (pure _) (after (immediate? _) fun addr? => ?_)
    cases addr? with
    | some addr => exact constantAccess _ _ _
    | none =>
      exact after (updateRegisters _) fun _ => after (updateRegisters _) fun _ =>
        after (map_register _ _) fun _ => after (map_register _ _) fun _ =>
          after (emit _) fun _ => dynamicAccess _ _
  | store width =>
    refine after (immediate? _) fun addr? => ?_
    cases addr? with
    | some addr => exact constantAccess _ _ _
    | none =>
      exact after (allocating _) fun _ => after (emit _) fun _ => dynamicAccess _ _

end Memory

/-! ## Instructions that do not end a block -/

theorem straight {i : Instruction} (hrefused : i.mnemonic.isRefused = false) :
    Exits [] (Lower.straight i : Lower β Unit) := by
  unfold Lower.straight
  dsimp only
  split
  · exact immediateArithmetic _ _ _
  split
  · exact registerArithmetic _ _
  split
  · exact memoryAccess _ _
  split
  · exact loadUpper _
  iterate 3
    · exact constantShift _ _
  iterate 3
    · exact variableShift _ _
  iterate 2
    · exact product _ _
  iterate 2
    · exact moveFrom _ _
  iterate 2
    · exact moveTo _ _
  iterate 4
    · next hm =>
      rw [hm] at hrefused
      cases hrefused
  · exact after currentPc fun _ => interpretCall _ _

theorem writeCompare (t : Test) : Exits [] (Lower.writeCompare t : Lower β Unit) := by
  obtain ⟨c, rs, rt?⟩ := t
  cases rt? with
  | none =>
    exact after (updateRegisters _) fun _ => after (map_register _ _) fun _ =>
      after (pure _) fun _ => emit _
  | some rt =>
    refine after (updateRegisters _) fun _ => after (updateRegisters _) fun _ =>
      after (map_register _ _) fun _ => after (immediate? _) fun value? => ?_
    cases value? with
    | some value => exact after (pure _) fun _ => emit _
    | none => exact after (map _ (map_register _ _)) fun _ => emit _

end Exits

/-- Refusing an instruction ends the block without an exit. -/
theorem outline_hardFault {s : Surroundings} {t u : Lowering β}
    (h : exec hardFault s t = (.ok (), u)) : u.outline = t.outline.cut := by
  obtain ⟨_, t₁, hflush, h⟩ := exec_bind_eq_ok h
  obtain ⟨_, t₂, hpc, h⟩ := exec_bind_eq_ok h
  obtain ⟨_, t₃, hstore, h⟩ := exec_bind_eq_ok h
  rw [exec_read_bind] at h
  obtain ⟨_, t₄, hjump, h⟩ := exec_bind_eq_ok h
  obtain rfl := (Prod.mk.inj h).2
  have hleft : t₄.outline = t.outline := by
    rw [Exits.append _ hjump, Exits.emit _ hstore, Exits.currentPc hpc, Exits.flushAll hflush]
    simp only [Outline.leaving_nil]
    exact t.outline.leaving_nil
  rw [← hleft]
  rfl

end Lower

end Recompiler
