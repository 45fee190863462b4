import Recompiler.Block.Branch
import Recompiler.Proofs.Block.Carrying
import Recompiler.Proofs.Block.Tidy

/-!
# Quiet lowering steps

Lowering steps that add nothing but tame instructions: they use no labels, reach no memory, and
leave the budget to the exits. Shown for arithmetic, comparisons and flushes.

* `Lower.Quiet`: a quiet step.
* `Quiet.immediateArithmetic` and following: the steps.
-/

namespace Recompiler

variable {β : Type}

/-! ## What a step leaves alone -/

/-- The guest instructions that are lowered so far, delay slots included. -/
def Lowering.lowered (t : Lowering β) : List Instruction :=
  t.events.toList.filterMap Event.lowered?

/-- No guest instruction was begun or refused, none is charged, and the block is as open as it was, at
the same address. -/
structure Lowering.Idle (t u : Lowering β) : Prop where
  lowered : u.lowered = t.lowered
  cycles : u.cycles = t.cycles
  cancelled : u.cancelled = t.cancelled
  isOpen : u.isOpen = t.isOpen
  pc : u.pc = t.pc

/-- Nothing but tame instructions was added. -/
structure Lowering.Quiet (t u : Lowering β) : Prop extends Idle t u where
  placed : u.registers.Placed
  labels : u.labels = t.labels
  code : ∃ is : List HostInstruction, u.code = t.code ++ is.map Item.instruction ∧ Sequence.Tame is

namespace Lowering

variable {t u v : Lowering β}

theorem Idle.refl (t : Lowering β) : t.Idle t :=
  ⟨rfl, rfl, rfl, rfl, rfl⟩

theorem Idle.trans (h : t.Idle u) (h' : u.Idle v) : t.Idle v where
  lowered := h'.lowered.trans h.lowered
  cycles := h'.cycles.trans h.cycles
  cancelled := h'.cancelled.trans h.cancelled
  isOpen := h'.isOpen.trans h.isOpen
  pc := h'.pc.trans h.pc

theorem Quiet.of_code_eq (hidle : t.Idle u) (hplaced : u.registers.Placed)
    (hlabels : u.labels = t.labels) (hcode : u.code = t.code) : t.Quiet u :=
  ⟨hidle, hplaced, hlabels, [], by rw [hcode]; exact (Array.appendList_nil).symm, Sequence.tame_nil⟩

theorem Quiet.trans (h : t.Quiet u) (h' : u.Quiet v) : t.Quiet v := by
  obtain ⟨is, hcode, his⟩ := h.code
  obtain ⟨js, hcode', hjs⟩ := h'.code
  exact ⟨h.toIdle.trans h'.toIdle, h'.placed, h'.labels.trans h.labels, is ++ js,
    by rw [hcode', hcode, List.map_append, appendList_append], his.append hjs⟩

/-- Where tame instructions were added that take the machine along, it is by running them. -/
theorem Quiet.runs [Bus β] {m n : HostMachine β} (h : t.Quiet u) (hcarries : t.Carries m u n) :
    ∃ is : List HostInstruction, u.code = t.code ++ is.map Item.instruction ∧ Sequence.Tame is ∧
      HostMachine.Runs is m n := by
  obtain ⟨is, hcode, htame⟩ := h.code
  obtain ⟨items, hcode', -, hpasses⟩ := hcarries
  have hlists := congrArg Array.toList (hcode'.symm.trans hcode)
  rw [Array.toList_appendList, Array.toList_appendList] at hlists
  obtain rfl := List.append_cancel_left hlists
  exact ⟨is, hcode, htame, hpasses.runs⟩

end Lowering

namespace Lower

variable {α γ : Type}

/-- Where it succeeds, the step hands out what it should and adds nothing but tame instructions. -/
def Quiet (x : Lower β α) (post : α → Prop) : Prop :=
  ∀ ⦃s t r u⦄, t.registers.Placed → x.exec s t = (.ok r, u) → post r ∧ t.Quiet u

/-- An instruction that could be read. Nothing but the bus has changed. -/
theorem exec_decode_eq_ok [Bus β] {pc : UInt32} {i : Instruction} {s : Surroundings}
    {t u : Lowering β} (h : exec (decode pc) s t = (.ok i, u)) : ∃ bus, u = { t with bus := bus } := by
  rw [decode, exec_bind, fetch, exec_bind_of_ok (exec_modifyGet ..)] at h
  generalize Bus.read Width.word pc t.bus = answer at h
  obtain ⟨cause | word, bus⟩ := answer
  · cases h
  · dsimp only [exec_pure] at h
    cases hdecode : Instruction.decode? word with
    | none =>
      rw [hdecode] at h
      cases h
    | some j =>
      rw [hdecode] at h
      exact ⟨bus, (Prod.mk.inj h).2.symm⟩

namespace Quiet

variable {x : Lower β α} {post post' : α → Prop} {next : γ → Prop}

/-! ### Putting steps together -/

theorem mono (hx : Quiet x post) (hpost : ∀ r, post r → post' r) : Quiet x post' := by
  intro s t r u ht hexec
  obtain ⟨hr, hu⟩ := hx ht hexec
  exact ⟨hpost r hr, hu⟩

theorem pure {r : α} (h : post r) : Quiet (Pure.pure r : Lower β α) post := by
  intro s t r u ht hexec
  cases hexec
  exact ⟨h, .of_code_eq (.refl t) ht rfl rfl⟩

theorem throw (e : Failure) : Quiet (MonadExcept.throw e : Lower β α) post := by
  intro s t r u ht hexec
  cases hexec

theorem bind {f : α → Lower β γ} (hx : Quiet x post) (hf : ∀ r, post r → Quiet (f r) next) :
    Quiet (x >>= f) next := by
  intro s t r v ht hexec
  rw [exec_bind] at hexec
  rcases hfirst : x.exec s t with ⟨_ | q, u⟩ <;> rw [hfirst] at hexec
  · cases hexec
  · obtain ⟨hq, hu⟩ := hx ht hfirst
    obtain ⟨hr, hv⟩ := hf q hq hu.placed hexec
    exact ⟨hr, hu.trans hv⟩

/-- The outcome of the first step does not matter. -/
theorem seq {f : α → Lower β γ} (hx : Quiet x fun _ => True) (hf : ∀ r, Quiet (f r) next) :
    Quiet (x >>= f) next :=
  hx.bind fun r _ => hf r

theorem ite {c : Prop} [Decidable c] {x y : Lower β α} (hx : Quiet x post) (hy : Quiet y post) :
    Quiet (if c then x else y) post := by
  split
  · exact hx
  · exact hy

theorem get_bind {k : Lowering β → Lower β α}
    (h : ∀ t : Lowering β, t.registers.Placed → Quiet (k t) post) : Quiet (get >>= k) post :=
  fun _ t _ _ ht hexec => h t ht ht hexec

/-- A change that leaves the code alone. -/
theorem modify {f : Lowering β → Lowering β} (hidle : ∀ t : Lowering β, t.Idle (f t))
    (hplaced : ∀ t, t.registers.Placed → (f t).registers.Placed)
    (hlabels : ∀ t, (f t).labels = t.labels) (hcode : ∀ t, (f t).code = t.code) :
    Quiet (modify f : Lower β PUnit) fun _ => True := by
  intro s t r u ht hexec
  cases hexec
  exact ⟨trivial, .of_code_eq (hidle t) (hplaced t ht) (hlabels t) (hcode t)⟩

/-! ### Single steps -/

theorem emit {is : List HostInstruction} (his : Sequence.Tame is) :
    Quiet (Lower.emit is : Lower β Unit) fun _ => True := by
  intro s t r u ht hexec
  cases hexec
  exact ⟨trivial, ⟨⟨rfl, rfl, rfl, rfl, rfl⟩, ht, rfl, is, rfl, his⟩⟩

theorem report {event : Event} (h : event.lowered? = none) :
    Quiet (Lower.report event : Lower β Unit) fun _ => True :=
  modify (fun t => ⟨by simp [Lowering.lowered, h], rfl, rfl, rfl, rfl⟩) (fun _ ht => ht) (fun _ => rfl)
    fun _ => rfl

theorem updateRegisters {f : RegisterCache → RegisterCache} (h : ∀ c, c.Placed → (f c).Placed) :
    Quiet (Lower.updateRegisters f : Lower β Unit) fun _ => True :=
  modify (fun _ => ⟨rfl, rfl, rfl, rfl, rfl⟩) (fun _ ht => h _ ht) (fun _ => rfl) fun _ => rfl

theorem lock (reg : GuestIndex) :
    Quiet (Lower.updateRegisters (·.lock reg) : Lower β Unit) fun _ => True :=
  updateRegisters fun _ hc => hc.setLocked _

theorem release : Quiet (Lower.updateRegisters (·.release) : Lower β Unit) fun _ => True :=
  updateRegisters fun _ hc => hc.setLocked _

theorem setImmediate (reg : GuestIndex) (value : UInt32) :
    Quiet (Lower.setImmediate reg value : Lower β Unit) fun _ => True :=
  updateRegisters fun _ hc => hc.setImmediate reg value

theorem checked (v : Except Breach α) : Quiet (Lower.checked v : Lower β α) fun _ => True := by
  cases v with
  | ok a => exact pure trivial
  | error b => exact throw _

theorem registerOperand (v : Except Breach UInt32) :
    Quiet (Lower.registerOperand v : Lower β GuestIndex) fun _ => True :=
  (checked v).seq fun _ => pure trivial

theorem immediate? (reg : GuestIndex) :
    Quiet (Lower.immediate? reg : Lower β (Option UInt32)) fun _ => True :=
  get_bind fun _ _ => pure trivial

theorem currentPc : Quiet (Lower.currentPc : Lower β UInt32) fun _ => True :=
  get_bind fun _ _ => pure trivial

theorem followingPc : Quiet (Lower.followingPc : Lower β UInt32) fun _ => True :=
  get_bind fun _ _ => pure trivial

/-- An operation on the register cache. -/
theorem allocating {y : Allocate α} (hy : y.Tidy post) :
    Quiet (Lower.allocating y : Lower β α) post := by
  intro s t r u ht hexec
  rw [exec_allocating] at hexec
  obtain ⟨hok, rfl⟩ := Prod.mk.inj hexec
  have htidies := hy (a := ⟨t.registers, [], []⟩) ht (Prod.ext hok rfl)
  obtain ⟨hr, hplaced, ⟨is, hcode, his⟩, es, hevents, hes⟩ := htidies
  rw [List.nil_append] at hcode hevents
  refine ⟨hr, ⟨?_, rfl, rfl, rfl, rfl⟩, hplaced, rfl, is, by rw [hcode], his⟩
  simp [Lowering.lowered, hevents, hes]

theorem map (reg : GuestIndex) (access : Access) :
    Quiet (Lower.map reg access : Lower β HostRegister) (·.Spare) :=
  allocating (RegisterCache.tidy_map reg access)

theorem flushAll : Quiet (Lower.flushAll : Lower β Unit) fun _ => True :=
  allocating RegisterCache.tidy_flushAll

theorem decode [Bus β] (pc : UInt32) :
    Quiet (Lower.decode pc : Lower β Instruction) fun _ => True := by
  intro s t i u ht hexec
  obtain ⟨bus, rfl⟩ := exec_decode_eq_ok hexec
  exact ⟨trivial, .of_code_eq ⟨rfl, rfl, rfl, rfl, rfl⟩ ht rfl rfl⟩

/-! ### Arithmetic -/

theorem tame_sequence (op : BinaryOp) {dst lhs : HostRegister} {rhs : Source} (hdst : dst.Spare)
    (hlhs : lhs.Spare) (hrhs : rhs.Valid) : Sequence.Tame (op.sequence dst lhs rhs) := by
  cases op with
  | alu op => exact Sequence.tame_alu op hdst hlhs.valid hrhs
  | set c => exact Sequence.tame_setCondition c hdst hlhs hrhs

section Arithmetic

variable (i : Instruction)

theorem immediateArithmetic (op : BinaryOp) (signed : Bool) :
    Quiet (Lower.immediateArithmetic i op signed : Lower β Unit) fun _ => True := by
  refine (registerOperand _).seq fun rt => (registerOperand _).seq fun rs => ite (pure trivial) ?_
  refine (checked _).seq fun imm => (immediate? _).seq fun value? => ?_
  cases value? with
  | some value => exact setImmediate _ _
  | none =>
    exact (allocating (RegisterCache.tidy_mapTarget rt rs)).bind fun r hr =>
      emit (tame_sequence op hr.1 hr.2 trivial)

theorem loadUpper : Quiet (Lower.loadUpper i : Lower β Unit) fun _ => True := by
  refine (registerOperand _).seq fun rt => ite ?_ (pure trivial)
  exact (checked _).seq fun _ => setImmediate _ _

theorem registerArithmetic (op : BinaryOp) :
    Quiet (Lower.registerArithmetic i op : Lower β Unit) fun _ => True := by
  refine (registerOperand _).seq fun rd => (registerOperand _).seq fun rs =>
    (registerOperand _).seq fun rt => ite (pure trivial) ?_
  refine (immediate? _).seq fun lhs? => (immediate? _).seq fun rhs? => ?_
  split
  · exact setImmediate _ _
  · exact (allocating (RegisterCache.tidy_mapTarget rd rs)).bind fun r hr =>
      emit (tame_sequence op hr.1 hr.2 trivial)
  · split
    · exact (allocating (RegisterCache.tidy_mapTarget rd rt)).bind fun r hr =>
        emit (tame_sequence op hr.1 hr.2 trivial)
    · exact (allocating (RegisterCache.tidy_mapTargetSources rd rs rt)).bind fun r hr =>
        emit (tame_sequence op hr.1 hr.2.1 hr.2.2.valid)

theorem constantShift (op : ShiftOp) :
    Quiet (Lower.constantShift i op : Lower β Unit) fun _ => True := by
  refine (registerOperand _).seq fun rd => (registerOperand _).seq fun rt =>
    (checked _).seq fun amount => ite (pure trivial) ?_
  refine (immediate? _).seq fun value? => ?_
  cases value? with
  | some value => exact setImmediate _ _
  | none =>
    exact (allocating (RegisterCache.tidy_mapTarget rd rt)).bind fun r hr =>
      emit (Sequence.tame_shift op hr.1 hr.2.valid trivial)

theorem variableShift (op : ShiftOp) :
    Quiet (Lower.variableShift i op : Lower β Unit) fun _ => True := by
  refine (registerOperand _).seq fun rd => (registerOperand _).seq fun rs =>
    (registerOperand _).seq fun rt => ite (pure trivial) ?_
  refine (immediate? _).seq fun value? => (immediate? _).seq fun amount? => ?_
  split
  · exact setImmediate _ _
  · exact (allocating (RegisterCache.tidy_mapTarget rd rt)).bind fun r hr =>
      emit (Sequence.tame_shift op hr.1 hr.2.valid trivial)
  · exact (allocating (RegisterCache.tidy_mapTargetSources rd rt rs)).bind fun r hr =>
      emit (Sequence.tame_shift op hr.1 hr.2.1.valid hr.2.2.valid)

theorem product (signed : Bool) :
    Quiet (Lower.product i signed : Lower β Unit) fun _ => True :=
  (registerOperand _).seq fun rs => (registerOperand _).seq fun rt =>
    (allocating (RegisterCache.tidy_mapSources rs rt)).bind fun _ hr =>
      emit (Sequence.tame_multiply signed hr.1.valid hr.2.valid (by decide) (by decide))

theorem moveFrom {slot : Nat} (hslot : slot < Slot.count) :
    Quiet (Lower.moveFrom i slot : Lower β Unit) fun _ => True := by
  refine (registerOperand _).seq fun rd => ite ?_ (pure trivial)
  exact (map rd .write).bind fun _ hdst => emit (Sequence.tame_loadState hdst hslot)

theorem moveTo {slot : Nat} (hslot : Slot.Free slot) :
    Quiet (Lower.moveTo i slot : Lower β Unit) fun _ => True := by
  refine (registerOperand _).seq fun rs => (immediate? _).seq fun value? => ?_
  cases value? with
  | some value => exact emit (Sequence.tame_storeStateImmediate hslot _)
  | none =>
    exact (map rs .read).bind fun _ hsrc => emit (Sequence.tame_storeState hsrc.valid hslot)

end Arithmetic

/-! ### Comparisons -/

theorem writeCompare (t : Test) : Quiet (Lower.writeCompare t : Lower β Unit) fun _ => True := by
  have hcompare {lhs : HostRegister} (hlhs : lhs.Spare) {x : Lower β Source}
      (hx : Quiet x Source.Valid) :
      Quiet (x >>= fun rhs => Lower.emit (Sequence.compare lhs rhs)) fun _ => True :=
    hx.bind fun _ hrhs => emit (Sequence.tame_compare hlhs hrhs)
  obtain ⟨c, rs, rt?⟩ := t
  cases rt? with
  | none =>
    exact (lock rs).seq fun _ => (map rs .read).bind fun _ hlhs => hcompare hlhs (pure trivial)
  | some rt =>
    refine (lock rs).seq fun _ => (lock rt).seq fun _ => (map rs .read).bind fun _ hlhs =>
      (immediate? rt).seq fun value? => ?_
    cases value? with
    | some value => exact hcompare hlhs (pure trivial)
    | none =>
      have hrhs : Quiet (Source.register <$> Lower.map rt .read : Lower β Source) Source.Valid :=
        (map rt .read).bind fun _ hr => pure hr.valid
      exact hcompare hlhs hrhs

end Quiet

end Lower

end Recompiler
