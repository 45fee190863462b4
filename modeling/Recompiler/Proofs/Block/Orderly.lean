import Recompiler.Proofs.Block.Steps

/-!
# Every lowering step is orderly

What a block is lowered to depends neither on the symbolic code that is there already nor on where
exits lead, and the labels in it are used once. Shown for each lowering step in turn.

* `Orderly.straight`, `Orderly.instruction`: instructions.
* `Orderly.body`: all instructions of a block.
-/

namespace Recompiler

namespace Orderly

variable {β : Type} [Bus β]

/-! ## Exits and calls -/

theorem fetch (pc : UInt32) : Orderly (Lower.fetch pc : Lower β UInt32) := by
  refine bind (x := modifyGet _) ⟨?_, .of_silent fun _ _ => ⟨rfl, rfl⟩, .of_eq fun _ _ => rfl⟩
    fun result => ?_
  · intro s s' hs q hq r hr t t' ht
    obtain ⟨hresult, hbus⟩ := hq ht.bus pc
    refine ⟨congrArg Except.ok hresult, ht.code, hbus, ?_⟩
    change ({ t' with bus := (Bus.read Width.word pc t'.bus).2 } : Lowering β) = _
    rw [ht.others]
    rfl
  · cases result with
    | ok word => exact pure word
    | error cause => exact bind (report _) fun _ => throw _

theorem decode (pc : UInt32) : Orderly (Lower.decode pc : Lower β Instruction) := by
  refine bind (fetch pc) fun word => ?_
  cases Instruction.decode? word with
  | some i => exact pure i
  | none => exact bind (report _) fun _ => throw _

/-- An exit may lead elsewhere, and that is all that links change. -/
theorem writeExitCharging (target amount : UInt32) :
    Orderly (Lower.writeExitCharging target amount : Lower β Unit) := by
  have hcharge := bind (emit (β := β)
    (Sequence.subtractState (Slot.offset Slot.downcount) amount)) fun _ =>
      emit (Sequence.storeStateImmediate (Slot.offset Slot.pc) target)
  -- One after the other, as only the second of the two items depends on links.
  have hcode (s : Surroundings) (c : Array Item) :
      c ++ [Item.jumpIfTo .less s.stubs.outerLoop, s.exitItem target] =
        c ++ [Item.jumpIfTo .less s.stubs.outerLoop] ++ [s.exitItem target] := by
    apply Array.ext'
    simp
  refine ⟨fun s s' hs q hq r hr t t' ht => ⟨rfl, ?_, ht.bus, ?_⟩, fun s t hold hj hb => ?_,
    .of_eq fun _ _ => rfl⟩
  · have hcharged := (hcharge.uniform hs hq hr ht).2.code
    have hjump := hr.exit target
      (hr.plain [.jumpIfTo .less s.stubs.outerLoop] (by simp [Item.isPlain]) hcharged)
    change r (_ ++ [.jumpIfTo .less s.stubs.outerLoop, s.exitItem target])
      (_ ++ [.jumpIfTo .less s'.stubs.outerLoop, s'.exitItem target])
    rw [hcode, hcode, hs.stubs]
    exact hjump
  · change ({ t' with code := _ } : Lowering β) = _
    rw [ht.others]
    rfl
  · obtain ⟨hle, items, hitems, hjumps, hbinds⟩ := hcharge.fresh s t hold hj hb
    refine ⟨hle, items ++ [.jumpIfTo .less s.stubs.outerLoop, s.exitItem target], ?_, ?_, ?_⟩
    · rw [← List.append_assoc, ← hitems]
      exact Array.toList_appendList
    · rw [jumpLabels_append]
      exact (List.append_nil (jumpLabels items)).symm ▸ hjumps
    · rw [bindLabels_append]
      exact (List.append_nil (bindLabels items)).symm ▸ hbinds

theorem writeExit (target : UInt32) : Orderly (Lower.writeExit target : Lower β Unit) :=
  get_bind (fun _ _ _ => rfl) fun _ => writeExitCharging _ _

theorem writeRegisterExit (target : HostRegister) :
    Orderly (Lower.writeRegisterExit target : Lower β Unit) := by
  refine get_bind (fun _ _ _ => rfl) fun t => bind (emit _) fun _ => bind (emit _) fun _ => ?_
  exact read_bind (fun s s' h => by simp only [h.stubs]) fun _ => jumpTo _

theorem writeCheckedExit : Orderly (Lower.writeCheckedExit : Lower β Unit) := by
  refine get_bind (fun _ _ _ => rfl) fun t => bind (emit _) fun _ => ?_
  exact read_bind (fun s s' h => by simp only [h.stubs]) fun _ => jumpTo _

theorem hardFault : Orderly (Lower.hardFault : Lower β Unit) := by
  refine bind flushAll fun _ => bind currentPc fun pc => bind (emit _) fun _ => ?_
  refine read_bind (fun s s' h => by simp only [h.stubs]) fun _ => bind (jumpTo _) fun _ => ?_
  exact modify (fun _ _ _ => rfl) (fun _ => rfl) fun _ => rfl

theorem interpretCall (i : Instruction) (pc : UInt32) :
    Orderly (Lower.interpretCall i pc : Lower β Unit) := by
  refine ite (bind flushAll fun _ => bind (emit _) fun _ => emitChecked _) ?_
  exact bind currentPc fun _ => bind (report _) fun _ => throw _

/-! ## Arithmetic -/

section Arithmetic

variable (i : Instruction)

theorem immediateArithmetic (op : BinaryOp) (signed : Bool) :
    Orderly (Lower.immediateArithmetic i op signed : Lower β Unit) := by
  refine bind (registerOperand _) fun rt => bind (registerOperand _) fun rs => ite (pure _) ?_
  refine bind (checked _) fun imm => bind (immediate? _) fun value? => ?_
  cases value? with
  | some value => exact setImmediate _ _
  | none => exact bind (allocating _) fun _ => emit _

theorem loadUpper : Orderly (Lower.loadUpper i : Lower β Unit) := by
  refine bind (registerOperand _) fun rt => ite ?_ (pure _)
  exact bind (checked _) fun _ => setImmediate _ _

theorem registerArithmetic (op : BinaryOp) :
    Orderly (Lower.registerArithmetic i op : Lower β Unit) := by
  refine bind (registerOperand _) fun rd => bind (registerOperand _) fun rs =>
    bind (registerOperand _) fun rt => ite (pure _) ?_
  refine bind (immediate? _) fun lhs? => bind (immediate? _) fun rhs? => ?_
  split
  · exact setImmediate _ _
  · exact bind (allocating _) fun _ => emit _
  · split
    · exact bind (allocating _) fun _ => emit _
    · exact bind (allocating _) fun _ => emit _

theorem constantShift (op : ShiftOp) : Orderly (Lower.constantShift i op : Lower β Unit) := by
  refine bind (registerOperand _) fun rd => bind (registerOperand _) fun rt =>
    bind (checked _) fun amount => ite (pure _) ?_
  refine bind (immediate? _) fun value? => ?_
  cases value? with
  | some value => exact setImmediate _ _
  | none => exact bind (allocating _) fun _ => emit _

theorem variableShift (op : ShiftOp) : Orderly (Lower.variableShift i op : Lower β Unit) := by
  refine bind (registerOperand _) fun rd => bind (registerOperand _) fun rs =>
    bind (registerOperand _) fun rt => ite (pure _) ?_
  refine bind (immediate? _) fun value? => bind (immediate? _) fun amount? => ?_
  split
  · exact setImmediate _ _
  · exact bind (allocating _) fun _ => emit _
  · exact bind (allocating _) fun _ => emit _

theorem product (signed : Bool) : Orderly (Lower.product i signed : Lower β Unit) :=
  bind (registerOperand _) fun _ => bind (registerOperand _) fun _ =>
    bind (allocating _) fun _ => emit _

theorem moveFrom (slot : Nat) : Orderly (Lower.moveFrom i slot : Lower β Unit) := by
  refine bind (registerOperand _) fun rd => ite ?_ (pure _)
  exact bind (map_register _ _) fun _ => emit _

theorem moveTo (slot : Nat) : Orderly (Lower.moveTo i slot : Lower β Unit) := by
  refine bind (registerOperand _) fun rs => bind (immediate? _) fun value? => ?_
  cases value? with
  | some value => exact emit _
  | none => exact bind (map_register _ _) fun _ => emit _

end Arithmetic

/-! ## Memory accesses -/

theorem constantAddress (n : Nat) (region : FastRegion) (offset : UInt32) :
    Orderly (Lower.constantAddress n region offset : Lower β FastAddress) := by
  refine ite (pure _) (bind (emit _) fun _ => ite (pure _) ?_)
  exact bind (emit _) fun _ => pure _

theorem constantAccess (op : MemoryOp) (rt : GuestIndex) (addr : UInt32) :
    Orderly (Lower.constantAccess op rt addr : Lower β Unit) := by
  refine read_bind (fun s s' h => by simp only [h.regions]) fun s => ?_
  split
  · exact bind (map_register _ _) fun _ => bind (constantAddress _ _ _) fun _ => emitChecked _
  · exact bind (emit _) fun _ => bind (emitChecked _) fun _ =>
      bind (map_register _ _) fun _ => emit _
  · exact bind (map_register _ _) fun _ => bind (constantAddress _ _ _) fun _ => emitChecked _
  · exact bind (map_register _ _) fun _ => bind (emit _) fun _ => emitChecked _

theorem maskedAccess (op : MemoryOp) (value : HostRegister) (main : FastRegion) :
    Orderly (Lower.maskedAccess op value main : Lower β Unit) := by
  refine ite (emitChecked _) ?_
  exact ite (bind (emit _) fun _ => bind (emit _) fun _ => emitChecked _)
    (bind (emit _) fun _ => emitChecked _)

theorem guardedRegion (op : MemoryOp) (value : HostRegister) (n : Nat) (region : FastRegion)
    (done : Nat) :
    Orderly (Lower.guardedRegion op value n region done : Lower β Unit) [done] [] := by
  refine freshLabel_bind fun miss => optional (emit _) fun _ => bind (emit _) fun _ =>
    jumpIf_bind fun _ => ?_
  have happend : Orderly (β := β) (Lower.append [.jump done, .bind miss]) [done] [miss] :=
    append_labels _ (by simp [Item.isPlain])
  have htail (is : List HostInstruction) :
      Orderly (β := β) (Lower.append [.jump done, .bind miss] >>= fun _ =>
        if region.start ≠ 0 then Lower.emit is else Pure.pure ()) [done] [miss] :=
    happend.bind_apart fun _ => ite (emit _) (pure _)
  exact ite (bind (emitChecked _) fun _ => htail _)
    (bind (emit _) fun _ => bind (emitChecked _) fun _ => htail _)

/-- The labels of the direct accesses are left for later steps to bind. -/
theorem guardedRegions_bind {op : MemoryOp} {value : HostRegister}
    {regions : List (FastRegion × Nat)} {k : List Nat → Lower β Unit} {bound : List Nat}
    (hk : ∀ hits, Orderly (k hits) [] (hits ++ bound)) :
    Orderly (Lower.guardedRegions op value regions >>= k) [] bound := by
  induction regions generalizing k bound with
  | nil => exact hk []
  | cons region rest ih =>
    obtain ⟨region, n⟩ := region
    simp only [Lower.guardedRegions]
    split
    · simp only [bind_assoc, pure_bind]
      refine freshLabel_bind fun done => bind_apart (guardedRegion op value n region done) fun _ =>
        ih fun hits => ?_
      exact (hk (done :: hits)).perm List.perm_middle.symm
    · exact ih hk

theorem guardedAccess (op : MemoryOp) (value : HostRegister) (regions : List FastRegion) :
    Orderly (Lower.guardedAccess op value regions : Lower β Unit) := by
  refine guardedRegions_bind fun hits => bind (emitChecked _) fun _ => ?_
  have hbind := append_labels (β := β) (hits.map .bind) (by simp [Item.isPlain])
  have hjumps : jumpLabels (hits.map Item.bind) = [] := by
    simp [jumpLabels, Item.jumpLabel?]
  have hbinds : bindLabels (hits.map Item.bind) = hits := by
    simp [bindLabels, List.filterMap_map, Function.comp_def, Item.bindLabel?]
  rw [hjumps, hbinds] at hbind
  rwa [List.append_nil]

theorem dynamicAccess (op : MemoryOp) (value : HostRegister) :
    Orderly (Lower.dynamicAccess op value : Lower β Unit) := by
  refine read_bind (fun s s' h => by rw [h.regions, h.options.fastMemory]) fun s => ?_
  split
  · exact emitChecked _
  · exact ite (maskedAccess _ _ _) (guardedAccess _ _ _)

theorem memoryAccess (i : Instruction) (op : MemoryOp) :
    Orderly (Lower.memoryAccess i op : Lower β Unit) := by
  refine bind (registerOperand _) fun rt => bind (registerOperand _) fun base =>
    bind (checked _) fun offset => ?_
  cases op with
  | load kind =>
    refine ite (pure _) (bind (immediate? _) fun addr? => ?_)
    cases addr? with
    | some addr => exact constantAccess _ _ _
    | none =>
      exact bind (updateRegisters _) fun _ => bind (updateRegisters _) fun _ =>
        bind (map_register _ _) fun _ => bind (map_register _ _) fun _ => bind (emit _) fun _ =>
          dynamicAccess _ _
  | store width =>
    refine bind (immediate? _) fun addr? => ?_
    cases addr? with
    | some addr => exact constantAccess _ _ _
    | none =>
      exact bind (allocating _) fun _ => bind (emit _) fun _ => dynamicAccess _ _

/-! ## Branches and jumps -/

theorem straight (i : Instruction) : Orderly (Lower.straight i : Lower β Unit) := by
  unfold Lower.straight
  dsimp only
  split
  · exact immediateArithmetic _ _ _
  split
  · exact registerArithmetic _ _
  split
  · exact memoryAccess _ _
  split
  · exact loadUpper _
  · exact constantShift _ _
  · exact constantShift _ _
  · exact constantShift _ _
  · exact variableShift _ _
  · exact variableShift _ _
  · exact variableShift _ _
  · exact product _ _
  · exact product _ _
  · exact moveFrom _ _
  · exact moveFrom _ _
  · exact moveTo _ _
  · exact moveTo _ _
  · exact bind currentPc fun _ => bind (report _) fun _ => hardFault
  · exact bind currentPc fun _ => bind (report _) fun _ => hardFault
  · exact bind currentPc fun _ => bind (report _) fun _ => hardFault
  · exact bind currentPc fun _ => bind (report _) fun _ => hardFault
  · exact bind currentPc fun _ => interpretCall _ _

section Control

theorem instructionWith {body : Instruction → Lower β Unit} (h : ∀ i, Orderly (body i)) :
    Orderly (Lower.instructionWith body) := by
  refine bind currentPc fun pc => bind (updateRegisters _) fun _ => bind (decode _) fun i =>
    bind (report _) fun _ =>
    bind (modify (fun _ _ _ => rfl) (fun _ => rfl) fun _ => rfl) fun _ => bind (h i) fun _ => ?_
  exact updateRegisters _

theorem delaySlot : Orderly (Lower.delaySlot : Lower β Unit) := by
  refine bind currentPc fun pc => bind (modify (fun _ _ _ => rfl) (fun _ => rfl) fun _ => rfl) fun _ => ?_
  refine bind (attempt (instructionWith fun i => ite ?_ (straight i))) fun outcome =>
    bind (modify (fun _ _ _ => rfl) (fun _ => rfl) fun _ => rfl) fun _ => ?_
  · exact bind currentPc fun _ => bind (report _) fun _ => hardFault
  · cases outcome with
    | ok _ => exact pure _
    | error f => exact throw f

theorem afterDelaySlot {rest : Lower β Unit} (h : Orderly rest) :
    Orderly (Lower.afterDelaySlot rest) :=
  bind delaySlot fun _ => get_bind (fun _ _ _ => rfl) fun _ => ite h (pure _)

theorem writeCompare (t : Test) : Orderly (Lower.writeCompare t : Lower β Unit) := by
  obtain ⟨c, rs, rt?⟩ := t
  cases rt? with
  | none =>
    exact bind (updateRegisters _) fun _ => bind (map_register _ _) fun _ =>
      bind (pure _) fun _ => emit _
  | some rt =>
    refine bind (updateRegisters _) fun _ => bind (updateRegisters _) fun _ =>
      bind (map_register _ _) fun _ => bind (immediate? _) fun value? => ?_
    cases value? with
    | some value => exact bind (pure _) fun _ => emit _
    | none => exact bind (map _ (map_register _ _)) fun _ => emit _

theorem writeBranchExits (skip : Condition) (target next : UInt32) :
    Orderly (Lower.writeBranchExits skip target next : Lower β Unit) :=
  freshLabel_bind fun _ => jumpIf_bind fun _ => bind (writeExit _) fun _ =>
    bindLabel_bind fun _ => writeExit _

theorem decidedBranch (taken likely links : Bool) (target next : UInt32) :
    Orderly (Lower.decidedBranch taken likely links target next : Lower β Unit) := by
  have hleave : Orderly (β := β) (Lower.flushAll >>= fun _ =>
      Lower.writeExit (if taken then target else next)) :=
    bind flushAll fun _ => writeExit _
  exact bind currentPc fun _ => bind (report _) fun _ => optional (setImmediate _ _) fun _ =>
    ite (afterDelaySlot hleave) hleave

theorem likelyBranch (t : Test) (links : Bool) (target next : UInt32) :
    Orderly (Lower.likelyBranch t links target next : Lower β Unit) := by
  refine bind (writeCompare t) fun _ => bind flushAll fun _ => optional (emit _) fun _ =>
    freshLabel_bind fun notTaken => jumpIf_bind fun _ => get_bind (fun _ _ _ => rfl) fun before =>
      bind (attempt delaySlot) fun outcome => ?_
  have hrest (registers : RegisterCache) (cycles : UInt32) {x : Lower β Unit} (hx : Orderly x)
      (u : Unit) : Orderly
        (Lower.updateRegisters (fun _ => registers) >>= fun _ =>
          Lower.append [.bind notTaken] >>= fun _ =>
            Lower.writeExitCharging next cycles >>= fun _ => x) [] [notTaken] :=
    bind (updateRegisters _) fun _ => bindLabel_bind fun _ => bind (writeExitCharging _ _) fun _ => hx
  cases outcome with
  | ok u =>
    exact get_bind (fun _ _ _ => rfl) fun _ =>
      ite (bind flushAll fun _ => bind (writeExit _) (hrest _ _ (pure _))) (hrest _ _ (pure _) ())
  | error f => exact hrest _ _ (throw f) ()

theorem savedBranch (t : Test) (links : Bool) (target next : UInt32) :
    Orderly (Lower.savedBranch t links target next : Lower β Unit) :=
  bind (writeCompare t) fun _ => bind (emit _) fun _ => bind (updateRegisters _) fun _ =>
    optional (setImmediate _ _) fun _ => afterDelaySlot <|
      bind flushAll fun _ => bind (emit _) fun _ => writeBranchExits _ _ _

theorem lateBranch (t : Test) (links : Bool) (target next : UInt32) :
    Orderly (Lower.lateBranch t links target next : Lower β Unit) :=
  optional (setImmediate _ _) fun _ => afterDelaySlot <|
    bind (writeCompare t) fun _ => bind flushAll fun _ => writeBranchExits _ _ _

theorem branch (i : Instruction) (t : Test) (target : UInt32) :
    Orderly (Lower.branch i t target : Lower β Unit) := by
  refine bind currentPc fun pc => bind close fun _ => bind (immediate? _) fun lhs? => ?_
  have hundecided : Orderly (β := β)
      (if i.mnemonic.discardsDelaySlot then
        Lower.likelyBranch t i.mnemonic.links target (pc + 8)
      else Lower.decode (pc + 4) >>= fun slot =>
        if (slot.outputRegister?.any fun reg => t.reads (guestOperand reg)) ||
            (i.mnemonic.links && t.reads linkRegister) then
          Lower.savedBranch t i.mnemonic.links target (pc + 8)
        else Lower.lateBranch t i.mnemonic.links target (pc + 8)) :=
    ite (likelyBranch _ _ _ _) (bind (decode _) fun _ => ite (savedBranch _ _ _ _)
      (lateBranch _ _ _ _))
  cases t.rt with
  | none =>
    refine bind (pure _) fun rhs? => ?_
    dsimp only
    split
    · exact decidedBranch _ _ _ _ _
    · exact hundecided
  | some rt =>
    refine bind (immediate? _) fun rhs? => ?_
    dsimp only
    split
    · exact decidedBranch _ _ _ _ _
    · exact hundecided

theorem jump (links : Bool) (target : UInt32) :
    Orderly (Lower.jump links target : Lower β Unit) :=
  bind currentPc fun _ => bind close fun _ => optional (setImmediate _ _) fun _ =>
    afterDelaySlot <| bind flushAll fun _ => writeExit _

theorem registerJump (rs rd : GuestIndex) : Orderly (Lower.registerJump rs rd : Lower β Unit) := by
  refine bind currentPc fun pc => bind close fun _ => bind (immediate? _) fun target? => ?_
  cases target? with
  | some target =>
    exact bind (setImmediate _ _) fun _ => afterDelaySlot <| bind flushAll fun _ => writeExit _
  | none =>
    refine bind (decode _) fun slot => ite ?_ ?_
    · exact bind (map_register _ _) fun _ => bind (emit _) fun _ => bind (setImmediate _ _) fun _ =>
        afterDelaySlot <| bind flushAll fun _ => bind (emit _) fun _ => writeRegisterExit _
    · exact bind (setImmediate _ _) fun _ => afterDelaySlot <|
        bind (map_register _ _) fun _ => bind flushAll fun _ => writeRegisterExit _

theorem systemCall (i : Instruction) : Orderly (Lower.systemCall i : Lower β Unit) :=
  bind followingPc fun _ => bind (interpretCall _ _) fun _ => bind writeCheckedExit fun _ => close

theorem trap : Orderly (Lower.trap : Lower β Unit) :=
  bind followingPc fun _ => bind flushAll fun _ => bind (emit _) fun _ => bind (emit _) fun _ =>
    bind writeCheckedExit fun _ => close

theorem instruction : Orderly (Lower.instruction : Lower β Unit) := by
  refine instructionWith fun i => bind currentPc fun pc => ?_
  dsimp only
  split
  · exact systemCall i
  · exact trap
  · exact jump _ _
  · exact jump _ _
  · exact bind (registerOperand _) fun _ => registerJump _ _
  · exact bind (registerOperand _) fun _ => bind (registerOperand _) fun _ => registerJump _ _
  · split
    · exact bind (registerOperand _) fun _ => bind (registerOperand _) fun _ => branch _ _ _
    · exact bind (registerOperand _) fun _ => branch _ _ _
    · exact straight i

theorem body (start : UInt32) (limit : Nat) : Orderly (Lower.body start limit : Lower β Unit) := by
  induction limit with
  | zero =>
    exact bind (report _) fun _ => bind flushAll fun _ => bind currentPc fun _ => writeExit _
  | succ limit ih =>
    exact bind instruction fun _ => bind (modify (fun _ _ _ => rfl) (fun _ => rfl) fun _ => rfl) fun _ =>
      get_bind (fun _ _ _ => rfl) fun _ => ite ih (pure _)

end Control

end Orderly

end Recompiler
