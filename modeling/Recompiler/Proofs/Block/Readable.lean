import Recompiler.Proofs.Block.Success

/-!
# What keeps a block from being lowered

All that can go wrong is that an instruction of the block, or the one in the delay slot at its end,
cannot be read or is none. A branch may look at the instruction in its delay slot ahead, which is then
read twice.

* `Bus.instructionAt`: reading an instruction.
* `Lower.Yields`, `Lower.Closes`: steps that succeed unless a delay slot cannot be read.
* `Closes.branch`, `Closes.jump` and following: instructions that end a block.
* `Bus.Breaks`, `Lower.exec_body`: blocks.
-/

namespace Recompiler

variable {β : Type}

/-! ## Reading instructions -/

/-- What some reads make of a bus. -/
inductive Bus.ReadsTo [Bus β] (start : β) : β → Prop
  | refl : ReadsTo start start
  | read {bus : β} (h : ReadsTo start bus) (width : Width) (addr : UInt32) :
    ReadsTo start (Bus.read width addr bus).2

theorem Bus.ReadsTo.trans [Bus β] {bus bus' bus'' : β} (h : ReadsTo bus bus')
    (h' : ReadsTo bus' bus'') : ReadsTo bus bus'' := by
  induction h' with
  | refl => exact h
  | read _ width addr ih => exact .read ih width addr

/-- The instruction at an address, or why there is none, and the bus afterwards. -/
def Bus.instructionAt [Bus β] (pc : UInt32) (bus : β) : Except CompileError Instruction × β :=
  match Bus.read .word pc bus with
  | (.error cause, bus) => (.error (.fetch pc cause), bus)
  | (.ok word, bus) =>
    match Instruction.decode? word with
    | some i => (.ok i, bus)
    | none => (.error (.invalidInstruction pc word), bus)

section Reading

variable [Bus β]

theorem Bus.readsTo_instructionAt (pc : UInt32) (bus : β) :
    ReadsTo bus (instructionAt pc bus).2 := by
  have hread := ReadsTo.read (.refl : ReadsTo bus bus) Width.word pc
  unfold instructionAt
  split
  · next hresult => rwa [hresult] at hread
  · next hresult =>
    rw [hresult] at hread
    split <;> exact hread

theorem Bus.mem_table_of_instructionAt {pc : UInt32} {bus bus' : β} {i : Instruction}
    (h : instructionAt pc bus = (.ok i, bus')) : i.entry ∈ Entry.table := by
  unfold instructionAt at h
  split at h
  · cases h
  · split at h
    · next hdecode =>
      cases h
      exact Instruction.mem_table_of_decode? hdecode
    · cases h

theorem Bus.instructionAt_of_read {pc word : UInt32} {bus bus' : β} {i : Instruction}
    (hread : Bus.read .word pc bus = (.ok word, bus')) (hi : Instruction.decode? word = some i) :
    instructionAt pc bus = (.ok i, bus') := by
  rw [instructionAt, hread]
  dsimp only
  rw [hi]

namespace Lower

variable {pc : UInt32} {i : Instruction} {e : CompileError} {s : Surroundings} {t : Lowering β}
  {bus : β}

theorem exec_decode_of_ok (s : Surroundings) (h : Bus.instructionAt pc t.bus = (.ok i, bus)) :
    exec (decode pc) s t = (.ok i, { t with bus := bus }) := by
  rw [decode, exec_bind, fetch, exec_bind_of_ok (exec_modifyGet ..)]
  unfold Bus.instructionAt at h
  generalize Bus.read Width.word pc t.bus = answer at h ⊢
  obtain ⟨cause | word, bus⟩ := answer
  · cases h
  · dsimp only [exec_pure] at h ⊢
    cases hdecode : Instruction.decode? word with
    | none => simp [hdecode] at h
    | some j =>
      rw [hdecode] at h
      cases h
      rfl

theorem exec_decode_of_error (s : Surroundings) (h : (Bus.instructionAt pc t.bus).1 = .error e) :
    ∃ u, exec (decode pc) s t = (.error (.compile e), u) := by
  rw [decode, exec_bind, fetch, exec_bind_of_ok (exec_modifyGet ..)]
  unfold Bus.instructionAt at h
  generalize Bus.read Width.word pc t.bus = answer at h ⊢
  obtain ⟨cause | word, bus⟩ := answer
  · cases h
    exact ⟨_, rfl⟩
  · dsimp only [exec_pure] at h ⊢
    cases hdecode : Instruction.decode? word with
    | none =>
      rw [hdecode] at h
      cases h
      exact ⟨_, rfl⟩
    | some j => simp [hdecode] at h

theorem exec_instructionWith_of_unreadable (body : Instruction → Lower β Unit) (s : Surroundings)
    (h : (Bus.instructionAt t.pc t.bus).1 = .error e) :
    ∃ u, exec (instructionWith body) s t = (.error (.compile e), u) := by
  rw [instructionWith, exec_bind_of_ok (exec_currentPc ..), exec_bind_of_ok (exec_updateRegisters ..),
    exec_bind]
  have hbegun : (Bus.instructionAt t.pc (Lowering.bus { t with
      registers := { t.registers with pc := t.pc } })).1 = .error e := h
  obtain ⟨u, hu⟩ := exec_decode_of_error s hbegun
  rw [hu]
  exact ⟨_, rfl⟩

/-- Lowering an instruction that can be read. -/
theorem exec_instructionWith {body : Instruction → Lower β Unit}
    (h : Bus.instructionAt t.pc t.bus = (.ok i, bus)) :
    exec (instructionWith body) s t =
      match exec (body i) s (t.reading bus i) with
      | (.ok (), u) => (.ok (), { u with registers := u.registers.release })
      | (.error f, u) => (.error f, u) := by
  have hbegun : Bus.instructionAt t.pc (Lowering.bus { t with
      registers := { t.registers with pc := t.pc } }) = (.ok i, bus) := h
  have hdecode := exec_decode_of_ok s hbegun
  rw [instructionWith, exec_bind_of_ok (exec_currentPc ..), exec_bind_of_ok (exec_updateRegisters ..),
    exec_bind_of_ok hdecode, exec_bind_of_ok (exec_report ..), exec_bind_of_ok (exec_modify ..)]
  change exec (body i >>= fun _ => updateRegisters (·.release)) s (t.reading bus i) = _
  rw [exec_bind]
  rcases exec (body i) s (t.reading bus i) with ⟨_ | ⟨⟨⟩⟩, u⟩ <;> rfl

/-- What comes after a delay slot that can be read and is not refused. -/
theorem exec_afterDelaySlot {rest : Lower β Unit} {u : Lowering β}
    (h : Bus.instructionAt (t.pc + 4) t.bus = (.ok i, bus))
    (hslot : exec (inSlot i) s (Lowering.reading { t with pc := t.pc + 4 } bus i) = (.ok (), u))
    (hcancelled : u.cancelled = false) :
    exec (afterDelaySlot rest) s t = exec rest s
      { u with pc := t.pc, registers := { u.registers.release with pc := t.pc } } := by
  have hread : exec (instructionWith inSlot) s { t with pc := t.pc + 4 } =
      (.ok (), { u with registers := u.registers.release }) := by
    rw [exec_instructionWith (t := { t with pc := t.pc + 4 }) h, hslot]
  rw [afterDelaySlot, exec_bind_of_ok (exec_delaySlot_of_exec hread), exec_get_bind]
  dsimp only
  rw [hcancelled]
  rfl

/-- A block whose first instruction cannot be read. -/
theorem exec_block_of_unreadable {start : UInt32} (hlimit : 0 < s.options.maxBlockInstructions)
    (h : (Bus.instructionAt start bus).1 = .error e) :
    (exec (block start) s (.initial bus start)).1 = .error (.compile e) := by
  obtain ⟨limit, hlimit⟩ := Nat.exists_eq_add_one.2 hlimit
  obtain ⟨u, hu⟩ : ∃ u, exec instruction s (.entered bus s.stubs start) =
      (.error (.compile e), u) :=
    exec_instructionWith_of_unreadable _ s h
  rw [exec_block, hlimit, body, exec_bind, hu]

end Lower

end Reading

/-! ## Steps that succeed unless a delay slot cannot be read -/

namespace Lower

variable [Bus β]

/-- The step succeeds on the instruction at `pc`, or fails on a bus for which `fails` tells the
error. -/
def Yields (kept : List GuestIndex) (pc : UInt32) (fails : β → CompileError → Prop)
    (x : Lower β Unit) : Prop :=
  ∀ s t, t.registers.Locks kept → t.pc = pc →
    (∃ u, exec x s t = (.ok (), u) ∧ (u.isOpen = true → t.isOpen = true) ∧
      Bus.ReadsTo t.bus u.bus) ∨
    ∃ e u, exec x s t = (.error (.compile e), u) ∧ fails t.bus e

/-- If the step succeeds, it closes the block. -/
def Closes (pc : UInt32) (fails : β → CompileError → Prop) (x : Lower β Unit) : Prop :=
  ∀ s t, t.registers.Locks [] → t.pc = pc →
    (∃ u, exec x s t = (.ok (), u) ∧ u.isOpen = false ∧ Bus.ReadsTo t.bus u.bus) ∨
      ∃ e u, exec x s t = (.error (.compile e), u) ∧ fails t.bus e

namespace Yields

variable {kept kept' : List GuestIndex} {pc : UInt32} {fails fails' : β → CompileError → Prop}
  {α : Type} {x y : Lower β Unit}

theorem of_succeeds (hx : Succeeds kept x kept') : Yields kept pc fails x := by
  intro s t ht _
  obtain ⟨⟨⟩, u, hexec, -, honward⟩ := hx s t ht
  exact .inl ⟨u, hexec, honward.isOpen, honward.bus ▸ .refl⟩

theorem after {x : Lower β α} {f : α → Lower β Unit} (hx : Succeeds kept x kept')
    (hf : ∀ r, Yields kept' pc fails (f r)) : Yields kept pc fails (x >>= f) := by
  intro s t ht hpc
  obtain ⟨r, u, hexec, hu, honward⟩ := hx s t ht
  rw [exec_bind_of_ok hexec]
  rcases hf r s u hu (honward.pc.trans hpc) with ⟨v, hv, hopen, hreads⟩ | ⟨e, v, hv, hfails⟩
  · exact .inl ⟨v, hv, honward.isOpen ∘ hopen, honward.bus ▸ hreads⟩
  · exact .inr ⟨e, v, hv, honward.bus ▸ hfails⟩

theorem ite {c : Prop} [Decidable c] (hx : Yields kept pc fails x) (hy : Yields kept pc fails y) :
    Yields kept pc fails (if c then x else y) := by
  split
  · exact hx
  · exact hy

/-- A step that is done on a condition, before the others. -/
theorem optional {c : Prop} [Decidable c] {x : Lower β Unit} {k : Unit → Lower β Unit}
    (hx : Succeeds kept x kept) (hk : Yields kept pc fails (k ())) :
    Yields kept pc fails (if c then x >>= k else k ()) :=
  ite (after hx fun _ => hk) hk

theorem mono (hx : Yields kept pc fails x) (h : ∀ bus e, fails bus e → fails' bus e) :
    Yields kept pc fails' x := by
  intro s t ht hpc
  rcases hx s t ht hpc with hok | ⟨e, u, hu, hfails⟩
  · exact .inl hok
  · exact .inr ⟨e, u, hu, h _ _ hfails⟩

end Yields

/-- The instruction in the delay slot of the one at `pc` cannot be read. -/
def SlotFails (pc : UInt32) (bus : β) (e : CompileError) : Prop :=
  (Bus.instructionAt (pc + 4) bus).1 = .error e

/-- The instruction in the delay slot cannot be read, or not a second time. -/
def SlotFailsTwice (pc : UInt32) (bus : β) (e : CompileError) : Prop :=
  SlotFails pc bus e ∨
    ∃ i bus', Bus.instructionAt (pc + 4) bus = (.ok i, bus') ∧ SlotFails pc bus' e

/-- The instruction in a delay slot is lowered if it can be read. -/
theorem exec_delaySlot {s : Surroundings} {t : Lowering β} (ht : t.registers.Locks []) :
    (∃ u, exec delaySlot s t = (.ok (), u) ∧ u.registers.Locks [] ∧
      (u.isOpen = true → t.isOpen = true) ∧ Bus.ReadsTo t.bus u.bus) ∨
    ∃ e u, exec delaySlot s t = (.error (.compile e), u) ∧ SlotFails t.pc t.bus e := by
  rcases hread : Bus.instructionAt (t.pc + 4) t.bus with ⟨e | i, bus⟩
  · obtain ⟨u, hu⟩ := exec_instructionWith_of_unreadable inSlot s
      (t := { t with pc := t.pc + 4 }) (by rw [hread])
    exact .inr ⟨e, _, exec_delaySlot_of_exec hu, by rw [SlotFails, hread]⟩
  · have hslot : Succeeds [] (inSlot i : Lower β Unit) (List.finRange 32) := by
      cases hends : i.mnemonic.endsBlock with
      | true =>
        rw [inSlot, if_pos hends]
        exact (Succeeds.currentPc.bind fun _ => (Succeeds.report _).bind fun _ => .hardFault).any
      | false =>
        rw [inSlot, if_neg (by rw [hends]; decide)]
        exact .straight (Bus.mem_table_of_instructionAt hread) hends
    obtain ⟨⟨⟩, u, hexec, hu, honward⟩ := hslot s
      (Lowering.reading { t with pc := t.pc + 4 } bus i) (ht.setPc _)
    have hwith : exec (instructionWith inSlot) s { t with pc := t.pc + 4 } = _ :=
      exec_instructionWith hread
    rw [hexec] at hwith
    have hreads := Bus.readsTo_instructionAt (t.pc + 4) t.bus
    rw [hread] at hreads
    exact .inl ⟨_, exec_delaySlot_of_exec hwith, hu.release.setPc t.pc, honward.isOpen,
      honward.bus ▸ hreads⟩

namespace Yields

variable {kept : List GuestIndex} {pc : UInt32}

theorem afterDelaySlot {rest : Lower β Unit} (hrest : Succeeds [] rest kept) :
    Yields [] pc (SlotFails pc) (Lower.afterDelaySlot rest) := by
  intro s t ht hpc
  rw [Lower.afterDelaySlot, exec_bind]
  rcases exec_delaySlot (s := s) ht with ⟨u, hslot, hu, hopen, hreads⟩ | ⟨e, u, hslot, hfails⟩
  · rw [hslot]
    dsimp only
    rw [exec_get_bind]
    split
    · obtain ⟨⟨⟩, v, hexec, -, honward⟩ := hrest s u hu
      exact .inl ⟨v, hexec, hopen ∘ honward.isOpen, honward.bus ▸ hreads⟩
    · exact .inl ⟨u, rfl, hopen, hreads⟩
  · rw [hslot]
    exact .inr ⟨e, u, rfl, hpc ▸ hfails⟩

/-- Reading the delay slot ahead. -/
theorem decode_bind {k : Instruction → Lower β Unit} (hk : ∀ i, Yields [] pc (SlotFails pc) (k i)) :
    Yields [] pc (SlotFailsTwice pc) (Lower.decode (pc + 4) >>= k) := by
  intro s t ht hpc
  rcases hread : Bus.instructionAt (pc + 4) t.bus with ⟨e | i, bus⟩
  · obtain ⟨u, hu⟩ := exec_decode_of_error s (congrArg Prod.fst hread)
    rw [exec_bind, hu]
    exact .inr ⟨e, u, rfl, .inl (by rw [SlotFails, hread])⟩
  · rw [exec_bind_of_ok (exec_decode_of_ok s hread)]
    have hahead := Bus.readsTo_instructionAt (pc + 4) t.bus
    rw [hread] at hahead
    rcases hk i s { t with bus := bus } ht hpc with ⟨u, hu, hopen, hreads⟩ | ⟨e, u, hu, hfails⟩
    · exact .inl ⟨u, hu, hopen, hahead.trans hreads⟩
    · exact .inr ⟨e, u, hu, .inr ⟨i, bus, hread, hfails⟩⟩

theorem slotFailsTwice {x : Lower β Unit} (hx : Yields [] pc (SlotFails pc) x) :
    Yields [] pc (SlotFailsTwice pc) x :=
  hx.mono fun _ _ h => .inl h

theorem decidedBranch (taken likely links : Bool) (target next : UInt32) :
    Yields [] pc (SlotFails pc) (Lower.decidedBranch taken likely links target next : Lower β Unit) := by
  have hleave : Succeeds (β := β) [] (do
      Lower.flushAll
      Lower.writeExit (if taken then target else next)) [] :=
    Succeeds.flushAll.bind fun _ => .writeExit _
  exact after .currentPc fun _ => after (.report _) fun _ => optional (.setImmediate _ _) <|
    ite (afterDelaySlot hleave) (of_succeeds hleave)

theorem likelyBranch (t : Test) (links : Bool) (target next : UInt32) :
    Yields [] pc (SlotFails pc) (Lower.likelyBranch t links target next : Lower β Unit) := by
  refine after (.writeCompare t) fun _ => after .flushAll fun _ => optional (.emit _) <|
    after .freshLabel fun l => after (.append _) fun _ => ?_
  intro s t ht hpc
  rw [exec_get_bind, exec_bind_of_ok (exec_attempt ..)]
  -- The way around the delay slot goes on from the cache as it was before it.
  rcases exec_delaySlot (s := s) ht with ⟨u, hslot, hu, hopen, hreads⟩ | ⟨e, u, hslot, hfails⟩
  · have haround (kept : List GuestIndex) : Succeeds (β := β) kept (do
        Lower.updateRegisters fun _ => t.registers
        Lower.append [.bind l]
        Lower.writeExitCharging next t.cycles
        return ()) [] :=
      (Succeeds.updateRegisters fun _ _ => ht).bind fun _ => (Succeeds.append _).bind fun _ =>
        (Succeeds.writeExitCharging _ _).bind fun _ => .pure _
    rw [hslot]
    dsimp only
    rw [if_pos rfl, exec_get_bind]
    have hrest : Succeeds (β := β) [] (if !u.cancelled then do
        Lower.flushAll
        Lower.writeExit target
        Lower.updateRegisters fun _ => t.registers
        Lower.append [.bind l]
        Lower.writeExitCharging next t.cycles
        return ()
      else do
        Lower.updateRegisters fun _ => t.registers
        Lower.append [.bind l]
        Lower.writeExitCharging next t.cycles
        return ()) [] :=
      .ite (Succeeds.flushAll.bind fun _ => (Succeeds.writeExit _).bind fun _ => haround [])
        (haround [])
    obtain ⟨⟨⟩, v, hexec, -, honward⟩ := hrest s u hu
    exact .inl ⟨v, hexec, hopen ∘ honward.isOpen, honward.bus ▸ hreads⟩
  · rw [hslot]
    dsimp only
    rw [if_neg (by decide), exec_bind_of_ok (exec_updateRegisters ..),
      exec_bind_of_ok (exec_append ..)]
    obtain ⟨⟨⟩, v, hexec, -⟩ := Succeeds.writeExitCharging next t.cycles s
      { u with registers := t.registers, code := u.code ++ [Item.bind l] } ht
    rw [exec_bind_of_ok hexec]
    exact .inr ⟨e, v, rfl, hpc ▸ hfails⟩

theorem savedBranch (t : Test) (links : Bool) (target next : UInt32) :
    Yields [] pc (SlotFails pc) (Lower.savedBranch t links target next : Lower β Unit) :=
  after (.writeCompare t) fun _ => after (.emit _) fun _ => after .release fun _ =>
    optional (.setImmediate _ _) <| afterDelaySlot <| Succeeds.flushAll.bind fun _ =>
      (Succeeds.emit _).bind fun _ => .writeBranchExits _ _ _

theorem lateBranch (t : Test) (links : Bool) (target next : UInt32) :
    Yields [] pc (SlotFails pc) (Lower.lateBranch t links target next : Lower β Unit) := by
  unfold Lower.lateBranch
  exact optional (.setImmediate _ _) <| afterDelaySlot <| (Succeeds.writeCompare t).bind fun _ =>
    Succeeds.flushAll.bind fun _ => .writeBranchExits _ _ _

theorem undecidedBranch (i : Instruction) (t : Test) (links : Bool) (target next : UInt32) :
    Yields [] pc (SlotFailsTwice pc) (if i.mnemonic.discardsDelaySlot then
        Lower.likelyBranch t links target next
      else Lower.decode (pc + 4) >>= fun slot =>
        if (slot.outputRegister?.any fun reg => t.reads (guestOperand reg)) ||
            (links && t.reads linkRegister) then Lower.savedBranch t links target next
        else Lower.lateBranch t links target next : Lower β Unit) :=
  ite (likelyBranch _ _ _ _).slotFailsTwice (decode_bind fun _ =>
    ite (savedBranch _ _ _ _) (lateBranch _ _ _ _))

end Yields

namespace Closes

variable {pc : UInt32} {fails : β → CompileError → Prop} {kept : List GuestIndex} {α : Type}

theorem after {x : Lower β α} {f : α → Lower β Unit} (hx : Succeeds [] x [])
    (hf : ∀ r, Closes pc fails (f r)) : Closes pc fails (x >>= f) := by
  intro s t ht hpc
  obtain ⟨r, u, hexec, hu, honward⟩ := hx s t ht
  rw [exec_bind_of_ok hexec]
  exact honward.bus ▸ hf r s u hu (honward.pc.trans hpc)

theorem mono {fails' : β → CompileError → Prop} {x : Lower β Unit} (hx : Closes pc fails x)
    (h : ∀ bus e, fails bus e → fails' bus e) : Closes pc fails' x := by
  intro s t ht hpc
  rcases hx s t ht hpc with hok | ⟨e, u, hu, hfails⟩
  · exact .inl hok
  · exact .inr ⟨e, u, hu, h _ _ hfails⟩

theorem currentPc_bind {k : UInt32 → Lower β Unit} (h : Closes pc fails (k pc)) :
    Closes pc fails (currentPc >>= k) := by
  rintro s t ht rfl
  exact h s t ht rfl

theorem close_bind {k : Unit → Lower β Unit} (hk : Yields [] pc fails (k ())) :
    Closes pc fails (close >>= k) := by
  intro s t ht hpc
  rw [close, exec_bind_of_ok (exec_modify ..)]
  rcases hk s { t with isOpen := false } ht hpc with ⟨u, hexec, hopen, hreads⟩ | hfails
  · exact .inl ⟨u, hexec, Bool.eq_false_iff.2 fun h => Bool.noConfusion (hopen h), hreads⟩
  · exact .inr hfails

theorem then_close {x : Lower β Unit} (hx : Succeeds [] x kept) :
    Closes pc fails (x >>= fun _ => close) := by
  intro s t ht _
  obtain ⟨⟨⟩, u, hexec, -, honward⟩ := hx s t ht
  rw [exec_bind_of_ok hexec]
  exact .inl ⟨_, rfl, rfl, honward.bus ▸ .refl⟩

theorem branch (i : Instruction) (t : Test) (target : UInt32) :
    Closes pc (SlotFailsTwice pc) (Lower.branch i t target : Lower β Unit) := by
  refine currentPc_bind (close_bind (.after (.immediate? _) fun lhs? => ?_))
  cases t.rt with
  | none =>
    refine .after (.pure _) fun rhs? => ?_
    dsimp only
    split
    · exact .slotFailsTwice (.decidedBranch _ _ _ _ _)
    · exact .undecidedBranch i t _ target _
  | some rt =>
    refine .after (.immediate? _) fun rhs? => ?_
    dsimp only
    split
    · exact .slotFailsTwice (.decidedBranch _ _ _ _ _)
    · exact .undecidedBranch i t _ target _

theorem jump (links : Bool) (target : UInt32) :
    Closes pc (SlotFailsTwice pc) (Lower.jump links target : Lower β Unit) :=
  currentPc_bind <| close_bind <| .optional (.setImmediate _ _) <| .slotFailsTwice <|
    .afterDelaySlot <| Succeeds.flushAll.bind fun _ => .writeExit _

theorem registerJump (rs rd : GuestIndex) :
    Closes pc (SlotFailsTwice pc) (Lower.registerJump rs rd : Lower β Unit) := by
  refine currentPc_bind (close_bind (.after (.immediate? _) fun target? => ?_))
  cases target? with
  | some target =>
    exact .slotFailsTwice <| .after (.setImmediate _ _) fun _ => .afterDelaySlot <|
      Succeeds.flushAll.bind fun _ => .writeExit _
  | none =>
    refine .decode_bind fun slot => .ite ?_ ?_
    · exact .after (.map (by simp) rs .read) fun src => .after (.emit _) fun _ =>
        .after (.setImmediate _ _) fun _ => .afterDelaySlot <| Succeeds.flushAll.bind fun _ =>
          (Succeeds.emit _).bind fun _ => .writeRegisterExit _
    · exact .after (.setImmediate _ _) fun _ => .afterDelaySlot <|
        (Succeeds.map (by simp) rs .read).bind fun src => Succeeds.flushAll.bind fun _ =>
          .writeRegisterExit _

theorem systemCall {i : Instruction} (hm : i.mnemonic = .syscall) :
    Closes pc fails (Lower.systemCall i : Lower β Unit) :=
  after .followingPc fun _ => after (.interpretCall (by rw [hm]; rfl) _) fun _ =>
    then_close .writeCheckedExit

theorem trap : Closes pc fails (Lower.trap : Lower β Unit) :=
  after .followingPc fun _ => after .flushAll fun _ => after (.emit _) fun _ =>
    after (.emit _) fun _ => then_close .writeCheckedExit

end Closes

/-! ## Any instruction -/

section Instruction

variable {s : Surroundings} {t : Lowering β} {i : Instruction} {bus : β}
  {body : Instruction → Lower β Unit}

theorem exec_instructionWith_of_succeeds (ht : t.registers.Locks [])
    (hread : Bus.instructionAt t.pc t.bus = (.ok i, bus))
    (hbody : Succeeds [] (body i) (List.finRange 32)) :
    ∃ u, exec (instructionWith body) s t = (.ok (), u) ∧ u.registers.Locks [] ∧ u.bus = bus ∧
      u.pc = t.pc := by
  obtain ⟨⟨⟩, u, hexec, hu, honward⟩ := hbody s (t.reading bus i) (ht.setPc t.pc)
  rw [exec_instructionWith hread, hexec]
  exact ⟨_, rfl, hu.release, honward.bus, honward.pc⟩

theorem exec_instructionWith_of_closes (fails : β → CompileError → Prop)
    (ht : t.registers.Locks []) (hread : Bus.instructionAt t.pc t.bus = (.ok i, bus))
    (hbody : Closes t.pc fails (body i)) :
    (∃ u, exec (instructionWith body) s t = (.ok (), u) ∧ u.isOpen = false ∧
      Bus.ReadsTo bus u.bus) ∨
    ∃ e u, exec (instructionWith body) s t = (.error (.compile e), u) ∧ fails bus e := by
  rw [exec_instructionWith hread]
  rcases hbody s (t.reading bus i) (ht.setPc t.pc) rfl with
    ⟨u, hexec, hclosed, hreads⟩ | ⟨e, u, hexec, hfails⟩
  · rw [hexec]
    exact .inl ⟨_, rfl, hclosed, hreads⟩
  · rw [hexec]
    exact .inr ⟨e, u, rfl, hfails⟩

/-- An instruction that does not end the block is lowered. -/
theorem exec_instruction_of_straight (ht : t.registers.Locks [])
    (hread : Bus.instructionAt t.pc t.bus = (.ok i, bus)) (hends : i.mnemonic.endsBlock = false) :
    ∃ u, exec instruction s t = (.ok (), u) ∧ u.registers.Locks [] ∧ u.bus = bus ∧ u.pc = t.pc := by
  refine exec_instructionWith_of_succeeds ht hread (Succeeds.currentPc.bind fun pc => ?_)
  dsimp only
  split
  iterate 6
    · next hm =>
      rw [hm] at hends
      cases hends
  split
  iterate 2
    · next hbranch =>
      rw [Concludes.endsBlock_of_ofBranch? hbranch] at hends
      cases hends
  · exact .straight (Bus.mem_table_of_instructionAt hread) hends

/-- Lowering an instruction that ends the block closes it, unless the delay slot cannot be read. -/
theorem exec_instruction_of_endsBlock (ht : t.registers.Locks [])
    (hread : Bus.instructionAt t.pc t.bus = (.ok i, bus)) (hends : i.mnemonic.endsBlock = true) :
    (∃ u, exec instruction s t = (.ok (), u) ∧ u.isOpen = false ∧ Bus.ReadsTo bus u.bus) ∨
      ∃ e u, exec instruction s t = (.error (.compile e), u) ∧
        i.mnemonic.hasDelaySlot = true ∧ SlotFailsTwice t.pc bus e := by
  have hi := Bus.mem_table_of_instructionAt hread
  let fails (bus : β) (e : CompileError) : Prop :=
    i.mnemonic.hasDelaySlot = true ∧ SlotFailsTwice t.pc bus e
  have hdelays {x : Lower β Unit} (hx : Closes t.pc (SlotFailsTwice t.pc) x)
      (hdelay : i.mnemonic.hasDelaySlot = true) : Closes t.pc fails x :=
    hx.mono fun _ _ h => ⟨hdelay, h⟩
  refine exec_instructionWith_of_closes fails ht hread (.currentPc_bind ?_)
  dsimp only
  -- One case for each way to end a block. All but system calls and traps have a delay slot.
  split
  · next hm => exact .systemCall hm
  · exact .trap
  · next hm => exact hdelays (.jump _ _) (by rw [hm]; rfl)
  · next hm => exact hdelays (.jump _ _) (by rw [hm]; rfl)
  · next hm =>
    exact hdelays (.after (.operand hi (by rw [hm]; decide)) fun _ => .registerJump _ _)
      (by rw [hm]; rfl)
  · next hm =>
    exact hdelays (.after (.operand hi (by rw [hm]; decide)) fun _ =>
      .after (.operand hi (by rw [hm]; decide)) fun _ => .registerJump _ _) (by rw [hm]; rfl)
  · split
    · next hbranch =>
      have hreads := Mnemonic.operandsRead_of_ofBranch? hbranch
      exact hdelays (.after (.operand hi (by simp [hreads])) fun _ =>
        .after (.operand hi (by simp [hreads])) fun _ => .branch _ _ _)
        (Mnemonic.hasDelaySlot_of_ofBranch? hbranch)
    · next hbranch =>
      have hreads := Mnemonic.operandsRead_of_ofBranch? hbranch
      exact hdelays (.after (.operand hi (by simp [hreads])) fun _ => .branch _ _ _)
        (Mnemonic.hasDelaySlot_of_ofBranch? hbranch)
    · next hsyscall htrap hj hjal hjr hjalr _ hbranch =>
      -- No other mnemonic ends a block.
      exfalso
      revert hends hsyscall htrap hj hjal hjr hjalr hbranch
      cases i.mnemonic <;> simp [Condition.ofBranch?, Mnemonic.endsBlock, Mnemonic.isBranch,
        Mnemonic.isJump]

end Instruction

end Lower

/-! ## Blocks -/

/-- Among `limit` instructions from `pc` on, or in the delay slot of the last one, there is a word
that is no instruction or cannot be read, as `e` tells. The words are read one after the other up to
the end of the block. That in the delay slot of a branch may be read twice. -/
inductive Bus.Breaks [Bus β] (e : CompileError) : (limit : Nat) → (pc : UInt32) → β → Prop
  | here {limit : Nat} {pc : UInt32} {bus : β} (h : (instructionAt pc bus).1 = .error e) :
    Breaks e (limit + 1) pc bus
  | later {limit : Nat} {pc : UInt32} {bus bus' : β} {i : Instruction}
      (hread : instructionAt pc bus = (.ok i, bus')) (hends : i.mnemonic.endsBlock = false)
      (rest : Breaks e limit (pc + 4) bus') : Breaks e (limit + 1) pc bus
  | slot {limit : Nat} {pc : UInt32} {bus bus' : β} {i : Instruction}
      (hread : instructionAt pc bus = (.ok i, bus')) (hdelay : i.mnemonic.hasDelaySlot = true)
      (h : Lower.SlotFailsTwice pc bus' e) : Breaks e (limit + 1) pc bus

/-- A block is lowered unless one of its words is no instruction. -/
theorem Lower.exec_body [Bus β] {s : Surroundings} (start : UInt32) (limit : Nat) {t : Lowering β}
    (ht : t.registers.Locks []) :
    (∃ u, exec (body start limit) s t = (.ok (), u) ∧ Bus.ReadsTo t.bus u.bus) ∨
      ∃ e u, exec (body start limit) s t = (.error (.compile e), u) ∧
        Bus.Breaks e limit t.pc t.bus := by
  -- By the number of instructions that may follow: the next one is unreadable, plain, or the last.
  induction limit generalizing t with
  | zero =>
    have hlimit : Succeeds (β := β) [] (body start 0) [] :=
      (Succeeds.report _).bind fun _ => Succeeds.flushAll.bind fun _ =>
        Succeeds.currentPc.bind fun _ => .writeExit _
    obtain ⟨⟨⟩, u, hexec, -, honward⟩ := hlimit s t ht
    exact .inl ⟨u, hexec, honward.bus ▸ .refl⟩
  | succ limit ih =>
    rw [body]
    have hahead := Bus.readsTo_instructionAt t.pc t.bus
    rcases hread : Bus.instructionAt t.pc t.bus with ⟨e | i, bus⟩
    · obtain ⟨u, hu⟩ := exec_instructionWith_of_unreadable _ s (t := t) (by rw [hread])
      rw [exec_bind, instruction, hu]
      exact .inr ⟨e, u, rfl, .here (by rw [hread])⟩
    rw [hread] at hahead
    cases hends : i.mnemonic.endsBlock with
    | false =>
      obtain ⟨u, hexec, hu, hbus, hpc⟩ := exec_instruction_of_straight (s := s) ht hread hends
      rw [exec_bind_of_ok hexec, exec_bind_of_ok (exec_modify ..), exec_get_bind]
      split
      · rcases ih (t := { u with pc := u.pc + 4 }) hu with ⟨v, hv, hreads⟩ | ⟨e, v, hv, hbreaks⟩
        · exact .inl ⟨v, hv, hahead.trans (hbus ▸ hreads)⟩
        · exact .inr ⟨e, v, hv, .later hread hends (hbus ▸ hpc ▸ hbreaks)⟩
      · exact .inl ⟨_, rfl, hbus ▸ hahead⟩
    | true =>
      rcases exec_instruction_of_endsBlock (s := s) ht hread hends with
        ⟨u, hexec, hclosed, hreads⟩ | ⟨e, u, hexec, hdelay, hfails⟩
      · rw [exec_bind_of_ok hexec, exec_bind_of_ok (exec_modify ..), exec_get_bind,
          if_neg (by rw [hclosed]; decide)]
        exact .inl ⟨_, rfl, hahead.trans hreads⟩
      · rw [exec_bind, hexec]
        exact .inr ⟨e, u, rfl, .slot hread hdelay hfails⟩

end Recompiler
