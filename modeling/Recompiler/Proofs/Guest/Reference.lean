import Recompiler.Proofs.Block.Course
import Recompiler.Proofs.Block.Unread

/-!
# A reference machine

The guest without generated code: one instruction after the other, a transfer of control together with
the instruction in its delay slot. The program counter is the address of the instruction that comes
next.

* `Environment.Agrees`: guests that differ in words of generated code only.
* `Guest.Step`, `Guest.Run`: the steps of the machine, with their calls and cycles.
* `Guest.Refuses`: where the machine stops.
* `Course.run`: blocks do what the machine does.
-/

namespace Recompiler

variable {β : Type}

/-! ## Guests -/

namespace Environment

/-- The guests differ at most in the words that belong to generated code, the budget and the scratch
word of branches, and in the events reported so far. -/
structure Agrees (e e' : Environment β) : Prop where
  words : ∀ slot, slot ≠ Slot.downcount → slot ≠ Slot.branchTemp →
    e'.state.get slot = e.state.get slot
  bus : e'.bus = e.bus

namespace Agrees

variable {e e' e'' : Environment β}

theorem refl (e : Environment β) : e.Agrees e :=
  ⟨fun _ _ _ => rfl, rfl⟩

theorem trans (h : e.Agrees e') (h' : e'.Agrees e'') : e.Agrees e'' :=
  ⟨fun slot hbudget htemp => (h'.words slot hbudget htemp).trans (h.words slot hbudget htemp),
    h'.bus.trans h.bus⟩

theorem symm (h : e.Agrees e') : e'.Agrees e :=
  ⟨fun slot hbudget htemp => (h.words slot hbudget htemp).symm, h.bus.symm⟩

theorem setWord (e : Environment β) {slot : Nat} (hslot : slot = Slot.downcount ∨ slot = Slot.branchTemp)
    (value : UInt32) : e.Agrees (e.setWord slot value) where
  words other hbudget htemp := by
    refine State.get_set_of_ne _ ?_ _
    rintro rfl
    exact hslot.elim hbudget htemp
  bus := rfl

theorem keep (e : Environment β) (value? : Option UInt32) : e.Agrees (e.keep value?) := by
  cases value? with
  | none => exact .refl e
  | some value => exact .setWord e (.inr rfl) value

/-- A word that is written in both guests. -/
theorem setWord_both (h : e.Agrees e') (slot : Nat) (value : UInt32) :
    (e.setWord slot value).Agrees (e'.setWord slot value) where
  words other hbudget htemp := by
    by_cases hslot : slot = other
    · subst hslot
      simp [Environment.setWord, State.get, State.set, Vector.getElem?_setIfInBounds]
    · exact (State.get_set_of_ne _ hslot value).trans
        ((h.words other hbudget htemp).trans (State.get_set_of_ne _ hslot value).symm)
  bus := h.bus

theorem pc (h : e.Agrees e') : e'.state.pc = e.state.pc :=
  h.words Slot.pc (by decide) (by decide)

end Agrees

@[simp] theorem setWord_setWord (e : Environment β) (slot : Nat) (v w : UInt32) :
    (e.setWord slot v).setWord slot w = e.setWord slot w := by
  refine congrArg (Environment.mk · e.bus e.events) (congrArg State.mk (Vector.ext fun k hk => ?_))
  simp only [setWord, State.set, Vector.getElem_setIfInBounds]
  split <;> rfl

/-- Writing the value that a word has changes nothing. -/
theorem setWord_get (e : Environment β) (slot : Nat) : e.setWord slot (e.state.get slot) = e := by
  refine congrArg (Environment.mk · e.bus e.events) (congrArg State.mk (Vector.ext fun k hk => ?_))
  rw [Vector.getElem_setIfInBounds, State.get]
  split
  · next h =>
    subst h
    rw [Vector.getElem?_eq_getElem hk]
    rfl
  · rfl

end Environment

/-! ## Steps -/

namespace Guest

/-- What instructions that go on do to the guest. -/
abbrev Effect (β : Type) := Instruction → UInt32 → Environment β → Environment β → Prop

section Step

variable [Bus β] (fetch : β → UInt32 → Instruction → Prop) (act : Effect β)

/-- One step of the guest, with the calls that generated code makes for it and its cycles. -/
inductive Step : Environment β → List (Call β) → Nat → Environment β → Prop
  | straight {e e' : Environment β} {pc : UInt32} {i : Instruction} (hpc : e.state.pc = pc)
      (hi : fetch e.bus pc i) (hends : i.mnemonic.endsBlock = false)
      (hrefused : i.mnemonic.isRefused = false) (hact : act i pc e e') :
    Step e (i.calls pc e) i.mnemonic.cycles.toNat (e'.setWord Slot.pc (pc + 4))
  /-- The handler finds the address of the instruction behind the system call, and may change it. -/
  | syscall {e : Environment β} {pc : UInt32} {i : Instruction} (hpc : e.state.pc = pc)
      (hi : fetch e.bus pc i) (hm : i.mnemonic = .syscall) :
    Step e [⟨i.word, e.setWord Slot.pc (pc + 4)⟩] i.mnemonic.cycles.toNat
      (i.interpret (e.setWord Slot.pc (pc + 4)))
  | trap {e : Environment β} {pc : UInt32} {i : Instruction} (hpc : e.state.pc = pc)
      (hi : fetch e.bus pc i) (hm : i.mnemonic = .breakpoint) :
    Step e [] i.mnemonic.cycles.toNat ((i.interpret e).setWord Slot.pc (pc + 4))
  /-- A transfer of control with its delay slot. -/
  | transfer {e e' : Environment β} {pc : UInt32} {i j : Instruction} (hpc : e.state.pc = pc)
      (hi : fetch e.bus pc i) (hj : fetch e.bus (pc + 4) j) (hdelays : i.mnemonic.hasDelaySlot = true)
      (hends : j.mnemonic.endsBlock = false) (hrefused : j.mnemonic.isRefused = false)
      (hannuls : i.annuls e = false) (hact : act j (pc + 4) (i.link pc e) e') :
    Step e (j.calls (pc + 4) (i.link pc e)) (i.mnemonic.cycles.toNat + j.mnemonic.cycles.toNat)
      (e'.setWord Slot.pc (i.destination pc e))
  /-- A likely branch that is not taken. -/
  | annulled {e : Environment β} {pc : UInt32} {i : Instruction} (hpc : e.state.pc = pc)
      (hi : fetch e.bus pc i) (hdelays : i.mnemonic.hasDelaySlot = true)
      (hannuls : i.annuls e = true) :
    Step e [] i.mnemonic.cycles.toNat ((i.link pc e).setWord Slot.pc (pc + 8))

/-- A number of steps. Between them the words that belong to generated code may change. -/
inductive Run : Environment β → List (Call β) → Nat → Environment β → Prop
  | refl {e e' : Environment β} (h : e.Agrees e') : Run e [] 0 e'
  | step {e e₁ e₂ e' : Environment β} {cs cs' : List (Call β)} {c c' : Nat} (h : e.Agrees e₁)
      (hstep : Step fetch act e₁ cs c e₂) (hrest : Run e₂ cs' c' e') : Run e (cs ++ cs') (c + c') e'

/-- The guest stops at an instruction that is refused, as such or in a delay slot. -/
inductive Refuses : Environment β → Environment β → Prop
  | here {e : Environment β} {pc : UInt32} {i : Instruction} (hpc : e.state.pc = pc)
      (hi : fetch e.bus pc i) (hrefused : i.mnemonic.isRefused = true) : Refuses e e
  | slot {e : Environment β} {pc : UInt32} {i j : Instruction} (hpc : e.state.pc = pc)
      (hi : fetch e.bus pc i) (hj : fetch e.bus (pc + 4) j) (hdelays : i.mnemonic.hasDelaySlot = true)
      (hannuls : i.annuls e = false)
      (hrefused : j.mnemonic.endsBlock = true ∨ j.mnemonic.isRefused = true) :
    Refuses e ((i.link pc e).setWord Slot.pc (pc + 4))

end Step

section Refetch

variable [Bus β] {fetch fetch' : β → UInt32 → Instruction → Prop} {act : Effect β}
  {e e' : Environment β}
  (hhere : ∀ i, fetch e.bus e.state.pc i → fetch' e.bus e.state.pc i)
  (hslot : ∀ i j, fetch e.bus e.state.pc i → i.mnemonic.hasDelaySlot = true → i.annuls e = false →
    fetch e.bus (e.state.pc + 4) j → fetch' e.bus (e.state.pc + 4) j)

include hhere hslot

/-- A step fetches the instruction at the program counter, and the one behind it if that is a delay
slot which is to run. -/
theorem Step.refetch {cs : List (Call β)} {c : Nat} (h : Step fetch act e cs c e') :
    Step fetch' act e cs c e' := by
  cases h with
  | straight hpc hi hends hrefused hact =>
    subst hpc
    exact .straight rfl (hhere _ hi) hends hrefused hact
  | syscall hpc hi hm =>
    subst hpc
    exact .syscall rfl (hhere _ hi) hm
  | trap hpc hi hm =>
    subst hpc
    exact .trap rfl (hhere _ hi) hm
  | transfer hpc hi hj hdelays hends hrefused hannuls hact =>
    subst hpc
    exact .transfer rfl (hhere _ hi) (hslot _ _ hi hdelays hannuls hj) hdelays hends hrefused hannuls
      hact
  | annulled hpc hi hdelays hannuls =>
    subst hpc
    exact .annulled rfl (hhere _ hi) hdelays hannuls

omit [Bus β] in
theorem Refuses.refetch (h : Refuses fetch e e') : Refuses fetch' e e' := by
  cases h with
  | here hpc hi hrefused =>
    subst hpc
    exact .here rfl (hhere _ hi) hrefused
  | slot hpc hi hj hdelays hannuls hrefused =>
    subst hpc
    exact .slot rfl (hhere _ hi) (hslot _ _ hi hdelays hannuls hj) hdelays hannuls hrefused

end Refetch

/-- Every step takes some cycles. -/
theorem Step.pos [Bus β] {fetch : β → UInt32 → Instruction → Prop} {act : Effect β}
    {e e' : Environment β} {cs : List (Call β)} {c : Nat} (h : Step fetch act e cs c e') : 0 < c := by
  have hone (i : Instruction) : 0 < i.mnemonic.cycles.toNat := i.mnemonic.cycles_bounds.1
  cases h with
  | straight | syscall | trap | annulled => exact hone _
  | transfer => exact Nat.add_pos_left (hone _) _

namespace Run

variable [Bus β] {fetch fetch' : β → UInt32 → Instruction → Prop} {act : Effect β}
  {e e₁ e₂ e' : Environment β} {cs cs' : List (Call β)} {c c' : Nat}

theorem of_agrees (h : e.Agrees e₁) (hrun : Run fetch act e₁ cs c e') : Run fetch act e cs c e' := by
  cases hrun with
  | refl h' => exact .refl (h.trans h')
  | step h' hstep hrest => exact .step (h.trans h') hstep hrest

theorem one (h : e.Agrees e₁) (hstep : Step fetch act e₁ cs c e') : Run fetch act e cs c e' := by
  have hrun := step h hstep (refl (.refl e'))
  rwa [List.append_nil] at hrun

theorem trans (h : Run fetch act e cs c e₁) (h' : Run fetch act e₁ cs' c' e') :
    Run fetch act e (cs ++ cs') (c + c') e' := by
  induction h with
  | refl h =>
    rw [Nat.zero_add]
    exact of_agrees h h'
  | step h hstep _ ih =>
    rw [List.append_assoc, Nat.add_assoc]
    exact .step h hstep (ih h')

/-- More instructions may be fetched. -/
theorem mono (h : Run fetch act e cs c e') (hfetch : ∀ b pc i, fetch b pc i → fetch' b pc i) :
    Run fetch' act e cs c e' := by
  induction h with
  | refl h => exact .refl h
  | step h hstep _ ih =>
    exact .step h (hstep.refetch (fun i hi => hfetch _ _ i hi) fun _ j _ _ _ hj => hfetch _ _ j hj) ih

end Run

theorem Refuses.mono [Bus β] {fetch fetch' : β → UInt32 → Instruction → Prop} {e e' : Environment β}
    (h : Refuses fetch e e') (hfetch : ∀ b pc i, fetch b pc i → fetch' b pc i) :
    Refuses fetch' e e' :=
  h.refetch (fun i hi => hfetch _ _ i hi) fun _ j _ _ _ hj => hfetch _ _ j hj

end Guest

/-! ## Blocks -/

section Block

variable [Bus β] {o : Options} {regions : List FastRegion} {e : Environment β} {i : Instruction}
  {pc : UInt32}

/-- What the code for an instruction does, whether or not its address is known to the lowering. -/
def performs (o : Options) (regions : List FastRegion) : Guest.Effect β :=
  fun i pc e e' => ∃ known, e' = i.perform o regions known pc e

omit [Bus β] in
@[simp] theorem Environment.pc_setWord (e : Environment β) (pc : UInt32) :
    (e.setWord Slot.pc pc).state.pc = pc :=
  State.get_set_self _ (by decide) pc

omit [Bus β] in
theorem Instruction.calls_setWord (pc v : UInt32) :
    i.calls pc (e.setWord Slot.pc v) = i.calls pc e := by
  rw [calls, calls, Environment.setWord_setWord]

/-- Only interpreted instructions see the program counter, which they find written. -/
theorem Instruction.perform_setPc {known : Bool} (hi : i.entry ∈ Entry.table)
    (hends : i.mnemonic.endsBlock = false) (v w : UInt32) :
    (i.perform o regions known pc (e.setWord Slot.pc v)).setWord Slot.pc w =
      (i.perform o regions known pc e).setWord Slot.pc w := by
  have hslot : Slot.Reserved Slot.pc := by decide
  unfold perform
  split
  · rw [effectiveAddress_setWord hi hslot]
    split
    · exact e.setWord_setWord _ _ _
    · rw [MemoryOp.effect_setWord _ _ _ (ne_registerOf hi hslot rfl), Environment.setWord_setWord]
  · split
    · rw [interpret_setWord hi hslot hends, Environment.setWord_setWord]
    · rw [Environment.setWord_setWord]

omit [Bus β] in
theorem Instruction.annuls_setWord {slot : Nat} (hi : i.entry ∈ Entry.table)
    (hslot : Slot.Reserved slot) (v : UInt32) : i.annuls (e.setWord slot v) = i.annuls e := by
  rw [annuls, annuls, isTaken_setWord hi hslot]

omit [Bus β] in
theorem Instruction.annuls_keep (hi : i.entry ∈ Entry.table) (kept : Option UInt32) :
    i.annuls (e.keep kept) = i.annuls e := by
  cases kept with
  | none => rfl
  | some value => exact annuls_setWord hi (by decide) value

omit [Bus β] in
theorem Instruction.destination_keep (hi : i.entry ∈ Entry.table) (kept : Option UInt32) :
    i.destination pc (e.keep kept) = i.destination pc e := by
  cases kept with
  | none => rfl
  | some value => exact destination_setWord hi (by decide) pc

/-! ### Steps from a known address -/

namespace Guest

variable {reads : UInt32 → Instruction → Prop} {j : Instruction}

theorem Step.straight_at (hi : reads pc i) (hentry : i.entry ∈ Entry.table)
    (hends : i.mnemonic.endsBlock = false) (hrefused : i.mnemonic.isRefused = false) (known : Bool) :
    Step (fun _ => reads) (performs o regions) (e.setWord Slot.pc pc) (i.calls pc e)
      i.mnemonic.cycles.toNat ((i.perform o regions known pc e).setWord Slot.pc (pc + 4)) := by
  have hstep : Step (fun _ => reads) (performs o regions) (e.setWord Slot.pc pc) _ _ _ :=
    .straight (e.pc_setWord pc) hi hends hrefused ⟨known, rfl⟩
  rwa [Instruction.calls_setWord, Instruction.perform_setPc hentry hends] at hstep

theorem Step.syscall_at {act : Effect β} (hi : reads pc i) (hm : i.mnemonic = .syscall) :
    Step (fun _ => reads) act (e.setWord Slot.pc pc) [⟨i.word, e.setWord Slot.pc (pc + 4)⟩]
      i.mnemonic.cycles.toNat (i.interpret (e.setWord Slot.pc (pc + 4))) := by
  have hstep : Step (fun _ => reads) act (e.setWord Slot.pc pc) _ _ _ :=
    .syscall (e.pc_setWord pc) hi hm
  rwa [Environment.setWord_setWord] at hstep

theorem Step.trap_at {act : Effect β} (hi : reads pc i) (hm : i.mnemonic = .breakpoint) :
    Step (fun _ => reads) act (e.setWord Slot.pc pc) [] i.mnemonic.cycles.toNat
      ((i.interpret e).setWord Slot.pc (pc + 4)) := by
  have hstep : Step (fun _ => reads) act (e.setWord Slot.pc pc) _ _ _ :=
    .trap (e.pc_setWord pc) hi hm
  -- A trap writes a word other than the program counter.
  have hinterpret : i.interpret (e.setWord Slot.pc pc) = (i.interpret e).setWord Slot.pc pc := by
    rw [Instruction.interpret, Instruction.interpret, hm]
    exact Environment.setWord_comm (by decide) pc _
  rwa [hinterpret, Environment.setWord_setWord] at hstep

omit [Bus β] in
theorem annuls_at (hentry : i.entry ∈ Entry.table) (pc : UInt32) (kept : Option UInt32) :
    i.annuls ((e.keep kept).setWord Slot.pc pc) = i.annuls e := by
  rw [Instruction.annuls_setWord hentry (by decide), Instruction.annuls_keep hentry]

/-- Whether a branch is taken is decided before its delay slot. -/
theorem Step.transfer_at {kept : Option UInt32} (hi : reads pc i) (hj : reads (pc + 4) j)
    (hentry : i.entry ∈ Entry.table) (hentry' : j.entry ∈ Entry.table)
    (hdelays : i.mnemonic.hasDelaySlot = true) (hends : j.mnemonic.endsBlock = false)
    (hrefused : j.mnemonic.isRefused = false) (hannuls : i.annuls e = false) (known : Bool) :
    Step (fun _ => reads) (performs o regions) ((e.keep kept).setWord Slot.pc pc)
      (j.calls (pc + 4) (i.link pc (e.keep kept)))
      (i.mnemonic.cycles.toNat + j.mnemonic.cycles.toNat)
      ((j.perform o regions known (pc + 4) (i.link pc (e.keep kept))).setWord Slot.pc
        (i.destination pc e)) := by
  have hpc : Slot.Reserved Slot.pc := by decide
  have hstep : Step (fun _ => reads) (performs o regions) ((e.keep kept).setWord Slot.pc pc) _ _ _ :=
    .transfer (Environment.pc_setWord _ pc) hi hj hdelays hends hrefused
      ((annuls_at hentry pc kept).trans hannuls) ⟨known, rfl⟩
  rwa [Instruction.link_setWord hentry hpc, Instruction.calls_setWord,
    Instruction.perform_setPc hentry' hends, Instruction.destination_setWord hentry hpc,
    Instruction.destination_keep hentry] at hstep

theorem Step.annulled_at {act : Effect β} (hi : reads pc i) (hentry : i.entry ∈ Entry.table)
    (hdelays : i.mnemonic.hasDelaySlot = true) (hannuls : i.annuls e = true) :
    Step (fun _ => reads) act (e.setWord Slot.pc pc) [] i.mnemonic.cycles.toNat
      ((i.link pc e).setWord Slot.pc (pc + 8)) := by
  have hstep : Step (fun _ => reads) act (e.setWord Slot.pc pc) _ _ _ :=
    .annulled (e.pc_setWord pc) hi hdelays ((annuls_at hentry pc none).trans hannuls)
  rwa [Instruction.link_setWord hentry (by decide), Environment.setWord_setWord] at hstep

omit [Bus β] in
theorem Refuses.slot_at {kept : Option UInt32} (hi : reads pc i) (hj : reads (pc + 4) j)
    (hentry : i.entry ∈ Entry.table) (hdelays : i.mnemonic.hasDelaySlot = true)
    (hannuls : i.annuls e = false)
    (hrefused : j.mnemonic.endsBlock = true ∨ j.mnemonic.isRefused = true) :
    Refuses (fun _ => reads) ((e.keep kept).setWord Slot.pc pc)
      ((i.link pc (e.keep kept)).setWord Slot.pc (pc + 4)) := by
  have hrefuses : Refuses (fun _ => reads) ((e.keep kept).setWord Slot.pc pc) _ :=
    .slot (Environment.pc_setWord _ pc) hi hj hdelays ((annuls_at hentry pc kept).trans hannuls)
      hrefused
  rwa [Instruction.link_setWord hentry (by decide), Environment.setWord_setWord] at hrefuses

end Guest

/-- A delay slot, which may be read twice, reads as one instruction. -/
def DelaySlotsAgree (reads : UInt32 → Instruction → Prop) : Prop :=
  ∀ pc i j j', reads pc i → i.mnemonic.hasDelaySlot = true → reads (pc + 4) j →
    reads (pc + 4) j' → j = j'

namespace Course

variable {reads : UInt32 → Instruction → Prop} {limit : Nat} {cycles : UInt32}
  {d : Departure β}

/-- A block does a number of steps of the reference machine, with its calls. They cost no more than
its instructions may cost. Unless the block comes to an instruction that is refused, the guests then
agree, and the cycles of the steps were taken off the budget. -/
theorem run (h : Course o regions reads limit pc cycles e d)
    (htable : ∀ pc i, reads pc i → i.entry ∈ Entry.table)
    (hslots : DelaySlotsAgree reads) :
    ∃ c r, Guest.Run (fun _ => reads) (performs o regions) (e.setWord Slot.pc pc) d.calls c r ∧
      c ≤ 36 * (limit + 1) ∧ (d.way = .refused → Guest.Refuses (fun _ => reads) r d.env) ∧
      (d.way ≠ .refused → r.Agrees d.env ∧
        ((d.way = .checked → Bus.Respects β Slot.downcount) →
          d.Charged (e.state.get Slot.downcount) (cycles + c.toUInt32))) := by
  have hkept : Slot.Kept Slot.downcount := .inr (.inl rfl)
  have hcharge (e : Environment β) (amount : UInt32) : e.Agrees (e.charge amount) :=
    .setWord e (.inl rfl) _
  have hone (w : UInt32) : w.toNat.toUInt32 = w := UInt32.ofNat_toNat
  have hsum (w : UInt32) (c : Nat) : (w.toNat + c).toUInt32 = w + c.toUInt32 :=
    (UInt32.ofNat_add _ _).trans (congrArg (· + c.toUInt32) UInt32.ofNat_toNat)
  -- A block that ends at its limit has done no step, one that goes on has done one more than the
  -- rest of it, and every other end is one step.
  induction h with
  | limit pc cycles e =>
    refine ⟨0, _, .refl (.refl _), Nat.zero_le _, fun hway => (by cases hway),
      fun _ => ⟨(hcharge e cycles).setWord_both Slot.pc pc, fun _ => ?_⟩⟩
    rw [show cycles + (0 : Nat).toUInt32 = cycles from UInt32.add_zero cycles]
    exact Departure.charged_exit pc cycles e
  | @straight limit pc cycles e d i known hi hends hrefused rest ih =>
    obtain ⟨c, r, hrun, hcost, hstops, hgoes⟩ := ih
    have hmost := i.mnemonic.cycles_bounds.2
    refine ⟨_, r, .step (.refl _) (.straight_at hi (htable _ _ hi) hends hrefused known) hrun,
      by omega, hstops, fun hway => ⟨(hgoes hway).1, fun hbus => ?_⟩⟩
    have hcharged := ((hgoes hway).2 hbus).after (i.calls pc e)
    rw [Instruction.get_perform_kept (htable _ _ hi) hkept hends] at hcharged
    rwa [hsum, ← UInt32.add_assoc]
  | @refused limit pc cycles e i hi hrefused =>
    refine ⟨0, _, .refl (.refl _), Nat.zero_le _, fun _ => .here (e.pc_setWord pc) hi hrefused,
      fun hway => ?_⟩
    exact absurd rfl hway
  | @syscall limit pc cycles e i hi hm =>
    have hmost := i.mnemonic.cycles_bounds.2
    refine ⟨_, _, .one (.refl _) (.syscall_at hi hm), by omega, fun hway => (by cases hway),
      fun _ => ⟨hcharge _ _, fun hbus => ?_⟩⟩
    rw [hone]
    exact charged_syscall hm (hbus rfl) ..
  | @trap limit pc cycles e i hi hm =>
    have hmost := i.mnemonic.cycles_bounds.2
    refine ⟨_, _, .one (.refl _) (.trap_at hi hm), by omega, fun hway => (by cases hway),
      fun _ => ⟨hcharge _ _, fun hbus => ?_⟩⟩
    rw [hone]
    exact charged_trap hm (hbus rfl) ..
  | @transfer limit pc cycles target e d i j kept known hi hj hdelays hends hrefused hannuls
      htarget hd =>
    have hagrees : (e.setWord Slot.pc pc).Agrees ((e.keep kept).setWord Slot.pc pc) :=
      (Environment.Agrees.keep e kept).setWord_both _ _
    have hstep : Guest.Step (fun _ => reads) (performs o regions)
        ((e.keep kept).setWord Slot.pc pc) _ _ _ :=
      .transfer_at hi hj (htable _ _ hi) (htable _ _ hj) hdelays hends hrefused hannuls known
    rw [← htarget fun j' hj' => hslots _ _ _ _ hi hdelays hj' hj] at hstep
    have hamount : cycles + (i.mnemonic.cycles.toNat + j.mnemonic.cycles.toNat).toUInt32 =
        cycles + i.mnemonic.cycles + j.mnemonic.cycles := by
      rw [hsum, hone, ← UInt32.add_assoc]
    have hcharged := charged_transfer (htable _ _ hi) (htable _ _ hj) hends rfl hd
    have hcalls (calls : List (Call β)) : (d.after calls).calls = calls := by
      rcases hd with rfl | rfl <;> exact List.append_nil calls
    rw [hcalls]
    have hmost := i.mnemonic.cycles_bounds.2
    have hmost' := j.mnemonic.cycles_bounds.2
    refine ⟨_, _, .one hagrees hstep, by omega, fun hway => ?_, fun _ => ⟨?_, fun _ => ?_⟩⟩
    · rcases hd with rfl | rfl <;> cases hway
    · rcases hd with rfl | rfl <;> exact (hcharge _ _).setWord_both _ _
    · rw [hamount]
      exact hcharged.after _
  | @annulled limit pc cycles e i hi hdelays hannuls =>
    have hmost := i.mnemonic.cycles_bounds.2
    refine ⟨_, _, .one (.refl _) (.annulled_at hi (htable _ _ hi) hdelays hannuls), by omega,
      fun hway => (by cases hway), fun _ => ⟨(hcharge _ _).setWord_both _ _, fun _ => ?_⟩⟩
    rw [hone]
    exact charged_annulled (htable _ _ hi) ..
  | @slotRefused limit pc cycles e i j kept hi hj hdelays hannuls hrefused =>
    have hagrees : (e.setWord Slot.pc pc).Agrees ((e.keep kept).setWord Slot.pc pc) :=
      (Environment.Agrees.keep e kept).setWord_both _ _
    exact ⟨0, _, .refl hagrees, Nat.zero_le _,
      fun _ => .slot_at hi hj (htable _ _ hi) hdelays hannuls hrefused, fun hway => absurd rfl hway⟩

end Course

end Block

end Recompiler
