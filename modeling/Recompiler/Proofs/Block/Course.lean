import Recompiler.Proofs.Block.Charted
import Recompiler.Proofs.Block.Departing

/-!
# What a block does to the guest

Where a run of guest instructions leads, told without the code that was made from them: one
instruction after the other, a transfer of control together with the instruction in its delay slot,
up to the way out of the block.

* `Mnemonic.isTakenWith`, `Instruction.destination`, `Instruction.link`: transfers of control.
* `Instruction.outcome?`, `Instruction.runsSlot`: what the lowering knows of them.
* `Course`: from an instruction to the way out of the block.
* `Course.exists_charged`: the cycles that are taken off the budget.
* `Course.keeps`, `Course.evolves`: what stays.
-/

namespace Recompiler

variable {β : Type}

/-! ## Transfers of control -/

/-- The branch is taken with these operands. A jump is taken in any case. -/
def Mnemonic.isTakenWith (m : Mnemonic) (rs rt : UInt32) : Bool :=
  match m with
  | .beq | .beql => rs = rt
  | .bne | .bnel => rs ≠ rt
  | .blez | .blezl => Word.toInt rs ≤ 0
  | .bgtz | .bgtzl => 0 < Word.toInt rs
  | .bltz | .bltzl | .bltzal | .bltzall => Word.toInt rs < 0
  | .bgez | .bgezl | .bgezal | .bgezall => 0 ≤ Word.toInt rs
  | _ => true

namespace Instruction

variable (i : Instruction) (pc : UInt32) (e : Environment β)

/-- The registers decide that the branch is taken. -/
def isTaken : Bool :=
  i.mnemonic.isTakenWith (e.register (i.registerOf .source)) (e.register (i.registerOf .target))

/-- Where a transfer of control at `pc` leads. -/
def destination : UInt32 :=
  if i.isTaken e then
    match i.mnemonic with
    | .jr | .jalr => e.register (i.registerOf .source)
    | _ => (i.staticTarget? pc).getD 0
  else pc + 8

/-- The delay slot of a likely branch that is not taken does not run. -/
def annuls : Bool :=
  i.mnemonic.discardsDelaySlot && !i.isTaken e

/-- The guest with the return address of a call written. -/
def link : Environment β :=
  if i.mnemonic = .jalr then e.setRegister (i.registerOf .destination) (pc + 8)
  else if i.mnemonic.links then e.setRegister Slot.ra (pc + 8)
  else e

end Instruction

/-- The guest with the scratch word of branches written, if it is needed. -/
def Environment.keep (e : Environment β) (value? : Option UInt32) : Environment β :=
  match value? with
  | some value => e.setWord Slot.branchTemp value
  | none => e

@[simp] theorem Instruction.bus_link (i : Instruction) (pc : UInt32) (e : Environment β) :
    (i.link pc e).bus = e.bus := by
  unfold link
  split
  · rfl
  · split <;> rfl

@[simp] theorem Environment.bus_keep (e : Environment β) (value? : Option UInt32) :
    (e.keep value?).bus = e.bus := by
  cases value? <;> rfl

/-! ### Outcomes that the lowering knows -/

/-- The branch compares two registers, not one with zero. -/
def Mnemonic.comparesRegisters : Mnemonic → Bool
  | .beq | .beql | .bne | .bnel => true
  | _ => false

theorem Mnemonic.comparesRegisters_of_ofBranch? {m : Mnemonic} {c : Condition} {two : Bool}
    (h : Condition.ofBranch? m = some (c, two)) : m.comparesRegisters = two := by
  cases m <;> cases h <;> rfl

/-- The condition that is lowered is that of the branch. -/
theorem Mnemonic.isTakenWith_of_ofBranch? {m : Mnemonic} {c : Condition} {two : Bool}
    (h : Condition.ofBranch? m = some (c, two)) (rs rt : UInt32) :
    m.isTakenWith rs rt = c.holds rs (if two then rt else 0) := by
  have hzero : Word.toInt 0 = 0 := rfl
  rw [Bool.eq_iff_iff]
  cases m <;> cases h <;> simp [isTakenWith, Condition.holds, Word.lessSigned_eq_decide, hzero]

namespace Instruction

/-- The guest register that an operand names. -/
def guest (i : Instruction) (op : Operand) : GuestIndex :=
  ⟨i.registerOf op % 32, Nat.mod_lt _ (by decide)⟩

section Known

variable (known : GuestIndex → Option UInt32) (i : Instruction)

/-- The outcome of a branch whose operands are known constants. -/
def outcome? : Option Bool :=
  match known (i.guest .source),
    if i.mnemonic.comparesRegisters then known (i.guest .target) else some 0 with
  | some rs, some rt => some (i.mnemonic.isTakenWith rs rt)
  | _, _ => none

/-- The block covers the delay slot of the instruction, which is left out where a likely branch is
known not to be taken. -/
def runsSlot : Bool :=
  i.mnemonic.hasDelaySlot &&
    !(i.mnemonic.isBranch && i.mnemonic.discardsDelaySlot && i.outcome? known == some false)

end Known

variable {known : GuestIndex → Option UInt32} {i : Instruction}

theorem guest_eq {op : Operand} {reg : GuestIndex} (h : i.registerOf op = reg.val) :
    i.guest op = reg := by
  refine Fin.ext ?_
  change i.registerOf op % 32 = reg.val
  rw [h, Nat.mod_eq_of_lt reg.isLt]

/-- The outcome that the lowering knows. -/
theorem outcome?_of_ofBranch? {c : Condition} {two : Bool}
    (h : Condition.ofBranch? i.mnemonic = some (c, two)) :
    i.outcome? known =
      match known (i.guest .source), if two then known (i.guest .target) else some 0 with
      | some rs, some rt => some (c.holds rs rt)
      | _, _ => none := by
  rw [outcome?, Mnemonic.comparesRegisters_of_ofBranch? h]
  cases known (i.guest .source) with
  | none => rfl
  | some rs =>
    cases two with
    | false => exact congrArg some (Mnemonic.isTakenWith_of_ofBranch? h rs 0)
    | true =>
      cases known (i.guest .target) with
      | none => rfl
      | some rt => exact congrArg some (Mnemonic.isTakenWith_of_ofBranch? h rs rt)

/-- The delay slot is covered, unless the branch is likely and known not to be taken. -/
theorem runsSlot_of_outcome? {outcome : Option Bool} (hdelays : i.mnemonic.hasDelaySlot = true)
    (h : i.outcome? known = outcome)
    (hruns : outcome = some false → i.mnemonic.discardsDelaySlot = false) :
    i.runsSlot known = true := by
  rw [runsSlot, hdelays, h]
  by_cases hnot : outcome = some false
  · rw [hruns hnot, Bool.and_false]
    rfl
  · rw [beq_eq_false_iff_ne.2 hnot, Bool.and_false]
    rfl

end Instruction

/-! ## Courses -/

/-- From the instruction at `pc`, with `limit` more of them to come and `cycles` to be charged
already, to the way out of the block. The instructions are those that `reads` tells. -/
inductive Course [Bus β] (o : Options) (regions : List FastRegion)
    (reads : UInt32 → Instruction → Prop) :
    (limit : Nat) → (pc cycles : UInt32) → Environment β → Departure β → Prop
  | limit (pc cycles : UInt32) (e : Environment β) :
    Course o regions reads 0 pc cycles e (.exit pc cycles e)
  | straight {limit : Nat} {pc cycles : UInt32} {e : Environment β} {d : Departure β}
      {i : Instruction} (known : Bool) (hi : reads pc i) (hends : i.mnemonic.endsBlock = false)
      (hrefused : i.mnemonic.isRefused = false)
      (rest : Course o regions reads limit (pc + 4) (cycles + i.mnemonic.cycles)
        (i.perform o regions known pc e) d) :
    Course o regions reads (limit + 1) pc cycles e (d.after (i.calls pc e))
  | refused {limit : Nat} {pc cycles : UInt32} {e : Environment β} {i : Instruction}
      (hi : reads pc i) (hrefused : i.mnemonic.isRefused = true) :
    Course o regions reads (limit + 1) pc cycles e (.refuse pc e)
  | syscall {limit : Nat} {pc cycles : UInt32} {e : Environment β} {i : Instruction}
      (hi : reads pc i) (hm : i.mnemonic = .syscall) :
    Course o regions reads (limit + 1) pc cycles e
      ⟨[⟨i.word, e.setWord Slot.pc (pc + 4)⟩], .checked,
        (i.interpret (e.setWord Slot.pc (pc + 4))).charge (cycles + i.mnemonic.cycles)⟩
  | trap {limit : Nat} {pc cycles : UInt32} {e : Environment β} {i : Instruction}
      (hi : reads pc i) (hm : i.mnemonic = .breakpoint) :
    Course o regions reads (limit + 1) pc cycles e
      ⟨[], .checked, ((i.interpret e).setWord Slot.pc (pc + 4)).charge (cycles + i.mnemonic.cycles)⟩
  /-- A transfer of control and its delay slot. The lowering may read the delay slot twice, so the
  target is what it should be where both readings agree. -/
  | transfer {limit : Nat} {pc cycles target : UInt32} {e : Environment β} {d : Departure β}
      {i j : Instruction} (kept : Option UInt32) (known : Bool) (hi : reads pc i)
      (hj : reads (pc + 4) j) (hdelays : i.mnemonic.hasDelaySlot = true)
      (hends : j.mnemonic.endsBlock = false) (hrefused : j.mnemonic.isRefused = false)
      (hannuls : i.annuls e = false)
      (htarget : (∀ j', reads (pc + 4) j' → j' = j) → target = i.destination pc e)
      (hd : let amount := cycles + i.mnemonic.cycles + j.mnemonic.cycles
        let e' := j.perform o regions known (pc + 4) (i.link pc (e.keep kept))
        d = .exit target amount e' ∨ d = .dispatch target amount e') :
    Course o regions reads (limit + 1) pc cycles e
      (d.after (j.calls (pc + 4) (i.link pc (e.keep kept))))
  /-- A likely branch that is not taken. -/
  | annulled {limit : Nat} {pc cycles : UInt32} {e : Environment β} {i : Instruction}
      (hi : reads pc i) (hdelays : i.mnemonic.hasDelaySlot = true) (hannuls : i.annuls e = true) :
    Course o regions reads (limit + 1) pc cycles e
      (.exit (pc + 8) (cycles + i.mnemonic.cycles) (i.link pc e))
  /-- A transfer of control with a delay slot that is refused. -/
  | slotRefused {limit : Nat} {pc cycles : UInt32} {e : Environment β} {i j : Instruction}
      (kept : Option UInt32) (hi : reads pc i) (hj : reads (pc + 4) j)
      (hdelays : i.mnemonic.hasDelaySlot = true) (hannuls : i.annuls e = false)
      (hrefused : j.mnemonic.endsBlock = true ∨ j.mnemonic.isRefused = true) :
    Course o regions reads (limit + 1) pc cycles e (.refuse (pc + 4) (i.link pc (e.keep kept)))

/-- More instructions may be read. -/
theorem Course.mono [Bus β] {o : Options} {regions : List FastRegion}
    {reads reads' : UInt32 → Instruction → Prop} {limit : Nat} {pc cycles : UInt32}
    {e : Environment β} {d : Departure β} (h : Course o regions reads limit pc cycles e d)
    (hreads : ∀ pc i, reads pc i → reads' pc i) : Course o regions reads' limit pc cycles e d := by
  induction h with
  | limit pc cycles e => exact .limit pc cycles e
  | straight known hi hends hrefused _ ih => exact .straight known (hreads _ _ hi) hends hrefused ih
  | refused hi hrefused => exact .refused (hreads _ _ hi) hrefused
  | syscall hi hm => exact .syscall (hreads _ _ hi) hm
  | trap hi hm => exact .trap (hreads _ _ hi) hm
  | transfer kept known hi hj hdelays hends hrefused hannuls htarget hd =>
    exact .transfer kept known (hreads _ _ hi) (hreads _ _ hj) hdelays hends hrefused hannuls
      (fun hone => htarget fun j' hj' => hone j' (hreads _ _ hj')) hd
  | annulled hi hdelays hannuls => exact .annulled (hreads _ _ hi) hdelays hannuls
  | slotRefused kept hi hj hdelays hannuls hrefused =>
    exact .slotRefused kept (hreads _ _ hi) (hreads _ _ hj) hdelays hannuls hrefused

/-! ## What stays -/

/-- The word belongs to no instruction that goes on: register zero, the budget, or the core state. -/
def Slot.Kept (slot : Nat) : Prop :=
  slot = 0 ∨ slot = Slot.downcount ∨ slot = Slot.coreState

section Kept

variable {slot : Nat} {e : Environment β}

theorem Environment.get_setWord (e : Environment β) {other : Nat} (hne : other ≠ slot)
    (value : UInt32) : (e.setWord other value).state.get slot = e.state.get slot :=
  State.get_set_of_ne _ hne value

theorem Environment.get_setRegister_kept (hslot : Slot.Kept slot) {r : Nat} (hr : r < 32)
    (value : UInt32) : (e.setRegister r value).state.get slot = e.state.get slot := by
  rw [setRegister, State.setRegister]
  split
  · rfl
  · next hzero =>
    refine State.get_set_of_ne _ ?_ _
    rcases hslot with rfl | rfl | rfl
    · exact hzero
    · exact Nat.ne_of_lt (Nat.lt_of_lt_of_le hr (by decide))
    · exact Nat.ne_of_lt (Nat.lt_of_lt_of_le hr (by decide))

theorem Environment.get_keep (hslot : Slot.Kept slot) (value? : Option UInt32) :
    (e.keep value?).state.get slot = e.state.get slot := by
  cases value? with
  | none => rfl
  | some value => exact e.get_setWord (by rcases hslot with rfl | rfl | rfl <;> decide) value

theorem Instruction.get_link {i : Instruction} (hi : i.entry ∈ Entry.table)
    (hslot : Slot.Kept slot) (pc : UInt32) :
    (i.link pc e).state.get slot = e.state.get slot := by
  unfold link
  split
  · exact Environment.get_setRegister_kept hslot (registerOf_lt hi rfl) _
  split
  · exact Environment.get_setRegister_kept hslot (by decide) _
  · rfl

variable [Bus β]

theorem Instruction.get_perform_kept {o : Options} {regions : List FastRegion} {known : Bool}
    {i : Instruction} {pc : UInt32} (hi : i.entry ∈ Entry.table) (hslot : Slot.Kept slot)
    (hends : i.mnemonic.endsBlock = false) :
    (i.perform o regions known pc e).state.get slot = e.state.get slot := by
  have hspares : i.Spares slot := by
    rcases hslot with rfl | rfl | rfl
    · exact i.spares_zero
    · exact spares_of_le hi (by decide)
    · exact spares_of_le hi (by decide)
  refine hspares.get_perform ?_ ?_ ?_ hends <;> rcases hslot with rfl | rfl | rfl <;> decide

/-- A system call keeps what its handler keeps, and a trap changes the core state only. -/
theorem Instruction.keeps_interpret {i : Instruction} (hne : Slot.coreState ≠ slot)
    {p : UInt32 → Prop} (hbus : Bus.Maintains β slot p)
    (hm : i.mnemonic = .syscall ∨ i.mnemonic = .breakpoint) (he : p (e.state.get slot)) :
    p ((i.interpret e).state.get slot) := by
  have hstopped (c : CoreState) : (e.state.setCoreState c).get slot = e.state.get slot :=
    State.get_set_of_ne _ hne _
  rcases hm with hm | hm
  · rw [interpret, hm]
    change p ((e.syscall _).state.get slot)
    rw [Environment.syscall]
    split
    · next hcall => exact hbus _ _ _ _ _ hcall he
    · exact (hstopped .stopping).symm ▸ he
  · rw [interpret, hm]
    exact (hstopped _).symm ▸ he

theorem Instruction.get_interpret_kept {i : Instruction} (hne : Slot.coreState ≠ slot)
    (hbus : Bus.Respects β slot) (hm : i.mnemonic = .syscall ∨ i.mnemonic = .breakpoint) :
    (i.interpret e).state.get slot = e.state.get slot :=
  keeps_interpret (p := (· = e.state.get slot)) hne (hbus.maintains _) hm rfl

end Kept

/-! ## The budget -/

theorem Mnemonic.cycles_bounds (m : Mnemonic) : 1 ≤ m.cycles.toNat ∧ m.cycles.toNat ≤ 36 := by
  cases m <;> decide

/-- Taking cycles off a budget that is not spent. -/
theorem State.downcount_of_charge {s s' : State} {c : Nat} (hbudget : 0 ≤ s.downcount)
    (hc : c < 0x80000000)
    (hleft : s'.get Slot.downcount = s.get Slot.downcount - c.toUInt32) :
    s'.downcount = s.downcount - c := by
  have hnat : c.toUInt32.toNat = c := UInt32.toNat_ofNat_of_lt (Nat.lt_trans hc (by decide))
  rw [downcount, hleft, Word.toInt_sub hbudget (hnat.symm ▸ hc), hnat]
  rfl

/-- Cycles were taken off a budget, and the way out was chosen accordingly. -/
structure Departure.Charged (budget amount : UInt32) (d : Departure β) : Prop where
  left : d.env.state.get Slot.downcount = budget - amount
  spent : ∀ target spent, d.way = .exit target spent → spent = Word.lessSigned budget amount

namespace Departure

variable {e : Environment β} {d : Departure β}

theorem get_charge (e : Environment β) (amount : UInt32) :
    (e.charge amount).state.get Slot.downcount = e.state.get Slot.downcount - amount :=
  State.get_set_self _ (by decide) _

theorem charged_exit (target amount : UInt32) (e : Environment β) :
    (exit target amount e).Charged (e.state.get Slot.downcount) amount where
  left := ((e.charge amount).get_setWord (by decide) _).trans (get_charge e amount)
  spent _ _ h := by
    cases h
    rfl

theorem charged_dispatch (target amount : UInt32) (e : Environment β) :
    (dispatch target amount e).Charged (e.state.get Slot.downcount) amount where
  left := ((e.charge amount).get_setWord (by decide) _).trans (get_charge e amount)
  spent _ _ h := by cases h

theorem charged_checked (calls : List (Call β)) (amount : UInt32) (e : Environment β) :
    Charged (e.state.get Slot.downcount) amount ⟨calls, .checked, e.charge amount⟩ where
  left := get_charge e amount
  spent _ _ h := by cases h

theorem Charged.after {budget amount : UInt32} (h : d.Charged budget amount)
    (calls : List (Call β)) : (d.after calls).Charged budget amount :=
  ⟨h.left, h.spent⟩

end Departure

namespace Course

variable [Bus β] {o : Options} {regions : List FastRegion}
  {reads : UInt32 → Instruction → Prop} {limit : Nat} {pc cycles : UInt32}
  {e : Environment β} {d : Departure β}

section Charged

variable {i j : Instruction} {target amount : UInt32}

theorem charged_syscall (hm : i.mnemonic = .syscall) (hbus : Bus.Respects β Slot.downcount)
    (calls : List (Call β)) (pc amount : UInt32) :
    Departure.Charged (e.state.get Slot.downcount) amount
      ⟨calls, .checked, (i.interpret (e.setWord Slot.pc pc)).charge amount⟩ := by
  have hbudget : (i.interpret (e.setWord Slot.pc pc)).state.get Slot.downcount =
      e.state.get Slot.downcount :=
    (Instruction.get_interpret_kept (by decide) hbus (.inl hm)).trans (e.get_setWord (by decide) _)
  exact hbudget ▸ Departure.charged_checked calls amount _

theorem charged_trap (hm : i.mnemonic = .breakpoint) (hbus : Bus.Respects β Slot.downcount)
    (pc amount : UInt32) :
    Departure.Charged (e.state.get Slot.downcount) amount
      ⟨[], .checked, ((i.interpret e).setWord Slot.pc pc).charge amount⟩ := by
  have hbudget : ((i.interpret e).setWord Slot.pc pc).state.get Slot.downcount =
      e.state.get Slot.downcount :=
    ((i.interpret e).get_setWord (by decide) _).trans
      (Instruction.get_interpret_kept (by decide) hbus (.inr hm))
  exact hbudget ▸ Departure.charged_checked [] amount _

/-- Neither a branch nor its delay slot touches the budget. -/
theorem charged_transfer (hi : i.entry ∈ Entry.table) (hj : j.entry ∈ Entry.table)
    (hends : j.mnemonic.endsBlock = false) {kept : Option UInt32} {known : Bool} {e' : Environment β}
    (he' : e' = j.perform o regions known (pc + 4) (i.link pc (e.keep kept)))
    (hd : d = .exit target amount e' ∨ d = .dispatch target amount e') :
    d.Charged (e.state.get Slot.downcount) amount := by
  have hkept : Slot.Kept Slot.downcount := .inr (.inl rfl)
  have hbudget : e'.state.get Slot.downcount = e.state.get Slot.downcount := by
    rw [he', Instruction.get_perform_kept hj hkept hends, Instruction.get_link hi hkept,
      Environment.get_keep hkept]
  rw [← hbudget]
  rcases hd with rfl | rfl
  · exact Departure.charged_exit ..
  · exact Departure.charged_dispatch ..

omit [Bus β] in
theorem charged_annulled (hi : i.entry ∈ Entry.table) (target amount : UInt32) :
    (Departure.exit target amount (i.link pc e)).Charged (e.state.get Slot.downcount) amount :=
  Instruction.get_link hi (.inr (.inl rfl)) pc ▸ Departure.charged_exit target amount (i.link pc e)

end Charged

/-- What is taken off the budget: more than what was to be charged already, unless there was no
instruction to come, and what the instructions cost at most. -/
theorem exists_charged (h : Course o regions reads limit pc cycles e d)
    (htable : ∀ pc i, reads pc i → i.entry ∈ Entry.table)
    (hbus : d.way = .checked → Bus.Respects β Slot.downcount)
    (hcycles : cycles.toNat + 36 * (limit + 1) < 2 ^ 32) :
    (d.way = .refused ∧ d.env.state.get Slot.downcount = e.state.get Slot.downcount) ∨
      ∃ amount : UInt32, d.Charged (e.state.get Slot.downcount) amount ∧
        cycles.toNat + min limit 1 ≤ amount.toNat ∧
        amount.toNat ≤ cycles.toNat + 36 * (limit + 1) := by
  have hkept : Slot.Kept Slot.downcount := .inr (.inl rfl)
  -- No sum overflows, since the instructions that are left cost 36 cycles each at most.
  have hsum {a : UInt32} (m : Mnemonic) (hroom : a.toNat + 36 < 2 ^ 32) :
      (a + m.cycles).toNat = a.toNat + m.cycles.toNat :=
    UInt32.toNat_add_of_lt (Nat.lt_of_le_of_lt (Nat.add_le_add_left m.cycles_bounds.2 _) hroom)
  induction h with
  | limit pc cycles e => exact .inr ⟨cycles, Departure.charged_exit pc cycles e, by omega, by omega⟩
  | @straight limit pc cycles e d i known hi hends hrefused rest ih =>
    obtain ⟨hlow, hhigh⟩ := i.mnemonic.cycles_bounds
    have hnext := hsum (a := cycles) i.mnemonic (by omega)
    have hd := ih hbus (by omega)
    rw [Instruction.get_perform_kept (htable _ _ hi) hkept hends] at hd
    rcases hd with ⟨hway, hd⟩ | ⟨amount, hcharged, hmin, hmax⟩
    · exact .inl ⟨hway, hd⟩
    · exact .inr ⟨amount, hcharged.after _, by omega, by omega⟩
  | @refused limit pc cycles e i hi hrefused =>
    exact .inl ⟨rfl, e.get_setWord (by decide) pc⟩
  | @syscall limit pc cycles e i hi hm =>
    obtain ⟨hlow, hhigh⟩ := i.mnemonic.cycles_bounds
    have hnext := hsum (a := cycles) i.mnemonic (by omega)
    exact .inr ⟨_, charged_syscall hm (hbus rfl) _ _ _, by omega, by omega⟩
  | @trap limit pc cycles e i hi hm =>
    obtain ⟨hlow, hhigh⟩ := i.mnemonic.cycles_bounds
    have hnext := hsum (a := cycles) i.mnemonic (by omega)
    exact .inr ⟨_, charged_trap hm (hbus rfl) _ _, by omega, by omega⟩
  | @transfer limit pc cycles target e d i j kept known hi hj hdelays hends hrefused hannuls
      htarget hd =>
    -- The delay slot is charged as well, and no more instructions come.
    obtain ⟨hlow, hhigh⟩ := i.mnemonic.cycles_bounds
    obtain ⟨hlow', hhigh'⟩ := j.mnemonic.cycles_bounds
    have hnext := hsum (a := cycles) i.mnemonic (by omega)
    have hslot := hsum (a := cycles + i.mnemonic.cycles) j.mnemonic (by omega)
    have hcharged := charged_transfer (htable _ _ hi) (htable _ _ hj) hends rfl hd
    exact .inr ⟨_, hcharged.after _, by omega, by omega⟩
  | @annulled limit pc cycles e i hi hdelays hannuls =>
    obtain ⟨hlow, hhigh⟩ := i.mnemonic.cycles_bounds
    have hnext := hsum (a := cycles) i.mnemonic (by omega)
    exact .inr ⟨_, charged_annulled (htable _ _ hi) _ _, by omega, by omega⟩
  | @slotRefused limit pc cycles e i j kept hi hj hdelays hannuls hrefused =>
    exact .inl ⟨rfl, ((i.link pc (e.keep kept)).get_setWord (by decide) _).trans
      ((Instruction.get_link (htable _ _ hi) hkept pc).trans (Environment.get_keep hkept kept))⟩

/-- What holds of register zero goes on to hold, if handlers of system calls keep it. The same goes
for the core state up to a system call or a trap. -/
theorem keeps (h : Course o regions reads limit pc cycles e d)
    (htable : ∀ pc i, reads pc i → i.entry ∈ Entry.table) {slot : Nat} (hslot : Slot.Kept slot)
    (hne : slot ≠ Slot.downcount) {p : UInt32 → Prop}
    (hchecked : d.way = .checked → slot ≠ Slot.coreState ∧ Bus.Maintains β slot p)
    (he : p (e.state.get slot)) : p (d.env.state.get slot) := by
  have hpc : Slot.pc ≠ slot := by rcases hslot with rfl | rfl | rfl <;> decide
  have hcharge (e : Environment β) (amount : UInt32) :
      (e.charge amount).state.get slot = e.state.get slot := e.get_setWord (Ne.symm hne) _
  have hexit (e : Environment β) (pc amount : UInt32) :
      ((e.charge amount).setWord Slot.pc pc).state.get slot = e.state.get slot :=
    (Environment.get_setWord _ hpc _).trans (hcharge e amount)
  -- A way out writes the budget and the program counter, which are other words.
  induction h with
  | limit pc cycles e => exact (hexit e pc cycles).symm ▸ he
  | straight known hi hends hrefused rest ih =>
    refine ih hchecked ?_
    rw [Instruction.get_perform_kept (htable _ _ hi) hslot hends]
    exact he
  | refused hi hrefused => exact (Environment.get_setWord _ hpc _).symm ▸ he
  | @syscall limit pc cycles e i hi hm =>
    obtain ⟨hcore, hbus⟩ := hchecked rfl
    have hstart : p ((e.setWord Slot.pc (pc + 4)).state.get slot) :=
      (e.get_setWord hpc _).symm ▸ he
    have hcall : p ((i.interpret (e.setWord Slot.pc (pc + 4))).state.get slot) :=
      Instruction.keeps_interpret (Ne.symm hcore) hbus (.inl hm) hstart
    exact (hcharge _ _).symm ▸ hcall
  | @trap limit pc cycles e i hi hm =>
    obtain ⟨hcore, hbus⟩ := hchecked rfl
    have hstop : p ((i.interpret e).state.get slot) :=
      Instruction.keeps_interpret (Ne.symm hcore) hbus (.inr hm) he
    exact (hcharge _ _).symm ▸ ((i.interpret e).get_setWord hpc _).symm ▸ hstop
  | @transfer limit pc cycles target e d i j kept known hi hj hdelays hends hrefused hannuls
      htarget hd =>
    -- Neither the scratch word of the branch, nor the link, nor the delay slot touches the word.
    have hslot : (j.perform o regions known (pc + 4) (i.link pc (e.keep kept))).state.get slot =
        e.state.get slot :=
      (Instruction.get_perform_kept (htable _ _ hj) hslot hends).trans
        ((Instruction.get_link (htable _ _ hi) hslot pc).trans (Environment.get_keep hslot kept))
    rw [← hslot] at he
    rcases hd with rfl | rfl <;> exact (hexit _ _ _).symm ▸ he
  | @annulled limit pc cycles e i hi hdelays hannuls =>
    rw [← Instruction.get_link (htable _ _ hi) hslot pc] at he
    exact (hexit _ _ _).symm ▸ he
  | @slotRefused limit pc cycles e i j kept hi hj hdelays hannuls hrefused =>
    rw [← Environment.get_keep hslot kept, ← Instruction.get_link (htable _ _ hi) hslot pc] at he
    exact (Environment.get_setWord _ hpc _).symm ▸ he

/-- Only operations are done to the bus. -/
theorem evolves (h : Course o regions reads limit pc cycles e d) :
    Bus.Evolves e.bus d.env.bus := by
  induction h with
  | limit => exact .refl _
  | straight known hi hends hrefused rest ih => exact Instruction.evolves_perform.trans ih
  | refused => exact .refl _
  | syscall => exact Instruction.evolves_interpret _ (Environment.setWord _ _ _)
  | trap => exact Instruction.evolves_interpret _ _
  | @transfer limit pc cycles target e d i j kept known hi hj hdelays hends hrefused hannuls
      htarget hd =>
    have hslot : Bus.Evolves e.bus
        (j.perform o regions known (pc + 4) (i.link pc (e.keep kept))).bus := by
      have hperform : Bus.Evolves (i.link pc (e.keep kept)).bus
          (j.perform o regions known (pc + 4) (i.link pc (e.keep kept))).bus :=
        Instruction.evolves_perform
      rwa [Instruction.bus_link, Environment.bus_keep] at hperform
    rcases hd with rfl | rfl <;> exact hslot
  | @annulled limit pc cycles e i =>
    change Bus.Evolves e.bus (i.link pc e).bus
    rw [Instruction.bus_link]
    exact .refl _
  | @slotRefused limit pc cycles e i j kept =>
    change Bus.Evolves e.bus (i.link pc (e.keep kept)).bus
    rw [Instruction.bus_link, Environment.bus_keep]
    exact .refl _

/-! ## Ways out -/

/-- An exit leaves for its target. -/
theorem pc_of_exit (h : Course o regions reads limit pc cycles e d) {target : UInt32} {spent : Bool}
    (hway : d.way = .exit target spent) : d.env.state.pc = target := by
  have hpc (e : Environment β) (pc : UInt32) : (e.setWord Slot.pc pc).state.pc = pc :=
    State.get_set_self _ (by decide) pc
  induction h with
  | limit | annulled =>
    cases hway
    exact hpc _ _
  | straight known hi hends hrefused rest ih => exact ih hway
  | transfer kept known hi hj hdelays hends hrefused hannuls htarget hd =>
    rcases hd with rfl | rfl <;> cases hway
    exact hpc _ _
  | refused | syscall | trap | slotRefused => cases hway

/-- Control hands over to the host behind a system call or a trap. -/
theorem exists_of_checked (h : Course o regions reads limit pc cycles e d) (hway : d.way = .checked) :
    ∃ (i : Instruction) (pc amount : UInt32) (e' : Environment β), reads pc i ∧
      (i.mnemonic = .syscall ∧ d.env = (i.interpret (e'.setWord Slot.pc (pc + 4))).charge amount ∨
        i.mnemonic = .breakpoint ∧
          d.env = ((i.interpret e').setWord Slot.pc (pc + 4)).charge amount) := by
  induction h with
  | straight known hi hends hrefused rest ih => exact ih hway
  | syscall hi hm => exact ⟨_, _, _, _, hi, .inl ⟨hm, rfl⟩⟩
  | trap hi hm => exact ⟨_, _, _, _, hi, .inr ⟨hm, rfl⟩⟩
  | transfer kept known hi hj hdelays hends hrefused hannuls htarget hd =>
    rcases hd with rfl | rfl <;> cases hway
  | limit | refused | annulled | slotRefused => cases hway

/-- The program counter tells the instruction that is refused, as such or in a delay slot. -/
theorem exists_of_refused (h : Course o regions reads limit pc cycles e d) (hway : d.way = .refused) :
    ∃ i, reads d.env.state.pc i ∧ (i.mnemonic.isRefused = true ∨
      i.mnemonic.endsBlock = true ∧
        ∃ j, reads (d.env.state.pc - 4) j ∧ j.mnemonic.hasDelaySlot = true) := by
  have hpc (e : Environment β) (pc : UInt32) : (e.setWord Slot.pc pc).state.pc = pc :=
    State.get_set_self _ (by decide) pc
  induction h with
  | straight known hi hends hrefused rest ih => exact ih hway
  | refused hi hrefused =>
    refine ⟨_, ?_, .inl hrefused⟩
    rw [Departure.refuse, hpc]
    exact hi
  | @slotRefused limit pc cycles e i j kept hi hj hdelays hannuls hrefused =>
    refine ⟨j, ?_, hrefused.symm.imp_right fun hends => ⟨hends, i, ?_, hdelays⟩⟩
    · rw [Departure.refuse, hpc]
      exact hj
    · rw [Departure.refuse, hpc, UInt32.add_sub_cancel]
      exact hi
  | transfer kept known hi hj hdelays hends hrefused hannuls htarget hd =>
    rcases hd with rfl | rfl <;> cases hway
  | limit | syscall | trap | annulled => cases hway

end Course

end Recompiler
