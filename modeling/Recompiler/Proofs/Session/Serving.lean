import Recompiler.Proofs.Memory.Rom
import Recompiler.Proofs.Session.Unlinked

/-!
# Calls of generated code

The host calls generated code like a function. Whatever blocks it leads through, the code calls its
helpers in the same way, stays where there is code, and comes back with what the host expects.

* `HostMachine.CallsHelper`: a call of a helper.
* `BlockTable.InOrder`: a place where control may be.
* `ExitReason.Tells`: what the reasons mean.
* `Session.Serves`, `Session.Recorded.serves`: what the host may rely on.
-/

namespace Recompiler

variable {β : Type} [Bus β]

/-! ## Calls of helpers -/

namespace HostMachine

variable {code : Arena} {m n q r v : HostMachine β} {target : HostRegister}

/-- The machine is about to call a helper: the stack pointer is at a boundary of sixteen bytes, and the
first argument is the address of the guest state. The interpreter gets the word of an instruction that
it knows, with the routine for it. Other helpers get an address and, if they write, a value, which
may be anything. -/
structure CallsHelper (m : HostMachine β) (target : HostRegister) : Prop where
  aligned : m.get .rsp % 16 = 0
  context : m.get .rdi = Linkage.contextBase
  helper : ∃ h : Helper, Helper.ofAddress? (m.get target) = some h ∧ (h = .interpret →
    ∃ i, Instruction.interpreted? (m.getWord .rsi) = some i ∧
      m.get .rdx = i.mnemonic.routineAddress)

/-- Only a call that is in order can be made. -/
theorem CallsHelper.of_step (hstep : (m.step code).isSome) (hi : m.instruction? code = some (.call target))
    (haligned : m.get .rsp % 16 = 0) : m.CallsHelper target := by
  obtain ⟨o, ho⟩ := Option.isSome_iff_exists.1 hstep
  obtain ⟨⟨i, rest⟩, hdecode, hexecute⟩ := Option.bind_eq_some_iff.1 ho
  obtain ⟨⟨_, _⟩, hdecode', rfl⟩ := Option.map_eq_some_iff.1 hi
  cases hdecode.symm.trans hdecode'
  obtain ⟨n, hstraight, -⟩ := Option.map_eq_some_iff.1 hexecute
  obtain ⟨h, hh, hcall⟩ := Option.bind_eq_some_iff.1 hstraight
  change (m.goto _).callHelper h = some n at hcall
  rw [callHelper_goto] at hcall
  obtain ⟨p, hcall, -⟩ := Option.map_eq_some_iff.1 hcall
  by_cases hcontext : m.get .rdi = Linkage.contextBase
  · refine ⟨haligned, hcontext, h, hh, ?_⟩
    rintro rfl
    rw [callHelper, if_neg (not_not_intro hcontext)] at hcall
    obtain ⟨i, hi, hrest⟩ := Option.bind_eq_some_iff.1 hcall
    split at hrest
    · cases hrest
    · next hroutine => exact ⟨i, hi, (not_not.1 hroutine).symm⟩
  · rw [callHelper, if_pos hcontext] at hcall
    cases hcall

/-- Control that comes back went on at each machine that it came by. -/
theorem isSome_step_of_mem_visits {k : Nat} (h : Steps code k m q)
    (hreturned : q.step code = some (.returned r)) (hv : v ∈ visits code (k + 1) m) :
    (v.step code).isSome := by
  obtain ⟨j, hj, hsteps⟩ := mem_visits.1 hv
  have hrest := h.drop hsteps (by omega)
  cases hleft : k - j with
  | zero =>
    rw [hleft] at hrest
    obtain rfl : q = v := hrest
    rw [hreturned]
    rfl
  | succ i =>
    rw [hleft] at hrest
    obtain ⟨n, hstep, -⟩ := hrest
    rw [hstep]
    rfl

end HostMachine

/-! ## Places -/

/-- The machine is in the stubs, or in a block of the table. Outside of the stubs it works in the
frame that the way in set up. A helper that it is about to call is called as it should be. -/
structure BlockTable.InOrder (t : BlockTable) (f : HostMachine.Frame) (v : HostMachine β) : Prop where
  place : v.ip < Stubs.length ∨ ∃ b ∈ t.blocks, b.Covers v.ip
  frame : Stubs.length ≤ v.ip → v.frame = f
  calls : ∀ target, v.instruction? t.code = some (.call target) →
    v.frame = f ∧ v.CallsHelper target

/-- All that control comes by is in order. -/
theorem BlockTable.Answers.inOrder {t : BlockTable} {k : Nat} {cs : List (Call β)}
    {es : List (Block × Environment β)} {m r : HostMachine β} (h : t.Answers k cs es m r) :
    ∃ f, m.Hosts f ∧ ∀ v ∈ HostMachine.visits t.code (k + 1) m, t.InOrder f v := by
  obtain ⟨q, hsteps, hreturned⟩ := h.returned
  obtain ⟨f, hf, hwithin⟩ := h.within
  refine ⟨f, hf, fun v hv => ?_⟩
  rcases hwithin v hv with ⟨hlow, hsilent⟩ | ⟨hframe, hcovers⟩
  · exact ⟨.inl hlow, fun hle => absurd hlow (Nat.not_lt.2 hle),
      fun target htarget => absurd htarget (hsilent target)⟩
  · refine ⟨.inr hcovers, fun _ => hframe, fun target htarget => ⟨hframe, ?_⟩⟩
    refine .of_step (HostMachine.isSome_step_of_mem_visits hsteps hreturned hv) htarget ?_
    have htop : v.get .rsp = f.top := congrArg HostMachine.Frame.top hframe
    rw [htop]
    exact hf.aligned

/-! ## Reasons -/

/-- What a reason to return tells of the guest that is left, by the instructions at their addresses. -/
def ExitReason.Tells (fetches : UInt32 → Instruction → Prop) (e : Environment β) : ExitReason → Prop
  | dispatch => True
  | downcountExpired => e.state.downcount < 0
  -- A system call or a trap was the last instruction.
  | coreState => e.state.get Slot.coreState ≠ 0 ∧
    ∃ (i : Instruction) (pc amount : UInt32) (e' : Environment β), fetches pc i ∧
      (i.mnemonic = .syscall ∧ e = (i.interpret (e'.setWord Slot.pc (pc + 4))).charge amount ∨
        i.mnemonic = .breakpoint ∧ e = ((i.interpret e').setWord Slot.pc (pc + 4)).charge amount)
  -- The guest is at an instruction that is refused, be it as such or in a delay slot.
  | hardFault => ∃ i, fetches e.state.pc i ∧ (i.mnemonic.isRefused = true ∨
      i.mnemonic.endsBlock = true ∧
        ∃ j, fetches (e.state.pc - 4) j ∧ j.mnemonic.hasDelaySlot = true)

/-- There may be more instructions to tell of. -/
theorem ExitReason.Tells.mono {fetches fetches' : UInt32 → Instruction → Prop} {e : Environment β}
    {reason : ExitReason} (h : reason.Tells fetches e)
    (hfetches : ∀ pc i, fetches pc i → fetches' pc i) : reason.Tells fetches' e := by
  cases reason with
  | dispatch => exact h
  | downcountExpired => exact h
  | coreState =>
    obtain ⟨hstate, i, pc, amount, e', hi, hlast⟩ := h
    exact ⟨hstate, i, pc, amount, e', hfetches _ _ hi, hlast⟩
  | hardFault =>
    obtain ⟨i, hi, hrefused⟩ := h
    refine ⟨i, hfetches _ _ hi, hrefused.imp_right ?_⟩
    rintro ⟨hends, j, hj, hdelays⟩
    exact ⟨hends, j, hfetches _ _ hj, hdelays⟩

/-- The reason after a block tells what it should. -/
theorem BlockTable.Courses.tells {o : Options} {regions : List FastRegion}
    {known : UInt32 → β → Prop} {b : Block} {e : Environment β} {d : Departure β}
    (haccepted : o.Accepted regions) (hbound : 36 * (o.maxBlockInstructions + 1) < 2 ^ 31)
    (h : Courses o regions known b e d) (hbudget : 0 ≤ e.state.downcount) :
    d.reason.Tells (b.Fetches o.maxBlockInstructions known) d.env := by
  -- Where an exit says that the budget is spent, it is below zero.
  have hspent (target spent) (hway : d.way = .exit target spent) (h' : spent = true) :
      d.env.state.downcount < 0 := by
    rcases h.downcount haccepted hbound (fun hchecked => by rw [hway] at hchecked; cases hchecked)
      hbudget with ⟨hrefused, -⟩ | ⟨-, -, hexit⟩
    · rw [hway] at hrefused
      cases hrefused
    · exact of_decide_eq_true ((hexit target spent hway).symm.trans h')
  obtain ⟨bus, hbus, hcourse⟩ := h
  have htells : d.reason.Tells (b.Word o.maxBlockInstructions bus) d.env := by
    rw [Departure.reason]
    cases hway : d.way with
    | exit target spent =>
      cases spent with
      | true => exact hspent target true hway rfl
      | false => trivial
    | dispatch => trivial
    | checked =>
      dsimp only
      split
      · trivial
      · next hstate => exact ⟨hstate, hcourse.exists_of_checked hway⟩
    | refused => exact hcourse.exists_of_refused hway
  exact htells.mono fun pc i hi => ⟨bus, hbus, hi⟩

/-! ## Calls from the host -/

namespace Session

variable {s : Session β} {origin : UInt32 → β}

/-- The block was lowered from the instruction at the address, as the guest on record tells. -/
def LoweredFrom (s : Session β) (origin : UInt32 → β) (b : Block) : UInt32 → Instruction → Prop :=
  b.Word s.options.maxBlockInstructions (origin b.start)

/-- The blocks that control enters in its next steps, each with the guest it finds. -/
def entrances (s : Session β) (steps : Nat) (m : HostMachine β) : List (Block × Environment β) :=
  (HostMachine.visits s.table.code steps m).filterMap s.table.entered?

/-- What the host may rely on when it calls generated code with the machine `m` for the block `b`, and
gets `r` back after `k` steps and a last one. Meanwhile control works in the frame `f`. The guests
that blocks were lowered from are on record. -/
structure Serves (s : Session β) (origin : UInt32 → β) (b : Block) (m : HostMachine β)
    (f : HostMachine.Frame) (k : Nat) (r : HostMachine β) (reason : ExitReason) : Prop where
  /-- Control comes back. -/
  returned : ∃ q, HostMachine.Steps s.table.code k m q ∧ q.step s.table.code = some (.returned r)
  /-- The frame consists of the arguments of the call, and a stack below that of the host. -/
  frame : f.context = m.get .rdi ∧ f.memoryBase = m.get .rsi ∧ f.top = m.get .rsp - 56
  /-- Control stays in the stubs and blocks, keeps the frame and calls helpers as it should. -/
  inOrder : ∀ v ∈ HostMachine.visits s.table.code (k + 1) m, s.table.InOrder f v
  /-- The host gets back what it expects, and a reason. -/
  returns : Stubs.Returns reason m r
  /-- The reason tells what it should of the block that control was in last. -/
  tells : reason.Tells
    (fun pc i => ∃ x, (s.entrances (k + 1) m).getLast? = some x ∧ s.LoweredFrom origin x.1 pc i) r.env
  /-- A machine without generated code that runs the instructions of the blocks on the way makes the
  same calls of the interpreter, and the same of a bus that notes them. The program counter is where
  it goes on, or both are at an instruction that is refused. A delay slot is read twice, first for the
  sake of the transfer before it, and both times the same instruction must be found. -/
  continues : (∀ x ∈ s.entrances (k + 1) m, DelaySlotsAgree (s.LoweredFrom origin x.1)) →
    let fetch := fun (_ : β) pc i => ∃ x ∈ s.entrances (k + 1) m, s.LoweredFrom origin x.1 pc i
    ∃ cycles g, Guest.Run fetch (performs s.options s.regions) (m.env.setWord Slot.pc b.start)
        ((HostMachine.visits s.table.code (k + 1) m).filterMap (HostMachine.call? s.table.code))
        cycles g ∧
      (reason = .hardFault → Guest.Refuses fetch g r.env) ∧
      (reason ≠ .hardFault → g.Agrees r.env)

/-- As long as no block failed to compile, generated code keeps to the calling convention of the host
and to the protocol for the reasons to return, whatever block and guest it is called with. -/
theorem Recorded.serves (hs : s.Recorded OnlyFaults origin)
    (hbound : 36 * (s.options.maxBlockInstructions + 1) < 2 ^ 31)
    (hreach : s.options.codeSize ≤ 0x80000000) {b : Block} (hb : b ∈ s.table.blocks)
    {m : HostMachine β} (hm : m.Called s.regions b.checkedEntry) (hip : m.ip = s.table.stubs.enter)
    (hzero : m.env.state.get 0 = 0) (hbacked : Bus.Backed s.regions m.env.bus) :
    ∃ f k r reason, s.Serves origin b m f k r reason := by
  obtain ⟨hready, hcoherent, hsourced⟩ := hs.sourced
  have haccepted := Options.accepted_of_validate hs.reachable.validate
  have hstubs : s.table.stubs = Stubs.standard := hready.standard
  have hsize : s.table.code.size ≤ 0x80000000 :=
    Nat.le_trans hready.room (Nat.le_trans (Nat.le_of_eq hready.codeSize) hreach)
  rw [hstubs] at hip
  -- With a spent budget the block is left at its entry, before the guest has done a step.
  by_cases hspent : m.env.state.downcount < 0
  · obtain ⟨k, r, hanswers, hr, hreturns⟩ :=
      hcoherent.exists_return_spent haccepted hsize hsourced hb hm hip hspent
    obtain ⟨f, hf, hinOrder⟩ := hanswers.inOrder
    refine ⟨f, k, r, .downcountExpired, hanswers.returned, ⟨hf.context, hf.memoryBase, hf.top⟩,
      hinOrder, hreturns, ?_, fun _ =>
        ⟨0, m.env.setWord Slot.pc b.start, ?_, fun h => (by cases h), fun _ => ?_⟩⟩
    · rw [hr]
      exact (congrArg (· < 0) (congrArg Word.toInt (m.env.get_setWord (by decide) _))).mpr hspent
    · rw [hanswers.calls]
      exact .refl (.refl _)
    · rw [hr]
      exact .refl _
  -- Otherwise control goes from block to block, up to a way out that leads to a stub.
  · obtain ⟨legs, d, k, r, hvoyage, hanswers, hr, hreturns, -⟩ :=
      hcoherent.exists_return haccepted hbound hstubs hsize hsourced hb hm hip hzero hbacked
        (Int.not_lt.1 hspent)
    obtain ⟨f, hf, hinOrder⟩ := hanswers.inOrder
    have hentrances : s.entrances (k + 1) m = legs.map fun l => (l.block, l.env) := hanswers.entries
    refine ⟨f, k, r, d.reason, hanswers.returned, ⟨hf.context, hf.memoryBase, hf.top⟩, hinOrder,
      hreturns, ?_, fun hslots => ?_⟩
    -- The last block was entered with some budget left, so the reason tells what became of it.
    · obtain ⟨-, b', e', hend, hlast, hleft, -⟩ :=
        hvoyage.exists_last haccepted hbound hcoherent (Int.not_lt.1 hspent)
      rw [hr, hentrances, List.getLast?_map, hend]
      refine (hlast.tells haccepted hbound hleft).mono fun pc i hi => ?_
      obtain ⟨_, rfl, hword⟩ := hi
      exact ⟨_, rfl, hword⟩
    · rw [hentrances] at hslots ⊢
      obtain ⟨c, g, hrun, hrefuses, hgoes⟩ := hvoyage.run hcoherent fun l hl => by
        rintro _ rfl
        exact hslots _ (List.mem_map_of_mem hl)
      have hfetch (_ : β) (pc : UInt32) (i : Instruction)
          (hi : BlockTable.Fetched s.options (fun start bus => origin start = bus) legs pc i) :
          ∃ x ∈ legs.map fun l => (l.block, l.env), s.LoweredFrom origin x.1 pc i := by
        obtain ⟨l, hl, _, rfl, hword⟩ := hi
        exact ⟨_, List.mem_map_of_mem hl, hword⟩
      rw [hr]
      refine ⟨c, g, hanswers.calls ▸ hrun.mono hfetch, fun hreason => ?_, fun hreason => ?_⟩
      · exact (hrefuses (Departure.reason_eq_hardFault.1 hreason)).mono hfetch
      · exact (hgoes fun hway => hreason (Departure.reason_eq_hardFault.2 hway)).1

/-- A guest that adds one to a register, and comes to an instruction that is refused. -/
def faulting : Rom :=
  ⟨fun addr => if addr = 0x1000 then 0x25080001 else if addr = 0x1004 then 0x89090000 else 0⟩

/-- The host calls the block of this guest, and gets to know of the instruction that is refused. -/
theorem serves_of_faulting :
    let s := (unused faulting unlinked).withBlock 0x1000
    let origin := (unused faulting unlinked).noted (fun _ => faulting) 0x1000
    let m := (s.setState (State.initial.set Slot.downcount 100)).machine Stubs.length
    s.Recorded OnlyFaults origin ∧ ∃ b ∈ s.table.blocks, b.checkedEntry = Stubs.length ∧
      m.Called s.regions b.checkedEntry ∧ m.ip = s.table.stubs.enter ∧
      ∃ f k r, s.Serves origin b m f k r .hardFault ∧ r.env.state.pc = 0x1004 ∧
        r.env.state.get 8 = 1 ∧ r.env.state.downcount = 100 := by
  intro s origin m
  have hs : s.Recorded OnlyFaults origin := recorded_unused faulting rfl (by decide +kernel)
  obtain ⟨b, hb, hentry⟩ : ∃ b ∈ s.table.blocks, b.checkedEntry = Stubs.length := by
    decide +kernel
  have hcalled : m.Called s.regions b.checkedEntry :=
    hentry ▸ called_machine (s.setState (State.initial.set Slot.downcount 100)) _
  have hbacked : Bus.Backed s.regions m.env.bus := fun _ _ r hr => by cases hr
  obtain ⟨f, k, r, reason, hserves⟩ := hs.serves (by decide) (by decide) hb hcalled rfl rfl hbacked
  -- What the machine comes to.
  have hrun : (m.run s.table.code 200).map (fun r => (r.getWord .rax, r.env.state.pc,
      r.env.state.get 8, r.env.state.downcount)) =
        some (ExitReason.hardFault.toWord, 0x1004, 1, 100) := by
    decide +kernel
  obtain ⟨r', hr', hvalues⟩ := Option.map_eq_some_iff.1 hrun
  obtain ⟨q, hsteps, hreturned⟩ := hserves.returned
  obtain rfl := HostMachine.eq_of_run hsteps hreturned hr'
  simp only [Prod.mk.injEq] at hvalues
  obtain ⟨hword, hpc, hregister, hleft⟩ := hvalues
  obtain rfl : reason = .hardFault := by
    rw [hserves.returns.reason] at hword
    revert hword
    cases reason <;> decide
  exact ⟨hs, b, hb, hentry, hcalled, rfl, f, k, r, hserves, hpc, hregister, hleft⟩

end Session

end Recompiler
