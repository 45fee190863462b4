import Recompiler.Proofs.Block.Branching
import Recompiler.Proofs.Block.Links
import Recompiler.Proofs.Block.Outline
import Recompiler.Proofs.Memory.Rom

/-!
# The shape of a block

Which words a block covers, and which guest addresses its exits lead to. A block is a run of plain
instructions and an ending, which is empty where the instruction limit cut the run. The exits lead
to the static successors of the ending: those that the guest code shows, with the constants that
are known there.

* `Instruction.stops`: instructions that no run goes on after.
* `Instruction.successors`: the successors of an ending.
* `Block.Consists`: the instructions and the exits of a block, all in one.
* `Lower.exec_instruction_outline`: one instruction is plain or an ending.
* `Lower.exec_body_shape`: a run of them.
* `BlockTable.compile_shape`: every block that is published has this shape.
-/

namespace Recompiler

variable {β : Type}

/-! ## Static successors -/

theorem Mnemonic.isBranch_of_ofBranch? {m : Mnemonic} {x : Condition × Bool}
    (h : Condition.ofBranch? m = some x) : m.isBranch = true := by
  cases m <;> cases h <;> rfl

namespace Instruction

/-- No run of instructions goes on after this one: it ends a block or is refused. -/
def stops (i : Instruction) : Bool :=
  i.mnemonic.endsBlock || i.mnemonic.isRefused

section Known

variable (known : GuestIndex → Option UInt32) (i : Instruction)

/-- Nothing comes behind a delay slot that is refused. -/
def unlessRefused (slot? : Option Instruction) (targets : List UInt32) : List UInt32 :=
  if slot?.any (·.stops) then [] else targets

/-- The addresses where control goes on after the instruction at `pc` and its delay slot, as far as
the lowering knows them. -/
def successors (pc : UInt32) (slot? : Option Instruction) : List UInt32 :=
  let target := (i.staticTarget? pc).toList
  if i.mnemonic.isBranch then
    match i.outcome? known with
    | some true => unlessRefused slot? target
    | some false => unlessRefused slot? [pc + 8]
    | none =>
      if i.mnemonic.discardsDelaySlot then unlessRefused slot? target ++ [pc + 8]
      else unlessRefused slot? (target ++ [pc + 8])
  else
    match i.mnemonic with
    | .j | .jal => unlessRefused slot? target
    | .jr | .jalr => unlessRefused slot? (known (i.guest .source)).toList
    | _ => []

/-- How a block ends: at the instruction limit, with an instruction that stops it, or with the delay
slot of one. -/
inductive Ending : List Instruction → Prop
  | limit : Ending []
  | alone (i : Instruction) (hstops : i.stops = true) (hslot : i.runsSlot known = false) :
    Ending [i]
  | slotted (i j : Instruction) (hslot : i.runsSlot known = true) : Ending [i, j]

/-- The addresses where control goes on after the ending of a block, which begins at `pc`. -/
def endingSuccessors (pc : UInt32) : List Instruction → List UInt32
  | [] => [pc]
  | i :: rest => i.successors known pc rest.head?

end Known

variable {known : GuestIndex → Option UInt32} {i : Instruction}

/-- Every branch, and every jump but those through registers, has a field for its target. -/
theorem find?_target : ∀ e ∈ Entry.table,
    (e.mnemonic.isBranch = true → (e.pattern.fields.find? (·.operand == .offset)).isSome = true) ∧
      (e.mnemonic = .j ∨ e.mnemonic = .jal →
        (e.pattern.fields.find? (·.operand == .immediate)).isSome = true) := by
  decide +kernel

theorem exists_staticTarget (hi : i.entry ∈ Entry.table)
    (h : i.mnemonic.isBranch = true ∨ i.mnemonic = .j ∨ i.mnemonic = .jal) (pc : UInt32) :
    ∃ target, i.staticTarget? pc = some target := by
  have hget {op : Operand} (hf : (i.entry.pattern.fields.find? (·.operand == op)).isSome = true) :
      ∃ value, i.get? op = some value := by
    obtain ⟨f, hf⟩ := Option.isSome_iff_exists.1 hf
    exact ⟨f.extract i.word, by rw [get?, Pattern.get?, hf]; rfl⟩
  obtain ⟨hoffset, himmediate⟩ := find?_target i.entry hi
  cases hbranch : i.mnemonic.isBranch with
  | true =>
    obtain ⟨value, hvalue⟩ := hget (hoffset hbranch)
    exact ⟨_, by rw [staticTarget?, if_pos hbranch, hvalue]; rfl⟩
  | false =>
    have hjump : i.mnemonic = .j ∨ i.mnemonic = .jal :=
      h.resolve_left (ne_true_of_eq_false hbranch)
    obtain ⟨value, hvalue⟩ := hget (himmediate hjump)
    exact ⟨_, by rw [staticTarget?, hbranch, if_neg (by decide), if_pos hjump, hvalue]; rfl⟩

theorem length_unlessRefused_le (slot? : Option Instruction) (targets : List UInt32) :
    (unlessRefused slot? targets).length ≤ targets.length := by
  unfold unlessRefused
  split
  · exact Nat.zero_le _
  · exact Nat.le_refl _

theorem length_successors_le (pc : UInt32) (slot? : Option Instruction) :
    (i.successors known pc slot?).length ≤ 2 := by
  have hunless (targets : List UInt32) := length_unlessRefused_le slot? targets
  have htoList (value? : Option UInt32) : value?.toList.length ≤ 1 := by
    cases value? <;> simp
  unfold successors
  dsimp only
  split
  · split
    · exact Nat.le_trans (hunless _) (Nat.le_succ_of_le (htoList _))
    · exact Nat.le_trans (hunless _) (Nat.le_succ 1)
    · split
      · rw [List.length_append]
        exact Nat.add_le_add_right (Nat.le_trans (hunless _) (htoList _)) 1
      · refine Nat.le_trans (hunless _) ?_
        rw [List.length_append]
        exact Nat.add_le_add_right (htoList _) 1
  · split
    iterate 4
      · exact Nat.le_trans (hunless _) (Nat.le_succ_of_le (htoList _))
    · exact Nat.zero_le 2

end Instruction

/-! ## Shapes -/

/-- The words from `pc` on, one after the other, read as the instructions. -/
def Bus.Covers [Bus β] (bus : β) (pc : UInt32) : List Instruction → Prop
  | [] => True
  | i :: is => Bus.Finds bus pc i ∧ Covers bus (pc + 4) is

/-- The plain instructions `plain` and the ending `ending` make up the block. The bus is that from
before the block was compiled, and `known` tells the constants that are known where the run of plain
instructions is over. -/
structure Block.Consists [Bus β] (bus : β) (limit : Nat)
    (known : GuestIndex → Option UInt32) (plain ending : List Instruction) (b : Block) : Prop where
  /-- The instructions are those at the addresses from the start of the block on. -/
  covers : Bus.Covers bus b.start (plain ++ ending)
  /-- The block has the number of its instructions, in a word. -/
  count : b.instructions.toNat = (plain ++ ending).length % UInt32.size
  /-- The run does not stop before the ending. -/
  plain_stops : ∀ i ∈ plain, i.stops = false
  /-- The ending is an instruction that stops the run, and its delay slot. -/
  ends : Instruction.Ending known ending
  /-- Just the instruction limit keeps a block from having an ending. -/
  limit_iff : ending = [] ↔ plain.length = limit
  /-- Only a delay slot may lie past the limit. -/
  length_le : (plain ++ ending).length ≤ limit + 1
  full : (plain ++ ending).length = limit + 1 → ∃ i j, ending = [i, j] ∧
    i.mnemonic.hasDelaySlot = true
  /-- The exits lead to the static successors, in order. -/
  exits : b.exits.toList.map (·.target) =
    Instruction.endingSuccessors known (b.start + 4 * UInt32.ofNat plain.length) ending
  exits_size : b.exits.size ≤ 2

/-! ## Reading -/

section Reading

variable [Bus β] {bus bus' : β}

theorem Bus.Covers.of_reads {pc : UInt32} {is : List Instruction} (hreads : ReadsTo bus bus')
    (h : Covers bus' pc is) : Covers bus pc is := by
  induction is generalizing pc with
  | nil => trivial
  | cons i is ih => exact ⟨.of_reads hreads h.1, ih h.2⟩

end Reading

/-- The block was ended at the instruction at the current address, which was read before, and at its
delay slot if it has one. -/
structure Outline.Ends [Bus β] (slot? : Option Instruction) (targets : List UInt32)
    (o p : Outline β) : Prop where
  isOpen : p.isOpen = false
  slot : ∀ j, slot? = some j → Bus.Finds o.bus (o.pc + 4) j
  instructions : p.instructions = o.instructions + UInt32.ofNat slot?.toList.length
  targets : p.targets = o.targets ++ targets

theorem Outline.Ends.of_reads [Bus β] {slot? : Option Instruction} {targets : List UInt32}
    {o p : Outline β} {bus : β} (hreads : Bus.ReadsTo o.bus bus)
    (h : ({ o with bus := bus } : Outline β).Ends slot? targets p) : o.Ends slot? targets p :=
  ⟨h.isOpen, fun j hj => .of_reads hreads (h.slot j hj), h.instructions, h.targets⟩

/-- The block was ended at the instruction `i`, which was read at the current address, with exits to
its static successors. -/
def Lowering.EndsAt [Bus β] (i : Instruction) (t : Lowering β) (p : Outline β) : Prop :=
  ∃ slot?, slot?.isSome = i.runsSlot t.registers.immediate? ∧
    t.outline.Ends slot? (i.successors t.registers.immediate? t.pc slot?) p

/-! ## Delay slots -/

namespace Lowering

end Lowering

namespace Lower

variable {s : Surroundings} {t u v : Lowering β} {i j : Instruction}

/-- An instruction that does not end a block leaves the outline alone, or is refused. -/
theorem outline_straight (h : exec (straight i) s t = (.ok (), u)) :
    u.outline = if i.mnemonic.isRefused then t.outline.cut else t.outline := by
  cases hrefused : i.mnemonic.isRefused with
  | true =>
    rw [straight_of_isRefused hrefused, exec_bind_of_ok (exec_currentPc ..),
      exec_bind_of_ok (exec_report ..)] at h
    exact (outline_hardFault h).trans rfl
  | false => exact (Exits.straight hrefused h).trans (Outline.leaving_nil _)

variable [Bus β]

/-- The instruction in a delay slot is read and counted, and cuts the block if it is refused. -/
theorem outline_delaySlot (h : exec delaySlot s t = (.ok (), v)) :
    ∃ j bus, Bus.instructionAt (t.pc + 4) t.bus = (.ok j, bus) ∧
      v.outline =
        let o := { t.outline with bus := bus, instructions := t.instructions + 1 }
        if j.stops then o.cut else o := by
  obtain ⟨w, hexec, rfl⟩ := exists_inSlot h
  obtain ⟨j, bus, u, hread, hbody, rfl⟩ := exec_instructionWith_reads hexec
  refine ⟨j, bus, hread, ?_⟩
  -- The address is that of the branch again, and the rest is what the slot left.
  let reading := Lowering.reading { t with pc := t.pc + 4 } bus j
  have hslot : u.outline = if j.stops then reading.outline.cut else reading.outline := by
    cases hends : j.mnemonic.endsBlock with
    | true =>
      simp only [inSlot, hends, if_true] at hbody
      rw [exec_bind_of_ok (exec_currentPc ..), exec_bind_of_ok (exec_report ..)] at hbody
      rw [Instruction.stops, hends, Bool.true_or, if_pos rfl]
      exact (outline_hardFault hbody).trans rfl
    | false =>
      simp only [inSlot, hends] at hbody
      rw [Instruction.stops, hends, Bool.false_or]
      exact outline_straight hbody
  have hback : ({ u with pc := t.pc } : Lowering β).outline = { u.outline with pc := t.pc } := rfl
  refine hback.trans ?_
  rw [hslot]
  cases j.stops <;> rfl

/-! ## Transfers of control -/

/-- Where it succeeds, the step lowers the delay slot and ends the block, with the exits that `aims`
tells. -/
def Turns (aims : Option Instruction → List UInt32) (x : Lower β Unit) : Prop :=
  ∀ ⦃s t u⦄, t.isOpen = false → t.cancelled = false → exec x s t = (.ok (), u) →
    ∃ j, t.outline.Ends (some j) (aims (some j)) u.outline

namespace Turns

variable {α : Type} {aims : Option Instruction → List UInt32} {targets : List UInt32}

/-- A step that leaves the outline alone, before the others. -/
theorem after {x : Lower β α} {f : α → Lower β Unit} (hx : Exits [] x)
    (hf : ∀ r, Turns aims (f r)) : Turns aims (x >>= f) := by
  intro s t v hopen hcancelled h
  obtain ⟨q, u, hfirst, hrest⟩ := exec_bind_eq_ok h
  have hu : u.outline = t.outline := (hx hfirst).trans (Outline.leaving_nil _)
  rw [← hu]
  exact hf q ((congrArg Outline.isOpen hu).trans hopen)
    ((congrArg Outline.cancelled hu).trans hcancelled) hrest

theorem optional {c : Prop} [Decidable c] {x : Lower β Unit} {k : Unit → Lower β Unit}
    (hx : Exits [] x) (hk : Turns aims (k ())) : Turns aims (if c then x >>= k else k ()) := by
  split
  · exact after hx fun _ => hk
  · exact hk

/-- The delay slot may be read ahead. -/
theorem decode_bind {pc : UInt32} {k : Instruction → Lower β Unit} (hk : ∀ i, Turns aims (k i)) :
    Turns aims (decode pc >>= k) := by
  intro s t v hopen hcancelled h
  obtain ⟨i, u, hread, hrest⟩ := exec_bind_eq_ok h
  obtain ⟨bus, hbus, rfl⟩ := instructionAt_of_exec_decode hread
  obtain ⟨j, hends⟩ := hk i (t := { t with bus := bus }) hopen hcancelled hrest
  have hreads := Bus.readsTo_instructionAt pc t.bus
  rw [hbus] at hreads
  exact ⟨j, .of_reads hreads hends⟩

/-- What comes after the delay slot is left out if the delay slot is refused. -/
theorem afterDelaySlot {rest : Lower β Unit} (hrest : Exits targets rest) :
    Turns (Instruction.unlessRefused · targets) (Lower.afterDelaySlot rest) := by
  intro s t v hopen hcancelled h
  obtain ⟨⟨⟩, u, hslot, h⟩ := exec_bind_eq_ok h
  obtain ⟨j, bus, hj, hu⟩ := outline_delaySlot hslot
  rw [exec_get_bind] at h
  have hfinds : ∀ k, some j = some k → Bus.Finds t.bus (t.pc + 4) k := by
    rintro k ⟨⟩
    exact .of_instructionAt hj
  refine ⟨j, ?_⟩
  cases hstops : j.stops with
  | true =>
    rw [hstops] at hu
    have hcut : u.cancelled = true := congrArg Outline.cancelled hu
    rw [hcut] at h
    obtain rfl := (Prod.mk.inj h).2
    rw [hu]
    refine ⟨rfl, hfinds, rfl, ?_⟩
    simp [Instruction.unlessRefused, hstops, Outline.cut]
  | false =>
    rw [hstops] at hu
    have hgoes : u.cancelled = false := (congrArg Outline.cancelled hu).trans hcancelled
    rw [hgoes] at h
    have hv : v.outline = u.outline.leaving targets := hrest h
    rw [hv, hu]
    refine ⟨hopen, hfinds, rfl, ?_⟩
    simp [Instruction.unlessRefused, hstops, Outline.leaving]

/-- The way around the delay slot of a likely branch has an exit in any case. -/
theorem likelyBranch (test : Test) (links : Bool) (target next : UInt32) :
    Turns (Instruction.unlessRefused · [target] ++ [next])
      (Lower.likelyBranch test links target next : Lower β Unit) := by
  refine after (.writeCompare _) fun _ => after .flushAll fun _ => optional (.emit _) ?_
  refine after .freshLabel fun notTaken => after (.append _) fun _ => ?_
  intro s t v hopen hcancelled h
  rw [exec_get_bind] at h
  dsimp only at h
  rw [exec_bind_of_ok (exec_attempt ..)] at h
  rcases hslot : exec delaySlot s t with ⟨e | ⟨⟨⟩⟩, u⟩ <;> rw [hslot] at h
  · cases h
  dsimp only at h
  rw [if_pos rfl, exec_get_bind] at h
  obtain ⟨j, bus, hj, hu⟩ := outline_delaySlot hslot
  have hfinds : ∀ k, some j = some k → Bus.Finds t.bus (t.pc + 4) k := by
    rintro k ⟨⟩
    exact .of_instructionAt hj
  -- The exit around the delay slot.
  have haround : Exits (β := β) [next] (Lower.updateRegisters (fun _ => t.registers) >>= fun _ =>
      Lower.append [.bind notTaken] >>= fun _ =>
        Lower.writeExitCharging next t.cycles >>= fun _ => Pure.pure ()) :=
    .after (.updateRegisters _) fun _ => .after (.append _) fun _ =>
      .bind (.writeExitCharging next t.cycles) fun _ => .pure ()
  refine ⟨j, ?_⟩
  cases hstops : j.stops with
  | true =>
    rw [hstops] at hu
    have hcut : u.cancelled = true := congrArg Outline.cancelled hu
    rw [hcut] at h
    have hv : v.outline = u.outline.leaving [next] := haround h
    rw [hv, hu]
    refine ⟨rfl, hfinds, rfl, ?_⟩
    simp [Instruction.unlessRefused, hstops, Outline.cut, Outline.leaving]
  | false =>
    rw [hstops] at hu
    have hgoes : u.cancelled = false := (congrArg Outline.cancelled hu).trans hcancelled
    rw [hgoes, if_pos (by decide)] at h
    have hboth : Exits (β := β) [target, next] (Lower.flushAll >>= fun _ =>
        Lower.writeExit target >>= fun _ => _) :=
      .after .flushAll fun _ => .bind (.writeExit target) fun _ => haround
    have hv : v.outline = u.outline.leaving [target, next] := hboth h
    rw [hv, hu]
    refine ⟨hopen, hfinds, rfl, ?_⟩
    simp [Instruction.unlessRefused, hstops, Outline.leaving]

/-- A branch whose outcome is known has one exit. -/
theorem decidedBranch {taken likely : Bool} (h : (taken || !likely) = true) (links : Bool)
    (target next : UInt32) :
    Turns (Instruction.unlessRefused · [if taken then target else next])
      (Lower.decidedBranch taken likely links target next : Lower β Unit) := by
  refine after .currentPc fun _ => after (.report _) fun _ => optional (.setImmediate _ _) ?_
  rw [if_pos h]
  exact afterDelaySlot (.after .flushAll fun _ => .writeExit _)

theorem savedBranch (test : Test) (links : Bool) (target next : UInt32) :
    Turns (Instruction.unlessRefused · [target, next])
      (Lower.savedBranch test links target next : Lower β Unit) :=
  after (.writeCompare test) fun _ => after (.emit _) fun _ => after (.updateRegisters _) fun _ =>
    optional (.setImmediate _ _) <| afterDelaySlot <| .after .flushAll fun _ =>
      .after (.emit _) fun _ => .writeBranchExits _ _ _

theorem lateBranch (test : Test) (links : Bool) (target next : UInt32) :
    Turns (Instruction.unlessRefused · [target, next])
      (Lower.lateBranch test links target next : Lower β Unit) := by
  unfold Lower.lateBranch
  exact optional (.setImmediate _ _) <| afterDelaySlot <| .after (.writeCompare test) fun _ =>
    .after .flushAll fun _ => .writeBranchExits _ _ _

end Turns

/-- The delay slot of a likely branch that is known not to be taken is passed over. -/
theorem exits_decidedBranch {taken likely : Bool} (h : (taken || !likely) = false) (links : Bool)
    (target next : UInt32) :
    Exits [if taken then target else next]
      (Lower.decidedBranch taken likely links target next : Lower β Unit) := by
  refine .after .currentPc fun _ => .after (.report _) fun _ => .optional (.setImmediate _ _) ?_
  rw [if_neg (ne_true_of_eq_false h)]
  exact .after .flushAll fun _ => .writeExit _

/-! ### Instructions that end a block -/

/-- The block ends behind the delay slot. -/
theorem endsAt_of_turns {aims : Option Instruction → List UInt32} {x : Lower β Unit}
    (hx : Turns aims x) (hslot : i.runsSlot t.registers.immediate? = true)
    (haims : ∀ slot?, i.successors t.registers.immediate? t.pc slot? = aims slot?)
    (hcancelled : t.cancelled = false)
    (h : exec x s { t with isOpen := false } = (.ok (), u)) :
    t.EndsAt i u.outline := by
  obtain ⟨j, hends⟩ := hx (t := { t with isOpen := false }) rfl hcancelled h
  refine ⟨some j, hslot.symm, ?_⟩
  rw [haims]
  exact ⟨hends.isOpen, hends.slot, hends.instructions, hends.targets⟩

/-- The block ends without a delay slot. -/
theorem endsAt_of_exits {targets : List UInt32} {x : Lower β Unit} (hx : Exits targets x)
    (hslot : i.runsSlot t.registers.immediate? = false)
    (haims : i.successors t.registers.immediate? t.pc none = targets)
    (h : exec x s { t with isOpen := false } = (.ok (), u)) :
    t.EndsAt i u.outline := by
  refine ⟨none, hslot.symm, ?_⟩
  rw [haims, hx h]
  exact ⟨rfl, fun _ h => (by cases h), (UInt32.add_zero _).symm, rfl⟩

end Lower

namespace Lowering.EndsAt

open Lower

variable [Bus β] {s : Surroundings} {t u : Lowering β} {i : Instruction}

/-- The lowering of a branch at `pc` after its operands were looked up. -/
def branchKnowing (i : Instruction) (test : Test) (target pc : UInt32) :
    (lhs rhs : Option UInt32) → Lower β Unit
  | some lhs, some rhs =>
    Lower.decidedBranch (test.condition.holds lhs rhs) i.mnemonic.discardsDelaySlot
      i.mnemonic.links target (pc + 8)
  | _, _ =>
    if i.mnemonic.discardsDelaySlot then Lower.likelyBranch test i.mnemonic.links target (pc + 8)
    else Lower.decode (pc + 4) >>= fun slot =>
      if (slot.outputRegister?.any fun reg => test.reads (guestOperand reg)) ||
          (i.mnemonic.links && test.reads linkRegister) then
        Lower.savedBranch test i.mnemonic.links target (pc + 8)
      else Lower.lateBranch test i.mnemonic.links target (pc + 8)

theorem decidedBranch {taken : Bool} {target next : UInt32}
    (hbranch : i.mnemonic.isBranch = true)
    (houtcome : i.outcome? t.registers.immediate? = some taken)
    (htarget : i.staticTarget? t.pc = some target) (hnext : t.pc + 8 = next)
    (hcancelled : t.cancelled = false)
    (h : exec (Lower.decidedBranch taken i.mnemonic.discardsDelaySlot i.mnemonic.links target next)
      s { t with isOpen := false } = (.ok (), u)) :
    t.EndsAt i u.outline := by
  have hsuccessors (slot? : Option Instruction) :
      i.successors t.registers.immediate? t.pc slot? =
        Instruction.unlessRefused slot? [if taken then target else next] := by
    rw [Instruction.successors, if_pos hbranch, houtcome, htarget, hnext]
    cases taken <;> rfl
  have hslot : i.runsSlot t.registers.immediate? =
      (taken || !i.mnemonic.discardsDelaySlot) := by
    rw [Instruction.runsSlot, Mnemonic.hasDelaySlot, hbranch, houtcome]
    cases taken <;> cases i.mnemonic.discardsDelaySlot <;> rfl
  cases hruns : taken || !i.mnemonic.discardsDelaySlot with
  | true =>
    exact endsAt_of_turns (.decidedBranch hruns _ _ _) (hslot.trans hruns) hsuccessors
      hcancelled h
  | false =>
    exact endsAt_of_exits (exits_decidedBranch hruns _ _ _) (hslot.trans hruns)
      (hsuccessors none) h

theorem undecidedBranch {test : Test} {target next : UInt32}
    (hbranch : i.mnemonic.isBranch = true)
    (houtcome : i.outcome? t.registers.immediate? = none)
    (htarget : i.staticTarget? t.pc = some target) (hnext : t.pc + 8 = next)
    (hcancelled : t.cancelled = false)
    (h : exec (if i.mnemonic.discardsDelaySlot then
        Lower.likelyBranch test i.mnemonic.links target next
      else Lower.decode (t.pc + 4) >>= fun slot =>
        if (slot.outputRegister?.any fun reg => test.reads (guestOperand reg)) ||
            (i.mnemonic.links && test.reads linkRegister) then
          Lower.savedBranch test i.mnemonic.links target next
        else Lower.lateBranch test i.mnemonic.links target next)
      s { t with isOpen := false } = (.ok (), u)) :
    t.EndsAt i u.outline := by
  -- The outcome is open, so the slot runs, and both ways are among the successors.
  have hslot : i.runsSlot t.registers.immediate? = true := by
    rw [Instruction.runsSlot, Mnemonic.hasDelaySlot, hbranch, houtcome]
    cases i.mnemonic.discardsDelaySlot <;> rfl
  have hsuccessors (slot? : Option Instruction) :
      i.successors t.registers.immediate? t.pc slot? =
        if i.mnemonic.discardsDelaySlot then Instruction.unlessRefused slot? [target] ++ [next]
        else Instruction.unlessRefused slot? [target, next] := by
    rw [Instruction.successors, if_pos hbranch, houtcome, htarget, hnext]
    rfl
  cases hlikely : i.mnemonic.discardsDelaySlot with
  | true =>
    simp only [hlikely, if_true] at hsuccessors h
    exact endsAt_of_turns (.likelyBranch _ _ _ _) hslot hsuccessors hcancelled h
  | false =>
    simp only [hlikely, Bool.false_eq_true, if_false] at hsuccessors h
    refine endsAt_of_turns (.decode_bind fun slot => ?_) hslot hsuccessors hcancelled h
    split
    · exact .savedBranch _ _ _ _
    · exact .lateBranch _ _ _ _

theorem branch {c : Condition} {two : Bool} {rs : GuestIndex} {rt? : Option GuestIndex}
    {target : UInt32} (hc : Condition.ofBranch? i.mnemonic = some (c, two))
    (hrs : i.guest .source = rs) (hrt : rt? = if two then some (i.guest .target) else none)
    (hcancelled : t.cancelled = false) (htarget : i.staticTarget? t.pc = some target)
    (h : exec (Lower.branch i ⟨c, rs, rt?⟩ target) s t = (.ok (), u)) :
    t.EndsAt i u.outline := by
  have hbranch := Mnemonic.isBranch_of_ofBranch? hc
  have houtcome : i.outcome? t.registers.immediate? = _ := i.outcome?_of_ofBranch? hc
  rw [hrs] at houtcome
  -- The branch is decided where both operands are known, the second of which may be zero.
  have hdecide (rhs? : Option UInt32)
      (hrhs : (if two then t.registers.immediate? (i.guest .target) else some 0) = rhs?)
      (h : exec (branchKnowing i ⟨c, rs, rt?⟩ target t.pc (t.registers.immediate? rs) rhs?)
        s { t with isOpen := false } = (.ok (), u)) :
      t.EndsAt i u.outline := by
    rw [hrhs] at houtcome
    cases hlhs : t.registers.immediate? rs with
    | none =>
      rw [hlhs] at houtcome h
      exact undecidedBranch hbranch houtcome htarget rfl hcancelled h
    | some lhs =>
      cases rhs? with
      | none =>
        rw [hlhs] at houtcome h
        exact undecidedBranch hbranch houtcome htarget rfl hcancelled h
      | some rhs =>
        rw [hlhs] at houtcome h
        exact decidedBranch hbranch houtcome htarget rfl hcancelled h
  cases two with
  | false =>
    subst hrt
    exact hdecide (some 0) rfl h
  | true =>
    subst hrt
    exact hdecide _ rfl h

theorem jump {links : Bool} {target : UInt32}
    (hm : i.mnemonic = .j ∨ i.mnemonic = .jal) (hcancelled : t.cancelled = false)
    (htarget : i.staticTarget? t.pc = some target)
    (h : exec (Lower.jump links target) s t = (.ok (), u)) :
    t.EndsAt i u.outline := by
  have hslot : i.runsSlot t.registers.immediate? = true := by
    rcases hm with hm | hm <;> rw [Instruction.runsSlot, hm] <;> rfl
  have hsuccessors (slot? : Option Instruction) :
      i.successors t.registers.immediate? t.pc slot? =
        Instruction.unlessRefused slot? [target] := by
    rw [Instruction.successors, htarget]
    rcases hm with hm | hm <;> rw [hm] <;> rfl
  rw [Lower.jump, exec_bind_of_ok (exec_currentPc ..), close, exec_bind_of_ok (exec_modify ..)] at h
  refine endsAt_of_turns ?_ hslot hsuccessors hcancelled h
  exact .optional (.setImmediate _ _) <| .afterDelaySlot <| .after .flushAll fun _ => .writeExit _

theorem registerJump {rs rd : GuestIndex}
    (hm : i.mnemonic = .jr ∨ i.mnemonic = .jalr) (hrs : i.guest .source = rs)
    (hcancelled : t.cancelled = false)
    (h : exec (Lower.registerJump rs rd) s t = (.ok (), u)) :
    t.EndsAt i u.outline := by
  have hslot : i.runsSlot t.registers.immediate? = true := by
    rcases hm with hm | hm <;> rw [Instruction.runsSlot, hm] <;> rfl
  have hsuccessors (slot? : Option Instruction) :
      i.successors t.registers.immediate? t.pc slot? =
        Instruction.unlessRefused slot? (t.registers.immediate? rs).toList := by
    rw [Instruction.successors, hrs]
    rcases hm with hm | hm <;> rw [hm] <;> rfl
  rw [Lower.registerJump, exec_bind_of_ok (exec_currentPc ..), close,
    exec_bind_of_ok (exec_modify ..), exec_bind_of_ok (exec_immediate? ..)] at h
  have hknown : (Lowering.registers { t with isOpen := false }).immediate? rs =
      t.registers.immediate? rs := rfl
  rw [hknown] at h
  -- The successor is known only if the cache holds the address as a constant.
  cases htarget : t.registers.immediate? rs with
  | some target =>
    rw [htarget] at hsuccessors h
    refine endsAt_of_turns ?_ hslot hsuccessors hcancelled h
    exact .after (.setImmediate _ _) fun _ => .afterDelaySlot <| .after .flushAll fun _ =>
      .writeExit _
  | none =>
    rw [htarget] at hsuccessors h
    refine endsAt_of_turns (.decode_bind fun slot => ?_) hslot hsuccessors hcancelled h
    dsimp only
    split
    · exact .after (.map_register _ _) fun _ => .after (.emit _) fun _ =>
        .after (.setImmediate _ _) fun _ => .afterDelaySlot <| .after .flushAll fun _ =>
          .after (.emit _) fun _ => .writeRegisterExit _
    · exact .after (.setImmediate _ _) fun _ => .afterDelaySlot <|
        .after (.map_register _ _) fun _ => .after .flushAll fun _ => .writeRegisterExit _

/-- Instructions that have neither a delay slot nor successors. -/
theorem alone {p : Outline β} (hm : i.mnemonic.hasDelaySlot = false) (hopen : p.isOpen = false)
    (hinstructions : p.instructions = t.outline.instructions)
    (htargets : p.targets = t.outline.targets) :
    t.EndsAt i p := by
  have hslot : i.runsSlot t.registers.immediate? = false := by
    rw [Instruction.runsSlot, hm, Bool.false_and]
  have hsuccessors : i.successors t.registers.immediate? t.pc none = [] := by
    rw [Instruction.successors]
    generalize i.mnemonic = m at hm ⊢
    cases m <;> first | rfl | exact absurd hm (by decide)
  have hcount := hinstructions.trans (UInt32.add_zero _).symm
  refine ⟨none, hslot.symm, hopen, fun _ h => (by cases h), hcount, ?_⟩
  rw [hsuccessors, htargets, List.append_nil]

/-- A step without exits that closes the block in the end. -/
theorem then_close {x : Lower β Unit} (hm : i.mnemonic.hasDelaySlot = false) (hx : Exits [] x)
    (h : exec (x >>= fun _ => close) s t = (.ok (), u)) :
    t.EndsAt i u.outline := by
  obtain ⟨_, v, hfirst, hclose⟩ := exec_bind_eq_ok h
  obtain rfl := (Prod.mk.inj hclose).2
  have hv : v.outline = t.outline := (hx hfirst).trans (Outline.leaving_nil _)
  have hinstructions : v.instructions = t.instructions := congrArg Outline.instructions hv
  have htargets : v.targets = t.targets := congrArg Outline.targets hv
  exact alone hm rfl hinstructions htargets

theorem systemCall (hm : i.mnemonic = .syscall)
    (h : exec (Lower.systemCall i) s t = (.ok (), u)) :
    t.EndsAt i u.outline := by
  have hcall : Lower.systemCall (β := β) i = ((followingPc >>= fun pc =>
      interpretCall i pc >>= fun _ => writeCheckedExit) >>= fun _ => close) := by
    simp only [Lower.systemCall, bind_assoc]
  rw [hcall] at h
  refine then_close (by rw [hm]; rfl) ?_ h
  exact .after .followingPc fun _ => .after (.interpretCall _ _) fun _ => .writeCheckedExit

theorem trap (hm : i.mnemonic = .breakpoint) (h : exec Lower.trap s t = (.ok (), u)) :
    t.EndsAt i u.outline := by
  have htrap : Lower.trap (β := β) = ((followingPc >>= fun next => flushAll >>= fun _ =>
      emit (Sequence.storeStateImmediate (Slot.offset Slot.coreState)
        CoreState.halted.toWord) >>= fun _ =>
      emit (Sequence.storeStateImmediate (Slot.offset Slot.pc) next) >>= fun _ =>
      writeCheckedExit) >>= fun _ => close) := by
    simp only [Lower.trap, bind_assoc]
  rw [htrap] at h
  refine then_close (by rw [hm]; rfl) ?_ h
  exact .after .followingPc fun _ => .after .flushAll fun _ => .after (.emit _) fun _ =>
    .after (.emit _) fun _ => .writeCheckedExit

/-- An instruction that is refused. -/
theorem refused (hrefused : i.mnemonic.isRefused = true)
    (h : exec (Lower.straight i) s t = (.ok (), u)) :
    t.EndsAt i u.outline := by
  have hu := outline_straight h
  rw [hrefused, if_pos rfl] at hu
  have hm : i.mnemonic.hasDelaySlot = false := by
    cases hdelays : i.mnemonic.hasDelaySlot with
    | false => rfl
    | true =>
      rw [Mnemonic.isRefused_of_hasDelaySlot hdelays] at hrefused
      cases hrefused
  rw [hu]
  exact alone hm rfl rfl rfl

end Lowering.EndsAt

namespace Lower

variable [Bus β] {s : Surroundings} {t v : Lowering β}

/-! ## Any instruction -/

/-- An instruction is lowered as a part of the run, or ends the block. -/
theorem exec_instruction_outline (hcancelled : t.cancelled = false)
    (h : exec instruction s t = (.ok (), v)) :
    ∃ i bus u, Bus.instructionAt t.pc t.bus = (.ok i, bus) ∧
      v = { u with registers := u.registers.release } ∧
        (i.stops = false ∧ exec (straight i) s (t.reading bus i) = (.ok (), u) ∨
          i.stops = true ∧ (t.reading bus i).EndsAt i u.outline) := by
  obtain ⟨i, bus, u, hi, hbody, rfl⟩ := exec_instructionWith_reads h
  clear h
  have htable := Bus.mem_table_of_instructionAt hi
  refine ⟨i, bus, u, hi, rfl, ?_⟩
  rw [exec_bind_of_ok (exec_currentPc ..)] at hbody
  dsimp only at hbody
  have hstops {m : Mnemonic} (hm : i.mnemonic = m) (hends : m.endsBlock = true) :
      i.stops = true := by rw [Instruction.stops, hm, hends, Bool.true_or]
  -- The target of a branch or an immediate jump is in the instruction.
  have htarget (hm : i.mnemonic.isBranch = true ∨ i.mnemonic = .j ∨ i.mnemonic = .jal) :
      i.staticTarget? (t.reading bus i).pc =
        some ((i.staticTarget? (t.reading bus i).pc).getD 0) := by
    obtain ⟨target, h⟩ := i.exists_staticTarget htable hm (t.reading bus i).pc
    rw [h]
    rfl
  split at hbody
  · next hm => exact .inr ⟨hstops hm rfl, .systemCall hm hbody⟩
  · next hm => exact .inr ⟨hstops hm rfl, .trap hm hbody⟩
  · next hm =>
    exact .inr ⟨hstops hm rfl, .jump (.inl hm) hcancelled (htarget (.inr (.inl hm))) hbody⟩
  · next hm =>
    exact .inr ⟨hstops hm rfl, .jump (.inr hm) hcancelled (htarget (.inr (.inr hm))) hbody⟩
  · next hm =>
    obtain ⟨rs, hrs, hbody⟩ := exec_operand_bind htable rfl hbody
    exact .inr ⟨hstops hm rfl, .registerJump (.inl hm) (i.guest_eq hrs) hcancelled hbody⟩
  · next hm =>
    obtain ⟨rs, hrs, hbody⟩ := exec_operand_bind htable rfl hbody
    obtain ⟨rd, -, hbody⟩ := exec_operand_bind htable rfl hbody
    exact .inr ⟨hstops hm rfl, .registerJump (.inr hm) (i.guest_eq hrs) hcancelled hbody⟩
  · split at hbody
    · next hc =>
      obtain ⟨rs, hrs, hbody⟩ := exec_operand_bind htable rfl hbody
      obtain ⟨rt, hrt, hbody⟩ := exec_operand_bind htable rfl hbody
      refine .inr ⟨hstops rfl (Concludes.endsBlock_of_ofBranch? hc), ?_⟩
      exact .branch hc (i.guest_eq hrs) (by rw [i.guest_eq hrt]; rfl) hcancelled
        (htarget (.inl (Mnemonic.isBranch_of_ofBranch? hc))) hbody
    · next hc =>
      obtain ⟨rs, hrs, hbody⟩ := exec_operand_bind htable rfl hbody
      refine .inr ⟨hstops rfl (Concludes.endsBlock_of_ofBranch? hc), ?_⟩
      exact .branch hc (i.guest_eq hrs) rfl hcancelled
        (htarget (.inl (Mnemonic.isBranch_of_ofBranch? hc))) hbody
    · next hsyscall hbreak hj hjal hjr hjalr _ hnone =>
      have hends : i.mnemonic.endsBlock = false := by
        generalize i.mnemonic = m at hsyscall hbreak hj hjal hjr hjalr hnone
        cases m <;> first | rfl | contradiction
      cases hrefused : i.mnemonic.isRefused with
      | true =>
        have hstop : i.stops = true := by rw [Instruction.stops, hrefused, Bool.or_true]
        exact .inr ⟨hstop, .refused hrefused hbody⟩
      | false =>
        have hgoes : i.stops = false := by rw [Instruction.stops, hends, hrefused]; rfl
        exact .inl ⟨hgoes, hbody⟩

end Lower

/-! ## Runs of instructions -/

section Runs

variable [Bus β]

/-- From `t` on, the instructions of a list were read and lowered, none of which ends the block. -/
inductive Lowering.Follows (s : Surroundings) : Lowering β → List Instruction → Lowering β → Prop
  | nil (t : Lowering β) : Follows s t [] t
  | cons {t u v : Lowering β} {i : Instruction} {bus : β} {is : List Instruction}
    (hread : Bus.instructionAt t.pc t.bus = (.ok i, bus)) (hstops : i.stops = false)
    (hlower : (Lower.straight i).exec s (t.reading bus i) = (.ok (), u))
    (h : Follows s { u with registers := u.registers.release, pc := u.pc + 4 } is v) :
    Follows s t (i :: is) v

/-- From `t` on, a run of plain instructions is lowered, which leads to `u`, and then the ending of
the block. -/
structure Lowering.Spans (s : Surroundings) (limit : Nat) (plain ending : List Instruction)
    (t u : Lowering β) (p : Outline β) : Prop where
  follows : t.Follows s plain u
  covers : Bus.Covers t.bus t.pc (plain ++ ending)
  ends : Instruction.Ending u.registers.immediate? ending
  length_le : plain.length ≤ limit
  limit_iff : ending = [] ↔ plain.length = limit
  instructions : p.instructions = t.instructions + UInt32.ofNat (plain ++ ending).length
  targets : p.targets = t.targets ++ Instruction.endingSuccessors u.registers.immediate?
    (t.pc + 4 * UInt32.ofNat plain.length) ending

namespace Lowering

variable {s : Surroundings} {limit : Nat} {t u v : Lowering β} {i : Instruction} {bus : β}
  {plain ending : List Instruction} {p : Outline β}

theorem Follows.stops (h : t.Follows s plain u) : ∀ i ∈ plain, i.stops = false := by
  induction h with
  | nil => exact List.forall_mem_nil _
  | cons _ hstops _ _ ih => exact List.forall_mem_cons.2 ⟨hstops, ih⟩

/-- One more instruction in front of a run. -/
theorem Spans.cons (hread : Bus.instructionAt t.pc t.bus = (.ok i, bus)) (hstops : i.stops = false)
    (hlower : (Lower.straight i).exec s (t.reading bus i) = (.ok (), v))
    (h : Spans s limit plain ending
      { v with registers := v.registers.release, pc := v.pc + 4 } u p) :
    t.Spans s (limit + 1) (i :: plain) ending u p := by
  have hrefused : i.mnemonic.isRefused = false := (Bool.or_eq_false_iff.1 hstops).2
  have hv := Lower.outline_straight hlower
  rw [hrefused] at hv
  have hbus : v.bus = bus := congrArg Outline.bus hv
  have hpc : v.pc = t.pc := congrArg Outline.pc hv
  have hinstructions : v.instructions = t.instructions + 1 := congrArg Outline.instructions hv
  have htargets : v.targets = t.targets := congrArg Outline.targets hv
  -- Reading the first instruction leaves a bus that reads the same.
  have hreads : Bus.ReadsTo t.bus v.bus := by
    have hreads := Bus.readsTo_instructionAt t.pc t.bus
    rwa [hread, ← hbus] at hreads
  have hcovers := h.covers
  have hcount := h.instructions
  have hexits := h.targets
  dsimp only at hcovers hcount hexits
  rw [hpc] at hcovers hexits
  rw [hinstructions] at hcount
  refine ⟨.cons hread hstops hlower h.follows,
    ⟨.of_instructionAt hread, .of_reads hreads hcovers⟩, h.ends, ?_, ?_, ?_, ?_⟩
  · exact Nat.succ_le_succ h.length_le
  · rw [List.length_cons, h.limit_iff]
    omega
  · rw [hcount, List.cons_append, List.length_cons, UInt32.ofNat_add]
    grind
  · have hnext : t.pc + 4 * UInt32.ofNat (plain.length + 1) =
        t.pc + 4 + 4 * UInt32.ofNat plain.length := by
      rw [UInt32.ofNat_add]
      grind
    rw [hexits, List.length_cons, hnext]
    exact congrArg (· ++ _) htargets

/-- The ending of a block. -/
theorem Spans.of_endsAt (hread : Bus.instructionAt t.pc t.bus = (.ok i, bus))
    (hstops : i.stops = true) (h : (t.reading bus i).EndsAt i p) :
    ∃ ending, t.Spans s (limit + 1) [] ending t p := by
  obtain ⟨slot?, hslot, hends⟩ := h
  have hreads := Bus.readsTo_instructionAt t.pc t.bus
  rw [hread] at hreads
  have hknown : (t.reading bus i).registers.immediate? = t.registers.immediate? := rfl
  have hpc : t.pc + 4 * UInt32.ofNat ([] : List Instruction).length = t.pc := UInt32.add_zero _
  have hcount : p.instructions = t.instructions + 1 + UInt32.ofNat slot?.toList.length :=
    hends.instructions
  have htargets := hends.targets
  rw [hknown] at hslot htargets
  refine ⟨i :: slot?.toList, .nil t, ?_, ?_, Nat.zero_le _, ?_, ?_, ?_⟩
  · refine ⟨.of_instructionAt hread, ?_⟩
    cases slot? with
    | none => trivial
    | some j => exact ⟨.of_reads hreads (hends.slot j rfl), trivial⟩
  · cases slot? with
    | none => exact .alone i hstops hslot.symm
    | some j => exact .slotted i j hslot.symm
  · simp
  · rw [hcount, List.nil_append, List.length_cons, UInt32.ofNat_add]
    grind
  · rw [hpc]
    refine htargets.trans (congrArg (t.targets ++ ·) ?_)
    cases slot? <;> rfl

end Lowering

/-- A block is a run of plain instructions and an ending. -/
theorem Lower.exec_body_shape {s : Surroundings} (start : UInt32) (limit : Nat)
    {t v : Lowering β} (hopen : t.isOpen = true) (hcancelled : t.cancelled = false)
    (h : exec (body start limit) s t = (.ok (), v)) :
    ∃ plain ending u, t.Spans s limit plain ending u v.outline := by
  -- By the limit: the block ends there, or its first instruction goes on to the rest or ends it.
  induction limit generalizing t with
  | zero =>
    obtain ⟨_, t₁, hreport, h⟩ := exec_bind_eq_ok h
    obtain ⟨_, t₂, hflush, h⟩ := exec_bind_eq_ok h
    rw [exec_bind_of_ok (exec_currentPc ..)] at h
    have hleft : t₂.outline = t.outline := by
      rw [Exits.flushAll hflush, Exits.report _ hreport]
      exact (Outline.leaving_nil _).trans (Outline.leaving_nil _)
    have hpc : t₂.pc = t.pc := congrArg Outline.pc hleft
    have hv : v.outline = t.outline.leaving [t.pc] := by
      rw [Exits.writeExit _ h, hleft, hpc]
    have hzero : t.pc + 4 * UInt32.ofNat ([] : List Instruction).length = t.pc :=
      UInt32.add_zero _
    refine ⟨[], [], t, .nil t, trivial, .limit, Nat.le_refl 0, by simp, ?_, ?_⟩
    · rw [hv]
      exact (UInt32.add_zero _).symm
    · rw [hv, hzero]
      rfl
  | succ limit ih =>
    obtain ⟨⟨⟩, w, hfirst, h⟩ := exec_bind_eq_ok h
    rw [exec_bind_of_ok (exec_modify ..), exec_get_bind] at h
    obtain ⟨i, bus, u, hread, rfl, ⟨hstops, hlower⟩ | ⟨hstops, hends⟩⟩ :=
      exec_instruction_outline hcancelled hfirst
    · have hrefused : i.mnemonic.isRefused = false := (Bool.or_eq_false_iff.1 hstops).2
      have hu := outline_straight hlower
      rw [hrefused] at hu
      have hgoes : u.isOpen = true := (congrArg Outline.isOpen hu).trans hopen
      have hwhole : u.cancelled = false := (congrArg Outline.cancelled hu).trans hcancelled
      dsimp only at h
      rw [if_pos hgoes] at h
      obtain ⟨plain, ending, x, hspans⟩ :=
        ih (t := { u with registers := u.registers.release, pc := u.pc + 4 }) hgoes hwhole h
      exact ⟨i :: plain, ending, x, .cons hread hstops hlower hspans⟩
    · have hclosed : u.isOpen = false := by
        obtain ⟨_, -, hends⟩ := hends
        exact hends.isOpen
      dsimp only at h
      rw [if_neg (ne_true_of_eq_false hclosed)] at h
      obtain rfl := (Prod.mk.inj h).2
      obtain ⟨ending, hspans⟩ : ∃ ending, t.Spans s (limit + 1) [] ending t u.outline :=
        Lowering.Spans.of_endsAt hread hstops hends
      exact ⟨[], ending, t, hspans.follows, hspans.covers, hspans.ends, hspans.length_le,
        hspans.limit_iff, hspans.instructions, hspans.targets⟩

end Runs

/-! ## Published blocks -/

namespace Assembly

theorem targets_step (a : Assembly) (item : Item) :
    (a.step item).exits.toList.map (·.target) =
      a.exits.toList.map (·.target) ++ item.target?.toList := by
  obtain ⟨code, pending, exits, entry⟩ := a
  cases item with
  | bind label =>
    simp only [step, Item.target?]
    split <;> exact (List.append_nil _).symm
  | leave target destination linked => simp [step, Item.target?]
  | _ => exact (List.append_nil _).symm

/-- The exits of an assembly are those of the symbolic code. -/
theorem targets_foldl (a : Assembly) (items : List Item) :
    (items.foldl step a).exits.toList.map (·.target) =
      a.exits.toList.map (·.target) ++ items.filterMap Item.target? := by
  induction items generalizing a with
  | nil => exact (List.append_nil _).symm
  | cons item items ih =>
    rw [List.foldl_cons, ih, targets_step, List.append_assoc, List.filterMap_cons]
    cases item.target? <;> rfl

end Assembly

theorem Block.targets_unlinked (b : Block) :
    b.unlinked.exits.toList.map (·.target) = b.exits.toList.map (·.target) := by
  simp [unlinked]

namespace BlockTable

variable [Bus β] {t : BlockTable} {bus : β} {options : Options} {regions : List FastRegion}
  {start : UInt32} {n : Nat}

/-- A published block has the instructions that were counted and the exits that were lowered. -/
theorem exists_published (h : (t.compile bus options regions start).result = .ok n) :
    ∃ b, (t.compile bus options regions start).table.block? n = some b ∧ b.start = start ∧
      b.instructions = (t.lower bus options regions start).2.instructions ∧
      b.exits.toList.map (·.target) = (t.lower bus options regions start).2.targets := by
  obtain ⟨-, -, -, rfl, ⟨events, hfinalize⟩, -⟩ := compile_eq_ok h
  generalize (t.lower bus options regions start).2 = r at hfinalize ⊢
  let b₀ : Block := ⟨start, r.instructions, 0, t.code.size, (t.extended r).entry,
    (t.extended r).exits⟩
  have hassembled : (t.assembled start r).blocks[t.size]? = some b₀ := Array.getElem?_push_size
  have hrelinks := relinks_finalize hassembled hfinalize
  let b₁ : Block := { b₀ with
    codeSize := ((t.assembled start r).code.size.toUInt64 - b₀.checkedEntry.toUInt64).toNat }
  have henlisted : ((t.assembled start r).enlisted t.size b₀).blocks[t.size]? = some b₁ := by
    rw [enlisted, Array.getElem?_modify, if_pos rfl, hassembled]
    rfl
  obtain ⟨b, hb, hunlinked⟩ := hrelinks.exists_block henlisted
  refine ⟨b, hb, ?_, ?_, ?_⟩
  · exact (congrArg Block.start hunlinked :)
  · exact (congrArg Block.instructions hunlinked :)
  · rw [← b.targets_unlinked, hunlinked, b₁.targets_unlinked]
    change (t.reserved.assemble r.code).exits.toList.map (·.target) = _
    rw [Assembly.assemble_eq_foldl, Assembly.targets_foldl]
    rfl

/-- What a compiled block covers and where it leads. The constants that are known at its ending are
those that the register cache tells there, after the run of plain instructions was lowered. -/
theorem compile_shape (h : (t.compile bus options regions start).result = .ok n) :
    ∃ b plain ending u, (t.compile bus options regions start).table.block? n = some b ∧
      b.start = start ∧
      (Lowering.entered bus t.stubs start).Follows
        ⟨options, regions, t.stubs, (t.opened start).entryAt t.size⟩ plain u ∧
      b.Consists bus options.maxBlockInstructions u.registers.immediate? plain ending := by
  obtain ⟨b, hb, hstart, hcount, htargets⟩ := exists_published h
  obtain ⟨-, hok, -, -, -, -⟩ := compile_eq_ok h
  -- The filler behind the instructions has no exits.
  have hexec := Lower.exec_block start
    ⟨options, regions, t.stubs, (t.opened start).entryAt t.size⟩ bus
  rw [lower] at hok hcount htargets
  rw [hexec] at hok hcount htargets
  dsimp only at hok hcount htargets
  rcases hbody : (Lower.body start options.maxBlockInstructions).exec
      ⟨options, regions, t.stubs, (t.opened start).entryAt t.size⟩
      (.entered bus t.stubs start) with ⟨e | ⟨⟨⟩⟩, v⟩ <;> rw [hbody] at hok hcount htargets
  · cases hok
  dsimp only at hcount htargets
  have hfiller : ({ v with code := v.code ++ [Item.align Lower.blockAlignment] } :
      Lowering β).targets = v.targets :=
    (v.targets_append _).trans (List.append_nil _)
  rw [hfiller] at htargets
  obtain ⟨plain, ending, u, hspans⟩ := Lower.exec_body_shape start _ rfl rfl hbody
  have hinstructions : v.instructions = UInt32.ofNat (plain ++ ending).length :=
    hspans.instructions.trans (UInt32.zero_add _)
  have hexits : v.targets = Instruction.endingSuccessors u.registers.immediate?
      (start + 4 * UInt32.ofNat plain.length) ending := hspans.targets
  have hle := hspans.length_le
  have hlimit := hspans.limit_iff
  have hends := hspans.ends
  refine ⟨b, plain, ending, u, hb, hstart, hspans.follows, ?_, ?_, hspans.follows.stops, hends,
    hlimit, ?_, ?_, ?_, ?_⟩
  · rw [hstart]
    exact hspans.covers
  · rw [hcount, hinstructions]
    exact UInt32.toNat_ofNat'
  · rw [List.length_append]
    -- A block ends at its limit, with an instruction alone, or with one and its delay slot.
    cases hends with
    | limit => exact Nat.le_succ_of_le hle
    | alone i => exact Nat.succ_le_succ hle
    | slotted i j =>
      have hne : plain.length ≠ options.maxBlockInstructions := fun heq => by
        cases hlimit.2 heq
      simp only [List.length_cons, List.length_nil]
      omega
  · rw [List.length_append]
    intro hfull
    cases hends with
    | limit =>
      simp only [List.length_nil] at hfull
      omega
    | alone i =>
      have hne : plain.length ≠ options.maxBlockInstructions := fun heq => by
        cases hlimit.2 heq
      simp only [List.length_cons, List.length_nil] at hfull
      omega
    | slotted i j hslot => exact ⟨i, j, rfl, (Bool.and_eq_true_iff.1 hslot).1⟩
  · rw [htargets, hexits, hstart]
  · have hsize : b.exits.size = (b.exits.toList.map (·.target)).length := by simp
    rw [hsize, htargets, hexits]
    cases ending with
    | nil => exact Nat.le_succ 1
    | cons i rest => exact Instruction.length_successors_le _ _

/-- A likely branch with a jump in its delay slot: `beql t0, t1, 0x1010; j 0x1000`. -/
def annulling : Rom :=
  ⟨fun addr => if addr = 0x1000 then 0x51090003 else 0x08000400⟩

/-- A table with room for one block. -/
def roomy : BlockTable :=
  ⟨Arena.blank 1024, #[], ∅, ∅, Stubs.standard, 1⟩

/-- Options that link no blocks. -/
def unlinking : Options :=
  { Options.standard with enableBlockLink := false }

/-- The delay slot is refused, and so the block has just the exit around it. -/
theorem compile_shape_of_annulling :
    ∃ b plain ending, ∃ u : Lowering Rom,
      (roomy.compile annulling unlinking [] 0x1000).table.block? 0 = some b ∧
      b.Consists annulling 128 u.registers.immediate? plain ending ∧
      b.exits.toList.map (·.target) = [0x1008] := by
  have hcheck : (roomy.lower annulling unlinking [] 0x1000).1.isOk = true ∧
      (roomy.extended (roomy.lower annulling unlinking [] 0x1000).2).code.overflowed = false ∧
      (roomy.lower annulling unlinking [] 0x1000).2.targets = [0x1008] := by
    decide +kernel
  obtain ⟨hisOk, hclean, htargets⟩ := hcheck
  have hresult : (roomy.compile annulling unlinking [] 0x1000).result = .ok 0 := by
    rw [compile_of_not_full (by decide)]
    generalize roomy.lower annulling unlinking [] 0x1000 = l at hisOk hclean
    obtain ⟨outcome, r⟩ := l
    cases outcome with
    | error e => cases hisOk
    | ok x =>
      dsimp only at hclean ⊢
      rw [hclean]
      dsimp only
      rw [finalize_eq Array.getElem?_push_size]
      rfl
  obtain ⟨b, plain, ending, u, hb, -, -, hshape⟩ := compile_shape hresult
  obtain ⟨b', hb', -, -, hexits⟩ := exists_published hresult
  obtain rfl : b = b' := Option.some.inj (hb.symm.trans hb')
  exact ⟨b, plain, ending, u, hb, hshape, hexits.trans htargets⟩

end BlockTable

end Recompiler
