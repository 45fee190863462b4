import Recompiler.Proofs.Block.Determined
import Recompiler.Proofs.Block.Shape
import Recompiler.Proofs.Guest.Lasting

/-!
# Lowering the same instructions again

Lowering looks at guest memory only where it reads instructions. A block that was lowered from one
memory is lowered to the same from any other that holds the same instructions at its addresses,
whatever is behind them.

* `Lower.Stays`: a step that reads no guest memory and stays at its instruction.
* `Lower.Rereads`: a step that reads `n` instructions behind the one it stays at.
* `Rereads.afterDelaySlot`, `Rereads.branch` and following: instructions with a delay slot.
* `Lower.exec_body_again`, `Lower.exec_block_again`: the instructions of a block tell what it is
  lowered to.
-/

namespace Recompiler

variable {β α γ : Type}

/-- A bus with nothing behind it, where every word is zero. -/
abbrev Bus.hollow (β : Type) : Bus β where
  read _ _ bus := (.ok 0, bus)
  write _ _ _ bus := (.ok (), bus)

/-- Harmless reading finds an instruction at once. -/
theorem Bus.Finds.at_once [Bus β] (hharmless : Bus.Harmless β) {bus : β} {pc : UInt32}
    {i : Instruction} (h : Bus.Finds bus pc i) : Bus.instructionAt pc bus = (.ok i, bus) := by
  obtain ⟨b, hreads, hi⟩ := h
  obtain rfl := hharmless.eq_of_readsTo hreads
  have hbus := hharmless.eq_of_readsTo (Bus.readsTo_instructionAt pc b)
  exact Prod.ext hi hbus

/-- The words from an address on are the same, `count` of them. -/
def Bus.SameFrom [Bus β] (bus bus' : β) (start : UInt32) (count : Nat) : Prop :=
  ∀ k < count, (Bus.read .word (start + 4 * UInt32.ofNat k) bus').1 =
    (Bus.read .word (start + 4 * UInt32.ofNat k) bus).1

/-- Words that are the same are the same instructions. -/
theorem Bus.Covers.of_sameFrom [Bus β] (hharmless : Bus.Harmless β) {bus bus' : β} {pc : UInt32}
    {is : List Instruction} (h : Bus.Covers bus pc is) (hsame : Bus.SameFrom bus bus' pc is.length) :
    Bus.Covers bus' pc is := by
  induction is generalizing pc with
  | nil => trivial
  | cons i is ih =>
    have hhere := hsame 0 (Nat.zero_lt_succ _)
    rw [show pc + 4 * UInt32.ofNat 0 = pc from UInt32.add_zero _] at hhere
    refine ⟨hharmless.finds_of_read_eq hhere.symm h.1, ih h.2 fun k hk => ?_⟩
    have hnext : pc + 4 + 4 * UInt32.ofNat k = pc + 4 * UInt32.ofNat (k + 1) := by
      rw [UInt32.ofNat_add, UInt32.mul_add, UInt32.add_comm (4 * UInt32.ofNat k), ← UInt32.add_assoc]
      rfl
    rw [hnext]
    exact hsame (k + 1) (Nat.succ_lt_succ hk)

namespace Lower

/-! ## Steps that read nothing -/

/-- The step reads no guest memory, and does the same for any. It stays at its instruction. -/
structure Stays (x : Lower β α) : Prop where
  blind : ∀ s t bus, exec x s { t with bus := bus } =
    ((exec x s t).1, { (exec x s t).2 with bus := bus })
  keeps : ∀ ⦃s t r u⦄, exec x s t = (.ok r, u) → u.pc = t.pc ∧ u.instructions = t.instructions

namespace Stays

theorem bind {x : Lower β α} {f : α → Lower β γ} (hx : Stays x) (hf : ∀ a, Stays (f a)) :
    Stays (x >>= f) := by
  refine ⟨fun s t bus => ?_, fun s t r v h => ?_⟩
  · rw [exec_bind, exec_bind, hx.blind s t bus]
    rcases exec x s t with ⟨_ | a, u⟩
    · rfl
    · exact (hf a).blind s u bus
  · obtain ⟨q, u, hfirst, hrest⟩ := exec_bind_eq_ok h
    obtain ⟨hpc, hcount⟩ := hx.keeps hfirst
    obtain ⟨hpc', hcount'⟩ := (hf q).keeps hrest
    exact ⟨hpc'.trans hpc, hcount'.trans hcount⟩

theorem ite {c : Prop} [Decidable c] {x y : Lower β α} (hx : Stays x) (hy : Stays y) :
    Stays (if c then x else y) := by
  split
  · exact hx
  · exact hy

/-- A step that makes sense without a bus cannot read from one. -/
theorem of_orderly {x : Lower β α} {jumped bound : List Nat}
    (hx : @Orderly β α (Bus.hollow β) x jumped bound)
    (hkeeps : ∀ ⦃s t r u⦄, exec x s t = (.ok r, u) →
      u.pc = t.pc ∧ u.instructions = t.instructions) : Stays x := by
  refine ⟨fun s t bus => ?_, hkeeps⟩
  let _ := Bus.hollow β
  -- No bus can be told from another one where every word is zero.
  have hmatched : Bus.Matched fun _ b : β => b = bus := fun _ _ h _ => ⟨rfl, h⟩
  have hrelated : s.KeepsRelated s fun c c' => c' = c :=
    ⟨fun _ _ h => congrArg (· ++ _) h, fun _ h => congrArg (· ++ _) h⟩
  have halike : t.Alike (fun _ b : β => b = bus) (fun c c' => c' = c) { t with bus := bus } :=
    ⟨rfl, rfl, rfl⟩
  obtain ⟨hsame, hcode, hbus, hothers⟩ := hx.uniform (.refl s) hmatched hrelated halike
  refine Prod.ext hsame ?_
  rw [hothers, hcode, hbus]

theorem of_exits {x : Lower β α} {jumped bound : List Nat} {targets : List UInt32}
    (hx : @Orderly β α (Bus.hollow β) x jumped bound) (hexits : Exits targets x) : Stays x :=
  of_orderly hx fun _ _ _ _ h =>
    ⟨congrArg Outline.pc (hexits h), congrArg Outline.instructions (hexits h)⟩

theorem pure (a : α) : Stays (Pure.pure a : Lower β α) :=
  of_exits (@Orderly.pure β α (Bus.hollow β) [] [] a) (.pure a)

theorem registerOperand (v : Except Breach UInt32) :
    Stays (Lower.registerOperand v : Lower β GuestIndex) :=
  of_exits (@Orderly.registerOperand β (Bus.hollow β) v) (.registerOperand v)

theorem currentPc : Stays (Lower.currentPc : Lower β UInt32) :=
  of_exits (@Orderly.currentPc β (Bus.hollow β)) .currentPc

theorem immediate? (reg : GuestIndex) :
    Stays (Lower.immediate? reg : Lower β (Option UInt32)) :=
  of_exits (@Orderly.immediate? β (Bus.hollow β) reg) (.immediate? reg)

theorem report (event : Event) : Stays (Lower.report event : Lower β Unit) :=
  of_exits (@Orderly.report β (Bus.hollow β) event) (.report event)

theorem flushAll : Stays (Lower.flushAll : Lower β Unit) :=
  of_exits (@Orderly.flushAll β (Bus.hollow β)) .flushAll

theorem emit (is : List HostInstruction) : Stays (Lower.emit is : Lower β Unit) :=
  of_exits (@Orderly.emit β (Bus.hollow β) is) (.emit is)

theorem append (items : List Item) : Stays (Lower.append items : Lower β Unit) :=
  ⟨fun _ _ _ => rfl, fun _ _ _ _ h => (Prod.mk.inj h).2 ▸ ⟨rfl, rfl⟩⟩

theorem freshLabel : Stays (Lower.freshLabel : Lower β Nat) :=
  ⟨fun _ _ _ => rfl, fun _ _ _ _ h => (Prod.mk.inj h).2 ▸ ⟨rfl, rfl⟩⟩

theorem close : Stays (Lower.close : Lower β Unit) :=
  ⟨fun _ _ _ => rfl, fun _ _ _ _ h => (Prod.mk.inj h).2 ▸ ⟨rfl, rfl⟩⟩

theorem updateRegisters (f : RegisterCache → RegisterCache) :
    Stays (Lower.updateRegisters f : Lower β Unit) :=
  of_exits (@Orderly.updateRegisters β (Bus.hollow β) f) (.updateRegisters f)

theorem setImmediate (reg : GuestIndex) (value : UInt32) :
    Stays (Lower.setImmediate reg value : Lower β Unit) :=
  updateRegisters _

theorem map_register (reg : GuestIndex) (access : Access) :
    Stays (Lower.map reg access : Lower β HostRegister) :=
  of_exits (@Orderly.map_register β (Bus.hollow β) reg access) (.map_register reg access)

theorem writeCompare (test : Test) : Stays (Lower.writeCompare test : Lower β Unit) :=
  of_exits (@Orderly.writeCompare β (Bus.hollow β) test) (.writeCompare test)

theorem writeExitCharging (target amount : UInt32) :
    Stays (Lower.writeExitCharging target amount : Lower β Unit) :=
  of_exits (@Orderly.writeExitCharging β (Bus.hollow β) target amount)
    (.writeExitCharging target amount)

theorem writeExit (target : UInt32) : Stays (Lower.writeExit target : Lower β Unit) :=
  of_exits (@Orderly.writeExit β (Bus.hollow β) target) (.writeExit target)

theorem writeRegisterExit (target : HostRegister) :
    Stays (Lower.writeRegisterExit target : Lower β Unit) :=
  of_exits (@Orderly.writeRegisterExit β (Bus.hollow β) target) (.writeRegisterExit target)

theorem writeCheckedExit : Stays (Lower.writeCheckedExit : Lower β Unit) :=
  of_exits (@Orderly.writeCheckedExit β (Bus.hollow β)) .writeCheckedExit

theorem writeBranchExits (skip : Condition) (target next : UInt32) :
    Stays (Lower.writeBranchExits skip target next : Lower β Unit) :=
  of_exits (@Orderly.writeBranchExits β (Bus.hollow β) skip target next)
    (.writeBranchExits skip target next)

theorem interpretCall (i : Instruction) (pc : UInt32) :
    Stays (Lower.interpretCall i pc : Lower β Unit) :=
  of_exits (@Orderly.interpretCall β (Bus.hollow β) i pc) (.interpretCall i pc)

theorem systemCall (i : Instruction) : Stays (Lower.systemCall i : Lower β Unit) :=
  (of_exits (@Orderly.followingPc β (Bus.hollow β)) .followingPc).bind fun _ =>
    (interpretCall _ _).bind fun _ => writeCheckedExit.bind fun _ => close

theorem trap : Stays (Lower.trap : Lower β Unit) :=
  (of_exits (@Orderly.followingPc β (Bus.hollow β)) .followingPc).bind fun _ =>
    flushAll.bind fun _ => (emit _).bind fun _ => (emit _).bind fun _ =>
      writeCheckedExit.bind fun _ => close

theorem hardFault : Stays (Lower.hardFault : Lower β Unit) :=
  of_orderly (@Orderly.hardFault β (Bus.hollow β)) fun _ _ _ _ h =>
    ⟨congrArg Outline.pc (outline_hardFault h), congrArg Outline.instructions (outline_hardFault h)⟩

theorem straight (i : Instruction) : Stays (Lower.straight i : Lower β Unit) := by
  refine of_orderly (@Orderly.straight β (Bus.hollow β) i) fun s t r u h => ?_
  have hu := outline_straight h
  split at hu
  · exact ⟨congrArg Outline.pc hu, congrArg Outline.instructions hu⟩
  · exact ⟨congrArg Outline.pc hu, congrArg Outline.instructions hu⟩

end Stays

/-! ## Delay slots -/

variable [Bus β]

/-- Where it succeeds, the step on the instruction at `pc` reads some instructions behind it, and does
the same on any bus that holds them. The number of these instructions is one of `lengths`. -/
def Rereads (pc : UInt32) (lengths : Nat → Prop) (x : Lower β α) : Prop :=
  ∀ ⦃s t r u⦄, t.pc = pc → exec x s t = (.ok r, u) →
    ∃ is : List Instruction, lengths is.length ∧ Bus.Covers t.bus (pc + 4) is ∧
      u.instructions = t.instructions + UInt32.ofNat is.length ∧
      ∀ bus, Bus.Covers bus (pc + 4) is →
        exec x s { t with bus := bus } = (.ok r, { u with bus := bus })

namespace Rereads

variable {pc : UInt32} {lengths lengths' : Nat → Prop}

theorem mono {x : Lower β α} (hx : Rereads pc lengths x) (h : ∀ n, lengths n → lengths' n) :
    Rereads pc lengths' x := by
  intro s t r u hpc hexec
  obtain ⟨is, hlength, hrest⟩ := hx hpc hexec
  exact ⟨is, h _ hlength, hrest⟩

theorem of_stays {x : Lower β α} (hx : Stays x) (hzero : lengths 0) : Rereads pc lengths x := by
  intro s t r u _ h
  refine ⟨[], hzero, trivial, (hx.keeps h).2.trans (UInt32.add_zero _).symm, fun bus _ => ?_⟩
  rw [hx.blind s t bus, h]

/-- A step that reads nothing, before the others. -/
theorem after {x : Lower β α} {f : α → Lower β γ} (hx : Stays x)
    (hf : ∀ r, Rereads pc lengths (f r)) : Rereads pc lengths (x >>= f) := by
  intro s t r v hpc h
  obtain ⟨q, u, hfirst, hrest⟩ := exec_bind_eq_ok h
  obtain ⟨hupc, hcount⟩ := hx.keeps hfirst
  have hfirst' (bus : β) : exec x s { t with bus := bus } = (.ok q, { u with bus := bus }) := by
    rw [hx.blind s t bus, hfirst]
  have hbus : u.bus = t.bus := by
    have hsame := hfirst.symm.trans (hfirst' t.bus)
    exact congrArg (fun r => r.2.bus) hsame
  obtain ⟨is, hlength, hcovers, hread, hagain⟩ := hf q (hupc.trans hpc) hrest
  refine ⟨is, hlength, hbus ▸ hcovers, hcount ▸ hread, fun bus hbus => ?_⟩
  rw [exec_bind_of_ok (hfirst' bus)]
  exact hagain bus hbus

theorem currentPc_bind {f : UInt32 → Lower β α} (hf : Rereads pc lengths (f pc)) :
    Rereads pc lengths (currentPc >>= f) := by
  rintro s t r u rfl h
  exact hf rfl h

theorem optional {c : Prop} [Decidable c] {x : Lower β Unit} {k : Unit → Lower β γ}
    (hx : Stays x) (hk : Rereads pc lengths (k ())) :
    Rereads pc lengths (if c then x >>= k else k ()) := by
  split
  · exact after hx fun _ => hk
  · exact hk

end Rereads

section Slots

variable (hharmless : Bus.Harmless β) {s : Surroundings} {t v : Lowering β}

include hharmless

/-- An instruction that was read before is read and lowered. -/
theorem exec_instructionWith_again {body : Instruction → Lower β Unit}
    (h : exec (instructionWith body) s t = (.ok (), v)) :
    ∃ i u, Bus.Finds t.bus t.pc i ∧ exec (body i) s (t.reading t.bus i) = (.ok (), u) ∧
      v = { u with registers := u.registers.release } ∧
      ∀ bus, Bus.Finds bus t.pc i →
        exec (body i) s (t.reading bus i) = (.ok (), { u with bus := bus }) →
          exec (instructionWith body) s { t with bus := bus } = (.ok (), { v with bus := bus }) := by
  obtain ⟨i, bus, u, hread, hbody, rfl⟩ := exec_instructionWith_reads h
  obtain rfl : bus = t.bus := by
    have hreads := Bus.readsTo_instructionAt t.pc t.bus
    rw [hread] at hreads
    exact hharmless.eq_of_readsTo hreads
  refine ⟨i, u, .of_instructionAt hread, hbody, rfl, fun bus hfinds hagain => ?_⟩
  have hread' : Bus.instructionAt (Lowering.pc { t with bus := bus }) bus = (.ok i, bus) :=
    hfinds.at_once hharmless
  have hreading : Lowering.reading { t with bus := bus } bus i = t.reading bus i := rfl
  rw [exec_instructionWith (t := { t with bus := bus }) hread', hreading, hagain]

/-- The delay slot is read and lowered. -/
theorem exec_delaySlot_again (h : exec delaySlot s t = (.ok (), v)) :
    ∃ j, Bus.Finds t.bus (t.pc + 4) j ∧ v.instructions = t.instructions + 1 ∧
      ∀ bus : β, Bus.Finds bus (t.pc + 4) j →
        exec delaySlot s { t with bus := bus } = (.ok (), { v with bus := bus }) := by
  have hslot (i : Instruction) : Stays (inSlot i : Lower β Unit) :=
    .ite (Stays.currentPc.bind fun _ => (Stays.report _).bind fun _ => .hardFault) (.straight i)
  obtain ⟨w, hexec, rfl⟩ := exists_inSlot h
  obtain ⟨j, u, hfinds, hbody, rfl, hagain⟩ := exec_instructionWith_again hharmless hexec
  refine ⟨j, hfinds, ((hslot j).keeps hbody).2, fun bus hbus => ?_⟩
  have hbody' := (hslot j).blind s (Lowering.reading { t with pc := t.pc + 4 } t.bus j) bus
  rw [hbody] at hbody'
  exact exec_delaySlot_of_exec (t := { t with bus := bus }) (hagain bus hbus hbody')

namespace Rereads

variable {pc : UInt32}

/-- The delay slot, and what comes after it. -/
theorem afterDelaySlot {rest : Lower β Unit} (hrest : Stays rest) :
    Rereads pc (· = 1) (Lower.afterDelaySlot rest) := by
  rintro s t r v rfl h
  obtain ⟨⟨⟩, u, hslot, h⟩ := exec_bind_eq_ok h
  rw [exec_get_bind] at h
  obtain ⟨j, hfinds, hcount, hagain⟩ := exec_delaySlot_again hharmless hslot
  have hlast : Stays (if !u.cancelled then rest else Pure.pure ()) := .ite hrest (.pure ())
  refine ⟨[j], rfl, ⟨hfinds, trivial⟩, (hlast.keeps h).2.trans hcount, fun bus hcovers => ?_⟩
  have hagain' := hlast.blind s u bus
  rw [Lower.afterDelaySlot, exec_bind_of_ok (hagain bus hcovers.1), exec_get_bind, hagain', h]

/-- The delay slot may be read ahead. -/
theorem decode_bind {k : Instruction → Lower β Unit} (hk : ∀ i, Rereads pc (· = 1) (k i)) :
    Rereads pc (· = 1) (decode (pc + 4) >>= k) := by
  intro s t r v hpc h
  obtain ⟨i, u, hread, hrest⟩ := exec_bind_eq_ok h
  obtain ⟨bus, hbus, rfl⟩ := instructionAt_of_exec_decode hread
  obtain rfl : bus = t.bus := by
    have hreads := Bus.readsTo_instructionAt (pc + 4) t.bus
    rw [hbus] at hreads
    exact hharmless.eq_of_readsTo hreads
  obtain ⟨is, hlength, hcovers, hcount, hagain⟩ := hk i (t := t) hpc hrest
  refine ⟨is, hlength, hcovers, hcount, fun bus hbus' => ?_⟩
  -- The instruction that was read ahead is the one that is lowered.
  obtain ⟨j, rfl⟩ := List.length_eq_one_iff.1 hlength
  obtain rfl : i = j := hharmless.eq_of_finds (.of_instructionAt hbus) hcovers.1
  have hahead : Bus.instructionAt (pc + 4) (Lowering.bus { t with bus := bus }) = (.ok i, bus) :=
    hbus'.1.at_once hharmless
  rw [exec_bind_of_ok (exec_decode_of_ok s hahead)]
  exact hagain bus hbus'

/-- The way around the delay slot of a likely branch is lowered after it. -/
theorem likelyBranch (test : Test) (links : Bool) (target next : UInt32) :
    Rereads pc (· = 1) (Lower.likelyBranch test links target next : Lower β Unit) := by
  refine after (.writeCompare _) fun _ => after .flushAll fun _ => optional (.emit _) ?_
  refine after .freshLabel fun notTaken => after (.append _) fun _ => ?_
  rintro s t r v rfl h
  rw [exec_get_bind, exec_bind_of_ok (exec_attempt ..)] at h
  rcases hslot : exec delaySlot s t with ⟨e | ⟨⟨⟩⟩, u⟩ <;> rw [hslot] at h
  · cases h
  dsimp only at h
  rw [if_pos rfl, exec_get_bind] at h
  obtain ⟨j, hfinds, hcount, hagain⟩ := exec_delaySlot_again hharmless hslot
  let around : Lower β Unit := Lower.updateRegisters (fun _ => t.registers) >>= fun _ =>
    Lower.append [.bind notTaken] >>= fun _ =>
      Lower.writeExitCharging next t.cycles >>= fun _ => Pure.pure ()
  have haround : Stays around := (Stays.updateRegisters _).bind fun _ => (Stays.append _).bind
    fun _ => (Stays.writeExitCharging _ _).bind fun _ => .pure ()
  let rest : Lower β Unit := if !u.cancelled then
      Lower.flushAll >>= fun _ => Lower.writeExit target >>= fun _ => around
    else around
  have hrest : Stays rest :=
    .ite (Stays.flushAll.bind fun _ => (Stays.writeExit _).bind fun _ => haround) haround
  have hrun : exec rest s u = (.ok r, v) := h
  refine ⟨[j], rfl, ⟨hfinds, trivial⟩, (hrest.keeps hrun).2.trans hcount, fun bus hcovers => ?_⟩
  rw [exec_get_bind, exec_bind_of_ok (exec_attempt ..), hagain bus hcovers.1]
  dsimp only
  rw [if_pos rfl, exec_get_bind]
  have hrun' := hrest.blind s u bus
  rwa [hrun] at hrun'

theorem savedBranch (test : Test) (links : Bool) (target next : UInt32) :
    Rereads pc (· = 1) (Lower.savedBranch test links target next : Lower β Unit) :=
  after (.writeCompare _) fun _ => after (.emit _) fun _ => after (.updateRegisters _) fun _ =>
    optional (.setImmediate _ _) <| afterDelaySlot hharmless <| Stays.flushAll.bind fun _ =>
      (Stays.emit _).bind fun _ => .writeBranchExits _ _ _

theorem lateBranch (test : Test) (links : Bool) (target next : UInt32) :
    Rereads pc (· = 1) (Lower.lateBranch test links target next : Lower β Unit) := by
  unfold Lower.lateBranch
  exact optional (.setImmediate _ _) <| afterDelaySlot hharmless <|
    (Stays.writeCompare _).bind fun _ => Stays.flushAll.bind fun _ => .writeBranchExits _ _ _

/-- A branch whose outcome is known passes its delay slot over if it is likely, and not taken. -/
theorem decidedBranch (taken likely links : Bool) (target next : UInt32) :
    Rereads pc (· ≤ 1)
      (Lower.decidedBranch taken likely links target next : Lower β Unit) := by
  refine after .currentPc fun _ => after (.report _) fun _ => optional (.setImmediate _ _) ?_
  have hleave : Stays (β := β) (Lower.flushAll >>= fun _ =>
      Lower.writeExit (if taken then target else next)) :=
    Stays.flushAll.bind fun _ => .writeExit _
  dsimp only
  split
  · exact (afterDelaySlot hharmless hleave).mono fun _ => Nat.le_of_eq
  · exact of_stays hleave (Nat.zero_le 1)

/-- A branch reads its delay slot unless it is known that this is passed over. -/
theorem branch (i : Instruction) (test : Test) (target : UInt32) :
    Rereads pc (· ≤ 1) (Lower.branch i test target : Lower β Unit) := by
  have hundecided (next : UInt32) : Rereads pc (· ≤ 1) (if i.mnemonic.discardsDelaySlot then
      Lower.likelyBranch (β := β) test i.mnemonic.links target next
    else Lower.decode (pc + 4) >>= fun slot =>
      if (slot.outputRegister?.any fun reg => test.reads (guestOperand reg)) ||
          (i.mnemonic.links && test.reads linkRegister) then
        Lower.savedBranch test i.mnemonic.links target next
      else Lower.lateBranch test i.mnemonic.links target next) := by
    refine Rereads.mono ?_ fun _ => Nat.le_of_eq
    split
    · exact likelyBranch hharmless _ _ _ _
    · refine decode_bind hharmless fun slot => ?_
      split
      · exact savedBranch hharmless _ _ _ _
      · exact lateBranch hharmless _ _ _ _
  refine currentPc_bind <| after .close fun _ => after (.immediate? _) fun lhs? => ?_
  cases test.rt with
  | none =>
    refine after (.pure _) fun rhs? => ?_
    dsimp only
    split
    · exact decidedBranch hharmless _ _ _ _ _
    · exact hundecided _
  | some rt =>
    refine after (.immediate? _) fun rhs? => ?_
    dsimp only
    split
    · exact decidedBranch hharmless _ _ _ _ _
    · exact hundecided _

theorem jump (links : Bool) (target : UInt32) :
    Rereads pc (· = 1) (Lower.jump links target : Lower β Unit) :=
  after .currentPc fun _ => after .close fun _ => optional (.setImmediate _ _) <|
    afterDelaySlot hharmless <| Stays.flushAll.bind fun _ => .writeExit _

theorem registerJump (rs rd : GuestIndex) :
    Rereads pc (· = 1) (Lower.registerJump rs rd : Lower β Unit) := by
  refine currentPc_bind <| after .close fun _ => after (.immediate? _) fun target? => ?_
  cases target? with
  | some target =>
    exact after (.setImmediate _ _) fun _ => afterDelaySlot hharmless <|
      Stays.flushAll.bind fun _ => .writeExit _
  | none =>
    refine decode_bind hharmless fun slot => ?_
    dsimp only
    split
    · exact after (.map_register _ _) fun _ => after (.emit _) fun _ =>
        after (.setImmediate _ _) fun _ => afterDelaySlot hharmless <|
          Stays.flushAll.bind fun _ => (Stays.emit _).bind fun _ => .writeRegisterExit _
    · exact after (.setImmediate _ _) fun _ => afterDelaySlot hharmless <|
        (Stays.map_register _ _).bind fun _ => Stays.flushAll.bind fun _ => .writeRegisterExit _

end Rereads

/-! ## Blocks -/

/-- What is done with an instruction that was read. -/
theorem rereads_instruction (i : Instruction) (pc : UInt32) :
    Rereads pc (· ≤ 1) (currentPc >>= fun pc =>
      let target := (i.staticTarget? pc).getD 0
      match i.mnemonic with
      | .syscall => systemCall (β := β) i
      | .breakpoint => trap
      | .j => jump false target
      | .jal => jump true target
      | .jr => registerOperand i.rs >>= fun rs => registerJump rs zeroRegister
      | .jalr => registerOperand i.rs >>= fun rs => registerOperand i.rd >>= fun rd =>
        registerJump rs rd
      | m =>
        match Condition.ofBranch? m with
        | some (c, true) => registerOperand i.rs >>= fun rs => registerOperand i.rt >>= fun rt =>
          branch i ⟨c, rs, some rt⟩ target
        | some (c, false) => registerOperand i.rs >>= fun rs => branch i ⟨c, rs, none⟩ target
        | none => straight i) := by
  -- A jump reads one more instruction, its delay slot.
  have hone (x : Lower β Unit) (hx : Rereads pc (· = 1) x) : Rereads pc (· ≤ 1) x :=
    hx.mono fun _ => Nat.le_of_eq
  refine .currentPc_bind ?_
  dsimp only
  split
  · exact .of_stays (.systemCall i) (Nat.zero_le 1)
  · exact .of_stays .trap (Nat.zero_le 1)
  · exact hone _ (.jump hharmless _ _)
  · exact hone _ (.jump hharmless _ _)
  · exact .after (.registerOperand _) fun rs => hone _ (.registerJump hharmless _ _)
  · exact .after (.registerOperand _) fun rs => .after (.registerOperand _) fun rd =>
      hone _ (.registerJump hharmless _ _)
  · split
    · exact .after (.registerOperand _) fun rs => .after (.registerOperand _) fun rt =>
        .branch hharmless _ _ _
    · exact .after (.registerOperand _) fun rs => .branch hharmless _ _ _
    · exact .of_stays (.straight i) (Nat.zero_le 1)

/-- An instruction, with its delay slot where it has one. -/
theorem exec_instruction_again (h : exec instruction s t = (.ok (), v)) :
    ∃ is : List Instruction, is.length ≤ 2 ∧ Bus.Covers t.bus t.pc is ∧
      v.instructions = t.instructions + UInt32.ofNat is.length ∧
      ∀ bus : β, Bus.Covers bus t.pc is →
        exec instruction s { t with bus := bus } = (.ok (), { v with bus := bus }) := by
  obtain ⟨i, u, hfinds, hbody, rfl, hagain⟩ := exec_instructionWith_again hharmless h
  obtain ⟨is, hlength, hcovers, hcount, hsame⟩ :=
    rereads_instruction hharmless i t.pc (t := t.reading t.bus i) rfl hbody
  refine ⟨i :: is, Nat.succ_le_succ hlength, ⟨hfinds, hcovers⟩, ?_, fun bus hbus => ?_⟩
  · rw [List.length_cons, Nat.add_comm, UInt32.ofNat_add, ← UInt32.add_assoc]
    exact hcount
  · exact hagain bus hbus.1 (hsame bus hbus.2)

omit hharmless in
/-- The block goes on behind a plain instruction only, which has no delay slot. -/
theorem exec_instruction_open (hcancelled : t.cancelled = false)
    (h : exec instruction s t = (.ok (), v)) (hopen : v.isOpen = true) :
    v.pc = t.pc ∧ v.instructions = t.instructions + 1 ∧ v.cancelled = false := by
  obtain ⟨i, bus, u, -, rfl, ⟨hstops, hlower⟩ | ⟨-, hends⟩⟩ :=
    exec_instruction_outline hcancelled h
  · have hrefused : i.mnemonic.isRefused = false := (Bool.or_eq_false_iff.1 hstops).2
    have hu := outline_straight hlower
    rw [hrefused] at hu
    exact ⟨congrArg Outline.pc hu, congrArg Outline.instructions hu,
      (congrArg Outline.cancelled hu).trans hcancelled⟩
  · obtain ⟨_, -, hends⟩ := hends
    have hclosed : u.isOpen = false := hends.isOpen
    cases hopen.symm.trans hclosed

/-- A run of instructions, by induction on the limit. -/
theorem exec_body_again (start : UInt32) (limit : Nat) (hcancelled : t.cancelled = false)
    (h : exec (body start limit) s t = (.ok (), v)) :
    ∃ is : List Instruction, is.length ≤ limit + 1 ∧ Bus.Covers t.bus t.pc is ∧
      v.instructions = t.instructions + UInt32.ofNat is.length ∧
      ∀ bus : β, Bus.Covers bus t.pc is →
        exec (body start limit) s { t with bus := bus } = (.ok (), { v with bus := bus }) := by
  induction limit generalizing t with
  | zero =>
    have hstays : Stays (body (β := β) start 0) :=
      (Stays.report _).bind fun _ => Stays.flushAll.bind fun _ => Stays.currentPc.bind fun _ =>
        .writeExit _
    refine ⟨[], Nat.zero_le 1, trivial, ?_, fun bus _ => ?_⟩
    · exact (hstays.keeps h).2.trans (UInt32.add_zero _).symm
    · rw [hstays.blind s t bus, h]
  | succ limit ih =>
    obtain ⟨⟨⟩, w, hfirst, h⟩ := exec_bind_eq_ok h
    rw [exec_bind_of_ok (exec_modify ..), exec_get_bind] at h
    obtain ⟨is, hlength, hcovers, hcount, hagain⟩ := exec_instruction_again hharmless hfirst
    have hbus : w.bus = t.bus := by
      have hsame := hfirst.symm.trans (hagain t.bus hcovers)
      exact congrArg (fun r => r.2.bus) hsame
    have hstart (bus : β) (hbus : Bus.Covers bus t.pc is) :
        exec (body start (limit + 1)) s { t with bus := bus } =
          exec (if w.isOpen then body start limit else Pure.pure ()) s
            { w with bus := bus, pc := w.pc + 4 } := by
      rw [body, exec_bind_of_ok (hagain bus hbus), exec_bind_of_ok (exec_modify ..), exec_get_bind]
    dsimp only at h
    cases hgoes : w.isOpen with
    | false =>
      rw [hgoes] at h hstart
      obtain rfl := (Prod.mk.inj h).2
      exact ⟨is, Nat.le_trans hlength (by omega), hcovers, hcount, hstart⟩
    | true =>
      rw [if_pos hgoes] at h
      obtain ⟨hpc, hnext, hwhole⟩ := exec_instruction_open hcancelled hfirst hgoes
      obtain ⟨more, hmore, hcovers', hcount', hagain'⟩ :=
        ih (t := { w with pc := w.pc + 4 }) hwhole h
      -- Only a transfer of control covers a delay slot too, and it closes the block.
      obtain ⟨i, rfl⟩ : ∃ i, is = [i] := by
        have hone : UInt32.ofNat is.length = 1 := (UInt32.add_right_inj _).1 (hcount.symm.trans hnext)
        have hsmall : is.length < UInt32.size := Nat.lt_of_le_of_lt hlength (by decide)
        refine List.length_eq_one_iff.1 ((UInt32.toNat_ofNat_of_lt' hsmall).symm.trans ?_)
        exact congrArg UInt32.toNat hone
      dsimp only at hcovers' hcount' hagain'
      rw [hpc] at hcovers' hagain'
      rw [hbus] at hcovers'
      refine ⟨i :: more, Nat.succ_le_succ hmore, ⟨hcovers.1, hcovers'⟩, ?_, fun bus hbus => ?_⟩
      · rw [hcount', hnext, List.length_cons, Nat.add_comm more.length, UInt32.ofNat_add,
          ← UInt32.add_assoc]
        rfl
      · rw [hstart bus ⟨hbus.1, trivial⟩, if_pos hgoes, hpc]
        exact hagain' bus hbus.2

/-- The instructions of a block tell what it is lowered to. -/
theorem exec_block_again {start : UInt32} {bus : β} {u : Lowering β}
    (h : exec (block start) s (.initial bus start) = (.ok (), u)) :
    ∃ is : List Instruction, is.length ≤ s.options.maxBlockInstructions + 1 ∧
      Bus.Covers bus start is ∧ u.instructions = UInt32.ofNat is.length ∧
      ∀ bus' : β, Bus.Covers bus' start is →
        exec (block start) s (.initial bus' start) = (.ok (), { u with bus := bus' }) := by
  rw [exec_block] at h
  rcases hbody : exec (body start s.options.maxBlockInstructions) s (.entered bus s.stubs start)
    with ⟨e | ⟨⟨⟩⟩, v⟩ <;> rw [hbody] at h
  · cases h
  obtain rfl := (Prod.mk.inj h).2
  obtain ⟨is, hlength, hcovers, hcount, hagain⟩ := exec_body_again hharmless start _ rfl hbody
  refine ⟨is, hlength, hcovers, hcount.trans (UInt32.zero_add _), fun bus' hbus' => ?_⟩
  have hentered : ({ Lowering.entered bus s.stubs start with bus := bus' } : Lowering β) =
      .entered bus' s.stubs start := rfl
  have hbody' := hagain bus' hbus'
  rw [hentered] at hbody'
  rw [exec_block, hbody']

end Slots

variable {o : Options} {regions : List FastRegion} {bus bus' : β} {start : UInt32}

/-- The lowering of the block at an address while there are no others. -/
def afresh (o : Options) (regions : List FastRegion) (bus : β) (start : UInt32) :
    Except Failure Unit × Lowering β :=
  exec (block start) ⟨o, regions, Stubs.standard, fun _ => none⟩ (.initial bus start)

/-- A block whose words are the same is lowered to the same. -/
theorem afresh_again (hharmless : Bus.Harmless β)
    (hlimit : o.maxBlockInstructions + 1 < UInt32.size)
    (hok : (afresh o regions bus start).1 = .ok ())
    (hwords : Bus.SameFrom bus bus' start (afresh o regions bus start).2.instructions.toNat) :
    (afresh o regions bus' start).1 = .ok () ∧
      bodyCode o regions bus' start = bodyCode o regions bus start := by
  obtain ⟨is, hlength, hcovers, hcount, hagain⟩ :=
    exec_block_again hharmless (Prod.ext hok rfl : afresh o regions bus start = (.ok (), _))
  rw [hcount, UInt32.toNat_ofNat_of_lt' (Nat.lt_of_le_of_lt hlength hlimit)] at hwords
  have hsame := hagain bus' (hcovers.of_sameFrom hharmless hwords)
  refine ⟨congrArg Prod.fst hsame, ?_⟩
  rw [bodyCode, hsame]
  rfl

end Lower

end Recompiler
