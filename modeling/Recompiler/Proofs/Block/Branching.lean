import Recompiler.Proofs.Block.Transferring
import Recompiler.Proofs.Block.Unread
import Recompiler.Proofs.Code.Stubs
import Recompiler.Proofs.Memory.Rom

/-!
# Branches, links and delay slots

The code for any instruction that transfers control, together with the instruction in its delay slot:
where it leads, and which registers it leaves behind.

* `Lower.departs_transfer`: the instructions that have a delay slot.
* `Bus.Serves`: an address that reads as the same instruction every time.
* `Instruction.turn`: the link write, followed by the delay slot.
* `Lower.transfer_leaves_for_destination`: where the code goes, and the registers it leaves behind.
-/

namespace Recompiler

open HostMachine

variable {β : Type}

/-! ## Operands -/

namespace Lower

variable {s : Surroundings} {t u : Lowering β}

theorem exec_registerOperand_eq_ok {x : Except Breach UInt32} {reg : GuestIndex}
    (h : exec (registerOperand x) s t = (.ok reg, u)) :
    ∃ v, x = .ok v ∧ reg = guestOperand v ∧ u = t := by
  cases x with
  | error b => cases h
  | ok v =>
    obtain ⟨hreg, rfl⟩ := Prod.mk.inj h
    exact ⟨v, rfl, (Except.ok.inj hreg).symm, rfl⟩

/-- An operand that was asked for is a register of the instruction. -/
theorem exec_operand_bind {i : Instruction} (hi : i.entry ∈ Entry.table) {op : Operand}
    (hop : op.isRegister = true) {what : String} {k : GuestIndex → Lower β Unit}
    (h : exec (registerOperand (i.operand op what) >>= k) s t = (.ok (), u)) :
    ∃ reg : GuestIndex, i.registerOf op = reg.val ∧ exec (k reg) s t = (.ok (), u) := by
  obtain ⟨reg, w, hreg, hexec⟩ := exec_bind_eq_ok h
  obtain ⟨v, hv, rfl, rfl⟩ := exec_registerOperand_eq_ok hreg
  exact ⟨_, Instruction.registerOf_of_operand hi hop hv, hexec⟩

end Lower

/-! ## Transfers of control -/

variable [Bus β]

/-- Jumps and branches are what has a delay slot. -/
theorem Mnemonic.cases_of_hasDelaySlot (m : Mnemonic) (h : m.hasDelaySlot = true) :
    m = .j ∨ m = .jal ∨ m = .jr ∨ m = .jalr ∨ (Condition.ofBranch? m).isSome = true := by
  revert h
  cases m <;> decide

theorem Mnemonic.isRefused_of_hasDelaySlot {m : Mnemonic} (h : m.hasDelaySlot = true) :
    m.isRefused = false := by
  revert h
  cases m <;> decide

omit [Bus β] in
/-- What a branch tests. -/
theorem Lower.tests_of_ofBranch? {i : Instruction} {c : Condition} {two : Bool} {rs rt : GuestIndex}
    (h : Condition.ofBranch? i.mnemonic = some (c, two)) (hrs : i.registerOf .source = rs.val)
    (hrt : two = true → i.registerOf .target = rt.val) (pc : UInt32) :
    Lower.Tests β i ⟨c, rs, if two then some rt else none⟩ pc ((i.staticTarget? pc).getD 0) := by
  refine ⟨fun e => ?_, rfl, ⟨?_, ?_⟩, fun known => ?_⟩
  · rw [Instruction.isTaken, Mnemonic.isTakenWith_of_ofBranch? h, hrs]
    cases two with
    | false => rfl
    | true =>
      rw [hrt rfl]
      rfl
  · rintro hm
    rw [hm] at h
    cases h
  · rintro hm
    rw [hm] at h
    cases h
  · rw [Instruction.outcome?_of_ofBranch? h, i.guest_eq hrs]
    cases two with
    | false => rfl
    | true =>
      rw [i.guest_eq (hrt rfl)]
      rfl

namespace Lower

omit [Bus β] in
theorem JumpsTo.of_jr {i : Instruction} {rs : GuestIndex} {pc : UInt32} (hm : i.mnemonic = .jr)
    (hrs : i.registerOf .source = rs.val) : JumpsTo β i rs zeroRegister pc where
  destination e := by
    rw [Instruction.destination, Instruction.isTaken, hm, hrs]
    rfl
  link e := by
    rw [Instruction.link, hm]
    rfl
  annuls e := by
    rw [Instruction.annuls, hm]
    rfl
  runsSlot known := by
    rw [Instruction.runsSlot, hm]
    rfl

omit [Bus β] in
theorem JumpsTo.of_jalr {i : Instruction} {rs rd : GuestIndex} {pc : UInt32}
    (hm : i.mnemonic = .jalr) (hrs : i.registerOf .source = rs.val)
    (hrd : i.registerOf .destination = rd.val) : JumpsTo β i rs rd pc where
  destination e := by
    rw [Instruction.destination, Instruction.isTaken, hm, hrs]
    rfl
  link e := by
    rw [Instruction.link, if_pos hm, hrd]
  annuls e := by
    rw [Instruction.annuls, hm]
    rfl
  runsSlot known := by
    rw [Instruction.runsSlot, hm]
    rfl

variable {s : Surroundings} {t v : Lowering β} {i j : Instruction}
  {reads : UInt32 → Instruction → Prop}

/-- The code for a transfer of control and its delay slot, if that is covered. -/
theorem departs_transfer (haccepted : s.options.Accepted s.regions) {bus : β}
    (hcancelled : t.cancelled = false) (hi : Bus.instructionAt t.pc t.bus = (.ok i, bus))
    (hdelays : i.mnemonic.hasDelaySlot = true) (htable : ∀ pc i, reads pc i → i.entry ∈ Entry.table)
    (hfinds : reads t.pc i) (hslot : i.runsSlot t.registers.immediate? = true →
      ∀ j, Bus.Finds t.bus (t.pc + 4) j → reads (t.pc + 4) j) {limit : Nat}
    (hexec : exec instruction s t = (.ok (), v)) :
    t.Departs s (Course s.options s.regions reads (limit + 1) t.pc t.cycles) v := by
  obtain ⟨i', bus', u, hi', hexec, rfl⟩ := exec_instructionWith_reads hexec
  cases hi.symm.trans hi'
  have hentry := Bus.mem_table_of_instructionAt hi
  have hahead := Bus.readsTo_instructionAt t.pc t.bus
  rw [hi] at hahead
  have ht : Turning reads i t.pc t.cycles (t.reading bus i) :=
    ⟨htable, rfl, rfl, hcancelled, hfinds, hdelays,
      fun hruns j hj => hslot hruns j (.of_reads hahead hj)⟩
  -- Reading the instruction comes before lowering it, and releasing the cache after that.
  suffices hdeparts : (t.reading bus i).Departs s
      (Course s.options s.regions reads (limit + 1) t.pc t.cycles) u by
    have hidle : t.Departs s (Course s.options s.regions reads (limit + 1) t.pc t.cycles) u :=
      departs_of_idle (u := t.reading bus i) rfl (fun _ _ h => h.setPc _) hdeparts
    exact hidle.extend Array.appendList_nil.symm
  rw [exec_bind_of_ok (exec_currentPc ..)] at hexec
  -- The lowering tells transfers of control apart by their mnemonics.
  split at hexec
  · next hm => rw [hm] at hdelays; cases hdelays
  · next hm => rw [hm] at hdelays; cases hdelays
  · next hm =>
    have hlinks : i.mnemonic.links = false := by rw [hm]; rfl
    exact departs_jump haccepted ht (.inl hm) rfl (hlinks ▸ hexec)
  · next hm =>
    have hlinks : i.mnemonic.links = true := by rw [hm]; rfl
    exact departs_jump haccepted ht (.inr hm) rfl (hlinks ▸ hexec)
  · next hm =>
    obtain ⟨rs, hrs, hexec⟩ := exec_operand_bind hentry rfl hexec
    exact departs_registerJump haccepted ht (.of_jr hm hrs) hexec
  · next hm =>
    obtain ⟨rs, hrs, hexec⟩ := exec_operand_bind hentry rfl hexec
    obtain ⟨rd, hrd, hexec⟩ := exec_operand_bind hentry rfl hexec
    exact departs_registerJump haccepted ht (.of_jalr hm hrs hrd) hexec
  · split at hexec
    · next c hbranch =>
      obtain ⟨rs, hrs, hexec⟩ := exec_operand_bind hentry rfl hexec
      obtain ⟨rt, hrt, hexec⟩ := exec_operand_bind hentry rfl hexec
      exact departs_branch haccepted ht (tests_of_ofBranch? hbranch hrs (fun _ => hrt) t.pc) hexec
    · next c hbranch =>
      obtain ⟨rs, hrs, hexec⟩ := exec_operand_bind hentry rfl hexec
      have hsecond : false = true → i.registerOf .target = rs.val := nofun
      have htest : Tests β i ⟨c, rs, none⟩ t.pc ((i.staticTarget? t.pc).getD 0) :=
        tests_of_ofBranch? hbranch hrs hsecond t.pc
      exact departs_branch haccepted ht htest hexec
    · next hj hjal hjr hjalr _ hnone =>
      rcases i.mnemonic.cases_of_hasDelaySlot hdelays with hm | hm | hm | hm | hsome
      · exact (hj hm).elim
      · exact (hjal hm).elim
      · exact (hjr hm).elim
      · exact (hjalr hm).elim
      · rw [hnone] at hsome
        cases hsome

end Lower

/-! ## What a transfer of control does -/

/-- The address reads as the instruction, now and after other reads. -/
def Bus.Serves (bus : β) (pc : UInt32) (i : Instruction) : Prop :=
  ∀ b, ReadsTo bus b → (instructionAt pc b).1 = .ok i

namespace Bus.Serves

variable {bus bus' : β} {pc : UInt32} {i j : Instruction}

theorem finds (h : Serves bus pc i) : Finds bus pc i :=
  ⟨bus, .refl, h bus .refl⟩

theorem eq_of_finds (h : Serves bus pc i) (hj : Finds bus pc j) : j = i := by
  obtain ⟨b, hreads, hread⟩ := hj
  exact (Except.ok.inj ((h b hreads).symm.trans hread)).symm

theorem exists_instructionAt (h : Serves bus pc i) :
    ∃ bus', instructionAt pc bus = (.ok i, bus') ∧ ReadsTo bus bus' :=
  ⟨(instructionAt pc bus).2, Prod.ext (h bus .refl) rfl, readsTo_instructionAt pc bus⟩

theorem not_slotFailsTwice {e : CompileError} (h : Serves bus (pc + 4) j)
    (hreads : ReadsTo bus bus') : ¬ Lower.SlotFailsTwice pc bus' e := by
  rintro (hfails | ⟨k, b, hread, hfails⟩)
  · cases (h bus' hreads).symm.trans hfails
  · have hahead := readsTo_instructionAt (pc + 4) bus'
    rw [hread] at hahead
    cases (h b (hreads.trans hahead)).symm.trans hfails

end Bus.Serves

/-- The guest after a transfer of control `i` at `pc` with `j` in its delay slot. The return address
is written whatever the outcome. Then the delay slot runs, unless it is annulled. -/
def Instruction.turn (o : Options) (regions : List FastRegion) (known : Bool) (i j : Instruction)
    (pc : UInt32) (e : Environment β) : Environment β :=
  if i.annuls e then i.link pc e else j.perform o regions known (pc + 4) (i.link pc e)

/-- Control leaves for an address with the registers and the memory of the guest `e`. -/
structure Departure.LeavesFor (d : Departure β) (target : UInt32) (e : Environment β) : Prop where
  pc : d.env.state.get Slot.pc = target
  way : d.way = .dispatch ∨ ∃ spent, d.way = .exit target spent
  registers : ∀ slot ≤ Slot.lo, d.env.state.get slot = e.state.get slot
  bus : d.env.bus = e.bus

namespace Departure.LeavesFor

variable {d : Departure β} {target amount : UInt32} {e : Environment β}

omit [Bus β] in
theorem get_charged {slot : Nat} (hslot : slot ≤ Slot.lo) (target amount : UInt32)
    (e : Environment β) :
    ((e.charge amount).setWord Slot.pc target).state.get slot = e.state.get slot := by
  have hne {other : Nat} (h : Slot.lo < other) : other ≠ slot := fun heq => by omega
  exact ((e.charge amount).get_setWord (hne (by decide)) target).trans
    (e.get_setWord (hne (by decide)) _)

omit [Bus β] in
theorem exit (target amount : UInt32) (e : Environment β) :
    (Departure.exit target amount e).LeavesFor target e where
  pc := State.get_set_self _ (by decide) _
  way := .inr ⟨_, rfl⟩
  registers _ hslot := get_charged hslot target amount e
  bus := rfl

omit [Bus β] in
theorem dispatch (target amount : UInt32) (e : Environment β) :
    (Departure.dispatch target amount e).LeavesFor target e where
  pc := State.get_set_self _ (by decide) _
  way := .inl rfl
  registers _ hslot := get_charged hslot target amount e
  bus := rfl

omit [Bus β] in
theorem after (h : d.LeavesFor target e) (calls : List (Call β)) :
    (d.after calls).LeavesFor target e :=
  ⟨h.pc, h.way, h.registers, h.bus⟩

omit [Bus β] in
/-- The scratch word of branches is no register. -/
theorem of_keep {kept : Option UInt32} (h : d.LeavesFor target (e.keep kept)) :
    d.LeavesFor target e := by
  cases kept with
  | none => exact h
  | some value =>
    refine ⟨h.pc, h.way, fun slot hslot => (h.registers slot hslot).trans ?_, h.bus⟩
    exact e.get_setWord (Nat.ne_of_gt (Nat.lt_of_le_of_lt hslot (by decide))) value

end Departure.LeavesFor

/-- A transfer of control whose delay slot can be lowered leaves for its destination. -/
theorem Course.leavesFor {o : Options} {regions : List FastRegion}
    {reads : UInt32 → Instruction → Prop} {limit : Nat} {pc cycles : UInt32} {e : Environment β}
    {d : Departure β} {i j : Instruction} (h : Course o regions reads (limit + 1) pc cycles e d)
    (hi : ∀ k, reads pc k → k = i) (hj : ∀ k, reads (pc + 4) k → k = j)
    (htable : i.entry ∈ Entry.table) (htable' : j.entry ∈ Entry.table)
    (hdelays : i.mnemonic.hasDelaySlot = true) (hends : j.mnemonic.endsBlock = false)
    (hrefused : j.mnemonic.isRefused = false) :
    ∃ known, d.LeavesFor (i.destination pc e) (i.turn o regions known j pc e) := by
  have hendsBlock := Mnemonic.endsBlock_of_hasDelaySlot hdelays
  have hm {m : Mnemonic} (hno : m.hasDelaySlot = false) : i.mnemonic ≠ m :=
    fun heq => by rw [heq, hno] at hdelays; cases hdelays
  -- The instructions leave two courses: the delay slot runs, or it is annulled.
  cases h with
  | straight known hi' hends' =>
    cases hi _ hi'
    rw [hendsBlock] at hends'
    cases hends'
  | refused hi' hrefused' =>
    cases hi _ hi'
    rw [Mnemonic.isRefused_of_hasDelaySlot hdelays] at hrefused'
    cases hrefused'
  | syscall hi' hm' =>
    cases hi _ hi'
    exact (hm (by decide) hm').elim
  | trap hi' hm' =>
    cases hi _ hi'
    exact (hm (by decide) hm').elim
  | transfer kept known hi' hj' hdelays' hends' hrefused' hannuls htarget hd =>
    cases hi _ hi'
    cases hj _ hj'
    cases htarget hj
    refine ⟨known, .after ?_ _⟩
    rw [Instruction.turn, if_neg (by rw [hannuls]; decide)]
    rw [Instruction.perform_keep htable htable' hends] at hd
    apply Departure.LeavesFor.of_keep
    rcases hd with rfl | rfl
    · exact .exit ..
    · exact .dispatch ..
  | annulled hi' hdelays' hannuls =>
    cases hi _ hi'
    have hnext : i.destination pc e = pc + 8 := by
      rw [Instruction.annuls, Bool.and_eq_true, Bool.not_eq_true'] at hannuls
      rw [Instruction.destination, if_neg (by rw [hannuls.2]; decide)]
    refine ⟨false, ?_⟩
    rw [Instruction.turn, if_pos hannuls, hnext]
    exact .exit ..
  | slotRefused kept hi' hj' hdelays' hannuls hrefused' =>
    cases hj _ hj'
    rw [hends, hrefused] at hrefused'
    rcases hrefused' with h | h <;> cases h

namespace Lower

/-- The code for a branch or jump whose delay slot can be lowered. It goes to where the registers
from before the return address and the delay slot say, and leaves with the registers that these
two make. -/
theorem transfer_leaves_for_destination {s : Surroundings} {t : Lowering β} {i j : Instruction}
    (haccepted : s.options.Accepted s.regions)
    (hunlocked : ∀ reg, t.registers.locked.get reg = false) (hcancelled : t.cancelled = false)
    (hi : Bus.Serves t.bus t.pc i) (hdelays : i.mnemonic.hasDelaySlot = true)
    (hj : Bus.Serves t.bus (t.pc + 4) j) (hends : j.mnemonic.endsBlock = false)
    (hrefused : j.mnemonic.isRefused = false) (hmeets : ∃ e m, t.Meets s e m) :
    ∃ u, exec instruction s t = (.ok (), u) ∧ u.isOpen = false ∧
      ∀ e, (∃ m, t.Meets s e m) → ∃ known d,
        d.LeavesFor (i.destination t.pc e) (i.turn s.options s.regions known j t.pc e) ∧
          ∀ m, t.Meets s e m → t.Leaves s m.frame d u m := by
  obtain ⟨e₀, m₀, hm₀⟩ := hmeets
  have hlocks : t.registers.Locks [] :=
    ⟨hm₀.shows.consistent.sound, fun reg hreg => by rw [hunlocked reg] at hreg; cases hreg⟩
  obtain ⟨bus, hread, hreads⟩ := hi.exists_instructionAt
  have hendsBlock := Mnemonic.endsBlock_of_hasDelaySlot hdelays
  rcases exec_instruction_of_endsBlock (s := s) hlocks hread hendsBlock with
    ⟨u, hexec, hclosed, -⟩ | ⟨error, u, -, -, hfails⟩
  · refine ⟨u, hexec, hclosed, fun e he => ?_⟩
    have hdeparts : t.Departs s
        (Course s.options s.regions (Bus.Finds t.bus) (0 + 1) t.pc t.cycles) u :=
      departs_transfer haccepted hcancelled hread hdelays (fun _ _ h => h.mem_table)
        (.of_instructionAt hread) (fun _ _ h => h) hexec
    obtain ⟨d, hcourse, hleaves⟩ := hdeparts e he
    obtain ⟨known, hd⟩ := hcourse.leavesFor (fun _ h => hi.eq_of_finds h)
      (fun _ h => hj.eq_of_finds h) hi.finds.mem_table hj.finds.mem_table hdelays hends hrefused
    exact ⟨known, d, hd, hleaves⟩
  · exact (hj.not_slotFailsTwice hreads hfails).elim

/-- A jump through a register that both the return address and the delay slot overwrite:
`jalr t0, t0; addiu t0, t0, 1`. -/
def turning : Rom :=
  ⟨fun addr => if addr = 0x1000 then 0x01004009 else 0x25080001⟩

/-- A guest about to run `turning`. -/
def aboutToTurn : Environment Rom :=
  (Environment.initial turning).setRegister 8 0x2000

/-- The jump goes where the register said before. -/
theorem transfer_leaves_for_destination_of_turning :
    ∃ (u : Lowering Rom) (m : HostMachine Rom) (d : Departure Rom),
      exec instruction ⟨.standard, [], Stubs.standard, fun _ => none⟩ (.initial turning 0x1000) =
        (.ok (), u) ∧
      m.env = aboutToTurn ∧ d.env.state.get Slot.pc = 0x2000 ∧ d.env.state.get 8 = 0x1009 ∧
      (Lowering.initial turning 0x1000).Leaves ⟨.standard, [], Stubs.standard, fun _ => none⟩
        m.frame d u m := by
  let s : Surroundings := ⟨.standard, [], Stubs.standard, fun _ => none⟩
  let m : HostMachine Rom := ⟨HostMachine.zeroed.registers, .clear,
    HostMachine.zeroed.stack, 0, aboutToTurn⟩
  -- It answers every read alike, so what it serves once it serves behind any reads.
  have hserves (pc : UInt32) (i : Instruction) (h : (Bus.instructionAt pc turning).1 = .ok i) :
      Bus.Serves turning pc i := by
    intro b hb
    have hsame : b = turning := by
      induction hb with
      | refl => rfl
      | read h width addr ih => exact ih
    rwa [hsame]
  let i := (Instruction.decode? 0x01004009).get (by decide +kernel)
  let j := (Instruction.decode? 0x25080001).get (by decide +kernel)
  have hi : Bus.Serves turning 0x1000 i := hserves _ _ rfl
  have hj : Bus.Serves turning 0x1004 j := hserves _ _ rfl
  have hm : (Lowering.initial turning 0x1000).Meets s aboutToTurn m := by
    refine ⟨RegisterCache.home_fresh.shows RegisterCache.sound_fresh.toPaired (by decide) (by decide),
      ?_, ?_⟩
    · intro r hr
      cases hr
    · intro b _ r hr
      cases hr
  have haccepted : s.options.Accepted s.regions := Options.accepted_of_validate rfl
  obtain ⟨u, hexec, -, hleaves⟩ := transfer_leaves_for_destination (t := .initial turning 0x1000)
    haccepted (by decide) rfl hi (by decide +kernel) hj (by decide +kernel) (by decide +kernel)
    ⟨aboutToTurn, m, hm⟩
  obtain ⟨known, d, hd, hd'⟩ := hleaves aboutToTurn ⟨m, hm⟩
  refine ⟨u, m, d, hexec, rfl, hd.pc.trans ?_, (hd.registers 8 (by decide)).trans ?_, hd' m hm⟩
  · decide +kernel
  -- The delay slot accesses no memory, so it makes no difference whether its base was known.
  · cases known <;> decide +kernel

end Lower

end Recompiler
