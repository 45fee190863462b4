import Recompiler.Proofs.Block.Compile
import Recompiler.Proofs.Block.Flowchart

/-!
# Every block has a flowchart

What the lowering of a block adds behind the entry is the code of a flowchart. Shown for each lowering
step in turn: an instruction that does not end the block is lowered whole or refused, and the others
add a tree.

* `Lowering.Completes`, `Lowering.Refuses`, `Lowering.Charted`: what a step may have added.
* `Lower.Tries`: a step that adds a passage or refuses the instruction.
* `Lower.Charted`: a step that adds a tree.
* `Tries.straight`, `Charted.branch` and following: instructions.
* `Lower.charted_body`: all instructions of a block.
-/

namespace Recompiler

variable {β : Type}

/-- The instruction is one of the four that generated code refuses to run. -/
def Mnemonic.isRefused (m : Mnemonic) : Bool :=
  match m with
  | .lwl | .lwr | .swl | .swr => true
  | _ => false

/-! ## What a step may have added -/

section Added

variable [Bus β]

/-- A guest instruction was lowered whole. -/
structure Lowering.Completes (s : Surroundings) (i : Instruction) (t u : Lowering β) : Prop where
  placed : u.registers.Placed
  labels : t.labels ≤ u.labels
  isOpen : u.isOpen = t.isOpen
  cancelled : u.cancelled = t.cancelled
  lowered : u.lowered = t.lowered ++ [i]
  cycles : u.cycles = t.cycles + i.mnemonic.cycles
  code : ∃ items : List Item, u.code = t.code ++ items ∧
    Passage (β := β) s.regions t.labels (fun _ => True) (i.MayDeal s.regions) items ∧
    (i.mnemonic.endsBlock = false → Lower.Writes β s i items)

/-- The block was ended at an instruction that is refused. -/
structure Lowering.Refuses (s : Surroundings) (t u : Lowering β) : Prop where
  labels : u.labels = t.labels
  isOpen : u.isOpen = false
  cancelled : u.cancelled = true
  lowered : u.lowered = t.lowered
  code : ∃ is : List HostInstruction,
    u.code = t.code ++ (is.map Item.instruction ++ [Item.jumpTo s.stubs.hardFault]) ∧
      Sequence.Tame is

/-- A tree was added, whose ways out charge for the instructions on the way, on top of `before`. -/
structure Lowering.Charted (s : Surroundings) (before : UInt32) (t u : Lowering β) : Prop where
  labels : t.labels ≤ u.labels
  isOpen : u.isOpen = true → t.isOpen = true
  chart : ∃ chart : Flowchart, u.code = t.code ++ chart.items s.stubs ∧
    u.lowered = t.lowered ++ chart.instructions ∧ chart.Sound β s t.labels ∧ chart.Charges before

/-- The block was ended at an instruction that was read and then refused. -/
structure Lowering.Stops (s : Surroundings) (t u : Lowering β) : Prop where
  isOpen : u.isOpen = false
  cancelled : u.cancelled = true
  charted : ∀ before, t.Charted s before u

end Added

/-- A lowering that has read an instruction and is about to lower it. -/
def Lowering.reading (t : Lowering β) (bus : β) (i : Instruction) : Lowering β :=
  { t with
    bus := bus
    registers := { t.registers with pc := t.pc }
    events := t.events.push (.instruction t.pc i)
    cycles := t.cycles + i.mnemonic.cycles
    instructions := t.instructions + 1 }

namespace Lowering

variable {s : Surroundings} {i : Instruction} {before : UInt32} {t u v : Lowering β}

theorem lowered_reading (t : Lowering β) (bus : β) (i : Instruction) :
    (t.reading bus i).lowered = t.lowered ++ [i] := by
  simp [reading, lowered, Event.lowered?]

theorem Refuses.of_quiet (h : t.Quiet u) (h' : u.Refuses s v) : t.Refuses s v := by
  obtain ⟨is, hcode, his⟩ := h.code
  obtain ⟨js, hcode', hjs⟩ := h'.code
  refine ⟨h'.labels.trans h.labels, h'.isOpen, h'.cancelled, h'.lowered.trans h.lowered, is ++ js,
    ?_, his.append hjs⟩
  simp only [hcode', hcode, List.map_append, List.append_assoc, ← appendList_append]

namespace Charted

variable [Bus β]

theorem of_quiet (h : t.Quiet u) (h' : u.Charted s before v) : t.Charted s before v := by
  obtain ⟨is, hcode, his⟩ := h.code
  obtain ⟨chart, hcode', hlowered, hsound, hcharges⟩ := h'.chart
  refine ⟨h.labels ▸ h'.labels, fun hopen => h.isOpen ▸ h'.isOpen hopen, .code is chart, ?_, ?_,
    ⟨his, h.labels ▸ hsound⟩, hcharges⟩
  · rw [hcode', hcode, Flowchart.items, appendList_append]
  · rw [hlowered, h.lowered, Flowchart.instructions]

theorem of_completes (h : t.Completes s i u) (h' : u.Charted s (before + i.mnemonic.cycles) v) :
    t.Charted s before v := by
  obtain ⟨items, hcode, hpassage, hwrites⟩ := h.code
  obtain ⟨chart, hcode', hlowered, hsound, hcharges⟩ := h'.chart
  refine ⟨Nat.le_trans h.labels h'.labels, fun hopen => h.isOpen ▸ h'.isOpen hopen,
    .guest i items chart, ?_, ?_, ⟨hpassage, hwrites, hsound.mono h.labels⟩, hcharges⟩
  · rw [hcode', hcode, Flowchart.items, appendList_append]
  · rw [hlowered, h.lowered, Flowchart.instructions, List.append_assoc, List.singleton_append]

/-- What comes after a tree may change neither code nor labels. -/
theorem of_code_eq (h : t.Charted s before u) (hlabels : v.labels = u.labels)
    (hopen : v.isOpen = true → u.isOpen = true) (hlowered : v.lowered = u.lowered)
    (hcode : v.code = u.code) : t.Charted s before v :=
  ⟨hlabels ▸ h.labels, fun hv => h.isOpen (hopen hv), by rw [hcode, hlowered]; exact h.chart⟩

/-- A tree for each outcome of a decision. -/
theorem fork {c : Condition} {t₁ u₁ : Lowering β} (hlabels₁ : t₁.labels = t.labels + 1)
    (hopen₁ : t₁.isOpen = t.isOpen) (hlowered₁ : t₁.lowered = t.lowered)
    (hcode₁ : t₁.code = t.code ++ [Item.jumpIf c t.labels]) (hfall : t₁.Charted s before u)
    (hlabels₂ : u₁.labels = u.labels) (hopen₂ : u₁.isOpen = u.isOpen)
    (hlowered₂ : u₁.lowered = u.lowered) (hcode₂ : u₁.code = u.code ++ [Item.bind t.labels])
    (htaken : u₁.Charted s before v) : t.Charted s before v := by
  obtain ⟨fall, hcode, hlowered, hsound, hcharges⟩ := hfall.chart
  obtain ⟨taken, hcode', hlowered', hsound', hcharges'⟩ := htaken.chart
  have hle := hfall.labels
  have hle' := htaken.labels
  refine ⟨by omega, fun hopen => ?_, .fork c t.labels fall taken, ?_, ?_,
    ⟨Nat.le_refl _, hlabels₁ ▸ hsound, hsound'.mono (by omega)⟩, hcharges, hcharges'⟩
  · rw [← hopen₁]
    exact hfall.isOpen (hopen₂ ▸ htaken.isOpen hopen)
  · simp only [hcode', hcode₂, hcode, hcode₁, Flowchart.items, ← appendList_append,
      List.append_assoc, List.cons_append, List.nil_append]
  · rw [hlowered', hlowered₂, hlowered, hlowered₁, Flowchart.instructions, List.append_assoc]

end Charted

/-! ### One guest instruction -/

section Instruction

variable [Bus β] {bus : β}

/-- An instruction that was read and lowered to a passage. -/
theorem Completes.of_passes
    (h : (t.reading bus i).Paves s (fun _ => True) (i.MayDeal s.regions) u)
    (hwrites : i.mnemonic.endsBlock = false →
      (Lower.straight i).exec s (t.reading bus i) = (.ok (), u)) : t.Completes s i u := by
  obtain ⟨items, hcode, hpassage⟩ := h.code
  refine ⟨h.placed, h.labels, h.isOpen, h.cancelled, h.lowered.trans (t.lowered_reading bus i),
    h.cycles, items, hcode, hpassage, fun hends => ?_⟩
  exact ⟨t.reading bus i, u, hwrites hends, hcode, h.cancelled⟩

/-- An instruction that transfers control takes over at once. -/
theorem Completes.reading (ht : t.registers.Placed) (hends : i.mnemonic.endsBlock = true) :
    t.Completes s i (t.reading bus i) := by
  have hnone : i.MayDeal s.regions [] :=
    Instruction.mayDeal_of_none (MemoryOp.ofMnemonic?_of_endsBlock hends) (.inl rfl)
  refine of_passes ⟨⟨rfl, rfl, rfl, rfl, rfl⟩, ht.setPc t.pc, Nat.le_refl _, [],
    Array.appendList_nil.symm, Passage.nil.mono (Nat.le_refl _) (fun _ h => h) ?_⟩ ?_
  · rintro _ rfl
    exact hnone
  · intro hnot
    rw [hends] at hnot
    cases hnot

/-- An instruction that was read and then refused. -/
theorem Stops.of_refuses (h : (t.reading bus i).Refuses s u) : t.Stops s u := by
  obtain ⟨is, hcode, his⟩ := h.code
  refine ⟨h.isOpen, h.cancelled, fun before => ⟨Nat.le_of_eq h.labels.symm, fun hopen => ?_,
    .refuse i is, hcode, h.lowered.trans (t.lowered_reading bus i), his, trivial⟩⟩
  rw [h.isOpen] at hopen
  cases hopen

end Instruction

end Lowering

/-! ## Putting steps together -/

namespace Lower

variable {α γ : Type}

theorem refuses_after {s : Surroundings} {x : Lower β α} {f : α → Lower β Unit}
    (hx : Quiet x fun _ => True)
    (hf : ∀ r, ∀ ⦃t u⦄, t.registers.Placed → (f r).exec s t = (.ok (), u) → t.Refuses s u) :
    ∀ ⦃t u⦄, t.registers.Placed → (x >>= f).exec s t = (.ok (), u) → t.Refuses s u := by
  intro t v ht hexec
  rw [exec_bind] at hexec
  rcases hfirst : x.exec s t with ⟨_ | r, u⟩ <;> rw [hfirst] at hexec
  · cases hexec
  · have hu := (hx ht hfirst).2
    exact .of_quiet hu (hf r hu.placed hexec)

/-- Refusing an instruction. -/
theorem refuses_hardFault {s : Surroundings} :
    ∀ ⦃t u : Lowering β⦄, t.registers.Placed → exec hardFault s t = (.ok (), u) →
      t.Refuses s u := by
  refine refuses_after .flushAll fun _ => refuses_after .currentPc fun pc =>
    refuses_after (.emit (Sequence.tame_storeStateImmediate (by decide) _)) fun _ t u ht hexec => ?_
  cases hexec
  exact ⟨rfl, rfl, rfl, rfl, [], rfl, Sequence.tame_nil⟩

variable [Bus β]

/-- Where it succeeds, the step adds a passage or refuses the instruction. -/
def Tries (s : Surroundings) (deals : List Dealing → Prop) (x : Lower β Unit) : Prop :=
  ∀ ⦃t u⦄, t.registers.Placed → x.exec s t = (.ok (), u) →
    t.Paves s (fun _ => True) deals u ∨ t.Refuses s u

/-- Where it succeeds, the step adds a tree. -/
def Charted (s : Surroundings) (x : Lower β α) : Prop :=
  ∀ ⦃t r u⦄, t.registers.Placed → t.cancelled = false → x.exec s t = (.ok r, u) →
    t.Charted s t.cycles u

namespace Tries

variable {s : Surroundings} {deals : List Dealing → Prop}

theorem passes {x : Lower β Unit} (hx : Paves s (fun _ => True) deals x) : Tries s deals x :=
  fun _ _ ht hexec => .inl (hx ht hexec)

theorem refuses {x : Lower β Unit}
    (hx : ∀ ⦃t u⦄, t.registers.Placed → x.exec s t = (.ok (), u) → t.Refuses s u) :
    Tries s deals x :=
  fun _ _ ht hexec => .inr (hx ht hexec)

end Tries

namespace Charted

variable {s : Surroundings} {x : Lower β α}

/-- Quiet steps first. -/
theorem of_quiet {post : α → Prop} {f : α → Lower β γ} (hx : Quiet x post)
    (hf : ∀ r, post r → Charted s (f r)) : Charted s (x >>= f) := by
  intro t r v ht hopen hexec
  rw [exec_bind] at hexec
  rcases hfirst : x.exec s t with ⟨_ | q, u⟩ <;> rw [hfirst] at hexec
  · cases hexec
  · obtain ⟨hq, hu⟩ := hx ht hfirst
    have hv := hf q hq hu.placed (hu.cancelled.trans hopen) hexec
    exact .of_quiet hu (hu.cycles ▸ hv)

/-- Quiet steps whose outcome does not matter. -/
theorem after {f : α → Lower β γ} (hx : Quiet x fun _ => True) (hf : ∀ r, Charted s (f r)) :
    Charted s (x >>= f) :=
  of_quiet hx fun r _ => hf r

theorem ite {c : Prop} [Decidable c] {y : Lower β α} (hx : Charted s x) (hy : Charted s y) :
    Charted s (if c then x else y) := by
  split
  · exact hx
  · exact hy

/-- A quiet step that is done on a condition, before the others. -/
theorem optional {c : Prop} [Decidable c] {x : Lower β Unit} {k : Unit → Lower β γ}
    (hx : Quiet x fun _ => True) (hk : Charted s (k ())) :
    Charted s (if c then x >>= k else k ()) :=
  ite (after hx fun _ => hk) hk

/-! ## Ways out -/

/-- A way out that charges for what was lowered so far. -/
theorem of_way {before : UInt32} {t u : Lowering β} {is : List HostInstruction}
    (his : Sequence.Tame is) (way : WayOut) (hlabels : u.labels = t.labels)
    (hopen : u.isOpen = t.isOpen) (hlowered : u.lowered = t.lowered)
    (hcode : u.code = t.code ++ (Sequence.subtractState (Slot.offset Slot.downcount) before).map
      Item.instruction ++ is.map Item.instruction ++ way.items s.stubs) : t.Charted s before u := by
  refine ⟨Nat.le_of_eq hlabels.symm, fun h => hopen ▸ h, .leave before is way, ?_, ?_, his, rfl⟩
  · rw [hcode, Flowchart.items, List.map_append, appendList_append, appendList_append]
  · rw [hlowered, Flowchart.instructions, List.append_nil]

theorem charted_writeExitCharging {target before : UInt32} {t u : Lowering β}
    (h : exec (writeExitCharging target before) s t = (.ok (), u)) :
    t.Charted s before u ∧ u.cycles = t.cycles := by
  rw [writeExitCharging, exec_read_bind, exec_bind_of_ok (exec_emit ..),
    exec_bind_of_ok (exec_emit ..), exec_append] at h
  obtain rfl := (Prod.mk.inj h).2
  have hpc : Slot.Free Slot.pc := by decide
  exact ⟨of_way (Sequence.tame_storeStateImmediate hpc target)
    (.exit target _ _) rfl rfl rfl rfl, rfl⟩

theorem charted_writeExit {target : UInt32} {t u : Lowering β}
    (h : exec (Lower.writeExit target) s t = (.ok (), u)) :
    t.Charted s t.cycles u ∧ u.cycles = t.cycles := by
  rw [Lower.writeExit, exec_get_bind] at h
  exact charted_writeExitCharging h

theorem writeExit (target : UInt32) : Charted s (Lower.writeExit target : Lower β Unit) :=
  fun _ _ _ _ _ hexec => (charted_writeExit hexec).1

theorem writeRegisterExit {target : HostRegister} (htarget : target.Valid) :
    Charted s (Lower.writeRegisterExit target : Lower β Unit) := by
  intro t r u _ _ hexec
  rw [Lower.writeRegisterExit, exec_get_bind, exec_bind_of_ok (exec_emit ..),
    exec_bind_of_ok (exec_emit ..), exec_read_bind, exec_append] at hexec
  obtain rfl := (Prod.mk.inj hexec).2
  have hpc : Slot.Free Slot.pc := by decide
  exact of_way (Sequence.tame_storeState htarget hpc) .dispatch rfl rfl rfl rfl

theorem writeCheckedExit : Charted s (Lower.writeCheckedExit : Lower β Unit) := by
  intro t r u _ _ hexec
  rw [Lower.writeCheckedExit, exec_get_bind, exec_bind_of_ok (exec_emit ..), exec_read_bind,
    exec_append] at hexec
  obtain rfl := (Prod.mk.inj hexec).2
  refine of_way Sequence.tame_nil .checked rfl rfl rfl ?_
  rw [List.map_nil, Array.appendList_nil]
  rfl

theorem writeBranchExits (skip : Condition) (target next : UInt32) :
    Charted s (Lower.writeBranchExits skip target next : Lower β Unit) := by
  intro t r v _ _ hexec
  rw [Lower.writeBranchExits, exec_bind_of_ok (exec_freshLabel ..),
    exec_bind_of_ok (exec_append ..), exec_bind] at hexec
  split at hexec
  · next u hfall =>
    rw [exec_bind_of_ok (exec_append ..)] at hexec
    obtain ⟨hfall, hcycles⟩ := charted_writeExit hfall
    have htaken := (charted_writeExit hexec).1
    dsimp only at hfall hcycles htaken
    rw [hcycles] at htaken
    refine .fork (t := t) (c := skip) ?_ ?_ ?_ ?_ hfall ?_ ?_ ?_ ?_ htaken <;> rfl
  · cases hexec

end Charted

/-! ## Instructions that do not end a block -/

/-- A load or store adds a passage. -/
theorem Paves.memoryAccess_mayDeal {s : Surroundings} {i : Instruction}
    (haccepted : s.options.Accepted s.regions) {op : MemoryOp}
    (hop : MemoryOp.ofMnemonic? i.mnemonic = some op) :
    Paves s (fun _ => True) (i.MayDeal s.regions) (Lower.memoryAccess i op : Lower β Unit) := by
  have hmay {ds : List Dealing} (h : op.DealsOnce s.regions ds ∨ i.LoadsNothing ∧ ds = []) :
      i.MayDeal s.regions ds := by
    rw [Instruction.MayDeal, hop]
    exact h
  cases hrt : i.rt with
  | error b =>
    intro t u ht hexec
    rw [Lower.memoryAccess, hrt] at hexec
    cases hexec
  | ok rt =>
    by_cases hload : ∃ kind, op = .load kind ∧ guestOperand rt = zeroRegister
    · obtain ⟨kind, rfl, hzero⟩ := hload
      refine (Paves.quiet (quiet_memoryAccess hrt hzero)).mono ?_
      rintro _ rfl
      exact hmay (.inr ⟨⟨kind, rt, hop, hrt, hzero⟩, rfl⟩)
    · have honce := Paves.memoryAccess (β := β) haccepted hrt fun kind heq hzero =>
        hload ⟨kind, heq, hzero⟩
      exact honce.mono fun ds hds => hmay (.inl hds)

/-- Every instruction that does not end a block is lowered to a passage, apart from those that are
refused. -/
theorem Paves.straight {s : Surroundings} {i : Instruction}
    (haccepted : s.options.Accepted s.regions) (hrefused : i.mnemonic.isRefused = false) :
    Paves s (fun _ => True) (i.MayDeal s.regions) (Lower.straight i : Lower β Unit) := by
  have hnone (h : MemoryOp.ofMnemonic? i.mnemonic = none) : i.MayDeal s.regions [] :=
    Instruction.mayDeal_of_none h (.inl rfl)
  have hquiet {x : Lower β Unit} (hx : Quiet x fun _ => True)
      (h : MemoryOp.ofMnemonic? i.mnemonic = none) :
      Paves s (fun _ => True) (i.MayDeal s.regions) x :=
    (Paves.quiet hx).mono fun ds hds => by rw [hds]; exact hnone h
  unfold Lower.straight
  dsimp only
  split
  · next h => exact hquiet (.immediateArithmetic _ _ _) (MemoryOp.ofMnemonic?_of_ofImmediate? h)
  split
  · next h => exact hquiet (.registerArithmetic _ _) (MemoryOp.ofMnemonic?_of_ofRegister? h)
  split
  · next h => exact Paves.memoryAccess_mayDeal haccepted h
  -- From here on the instruction accesses no memory, so that it deals with the interpreter at most.
  next hother =>
  have hop : MemoryOp.ofMnemonic? i.mnemonic = none := Option.eq_none_iff_forall_ne_some.2 hother
  split
  · exact hquiet (.loadUpper _) hop
  iterate 3
    · exact hquiet (.constantShift _ _) hop
  iterate 3
    · exact hquiet (.variableShift _ _) hop
  iterate 2
    · exact hquiet (.product _ _) hop
  iterate 2
    · exact hquiet (.moveFrom _ (by decide)) hop
  iterate 2
    · exact hquiet (.moveTo _ (by decide)) hop
  iterate 4
    · next hm =>
      rw [hm] at hrefused
      cases hrefused
  · refine Paves.of_quiet .currentPc fun _ _ => (Paves.interpretCall _ _).mono ?_
    rintro _ rfl
    exact Instruction.mayDeal_of_none hop (.inr rfl)

omit [Bus β] in
theorem straight_of_isRefused {i : Instruction} (hrefused : i.mnemonic.isRefused = true) :
    (straight i : Lower β Unit) =
      (currentPc >>= fun pc => report (.refused i pc) >>= fun _ => hardFault) := by
  unfold Lower.straight
  generalize i.mnemonic = m at hrefused ⊢
  cases m <;> first | exact absurd hrefused (by decide) | rfl

omit [Bus β] in
theorem refuses_straight {s : Surroundings} {i : Instruction}
    (hrefused : i.mnemonic.isRefused = true) :
    ∀ ⦃t u : Lowering β⦄, t.registers.Placed → exec (straight i) s t = (.ok (), u) →
      t.Refuses s u := by
  rw [straight_of_isRefused hrefused]
  exact refuses_after .currentPc fun _ => refuses_after (.report rfl) fun _ => refuses_hardFault

namespace Tries

variable {s : Surroundings} {i : Instruction}

/-- Every instruction that does not end a block is lowered to a passage, unless it is refused. -/
theorem straight (haccepted : s.options.Accepted s.regions) (i : Instruction) :
    Tries s (i.MayDeal s.regions) (Lower.straight i : Lower β Unit) := by
  cases hrefused : i.mnemonic.isRefused with
  | true => exact refuses (refuses_straight hrefused)
  | false => exact passes (Paves.straight haccepted hrefused)

end Tries

/-! ## Reading an instruction -/

theorem exec_instructionWith_eq_ok {body : Instruction → Lower β Unit} {s : Surroundings}
    {t v : Lowering β} (h : exec (instructionWith body) s t = (.ok (), v)) :
    ∃ bus i u, exec (body i) s (t.reading bus i) = (.ok (), u) ∧
      v = { u with registers := u.registers.release } := by
  have hpc : exec (instructionWith body) s t = exec (decode t.pc >>= fun i =>
      report (.instruction t.pc i) >>= fun _ => modify (fun t => { t with
        cycles := t.cycles + i.mnemonic.cycles, instructions := t.instructions + 1 }) >>= fun _ =>
          body i >>= fun _ => updateRegisters (·.release)) s
      { t with registers := { t.registers with pc := t.pc } } := rfl
  rw [hpc, exec_bind] at h
  split at h
  · next i w hdecode =>
    obtain ⟨bus, rfl⟩ := exec_decode_eq_ok hdecode
    rw [exec_bind_of_ok (exec_report ..), exec_bind_of_ok (exec_modify ..), exec_bind] at h
    split at h
    · next u hbody => exact ⟨bus, i, u, hbody, (Prod.mk.inj h).2.symm⟩
    · cases h
  · cases h

/-! ## Delay slots -/

section Slots

variable {s : Surroundings}

/-- An instruction that was read is lowered whole, or refused. -/
theorem straight_reading (haccepted : s.options.Accepted s.regions) {t u : Lowering β} {bus : β}
    {i : Instruction} (ht : t.registers.Placed)
    (h : exec (straight i) s (t.reading bus i) = (.ok (), u)) :
    t.Completes s i u ∨ t.Stops s u := by
  rcases Tries.straight haccepted i (ht.setPc t.pc) h with hu | hu
  · exact .inl (.of_passes hu fun _ => h)
  · exact .inr (.of_refuses hu)

/-- The instruction in a delay slot is lowered whole, or refused. -/
theorem exec_delaySlot_eq_ok (haccepted : s.options.Accepted s.regions) {t v : Lowering β}
    (ht : t.registers.Placed) (h : exec delaySlot s t = (.ok (), v)) :
    (∃ i, t.Completes s i v) ∨ t.Stops s v := by
  obtain ⟨u, hexec, rfl⟩ := exists_inSlot h
  obtain ⟨bus, i, w, hbody, rfl⟩ := exec_instructionWith_eq_ok hexec
  have hw : Lowering.Completes s i { t with pc := t.pc + 4 } w ∨
      Lowering.Stops s { t with pc := t.pc + 4 } w := by
    rw [inSlot] at hbody
    split at hbody
    · exact .inr (.of_refuses (refuses_after .currentPc (fun _ => refuses_after (.report rfl)
        fun _ => refuses_hardFault) (ht.setPc _) hbody))
    · exact straight_reading haccepted (by exact ht) hbody
  rcases hw with hw | hw
  · exact .inl ⟨i, (hw.placed.setLocked _).setPc t.pc, hw.labels, hw.isOpen, hw.cancelled,
      hw.lowered, hw.cycles, hw.code⟩
  · refine .inr ⟨hw.isOpen, hw.cancelled, fun before => ?_⟩
    obtain ⟨hlabels, hopen, hchart⟩ := hw.charted before
    exact ⟨hlabels, hopen, hchart⟩

/-- What comes after the delay slot adds a tree, unless the delay slot was refused. -/
theorem Charted.afterDelaySlot (haccepted : s.options.Accepted s.regions) {rest : Lower β Unit}
    (hrest : Charted s rest) : Charted s (Lower.afterDelaySlot rest) := by
  intro t r v ht hopen hexec
  rcases hslot : exec delaySlot s t with ⟨_ | ⟨⟨⟩⟩, u⟩
  · rw [Lower.afterDelaySlot, exec_bind, hslot] at hexec
    cases hexec
  rw [Lower.afterDelaySlot, exec_bind_of_ok hslot, exec_get_bind] at hexec
  rcases exec_delaySlot_eq_ok haccepted ht hslot with ⟨i, hu⟩ | hu
  · rw [hu.cancelled, hopen] at hexec
    have hv := hrest hu.placed (hu.cancelled.trans hopen) hexec
    rw [hu.cycles] at hv
    exact .of_completes hu hv
  · rw [hu.cancelled] at hexec
    obtain rfl := (Prod.mk.inj hexec).2
    exact hu.charted _

end Slots

/-! ## Branches and jumps -/

namespace Charted

variable {s : Surroundings}

theorem decidedBranch (haccepted : s.options.Accepted s.regions) (taken likely links : Bool)
    (target next : UInt32) :
    Charted s (Lower.decidedBranch taken likely links target next : Lower β Unit) := by
  have hleave : Charted (β := β) s (Lower.flushAll >>= fun _ =>
      Lower.writeExit (if taken then target else next)) :=
    after .flushAll fun _ => writeExit _
  exact after .currentPc fun _ => after (.report rfl) fun _ => optional (.setImmediate _ _) <|
    ite (afterDelaySlot haccepted hleave) hleave

theorem likelyBranch (haccepted : s.options.Accepted s.regions) (t : Test) (links : Bool)
    (target next : UInt32) :
    Charted s (Lower.likelyBranch t links target next : Lower β Unit) := by
  obtain ⟨c, rs, rt⟩ := t
  refine after (.writeCompare _) fun _ => after .flushAll fun _ =>
    optional (.emit (Sequence.tame_storeStateImmediate (by decide) _)) ?_
  intro t r v ht hopen hexec
  rw [exec_bind_of_ok (exec_freshLabel ..), exec_bind_of_ok (exec_append ..), exec_get_bind] at hexec
  dsimp only at hexec
  let t₁ : Lowering β := { t with
    code := t.code ++ [Item.jumpIf c.invert t.labels], labels := t.labels + 1 }
  -- Both cases end alike: the cache goes back to what it was, and the block leaves at the label.
  have hjoin {w : Lowering β} (hfall : t₁.Charted s t.cycles w)
      (hexec : exec (Lower.updateRegisters (fun _ => t.registers) >>= fun _ =>
        Lower.append [.bind t.labels] >>= fun _ =>
          Lower.writeExitCharging next t.cycles >>= fun _ => pure ()) s w = (.ok r, v)) :
      t.Charted s t.cycles v := by
    rw [exec_bind_of_ok (exec_updateRegisters ..), exec_bind_of_ok (exec_append ..),
      exec_bind] at hexec
    split at hexec
    · next htaken =>
      obtain rfl := (Prod.mk.inj hexec).2
      refine .fork (t := t) (c := c.invert) ?_ ?_ ?_ ?_ hfall ?_ ?_ ?_ ?_
        (charted_writeExitCharging htaken).1 <;> rfl
    · cases hexec
  rw [exec_bind_of_ok (exec_attempt ..)] at hexec
  rcases hslot : exec delaySlot s t₁ with ⟨e | ⟨⟨⟩⟩, u⟩ <;> rw [hslot] at hexec
  · cases hexec
  dsimp only at hexec
  rw [if_pos rfl, exec_get_bind] at hexec
  -- The delay slot completes, and the block leaves for the target, or the delay slot closes the
  -- block.
  rcases exec_delaySlot_eq_ok haccepted (by exact ht) hslot with ⟨i, hu⟩ | hu
  · have hleave : Charted (β := β) s (Lower.flushAll >>= fun _ => Lower.writeExit target) :=
      after .flushAll fun _ => writeExit _
    have hcancelled := hu.cancelled.trans hopen
    rw [hcancelled, if_pos (by decide), ← bind_assoc, exec_bind] at hexec
    split at hexec
    · next w hexit =>
      have hw := hleave hu.placed hcancelled hexit
      rw [hu.cycles] at hw
      exact hjoin (.of_completes hu hw) hexec
    · cases hexec
  · rw [hu.cancelled] at hexec
    exact hjoin (hu.charted _) hexec

theorem savedBranch (haccepted : s.options.Accepted s.regions) (t : Test) (links : Bool)
    (target next : UInt32) :
    Charted s (Lower.savedBranch t links target next : Lower β Unit) :=
  after (.writeCompare t) fun _ => after (.emit (Sequence.tame_storeCondition _ (by decide))) fun _ =>
    after .release fun _ => optional (.setImmediate _ _) <| afterDelaySlot haccepted <|
      after .flushAll fun _ => after (.emit (Sequence.tame_compareState (by decide) _)) fun _ =>
        writeBranchExits _ _ _

theorem lateBranch (haccepted : s.options.Accepted s.regions) (t : Test) (links : Bool)
    (target next : UInt32) :
    Charted s (Lower.lateBranch t links target next : Lower β Unit) := by
  unfold Lower.lateBranch
  exact optional (.setImmediate _ _) <| afterDelaySlot haccepted <|
    after (.writeCompare t) fun _ => after .flushAll fun _ => writeBranchExits _ _ _

end Charted

/-! ### Instructions that end a block -/

/-- Where it succeeds, the step adds a tree and closes the block. -/
def Transfers (s : Surroundings) (x : Lower β α) : Prop :=
  ∀ ⦃t r u⦄, t.registers.Placed → t.cancelled = false → x.exec s t = (.ok r, u) →
    t.Charted s t.cycles u ∧ u.isOpen = false

namespace Transfers

variable {s : Surroundings}

theorem after {x : Lower β α} {f : α → Lower β γ} (hx : Quiet x fun _ => True)
    (hf : ∀ r, Transfers s (f r)) : Transfers s (x >>= f) := by
  intro t r v ht hopen hexec
  rw [exec_bind] at hexec
  rcases hfirst : x.exec s t with ⟨_ | q, u⟩ <;> rw [hfirst] at hexec
  · cases hexec
  · have hu := (hx ht hfirst).2
    obtain ⟨hv, hshut⟩ := hf q hu.placed (hu.cancelled.trans hopen) hexec
    exact ⟨.of_quiet hu (hu.cycles ▸ hv), hshut⟩

theorem close_bind {k : Unit → Lower β α} (hk : Charted s (k ())) :
    Transfers s (close >>= k) := by
  intro t r v ht hopen hexec
  rw [close, exec_bind_of_ok (exec_modify ..)] at hexec
  obtain ⟨hlabels, hshut, hchart⟩ := hk (t := { t with isOpen := false }) ht hopen hexec
  have hclosed : v.isOpen ≠ true := fun hv => Bool.noConfusion (hshut hv)
  exact ⟨⟨hlabels, fun hv => absurd hv hclosed, hchart⟩, Bool.eq_false_iff.2 hclosed⟩

theorem then_close {x : Lower β Unit} (hx : Charted s x) : Transfers s (x >>= fun _ => close) := by
  intro t r v ht hopen hexec
  rw [exec_bind] at hexec
  split at hexec
  · next u hfirst =>
    obtain rfl := (Prod.mk.inj hexec).2
    refine ⟨(hx ht hopen hfirst).of_code_eq rfl (fun h => ?_) rfl rfl, rfl⟩
    cases h
  · cases hexec

theorem branch (haccepted : s.options.Accepted s.regions) (i : Instruction) (t : Test)
    (target : UInt32) : Transfers s (Lower.branch i t target : Lower β Unit) := by
  refine after .currentPc fun pc => close_bind (.after (.immediate? _) fun lhs? => ?_)
  have hundecided : Charted (β := β) s
      (if i.mnemonic.discardsDelaySlot then
        Lower.likelyBranch t i.mnemonic.links target (pc + 8)
      else Lower.decode (pc + 4) >>= fun slot =>
        if (slot.outputRegister?.any fun reg => t.reads (guestOperand reg)) ||
            (i.mnemonic.links && t.reads linkRegister) then
          Lower.savedBranch t i.mnemonic.links target (pc + 8)
        else Lower.lateBranch t i.mnemonic.links target (pc + 8)) :=
    .ite (.likelyBranch haccepted _ _ _ _) (.after (.decode _) fun _ =>
      .ite (.savedBranch haccepted _ _ _ _) (.lateBranch haccepted _ _ _ _))
  cases t.rt with
  | none =>
    refine .after (.pure trivial) fun rhs? => ?_
    dsimp only
    split
    · exact .decidedBranch haccepted _ _ _ _ _
    · exact hundecided
  | some rt =>
    refine .after (.immediate? _) fun rhs? => ?_
    dsimp only
    split
    · exact .decidedBranch haccepted _ _ _ _ _
    · exact hundecided

theorem jump (haccepted : s.options.Accepted s.regions) (links : Bool) (target : UInt32) :
    Transfers s (Lower.jump links target : Lower β Unit) :=
  after .currentPc fun _ => close_bind <| .optional (.setImmediate _ _) <|
    .afterDelaySlot haccepted <| .after .flushAll fun _ => .writeExit _

theorem registerJump (haccepted : s.options.Accepted s.regions) (rs rd : GuestIndex) :
    Transfers s (Lower.registerJump rs rd : Lower β Unit) := by
  refine after .currentPc fun pc => close_bind (.after (.immediate? _) fun target? => ?_)
  cases target? with
  | some target =>
    exact .after (.setImmediate _ _) fun _ => .afterDelaySlot haccepted <|
      .after .flushAll fun _ => .writeExit _
  | none =>
    refine .after (.decode _) fun slot => .ite ?_ ?_
    · refine .of_quiet (.map rs .read) fun src hsrc => ?_
      refine .after (.emit (Sequence.tame_storeState hsrc.valid (by decide))) fun _ =>
        .after (.setImmediate _ _) fun _ => .afterDelaySlot haccepted <| .after .flushAll fun _ => ?_
      exact .after (.emit (Sequence.tame_loadState (by decide) (by decide))) fun _ =>
        .writeRegisterExit (by decide)
    · exact .after (.setImmediate _ _) fun _ => .afterDelaySlot haccepted <|
        .of_quiet (.map rs .read) fun src hsrc => .after .flushAll fun _ =>
          .writeRegisterExit hsrc.valid

theorem trap : Transfers s (Lower.trap : Lower β Unit) :=
  after .followingPc fun _ => after .flushAll fun _ =>
    after (.emit (Sequence.tame_storeStateImmediate (by decide) _)) fun _ =>
      after (.emit (Sequence.tame_storeStateImmediate (by decide) _)) fun _ =>
        then_close .writeCheckedExit

end Transfers

/-! ## Any instruction -/

/-- Where it succeeds on an instruction that was read, the step lowers the instruction whole, or adds
a tree and closes the block. -/
def Concludes (s : Surroundings) (i : Instruction) (x : Lower β Unit) : Prop :=
  ∀ ⦃t : Lowering β⦄ ⦃bus u⦄, t.registers.Placed → t.cancelled = false →
    x.exec s (t.reading bus i) = (.ok (), u) →
      t.Completes s i u ∨ t.Charted s t.cycles u ∧ u.isOpen = false

namespace Concludes

variable {s : Surroundings} {i : Instruction}

theorem transfers {x : Lower β Unit} (hends : i.mnemonic.endsBlock = true)
    (hx : Transfers s x) : Concludes s i x := by
  intro t bus u ht hopen hexec
  obtain ⟨hu, hclosed⟩ := hx (t := t.reading bus i) (ht.setPc t.pc) hopen hexec
  exact .inr ⟨.of_completes (.reading ht hends) hu, hclosed⟩

theorem currentPc_bind {k : UInt32 → Lower β Unit} (h : ∀ pc, Concludes s i (k pc)) :
    Concludes s i (currentPc >>= k) :=
  fun t _ _ ht hopen hexec => h t.pc ht hopen hexec

theorem straight (haccepted : s.options.Accepted s.regions) :
    Concludes s i (Lower.straight i : Lower β Unit) := by
  intro t bus u ht _ hexec
  exact (straight_reading haccepted ht hexec).imp id fun hu => ⟨hu.charted _, hu.isOpen⟩

theorem systemCall (hsyscall : i.mnemonic = .syscall) :
    Concludes s i (Lower.systemCall i : Lower β Unit) := by
  intro t bus v ht hopen hexec
  rw [Lower.systemCall, exec_bind_of_ok (exec_followingPc ..), exec_bind] at hexec
  split at hexec
  · next u hcall =>
    have hpasses : (t.reading bus i).Paves s (fun _ => True) (i.MayDeal s.regions) u := by
      refine ((Paves.interpretCall i (t.pc + 4)).mono ?_) (ht.setPc t.pc) hcall
      rintro _ rfl
      exact Instruction.mayDeal_of_none (by rw [hsyscall]; rfl) (.inr rfl)
    have hu := Lowering.Completes.of_passes hpasses fun hnot => by rw [hsyscall] at hnot; cases hnot
    obtain ⟨hv, hclosed⟩ := (Transfers.then_close .writeCheckedExit) hu.placed
      (hu.cancelled.trans hopen) hexec
    rw [hu.cycles] at hv
    exact .inr ⟨.of_completes hu hv, hclosed⟩
  · cases hexec

theorem endsBlock_of_ofBranch? {m : Mnemonic} {x : Condition × Bool}
    (h : Condition.ofBranch? m = some x) : m.endsBlock = true := by
  cases m <;> first | rfl | cases h

end Concludes

/-- The instruction at the current address is lowered whole, or closes the block. -/
theorem exec_instruction_eq_ok {s : Surroundings} (haccepted : s.options.Accepted s.regions)
    {t v : Lowering β} (ht : t.registers.Placed) (hopen : t.cancelled = false)
    (h : exec instruction s t = (.ok (), v)) :
    (∃ i, t.Completes s i v) ∨ t.Charted s t.cycles v ∧ v.isOpen = false := by
  obtain ⟨bus, i, u, hbody, rfl⟩ := exec_instructionWith_eq_ok h
  refine Or.imp (fun hu => ⟨i, hu.placed.setLocked _, hu.labels, hu.isOpen, hu.cancelled,
    hu.lowered, hu.cycles, hu.code⟩) (fun hu => ⟨hu.1.of_code_eq rfl id rfl rfl, hu.2⟩)
    ((?_ : Concludes s i _) ht hopen hbody)
  refine .currentPc_bind fun pc => ?_
  dsimp only
  split
  · next h => exact .systemCall h
  · next h => exact .transfers (by rw [h]; rfl) .trap
  · next h => exact .transfers (by rw [h]; rfl) (.jump haccepted _ _)
  · next h => exact .transfers (by rw [h]; rfl) (.jump haccepted _ _)
  · next h =>
    exact .transfers (by rw [h]; rfl) (.after (.registerOperand _) fun _ =>
      .registerJump haccepted _ _)
  · next h =>
    exact .transfers (by rw [h]; rfl) (.after (.registerOperand _) fun _ =>
      .after (.registerOperand _) fun _ => .registerJump haccepted _ _)
  · split
    · next h =>
      exact .transfers (Concludes.endsBlock_of_ofBranch? h) (.after (.registerOperand _) fun _ =>
        .after (.registerOperand _) fun _ => .branch haccepted _ _ _)
    · next h =>
      exact .transfers (Concludes.endsBlock_of_ofBranch? h) (.after (.registerOperand _) fun _ =>
        .branch haccepted _ _ _)
    · exact .straight haccepted

/-! ## Blocks -/

/-- What the lowering of a block adds behind the entry is a tree. -/
theorem charted_body {s : Surroundings} (haccepted : s.options.Accepted s.regions) (start : UInt32)
    (limit : Nat) {t v : Lowering β} (ht : t.registers.Placed) (hcancelled : t.cancelled = false)
    (hopen : t.isOpen = true) (h : exec (body start limit) s t = (.ok (), v)) :
    t.Charted s t.cycles v := by
  induction limit generalizing t with
  | zero =>
    have hlimit : Charted (β := β) s (body start 0) :=
      .after (.report rfl) fun _ => .after .flushAll fun _ => .after .currentPc fun _ =>
        .writeExit _
    exact hlimit ht hcancelled h
  | succ limit ih =>
    rw [body, exec_bind] at h
    split at h
    · next u hfirst =>
      rw [exec_bind_of_ok (exec_modify ..), exec_get_bind] at h
      dsimp only at h
      -- An instruction that completes is a node of the tree above the rest; one that closes the
      -- block is the rest.
      rcases exec_instruction_eq_ok haccepted ht hcancelled hfirst with ⟨i, hu⟩ | ⟨hu, hclosed⟩
      · rw [if_pos (hu.isOpen.trans hopen)] at h
        have hv := ih (t := { u with pc := u.pc + 4 }) hu.placed (hu.cancelled.trans hcancelled)
          (hu.isOpen.trans hopen) h
        dsimp only at hv
        rw [hu.cycles] at hv
        exact .of_completes hu ⟨hv.labels, hv.isOpen, hv.chart⟩
      · rw [if_neg (by rw [hclosed]; decide)] at h
        obtain rfl := (Prod.mk.inj h).2
        exact hu.of_code_eq rfl id rfl rfl
    · cases h

omit [Bus β] in
theorem exec_eq_ok_of_isOk {x : Lower β Unit} {s : Surroundings} {t : Lowering β}
    (h : (exec x s t).1.isOk = true) : exec x s t = (.ok (), (exec x s t).2) := by
  rcases hexec : exec x s t with ⟨_ | ⟨⟨⟩⟩, u⟩
  · rw [hexec] at h
    cases h
  · rfl

/-- The code of a block is that of a tree, between an entry and some filler. -/
theorem exists_flowchart {start : UInt32} {s : Surroundings} (haccepted : s.options.Accepted s.regions)
    {bus : β} {u : Lowering β} (h : exec (block start) s (.initial bus start) = (.ok (), u)) :
    ∃ chart : Flowchart,
      u.code.toList = entryItems s.stubs start ++
        (chart.items s.stubs ++ [.align blockAlignment]) ∧
      u.lowered = chart.instructions ∧ chart.Sound β s 1 ∧ chart.Charges 0 := by
  rw [exec_block] at h
  split at h
  · next t hbody =>
    obtain rfl := (Prod.mk.inj h).2
    obtain ⟨-, -, chart, hcode, hlowered, hsound, hcharges⟩ :=
      charted_body haccepted start _ RegisterCache.placed_fresh rfl rfl hbody
    refine ⟨chart, ?_, hlowered, hsound, hcharges⟩
    rw [Array.toList_appendList, hcode, Array.toList_appendList, List.append_assoc]
    rfl
  · cases h

end Lower

end Recompiler
