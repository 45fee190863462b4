import Recompiler.Proofs.Block.Shape

/-!
# Whole blocks

The code of a block leaves for where the guest instructions lead, one after the other. No more of them
are needed for that than the block counts.

* `Lower.departs_systemCall`, `Lower.departs_trap`: instructions that hand over to the host.
* `Bus.Words`, `Block.Word`, `Block.Fetches`: the instructions that the words of a block read as.
* `Lower.departs_ending`: the last instruction of a block, with its delay slot.
* `Lower.departs_body`: the instructions of a block, up to the way out.
* `Lower.Enters`, `Lower.departs_block`: the code of a block behind its entry.
-/

namespace Recompiler

open HostMachine

variable {β : Type} [Bus β]

/-! ## Words -/

/-- Reading finds the instruction at the address, which is that of one of `n` words from `start` on. -/
def Bus.Words (bus : β) (start : UInt32) (n : Nat) (pc : UInt32) (i : Instruction) : Prop :=
  Bus.Finds bus pc i ∧ ∃ k < n, pc = start + 4 * UInt32.ofNat k

namespace Bus.Words

variable {bus bus' : β} {start pc : UInt32} {n : Nat} {i : Instruction}

theorem mem_table (h : Words bus start n pc i) : i.entry ∈ Entry.table :=
  h.1.mem_table

theorem first (h : Finds bus pc i) : Words bus pc (n + 1) pc i :=
  ⟨h, 0, n.succ_pos, (UInt32.add_zero pc).symm⟩

theorem second (h : Finds bus (pc + 4) i) : Words bus pc (n + 2) (pc + 4) i :=
  ⟨h, 1, by omega, rfl⟩

/-- The words behind the first one, which were read later. -/
theorem of_rest (hreads : ReadsTo bus bus') (h : Words bus' (start + 4) n pc i) :
    Words bus start (n + 1) pc i := by
  obtain ⟨hfinds, k, hk, rfl⟩ := h
  refine ⟨.of_reads hreads hfinds, k + 1, by omega, ?_⟩
  rw [UInt32.ofNat_add]
  grind

end Bus.Words

/-- Reading finds the instruction at the address, which is that of a word of the block. The number of
words is kept modulo 2^32, and is one more than the limit at most. -/
def Block.Word (limit : Nat) (b : Block) (bus : β) (pc : UInt32) (i : Instruction) : Prop :=
  ∃ n ≤ limit + 1, b.instructions = UInt32.ofNat n ∧ Bus.Words bus b.start n pc i

theorem Block.Word.finds {limit : Nat} {b : Block} {bus : β} {pc : UInt32} {i : Instruction}
    (h : b.Word limit bus pc i) : Bus.Finds bus pc i := by
  obtain ⟨n, -, -, hfinds, -⟩ := h
  exact hfinds

/-- The block was lowered from the instruction at the address. The guest that it was lowered from is
`known` to belong to its start. -/
def Block.Fetches (limit : Nat) (known : UInt32 → β → Prop) (b : Block) (pc : UInt32)
    (i : Instruction) : Prop :=
  ∃ bus, known b.start bus ∧ b.Word limit bus pc i

/-- What neither transfers control nor hands over to the host does not end a block. -/
theorem Mnemonic.endsBlock_eq_false {m : Mnemonic} (hdelays : m.hasDelaySlot = false)
    (hsyscall : m ≠ .syscall) (hbreak : m ≠ .breakpoint) : m.endsBlock = false := by
  change (m.hasDelaySlot || m == .syscall || m == .breakpoint) = false
  simp only [hdelays, beq_eq_false_iff_ne.mpr hsyscall, beq_eq_false_iff_ne.mpr hbreak, Bool.or_self]

namespace Lower

variable {s : Surroundings} {t u v : Lowering β} {i : Instruction}

/-! ## Handing over to the host -/

/-- Closing the block adds no code. -/
theorem Ends.then_close {frame : Frame} {pre : Assertion β} {x : Lower β Unit} {d : Departure β}
    (h : Ends s frame pre x d) : Ends s frame pre (x >>= fun _ => close) d := by
  intro t r v hexec m hm
  obtain ⟨_, w, hfirst, hclose⟩ := exec_bind_eq_ok hexec
  obtain rfl := (Prod.mk.inj hclose).2
  exact (h hfirst hm).extend Array.appendList_nil.symm

/-- A system call. -/
theorem departs_systemCall (hi : Instruction.decode? i.word = some i)
    (hexec : exec (systemCall i) s t = (.ok (), u)) :
    t.Departs s (fun e d => d = ⟨[⟨i.word, e.setWord Slot.pc (t.pc + 4)⟩], .checked,
      (i.interpret (e.setWord Slot.pc (t.pc + 4))).charge t.cycles⟩) u := by
  rw [systemCall, exec_bind_of_ok (exec_followingPc ..)] at hexec
  obtain ⟨_, w, hcall, hexit⟩ := exec_bind_eq_ok hexec
  rintro e -
  refine ⟨_, rfl, fun m hm => ?_⟩
  obtain ⟨items, n, hcode, hleads, henv, hframe, -, -, hcycles⟩ := leads_interpretCall hi hcall hm
  have hholds : n.Holds m.frame (i.interpret (e.setWord Slot.pc (t.pc + 4))) :=
    ⟨henv, hframe, (congrArg Frame.context hframe).trans hm.shows.consistent.context⟩
  have hleaves := Ends.writeCheckedExit.then_close hexit ⟨hholds, hcycles⟩
  exact .of_leads hcode hleads hleaves

/-- A trap. -/
theorem departs_trap (hm : i.mnemonic = .breakpoint)
    (hexec : exec trap s t = (.ok (), u)) :
    t.Departs s (fun e d =>
      d = ⟨[], .checked, ((i.interpret e).setWord Slot.pc (t.pc + 4)).charge t.cycles⟩) u := by
  have hinterpret (e : Environment β) :
      i.interpret e = e.setWord Slot.coreState CoreState.halted.toWord := by
    rw [Instruction.interpret, hm]
    rfl
  have hpc := Sequence.tame_storeStateImmediate (by decide : Slot.Free Slot.pc) (t.pc + 4)
  have hcore := Sequence.tame_storeStateImmediate (by decide : Slot.Free Slot.coreState)
    CoreState.halted.toWord
  rw [trap, exec_bind_of_ok (exec_followingPc ..)] at hexec
  refine departs_of_ends (fun f e hmain _ hcycles => ?_) hexec
  rw [hinterpret, ← hcycles]
  -- Two words of the guest are stored, the core state and the program counter.
  have hstore (slot : Nat) (hslot : slot < Slot.count) (value : UInt32) (e : Environment β) :
      ∀ (t : Lowering β) m, m.Holds f.frame e ∧ t.cycles = f.cycles →
        ∃ n, Runs (Sequence.storeStateImmediate (Slot.offset slot) value) m n ∧
          ∀ u : Lowering β, u.cycles = t.cycles →
            n.Holds f.frame (e.setWord slot value) ∧ u.cycles = f.cycles := by
    rintro t m ⟨hm, ht⟩
    refine ⟨_, Sequence.runs_storeStateImmediate hm.context hslot value, fun u hu =>
      ⟨⟨?_, hm.frame, hm.context⟩, hu.trans ht⟩⟩
    exact congrArg (·.setWord slot value) hm.env
  refine .mono (.flushed (fun _ _ => True) hmain ?_) fun _ _ ht => ⟨ht, trivial⟩
  refine .mono (.emit_bind hcore (hstore _ (by decide) _ e) ?_) fun _ _ ht => ⟨ht.1, ht.2.1⟩
  exact .emit_bind hpc (hstore _ (by decide) _ _) (Ends.then_close .writeCheckedExit)

/-! ## Instructions -/

/-- How an instruction that was read is lowered. -/
theorem exec_instruction_cases {bus : β} (hi : Bus.instructionAt t.pc t.bus = (.ok i, bus))
    (hexec : exec instruction s t = (.ok (), v)) :
    i.mnemonic.hasDelaySlot = true ∨
      ∃ u, v = { u with registers := u.registers.release } ∧
        (i.mnemonic = .syscall ∧ exec (systemCall i) s (t.reading bus i) = (.ok (), u) ∨
          i.mnemonic = .breakpoint ∧ exec trap s (t.reading bus i) = (.ok (), u) ∨
          i.mnemonic.endsBlock = false ∧ exec (straight i) s (t.reading bus i) = (.ok (), u)) := by
  obtain ⟨i', bus', u, hi', hexec, rfl⟩ := exec_instructionWith_reads hexec
  cases hi.symm.trans hi'
  rw [exec_bind_of_ok (exec_currentPc ..)] at hexec
  have hdelays {m : Mnemonic} (hm : i.mnemonic = m) (h : m.hasDelaySlot = true) :
      i.mnemonic.hasDelaySlot = true := hm ▸ h
  split at hexec
  · next hm => exact .inr ⟨u, rfl, .inl ⟨hm, hexec⟩⟩
  · next hm => exact .inr ⟨u, rfl, .inr (.inl ⟨hm, hexec⟩)⟩
  iterate 4
    · next hm => exact .inl (hdelays hm rfl)
  · split at hexec
    iterate 2
      · next hbranch => exact .inl (Mnemonic.hasDelaySlot_of_ofBranch? hbranch)
    · next hsyscall hbreak hj hjal hjr hjalr _ hnone =>
      cases hdelays : i.mnemonic.hasDelaySlot with
      | true => exact .inl rfl
      | false =>
        refine .inr ⟨u, rfl, .inr (.inr ⟨?_, hexec⟩)⟩
        exact Mnemonic.endsBlock_eq_false hdelays hsyscall hbreak

/-- Leaving for the current address. -/
theorem Ends.leaveHere {f : Footing β} {e : Environment β}
    (hmain : ∀ r, s.regions[0]? = some r → f.frame.memoryBase = r.pointer) :
    Ends s f.frame (Lowering.Shows f [] e)
      (Lower.flushAll >>= fun _ => currentPc >>= fun pc => Lower.writeExit pc)
      (.exit f.pc f.cycles e) := by
  refine after Acts.flushAll .flushAll (fun t m hm => hm.ready hmain) fun _ => ?_
  rintro t r u hexec m ⟨hm, hhome⟩
  have hpc : t.pc = f.pc := congrArg Footing.pc hm.footing
  have hframe : m.frame = f.frame := congrArg Footing.frame hm.footing
  have hcycles : t.cycles = f.cycles := congrArg Footing.cycles hm.footing
  rw [exec_bind_of_ok (exec_currentPc ..), hpc] at hexec
  exact Ends.writeExit f.pc hexec ⟨⟨hm.registers.env_eq hhome, hframe, hm.context⟩, hcycles⟩

/-! ## Blocks -/

section Body

variable {reads : UInt32 → Instruction → Prop}

/-- An instruction that is refused. -/
theorem departs_refused (ht : t.registers.Placed) {bus : β} (hrefused : i.mnemonic.isRefused = true)
    (hexec : exec (straight i) s (t.reading bus i) = (.ok (), u)) :
    t.Departs s (fun e d => d = .refuse t.pc e) u := by
  rw [straight_of_isRefused hrefused] at hexec
  obtain ⟨-, hdeparts⟩ := departs_of_refusal (ht.setPc t.pc) hexec
  exact departs_of_idle (u := t.reading bus i) rfl (fun _ _ h => h.setPc _) hdeparts

/-- An instruction that the block goes on behind. -/
theorem departs_straight_then {limit : Nat} {bus : β} {w : Lowering β}
    (haccepted : s.options.Accepted s.regions) (ht : t.registers.Placed)
    (hi : Bus.instructionAt t.pc t.bus = (.ok i, bus)) (hfinds : reads t.pc i)
    (hm : i.mnemonic.endsBlock = false) (hrefused : i.mnemonic.isRefused = false)
    (hw : exec (straight i) s (t.reading bus i) = (.ok (), w)) (hpc : w.pc = t.pc)
    (hrest : Lowering.Departs s (Course s.options s.regions reads limit (w.pc + 4) w.cycles)
      { w with registers := w.registers.release, pc := w.pc + 4 } v) :
    t.Departs s (Course s.options s.regions reads (limit + 1) t.pc t.cycles) v := by
  have hperforms := performs_straight haccepted (Bus.decode?_of_instructionAt hi) hm hrefused hw
  -- Reading the instruction before, and going on to the next one, adds no code.
  have hread : Lowering.Performs s (fun e : Environment β => ([], e)) t (t.reading bus i) :=
    .idle rfl fun _ _ h => h.setPc _
  have hdone : Lowering.Performs s (fun e : Environment β => ([], e)) w
      { w with registers := w.registers.release, pc := w.pc + 4 } :=
    .idle rfl fun _ _ h => h.setLocked _
  have hcycles : w.cycles = t.cycles + i.mnemonic.cycles :=
    (Paves.straight haccepted hrefused (ht.setPc t.pc) hw).cycles
  refine Lowering.Departs.performs ((hread.trans hperforms).trans hdone) hrest fun e _ d _ hd => ?_
  simp only [List.nil_append, List.append_nil] at hd ⊢
  rw [hpc, hcycles] at hd
  exact .straight _ hfinds hm hrefused hd

/-- The instruction that ends a block. Its delay slot is a word of the block if it is counted. -/
theorem departs_ending (limit : Nat) {bus : β} (haccepted : s.options.Accepted s.regions)
    (ht : t.registers.Placed) (hcancelled : t.cancelled = false)
    (hi : Bus.instructionAt t.pc t.bus = (.ok i, bus)) (hstops : i.stops = true)
    (hends : (t.reading bus i).EndsAt i v.outline) (hexec : exec instruction s t = (.ok (), v)) :
    ∃ n ≤ 2, v.instructions = t.instructions + UInt32.ofNat n ∧
      ∀ reads : UInt32 → Instruction → Prop, (∀ pc i, reads pc i → i.entry ∈ Entry.table) →
        (∀ pc i, Bus.Words t.bus t.pc n pc i → reads pc i) →
          t.Departs s (Course s.options s.regions reads (limit + 1) t.pc t.cycles) v := by
  obtain ⟨slot?, hslot, hends⟩ := hends
  have hcount : v.instructions = t.instructions + 1 + UInt32.ofNat slot?.toList.length :=
    hends.instructions
  refine ⟨1 + slot?.toList.length, ?_, ?_, fun reads htable hreads => ?_⟩
  · cases slot? <;> simp
  · rw [hcount, UInt32.ofNat_add, UInt32.add_assoc]
    rfl
  have hfinds : reads t.pc i := by
    rw [Nat.add_comm] at hreads
    exact hreads _ _ (.first (.of_instructionAt hi))
  -- Reading the instruction adds no code.
  have hread {w : Lowering β}
      (h : (t.reading bus i).Departs s (Course s.options s.regions reads (limit + 1) t.pc t.cycles)
        w) : t.Departs s (Course s.options s.regions reads (limit + 1) t.pc t.cycles)
          { w with registers := w.registers.release } := by
    have hdeparts := departs_of_idle (t := t) (u := t.reading bus i) rfl (fun _ _ h => h.setPc _) h
    exact hdeparts.extend Array.appendList_nil.symm
  rcases exec_instruction_cases hi hexec with hdelays | ⟨w, rfl, ⟨hm, hw⟩ | ⟨hm, hw⟩ | ⟨hm, hw⟩⟩
  · refine departs_transfer haccepted hcancelled hi hdelays htable hfinds (fun hruns j hj => ?_) hexec
    have hsome : slot?.isSome = true := hslot.trans hruns
    obtain ⟨k, rfl⟩ := Option.isSome_iff_exists.1 hsome
    exact hreads _ _ (.second hj)
  · refine hread ((departs_systemCall (Bus.decode?_of_instructionAt hi) hw).mono fun e _ d _ hd => ?_)
    rw [hd]
    exact .syscall hfinds hm
  · refine hread ((departs_trap hm hw).mono fun e _ d _ hd => ?_)
    rw [hd]
    exact .trap hfinds hm
  · have hrefused : i.mnemonic.isRefused = true := by
      rwa [Instruction.stops, hm, Bool.false_or] at hstops
    have hdeparts : t.Departs s (Course s.options s.regions reads (limit + 1) t.pc t.cycles) w := by
      refine (departs_refused ht hrefused hw).mono fun e _ d _ hd => ?_
      rw [hd]
      exact .refused hfinds hrefused
    exact hdeparts.extend Array.appendList_nil.symm

/-- The instructions of a block, up to the way out. They are the words that the block counts. -/
theorem departs_body (haccepted : s.options.Accepted s.regions) (start : UInt32) (limit : Nat)
    (ht : t.registers.Locks []) (hcancelled : t.cancelled = false) (hopen : t.isOpen = true)
    (hexec : exec (body start limit) s t = (.ok (), v)) :
    ∃ n ≤ limit + 1, v.instructions = t.instructions + UInt32.ofNat n ∧
      ∀ reads : UInt32 → Instruction → Prop, (∀ pc i, reads pc i → i.entry ∈ Entry.table) →
        (∀ pc i, Bus.Words t.bus t.pc n pc i → reads pc i) →
          t.Departs s (Course s.options s.regions reads limit t.pc t.cycles) v := by
  -- One instruction is lowered, and unless it ends the block, the rest of the block by induction.
  induction limit generalizing t with
  | zero =>
    rw [body, exec_bind_of_ok (exec_report ..)] at hexec
    have hdeparts : t.Departs s (fun e d => d = .exit t.pc t.cycles e) v :=
      departs_of_idle (u := { t with events := t.events.push (.instructionLimit start) }) rfl
        (fun _ _ h => h) (departs_of_ends (fun f e hmain hpc hcycles => by
          rw [← hpc, ← hcycles]
          exact .leaveHere hmain) hexec)
    have hcount : v.instructions = t.instructions := by
      obtain ⟨_, w, hflush, hexit⟩ := exec_bind_eq_ok hexec
      rw [exec_bind_of_ok (exec_currentPc ..)] at hexit
      have houtline := (Exits.writeExit _ hexit).trans (congrArg (Outline.leaving · [w.pc])
        (Exits.flushAll hflush))
      exact congrArg Outline.instructions houtline
    refine ⟨0, Nat.zero_le _, hcount.trans (UInt32.add_zero _).symm, fun reads _ _ => ?_⟩
    refine hdeparts.mono fun e _ d _ hd => ?_
    rw [hd]
    exact .limit ..
  | succ limit ih =>
    obtain ⟨_, u, hfirst, hexec⟩ := exec_bind_eq_ok hexec
    rw [exec_bind_of_ok (exec_modify ..), exec_get_bind] at hexec
    dsimp only at hexec
    obtain ⟨i, bus, w, hi, rfl, ⟨hstops, hw⟩ | ⟨hstops, hends⟩⟩ :=
      exec_instruction_outline hcancelled hfirst
    · obtain ⟨hm, hrefused⟩ := Bool.or_eq_false_iff.1 hstops
      have hpaves := Paves.straight haccepted hrefused (ht.placed.setPc t.pc) hw
      obtain ⟨u', hu', hlocks, hbus, hpc⟩ := exec_instruction_of_straight (s := s) ht hi hm
      cases hfirst.symm.trans hu'
      dsimp only at hlocks hbus hpc
      rw [if_pos (hpaves.isOpen.trans hopen)] at hexec
      obtain ⟨n, hn, hcount, hrest⟩ := ih
        (t := { w with registers := w.registers.release, pc := w.pc + 4 }) hlocks
        (hpaves.cancelled.trans hcancelled) (hpaves.isOpen.trans hopen) hexec
      have hcounted : w.instructions = t.instructions + 1 := by
        have houtline := outline_straight hw
        rw [hrefused] at houtline
        exact congrArg Outline.instructions houtline
      have hahead := Bus.readsTo_instructionAt t.pc t.bus
      rw [hi, ← hbus] at hahead
      refine ⟨n + 1, Nat.succ_le_succ hn, ?_, fun reads htable hreads => ?_⟩
      · rw [hcount, hcounted, UInt32.ofNat_add]
        grind
      · refine departs_straight_then haccepted ht.placed hi
          (hreads _ _ (.first (.of_instructionAt hi))) hm hrefused hw hpc
          (hrest reads htable fun pc j hj => hreads pc j (.of_rest hahead ?_))
        dsimp only at hj
        rwa [hpc] at hj
    -- Once the block is closed, no more code comes.
    · obtain ⟨n, hn, hcount, hdeparts⟩ := departs_ending limit haccepted
        ht.placed hcancelled hi hstops (v := { w with registers := w.registers.release }) hends hfirst
      have hclosed : w.isOpen = false := hends.choose_spec.2.isOpen
      rw [if_neg (by rw [hclosed]; decide)] at hexec
      obtain rfl := (Prod.mk.inj hexec).2
      exact ⟨n, by omega, hcount, fun reads htable hreads =>
        (hdeparts reads htable hreads).extend Array.appendList_nil.symm⟩

end Body

/-- A machine about to run code of a block, with a guest in which register zero is zero. -/
structure Enters (regions : List FastRegion) (e : Environment β) (m : HostMachine β) : Prop where
  env : m.env = e
  roles : m.Roles regions
  zero : e.state.get 0 = 0
  backed : Bus.Backed regions e.bus

theorem Enters.meets {e : Environment β} {m : HostMachine β} (h : Enters s.regions e m) (bus : β)
    (start : UInt32) : (Lowering.entered bus s.stubs start).Meets s e m := by
  obtain ⟨rfl, hroles, hzero, hbacked⟩ := h
  exact ⟨RegisterCache.home_fresh.shows RegisterCache.sound_fresh.toPaired hzero hroles.context,
    hroles.main, hbacked⟩

/-- There are machines for every guest. -/
theorem exists_enters {e : Environment β} (hzero : e.state.get 0 = 0)
    (hbacked : Bus.Backed s.regions e.bus) : ∃ m, Enters s.regions e m := by
  let m : HostMachine β := ⟨Vector.replicate 16 0, .clear, Vector.replicate Linkage.stackSlots 0, 0, e⟩
  let base := (s.regions[0]?.map (·.pointer)).getD 0
  refine ⟨(m.set .memoryBase base).set .context Linkage.contextBase, rfl, ⟨get_set_self .., ?_⟩,
    hzero, hbacked⟩
  intro r hr
  rw [get_set_of_ne _ (by decide) (by decide) (by decide), get_set_self]
  simp only [base, hr, Option.map_some, Option.getD_some]

/-- The code of a block behind its entry takes all machines with the same guest to the same way
out. -/
theorem departs_block (haccepted : s.options.Accepted s.regions) {bus : β} {start : UInt32}
    (hexec : exec (block start) s (.initial bus start) = (.ok (), u)) :
    ∃ (more : List Item) (n : Nat),
      u.code.toList = entryItems s.stubs start ++ more ++ [.align blockAlignment] ∧
      n ≤ s.options.maxBlockInstructions + 1 ∧ u.instructions = UInt32.ofNat n ∧
      ∀ e, e.state.get 0 = 0 → Bus.Backed s.regions e.bus →
        ∃ d, Course s.options s.regions (Bus.Words bus start n) s.options.maxBlockInstructions start 0
            e d ∧
          ∀ m, Enters s.regions e m → ∃ (rest : List Item) (n : HostMachine β),
            Point.Leads ⟨none, more, m⟩ d.calls ⟨none, d.way.items s ++ rest, n⟩ ∧ d.Leaves n ∧
              n.frame = m.frame := by
  rw [exec_block] at hexec
  rcases hbody : exec (body start s.options.maxBlockInstructions) s (.entered bus s.stubs start)
    with ⟨_ | ⟨⟨⟩⟩, t⟩ <;> rw [hbody] at hexec
  · cases hexec
  obtain rfl := (Prod.mk.inj hexec).2
  obtain ⟨n, hn, hcount, hbodies⟩ := departs_body haccepted start s.options.maxBlockInstructions
    RegisterCache.locks_fresh rfl rfl hbody
  have hdeparts : (Lowering.entered bus s.stubs start).Departs s (Course s.options s.regions
      (Bus.Words bus start n) s.options.maxBlockInstructions start 0) t :=
    hbodies _ (fun _ _ h => h.mem_table) fun _ _ h => h
  obtain ⟨more, hmore⟩ := (Orderly.body start s.options.maxBlockInstructions).code_extends s
    (.entered bus s.stubs start)
  rw [hbody] at hmore
  refine ⟨more, n, ?_, hn, hcount.trans (UInt32.zero_add _), fun e hzero hbacked => ?_⟩
  · rw [Array.toList_appendList, hmore]
    rfl
  · obtain ⟨m, hm⟩ := exists_enters hzero hbacked
    obtain ⟨d, hcourse, hleaves⟩ := hdeparts e ⟨m, hm.meets bus start⟩
    refine ⟨d, hcourse, fun m hm => ?_⟩
    obtain ⟨items, rest, n, hcode, hleads, hn, hframe⟩ := hleaves m (hm.meets bus start)
    -- The code is the same for all machines.
    have hitems : items = more := by
      rw [hcode, Array.toList_appendList] at hmore
      exact List.append_cancel_left hmore
    exact ⟨rest, n, hitems ▸ hleads, hn, hframe⟩

end Lower

end Recompiler
