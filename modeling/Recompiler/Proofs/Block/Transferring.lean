import Recompiler.Proofs.Block.Course
import Recompiler.Proofs.Block.Readable
import Recompiler.Proofs.Block.Straight

/-!
# Transfers of control

The code for a branch or jump and the instruction in its delay slot, as a way out of the block. The
lowering chooses between several shapes of code, by what it knows of the operands and by what the
delay slot writes. All of them test the registers from before the return address and the delay slot.

* `Bus.Finds`: the instruction that reading finds.
* `Test.holds`: the outcome of a test.
* `Lowering.Prepares`: code before the delay slot.
* `Lower.exec_delaySlot_eq`: the delay slot, lowered or refused.
* `Lower.departs_afterDelaySlot`: what comes after the delay slot leaves the block.
* `Lower.departs_branch`, `Lower.departs_jump`, `Lower.departs_registerJump`: the shapes.
-/

namespace Recompiler

open HostMachine

variable {β : Type} [Bus β]

/-! ## Reading instructions -/

/-- Reading at `pc`, now or after some other reads, finds the instruction. -/
def Bus.Finds (bus : β) (pc : UInt32) (i : Instruction) : Prop :=
  ∃ b, ReadsTo bus b ∧ (instructionAt pc b).1 = .ok i

namespace Bus.Finds

variable {bus bus' : β} {pc : UInt32} {i : Instruction}

theorem of_instructionAt (h : instructionAt pc bus = (.ok i, bus')) : Finds bus pc i :=
  ⟨bus, .refl, congrArg Prod.fst h⟩

theorem of_reads (h : ReadsTo bus bus') (h' : Finds bus' pc i) : Finds bus pc i := by
  obtain ⟨b, hreads, hi⟩ := h'
  exact ⟨b, h.trans hreads, hi⟩

theorem mem_table (h : Finds bus pc i) : i.entry ∈ Entry.table := by
  obtain ⟨b, -, hi⟩ := h
  exact mem_table_of_instructionAt (Prod.ext hi rfl)

end Bus.Finds

namespace Lower

variable {pc : UInt32} {i : Instruction} {s : Surroundings} {t u v : Lowering β}

omit [Bus β] in
theorem exec_bind_eq_ok {α γ : Type} {x : Lower β α} {k : α → Lower β γ} {r : γ}
    (h : exec (x >>= k) s t = (.ok r, v)) :
    ∃ q u, exec x s t = (.ok q, u) ∧ exec (k q) s u = (.ok r, v) := by
  rw [exec_bind] at h
  rcases hx : exec x s t with ⟨_ | q, u⟩ <;> rw [hx] at h
  · cases h
  · exact ⟨q, u, rfl, h⟩

theorem instructionAt_of_exec_decode (h : exec (decode pc) s t = (.ok i, u)) :
    ∃ bus, Bus.instructionAt pc t.bus = (.ok i, bus) ∧ u = { t with bus := bus } := by
  rcases hread : Bus.instructionAt pc t.bus with ⟨e | j, bus⟩
  · obtain ⟨w, hw⟩ := exec_decode_of_error s (congrArg Prod.fst hread)
    rw [hw] at h
    cases h
  · rw [exec_decode_of_ok s hread] at h
    cases h
    exact ⟨bus, rfl, rfl⟩

theorem exec_instructionWith_reads {body : Instruction → Lower β Unit}
    (h : exec (instructionWith body) s t = (.ok (), v)) :
    ∃ i bus u, Bus.instructionAt t.pc t.bus = (.ok i, bus) ∧
      exec (body i) s (t.reading bus i) = (.ok (), u) ∧
      v = { u with registers := u.registers.release } := by
  rcases hread : Bus.instructionAt t.pc t.bus with ⟨e | i, bus⟩
  · obtain ⟨u, hu⟩ := exec_instructionWith_of_unreadable body s (congrArg Prod.fst hread)
    rw [hu] at h
    cases h
  · rw [exec_instructionWith hread] at h
    rcases hbody : exec (body i) s (t.reading bus i) with ⟨_ | ⟨⟨⟩⟩, u⟩ <;> rw [hbody] at h
    · cases h
    · exact ⟨i, bus, u, rfl, hbody, (Prod.mk.inj h).2.symm⟩

end Lower

omit [Bus β] in
theorem Instruction.decode?_word {word : UInt32} {i : Instruction} (h : decode? word = some i) :
    decode? i.word = some i := by
  rwa [word_of_decode? h]

theorem Bus.decode?_of_instructionAt {pc : UInt32} {bus bus' : β} {i : Instruction}
    (h : instructionAt pc bus = (.ok i, bus')) : Instruction.decode? i.word = some i := by
  unfold instructionAt at h
  split at h
  · cases h
  · split at h
    · next hdecode =>
      cases h
      exact Instruction.decode?_word hdecode
    · cases h

/-! ## Tests -/

namespace Test

variable {γ : Type} (t : Test) (e : Environment γ)

/-- The right hand side of a test. -/
def rhs : UInt32 :=
  (t.rt.map fun rt => e.register rt).getD 0

/-- The outcome of a test. -/
def holds : Bool :=
  t.condition.holds (e.register t.rs) (t.rhs e)

/-- A test reads nothing but its operands. -/
theorem holds_congr {t : Test} {e e' : Environment γ}
    (h : ∀ reg, t.reads reg = true → e'.register reg = e.register reg) : t.holds e' = t.holds e := by
  obtain ⟨c, rs, rt?⟩ := t
  have hrs := h rs (by simp [reads])
  cases rt? with
  | none => simp [holds, rhs, hrs]
  | some rt =>
    have hrt := h rt (by simp [reads])
    simp [holds, rhs, hrs, hrt]

end Test

omit [Bus β] in
/-- Storing in the word of a guest register, where everything is stored. -/
theorem RegisterCache.Shows.storeHome {c : RegisterCache} {m : HostMachine β} {e : Environment β}
    (h : c.Shows [] m e) (hhome : c.Home) {reg : GuestIndex} (hreg : reg ≠ zeroRegister)
    (v : UInt32) : c.Shows [] (m.setSlot reg v) (e.setRegister reg v) := by
  obtain rfl := h.env_eq hhome
  have hval : reg.val ≠ 0 := fun heq => hreg (Fin.ext heq)
  have hset : m.env.setRegister reg v = m.env.setWord reg v := by
    rw [Environment.setRegister, State.setRegister, if_neg hval]
    rfl
  have hzero : (m.env.setWord reg v).state.get 0 = 0 :=
    (State.get_set_of_ne _ hval v).trans h.zero
  rw [hset]
  exact hhome.shows h.consistent.toPaired hzero h.consistent.context

namespace Lower.Acts

variable {s : Surroundings} {f : Footing β} {e : Environment β}

/-- What is known of a register, where more than the guest is known already. -/
theorem immediate?_bind_of {α : Type} {pre : Assertion β} {reg : GuestIndex}
    {k : Option UInt32 → Lower β α} {post : α → Assertion β}
    (hpre : ∀ t m, pre t m → t.Shows f [] e m)
    (hk : ∀ v?, (∀ v, v? = some v → e.state.get reg = v) → Acts s pre (k v?) post) :
    Acts s pre (immediate? reg >>= k) post := by
  intro t r u hexec m hm
  rw [exec_bind_of_ok (exec_immediate? ..)] at hexec
  exact hk _ (fun v hv => (hpre t m hm).registers.get_of_immediate? hv) hexec hm

/-- Comparing a register with another or with a constant. -/
theorem emit_compare {x : HostRegister} {rhs : Source} {a b : UInt32} {k : Assertion β}
    (h : ∀ t m, k t m → t.Shows f [] e m ∧ x.Valid ∧ rhs.Valid ∧ m.getWord x = a ∧
      rhs.value m = b) :
    Acts s k (Lower.emit (Sequence.compare x rhs)) fun _ t m =>
      t.Shows f [] e m ∧ m.flags = .ofSub a b := by
  refine emit fun t m hm => ?_
  obtain ⟨ht, hx, hrhs, rfl, rfl⟩ := h t m hm
  exact ⟨_, Sequence.runs_compare hx hrhs m, fun u hregisters hfooting =>
    ⟨⟨hregisters ▸ ht.registers.setFlags _, (hfooting _).trans ht.footing⟩, rfl⟩⟩

/-- The flags are those of the operands of the test. -/
theorem writeCompare (t : Test) : Acts s (Lowering.Shows f [] e) (Lower.writeCompare t)
    fun _ u m => u.Shows f [] e m ∧ m.flags = .ofSub (e.register t.rs) (t.rhs e) := by
  obtain ⟨c, rs, rt?⟩ := t
  cases rt? with
  | none =>
    refine (lock rs).bind fun _ => (map_read rs).bind fun x =>
      emit_compare (b := 0) fun t m hm => ?_
    exact ⟨hm.1, HostRegister.valid_of_mem_allocationOrder
      (hm.2.mem_of_read hm.1.consistent.toPaired), trivial, hm.2.value (by decide), rfl⟩
  | some rt =>
    -- the lock keeps `rs` where it is while `rt` is mapped
    have hread := map_keeping (s := s) (f := f) (e := e) rs .read
      (p := fun t _ => t.registers.locked.get rs = true) (q := fun c _ => c.locked.get rs = true)
      fun _ _ _ _ hlocked _ hspares _ => hspares.locked ▸ hlocked
    rw [Access.lost_read] at hread
    refine lock_bind (hread.bind fun x => immediate?_bind_of (fun t m hm => hm.1) fun v? hv? => ?_)
    let operands (rhs : Source) (t : Lowering β) (m : HostMachine β) : Prop :=
      t.Shows f [] e m ∧ x.Valid ∧ rhs.Valid ∧ m.getWord x = e.register rs ∧
        rhs.value m = e.register rt
    have hcompare (rhs : Source) := emit_compare (s := s) (k := operands rhs) fun _ _ hm => hm
    cases v? with
    | some v =>
      have hrhs : Acts s (fun t m => t.Shows f [] e m ∧
            t.registers.Mapped m rs .read (e.state.get rs) x ∧ t.registers.locked.get rs = true)
          (Pure.pure (Source.immediate v)) operands := pure fun t m hm =>
        ⟨hm.1, HostRegister.valid_of_mem_allocationOrder
          (hm.2.1.mem_of_read hm.1.consistent.toPaired), trivial, hm.2.1.value (by decide),
          (hv? v rfl).symm⟩
      exact hrhs.bind hcompare
    | none =>
      have hmap := map_keeping (s := s) (f := f) (e := e) rt .read
        (p := fun t m => t.registers.Mapped m rs .read (e.state.get rs) x ∧
          t.registers.locked.get rs = true)
        (q := fun c n => c.Mapped n rs .read (e.state.get rs) x)
        fun t m c n hm _ hspares hvalue =>
          hm.1.stays hm.2 hspares (hvalue rs (by rw [Access.lost_read]; simp))
      rw [Access.lost_read] at hmap
      have hrhs : Acts s (fun t m => t.Shows f [] e m ∧
            t.registers.Mapped m rs .read (e.state.get rs) x ∧ t.registers.locked.get rs = true)
          (Source.register <$> Lower.map rt .read) operands := hmap.bind fun y => pure fun t m hm => by
        have hpaired := hm.1.consistent.toPaired
        exact ⟨hm.1, HostRegister.valid_of_mem_allocationOrder (hm.2.2.mem_of_read hpaired),
          HostRegister.valid_of_mem_allocationOrder (hm.2.1.mem_of_read hpaired),
          hm.2.2.value (by decide), hm.2.1.value (by decide)⟩
      exact hrhs.bind hcompare

/-- Keeping the outcome of a comparison in the scratch word of branches. -/
theorem storeCondition {c : Condition} {a b : UInt32} :
    Acts s (fun t m => t.Shows f [] e m ∧ m.flags = .ofSub a b)
      (Lower.emit (Sequence.storeCondition c (Slot.offset Slot.branchTemp))) fun _ =>
        Lowering.Shows f [] (e.setWord Slot.branchTemp (bit (c.holds a b))) := by
  refine emit fun t m hm => ?_
  obtain ⟨ht, hflags⟩ := hm
  obtain ⟨n, hruns, hkeeps⟩ := Sequence.runs_storeCondition c ht.context
    (show Slot.branchTemp < Slot.count by decide)
  rw [hflags, Flags.holds_ofSub] at hkeeps
  refine ⟨n, hruns, fun u hregisters hfooting => ?_⟩
  have hstored : t.Shows f [] (e.setWord Slot.branchTemp (bit (c.holds a b)))
      (m.setSlot Slot.branchTemp (bit (c.holds a b))) :=
    ⟨ht.registers.setSlot (by decide) _, ht.footing⟩
  exact (hstored.keeps hkeeps (by simp [HostRegister.volatile])).of_eq hregisters (hfooting n)

/-- The return address of a likely branch is stored at once. -/
theorem storeLink {flags : Flags} {next : UInt32} :
    Acts s (fun t m => t.Shows f [] e m ∧ t.registers.Home ∧ m.flags = flags)
      (Lower.emit (Sequence.storeStateImmediate (guestOffset linkRegister) next)) fun _ t m =>
        t.Shows f [] (e.setRegister linkRegister next) m ∧ t.registers.Home ∧ m.flags = flags := by
  refine emit fun t m hm => ?_
  obtain ⟨ht, hhome, hflags⟩ := hm
  have hcount : linkRegister.val < Slot.count := by decide
  refine ⟨_, Sequence.runs_storeStateImmediate ht.context hcount next, fun u hregisters hfooting =>
    ⟨⟨?_, (hfooting _).trans ht.footing⟩, hregisters ▸ hhome, hflags⟩⟩
  rw [hregisters]
  exact ht.registers.storeHome hhome (by decide) next

end Lower.Acts

omit [Bus β] in
/-- Writing the return address leaves the words of generated code alone. -/
theorem Instruction.get_link_reserved {i : Instruction} {e : Environment β} {slot : Nat}
    (hi : i.entry ∈ Entry.table) (hslot : Slot.Reserved slot) (pc : UInt32) :
    (i.link pc e).state.get slot = e.state.get slot := by
  unfold link
  split
  · exact Environment.get_setRegister (registerOf_lt hi rfl) hslot _
  split
  · exact Environment.get_setRegister (by decide) hslot _
  · rfl

/-! ## Code before the delay slot -/

/-- The code that was added takes a machine that shows a guest to one that shows what `g` makes of
it, without calls. Nothing else is lowered. -/
def Lowering.Prepares (s : Surroundings) (g : Environment β → Environment β)
    (t u : Lowering β) : Prop :=
  ∀ ⦃e m⦄, t.Meets s e m → ∃ (items : List Item) (n : HostMachine β), u.code = t.code ++ items ∧
    Point.Leads ⟨none, items, m⟩ [] ⟨none, [], n⟩ ∧ u.Meets s (g e) n ∧
      u.footing n = t.footing m

/-- Instructions without calls. -/
theorem Lowering.Meets.leads {α : Type} {s : Surroundings} {t u : Lowering β} {e : Environment β}
    {m : HostMachine β} {x : Lower β α} {r : α} {post : α → Lower.Assertion β} (hm : t.Meets s e m)
    (hexec : x.exec s t = (.ok r, u)) (hquiet : Lower.Quiet x fun _ => True)
    (hacts : Lower.Acts s (Lowering.Shows (t.footing m) [] e) x post) :
    ∃ (items : List Item) (n : HostMachine β), u.code = t.code ++ items ∧
      Point.Leads ⟨none, items, m⟩ [] ⟨none, [], n⟩ ∧ post r u n := by
  obtain ⟨n, hcarries, hn⟩ := hacts hexec hm.showsAt
  obtain ⟨items, hcode, hleads⟩ :=
    hcarries.leads_of_quiet (hquiet hm.ready.placed hexec).2 hm.ready
  exact ⟨items, n, hcode, hleads, hn⟩

namespace Lowering.Prepares

variable {s : Surroundings} {t u v : Lowering β} {g g' : Environment β → Environment β}

theorem refl (t : Lowering β) : Prepares s id t t :=
  fun _ m h => ⟨[], m, Array.appendList_nil.symm, .refl _, h, rfl⟩

theorem trans (h : Prepares s g t u) (h' : Prepares s g' u v) : Prepares s (g' ∘ g) t v := by
  intro e m hm
  obtain ⟨items, n, hcode, hleads, hn, hfooting⟩ := h hm
  obtain ⟨more, p, hcode', hleads', hp, hfooting'⟩ := h' hn
  exact ⟨items ++ more, p, by rw [hcode', hcode, appendList_append], hleads.append hleads', hp,
    hfooting'.trans hfooting⟩

/-- Steps without code that show the same guest at the same place. -/
theorem idle (hcode : u.code = t.code)
    (hshows : ∀ (e : Environment β) (m : HostMachine β), t.registers.Shows [] m e →
      u.registers.Shows [] m e)
    (hfooting : ∀ m : HostMachine β, u.footing m = t.footing m) : Prepares s id t u :=
  fun _ m h => ⟨[], m, by rw [hcode, Array.appendList_nil], .refl _,
    h.of_registers (hshows _ m h.shows), hfooting m⟩

theorem of_quiet {α : Type} {x : Lower β α} {r : α} (hexec : x.exec s t = (.ok r, u))
    (hquiet : Lower.Quiet x fun _ => True)
    (hacts : ∀ f e, Lower.Acts s (Lowering.Shows f [] e) x fun _ => Lowering.Shows f [] (g e))
    (hevolves : ∀ e, Bus.Evolves e.bus (g e).bus) : Prepares s g t u := by
  intro e m hm
  obtain ⟨items, n, hcode, hleads, hn⟩ := hm.leads hexec hquiet (hacts _ e)
  have hframe : n.frame = m.frame := congrArg Lower.Footing.frame hn.footing
  exact ⟨items, n, hcode, hleads, ⟨hn.registers, hframe ▸ hm.main, hm.backed.evolves (hevolves e)⟩,
    hn.footing⟩

theorem performs (h : Prepares s g t u) : t.Performs s (fun e => ([], g e)) u := by
  intro e m hm
  obtain ⟨items, n, hcode, hleads, hn, hfooting⟩ := h hm
  exact ⟨items, n, hcode, hleads, hn, congrArg Lower.Footing.frame hfooting⟩

end Lowering.Prepares

/-! ## Delay slots -/

omit [Bus β] in
/-- An instruction that writes no register with a property spares all that have it. -/
theorem Instruction.Spares.of_any {j : Instruction} {p : GuestIndex → Bool} {reg : GuestIndex}
    (h : (j.outputRegister?.any fun r => p (guestOperand r)) = false) (hp : p reg = true) :
    j.Spares reg := by
  intro r hr heq
  have hsame : guestOperand r = reg := Fin.ext (by
    rw [guestOperand, Fin.val_ofNat, heq]
    exact Nat.mod_eq_of_lt reg.isLt)
  rw [hr] at h
  simp [hsame, hp] at h

theorem Instruction.Spares.register_perform {o : Options} {regions : List FastRegion} {known : Bool}
    {j : Instruction} {pc : UInt32} {e : Environment β} {reg : GuestIndex} (h : j.Spares reg)
    (hends : j.mnemonic.endsBlock = false) :
    (j.perform o regions known pc e).register reg = e.register reg := by
  have hlt := reg.isLt
  have hne {slot : Nat} (hslot : 32 ≤ slot) : reg.val ≠ slot := by omega
  exact h.get_perform (hne (by decide)) (hne (by decide)) (hne (by decide)) hends

/-- The instruction `j` in a delay slot was lowered. -/
structure Lowering.Slot (s : Surroundings) (j : Instruction) (t v : Lowering β) : Prop where
  ends : j.mnemonic.endsBlock = false
  refused : j.mnemonic.isRefused = false
  cancelled : v.cancelled = t.cancelled
  cycles : v.cycles = t.cycles + j.mnemonic.cycles
  performs : ∃ known, t.Performs s
    (fun e => (j.calls (t.pc + 4) e, j.perform s.options s.regions known (t.pc + 4) e)) v

/-- The instruction `j` in a delay slot was refused. -/
structure Lowering.SlotRefused (s : Surroundings) (j : Instruction) (t v : Lowering β) : Prop where
  refused : j.mnemonic.endsBlock = true ∨ j.mnemonic.isRefused = true
  cancelled : v.cancelled = true
  departs : t.Departs s (fun e d => d = .refuse (t.pc + 4) e) v

namespace Lower

variable {s : Surroundings} {t u v : Lowering β} {i j : Instruction}

/-- Steps without code before a way out. -/
theorem departs_of_idle {course : Environment β → Departure β → Prop} (hcode : u.code = t.code)
    (hshows : ∀ (e : Environment β) (m : HostMachine β), t.registers.Shows [] m e →
      u.registers.Shows [] m e) (h : u.Departs s course v) : t.Departs s course v :=
  .performs (.idle hcode hshows) h fun _ _ _ _ hd => hd

/-- Refusing an instruction, after a report. -/
theorem departs_of_refusal {event : UInt32 → Event} (ht : t.registers.Placed)
    (h : exec (currentPc >>= fun pc => report (event pc) >>= fun _ => hardFault) s t =
      (.ok (), v)) :
    v.cancelled = true ∧ t.Departs s (fun e d => d = .refuse t.pc e) v := by
  rw [exec_bind_of_ok (exec_currentPc ..), exec_bind_of_ok (exec_report ..)] at h
  refine ⟨(refuses_hardFault (by exact ht) h).cancelled, ?_⟩
  refine departs_of_idle (u := { t with events := t.events.push (event t.pc) }) rfl
    (fun _ _ h => h) (Ends.departs (g := fun e => .refuse t.pc e) (fun f e hmain => ?_) h
      fun _ _ _ => rfl)
  intro w r x hexec m ⟨hw, hm⟩
  have hpc : f.pc = t.pc := by
    rw [← hm.footing, hw]
    rfl
  rw [← hpc]
  exact Ends.hardFault hmain hexec hm

/-- The code of a delay slot, from where its instruction was read. -/
theorem slot_of_exec {w : Lowering β} (haccepted : s.options.Accepted s.regions)
    (hw : w.registers.Placed) (hcode : w.code = t.code) (hpc : w.pc = t.pc + 4)
    (hcancelled : w.cancelled = t.cancelled) (hcycles : w.cycles = t.cycles + j.mnemonic.cycles)
    (hshows : ∀ (e : Environment β) (m : HostMachine β), t.registers.Shows [] m e →
      w.registers.Shows [] m e)
    (hj : Instruction.decode? j.word = some j)
    (hexec : exec (if j.mnemonic.endsBlock then
        currentPc >>= fun pc => report (.undefinedDelaySlot j pc) >>= fun _ => hardFault
      else straight j) s w = (.ok (), u)) (pc : UInt32) :
    Lowering.Slot s j t { u with pc := pc, registers := { u.registers.release with pc := pc } } ∨
      Lowering.SlotRefused s j t
        { u with pc := pc, registers := { u.registers.release with pc := pc } } := by
  -- A delay slot is refused if it would end a block, and if it would be refused anywhere.
  have hrefuse {event : UInt32 → Event}
      (hrefused : j.mnemonic.endsBlock = true ∨ j.mnemonic.isRefused = true)
      (hexec : exec (currentPc >>= fun pc => report (event pc) >>= fun _ => hardFault) s w =
        (.ok (), u)) :
      Lowering.SlotRefused s j t
        { u with pc := pc, registers := { u.registers.release with pc := pc } } := by
    obtain ⟨hcancelled, hdeparts⟩ := departs_of_refusal hw hexec
    rw [hpc] at hdeparts
    exact ⟨hrefused, hcancelled,
      (departs_of_idle hcode hshows hdeparts).extend Array.appendList_nil.symm⟩
  split at hexec
  · next hends => exact .inr (hrefuse (.inl hends) hexec)
  · next hends =>
    have hends := (Bool.not_eq_true _).mp hends
    cases hrefused : j.mnemonic.isRefused with
    | true =>
      rw [straight_of_isRefused hrefused] at hexec
      exact .inr (hrefuse (.inr hrefused) hexec)
    | false =>
      have hpaves := Paves.straight haccepted hrefused hw hexec
      have hperforms := performs_straight haccepted hj hends hrefused hexec
      rw [hpc] at hperforms
      have hdone : Lowering.Performs s (fun e : Environment β => ([], e)) u
          { u with pc := pc, registers := { u.registers.release with pc := pc } } :=
        .idle rfl fun e m h => (h.setLocked _).setPc pc
      refine .inl ⟨hends, hrefused, hpaves.cancelled.trans hcancelled,
        hpaves.cycles.trans hcycles, w.knows j, ?_⟩
      have hall := ((Lowering.Performs.idle hcode hshows).trans hperforms).trans hdone
      simpa using hall

/-- The instruction in a delay slot is lowered or refused. -/
theorem exec_delaySlot_eq (haccepted : s.options.Accepted s.regions) (ht : t.registers.Placed)
    (h : exec delaySlot s t = (.ok (), v)) :
    ∃ j bus, Bus.instructionAt (t.pc + 4) t.bus = (.ok j, bus) ∧
      (Lowering.Slot s j t v ∨ Lowering.SlotRefused s j t v) := by
  obtain ⟨w, hexec, rfl⟩ := exists_inSlot h
  obtain ⟨j, bus, u, hread, hbody, rfl⟩ := exec_instructionWith_reads hexec
  have hw := slot_of_exec (t := t) (w := Lowering.reading { t with pc := t.pc + 4 } bus j) haccepted
    (ht.setPc _) rfl rfl rfl rfl (fun e m hm => hm.setPc _) (Bus.decode?_of_instructionAt hread)
    hbody t.pc
  exact ⟨j, bus, hread, hw⟩

/-! ## After the delay slot -/

/-- The lowering is about to transfer control by the instruction `i`, which was read and is
charged. -/
structure Turning (reads : UInt32 → Instruction → Prop) (i : Instruction) (pc cycles : UInt32)
    (t : Lowering β) : Prop where
  table : ∀ pc i, reads pc i → i.entry ∈ Entry.table
  pc_eq : t.pc = pc
  cycles_eq : t.cycles = cycles + i.mnemonic.cycles
  cancelled : t.cancelled = false
  found : reads pc i
  delays : i.mnemonic.hasDelaySlot = true
  slot : i.runsSlot t.registers.immediate? = true →
    ∀ j, Bus.Finds t.bus (pc + 4) j → reads (pc + 4) j

section Turning

variable {reads : UInt32 → Instruction → Prop} {limit : Nat} {pc cycles : UInt32}

theorem Turning.of_readsTo (h : Turning reads i pc cycles t) {bus : β}
    (hbus : Bus.ReadsTo t.bus bus) : Turning reads i pc cycles { t with bus := bus } :=
  ⟨h.table, h.pc_eq, h.cycles_eq, h.cancelled, h.found, h.delays,
    fun hruns j hj => h.slot hruns j (.of_reads hbus hj)⟩

theorem Turning.close (h : Turning reads i pc cycles t) :
    Turning reads i pc cycles { t with isOpen := false } :=
  ⟨h.table, h.pc_eq, h.cycles_eq, h.cancelled, h.found, h.delays, h.slot⟩

/-- At the same place the same is about to happen. -/
theorem Turning.of_footing (h : Turning reads i pc cycles t) {m n : HostMachine β}
    (hfooting : u.footing n = t.footing m) :
    u.pc = pc ∧ u.bus = t.bus ∧ u.cycles = cycles + i.mnemonic.cycles ∧ u.cancelled = false :=
  ⟨(congrArg Footing.pc hfooting).trans h.pc_eq, congrArg Footing.bus hfooting,
    (congrArg Footing.cycles hfooting).trans h.cycles_eq,
    (congrArg Footing.cancelled hfooting).trans h.cancelled⟩

/-- From the delay slot at `pc + 4` to the way out of the block, where the code behind the delay slot
leaves for the address that `aim` reads off the guest. -/
inductive Slotted (s : Surroundings) (j : Instruction) (pc cycles : UInt32)
    (aim : Environment β → UInt32) (e : Environment β) : Departure β → Prop
  | leaves {d : Departure β} (known : Bool) (hends : j.mnemonic.endsBlock = false)
    (hrefused : j.mnemonic.isRefused = false)
    (hd : let e' := j.perform s.options s.regions known (pc + 4) e
      d = .exit (aim e') (cycles + j.mnemonic.cycles) e' ∨
        d = .dispatch (aim e') (cycles + j.mnemonic.cycles) e') :
    Slotted s j pc cycles aim e (d.after (j.calls (pc + 4) e))
  | refused (h : j.mnemonic.endsBlock = true ∨ j.mnemonic.isRefused = true) :
    Slotted s j pc cycles aim e (.refuse (pc + 4) e)

theorem departs_slotted {rest : Lower β Unit} (aim : Environment β → UInt32)
    (haccepted : s.options.Accepted s.regions) (ht : t.registers.Placed)
    (hcancelled : t.cancelled = false)
    (hrest : ∀ v, exec rest s v = (.ok (), u) → v.Departs s (fun e d =>
      d = .exit (aim e) v.cycles e ∨ d = .dispatch (aim e) v.cycles e) u)
    (hexec : exec (afterDelaySlot rest) s t = (.ok (), u)) :
    ∃ j bus, Bus.instructionAt (t.pc + 4) t.bus = (.ok j, bus) ∧
      t.Departs s (Slotted s j t.pc t.cycles aim) u := by
  obtain ⟨⟨⟩, v, hslot, hexec⟩ := exec_bind_eq_ok hexec
  rw [exec_get_bind] at hexec
  obtain ⟨j, bus, hread, hv⟩ := exec_delaySlot_eq haccepted ht hslot
  refine ⟨j, bus, hread, ?_⟩
  rcases hv with hv | hv
  · rw [hv.cancelled, hcancelled] at hexec
    obtain ⟨known, hperforms⟩ := hv.performs
    refine .performs hperforms (hrest v hexec) fun e m d hm hd => ?_
    rw [hv.cycles] at hd
    exact .leaves known hv.ends hv.refused hd
  · rw [hv.cancelled] at hexec
    obtain rfl := (Prod.mk.inj hexec).2
    refine hv.departs.mono fun e m d hm hd => ?_
    rw [hd]
    exact .refused hv.refused

/-- The outcome of the transfer is decided before the delay slot, and what `aim` reads has to agree
with it. -/
theorem Slotted.course {aim : Environment β → UInt32} {e : Environment β} {d : Departure β}
    (kept : Option UInt32)
    (h : Slotted s j pc (cycles + i.mnemonic.cycles) aim (i.link pc (e.keep kept)) d)
    (hi : reads pc i) (hj : reads (pc + 4) j) (hdelays : i.mnemonic.hasDelaySlot = true)
    (hannuls : i.annuls e = false)
    (haim : ∀ known, j.mnemonic.endsBlock = false → (∀ j', reads (pc + 4) j' → j' = j) →
      aim (j.perform s.options s.regions known (pc + 4) (i.link pc (e.keep kept))) =
        i.destination pc e) :
    Course s.options s.regions reads (limit + 1) pc cycles e d := by
  cases h with
  | leaves known hends hrefused hd =>
    exact .transfer kept known hi hj hdelays hends hrefused hannuls (haim known hends) hd
  | refused h => exact .slotRefused kept hi hj hdelays hannuls h

/-- The delay slot of a transfer of control, once the guest is prepared for it. -/
theorem departs_afterDelaySlot {w : Lowering β} {rest : Lower β Unit}
    (kept : Environment β → Option UInt32) (aim : Environment β → UInt32)
    (haccepted : s.options.Accepted s.regions) (ht : Turning reads i pc cycles t)
    (hruns : i.runsSlot t.registers.immediate? = true)
    (hannuls : ∀ e m, t.Meets s e m → i.annuls e = false)
    (hprepares : t.Prepares s (fun e => i.link pc (e.keep (kept e))) w)
    (hrest : ∀ v, exec rest s v = (.ok (), u) → v.Departs s (fun e d =>
      d = .exit (aim e) v.cycles e ∨ d = .dispatch (aim e) v.cycles e) u)
    (haim : ∀ e m j known, t.Meets s e m → reads (pc + 4) j → j.mnemonic.endsBlock = false →
      (∀ j', reads (pc + 4) j' → j' = j) →
        aim (j.perform s.options s.regions known (pc + 4) (i.link pc (e.keep (kept e)))) =
          i.destination pc e)
    (hexec : exec (afterDelaySlot rest) s w = (.ok (), u)) :
    t.Departs s (Course s.options s.regions reads (limit + 1) pc cycles) u := by
  intro e hm
  obtain ⟨m, hm⟩ := hm
  obtain ⟨-, n, -, -, hn, hfooting⟩ := hprepares hm
  obtain ⟨hpc, hbus, hcycles, hcancelled⟩ := ht.of_footing hfooting
  obtain ⟨j, bus, hread, hdeparts⟩ :=
    departs_slotted aim haccepted hn.ready.placed hcancelled hrest hexec
  rw [hpc] at hread hdeparts
  rw [hcycles] at hdeparts
  have hj : reads (pc + 4) j := ht.slot hruns j (hbus ▸ .of_instructionAt hread)
  refine (Lowering.Departs.performs hprepares.performs hdeparts fun e m d hm hd => ?_ :
    t.Departs s _ u) e ⟨m, hm⟩
  exact hd.course (kept e) ht.found hj ht.delays (hannuls e m hm) fun known hends =>
    haim e m j known hm hj hends

/-- A step that ends with a way out, from a point of the lowering on. -/
theorem departs_of_ends {x : Lower β Unit} {g : Environment β → Departure β}
    (h : ∀ (f : Footing β) e, (∀ r, s.regions[0]? = some r → f.frame.memoryBase = r.pointer) →
      f.pc = t.pc → f.cycles = t.cycles → Ends s f.frame (Lowering.Shows f [] e) x (g e))
    (hexec : exec x s t = (.ok (), u)) : t.Departs s (fun e d => d = g e) u := by
  refine Ends.departs (g := g) (fun f e hmain => ?_) hexec fun _ _ _ => rfl
  rintro w _ v hrun m ⟨rfl, hm⟩
  exact h f e hmain (congrArg Footing.pc hm.footing).symm (congrArg Footing.cycles hm.footing).symm
    hrun hm

/-- Writing a constant to a register prepares the guest. -/
theorem prepares_setImmediate (reg : GuestIndex) (value : UInt32) {k : Unit → Lower β Unit}
    (hexec : exec (setImmediate reg value >>= k) s t = (.ok (), u)) :
    ∃ w, exec (k ()) s w = (.ok (), u) ∧
      t.Prepares s (fun e => e.setRegister reg value) w := by
  rw [setImmediate, exec_bind_of_ok (exec_updateRegisters ..)] at hexec
  refine ⟨_, hexec, .of_quiet (x := setImmediate reg value) rfl (.setImmediate reg value)
    (fun f e => Acts.setImmediate reg value) fun e => .refl _⟩

/-- The return address of a branch or of a jump to a constant address. -/
theorem prepares_link (hm : i.mnemonic ≠ .jalr) {k : Unit → Lower β Unit}
    (hexec : exec (if i.mnemonic.links = true then setImmediate linkRegister (pc + 8) >>= k
      else k ()) s t = (.ok (), u)) :
    ∃ w, exec (k ()) s w = (.ok (), u) ∧ t.Prepares s (i.link pc) w := by
  have hlink : (i.link pc : Environment β → Environment β) = fun e =>
      if i.mnemonic.links then e.setRegister Slot.ra (pc + 8) else e :=
    funext fun e => if_neg hm
  rw [hlink]
  split at hexec
  · next hlinks =>
    simp only [hlinks, if_true]
    exact prepares_setImmediate linkRegister (pc + 8) hexec
  · next hlinks =>
    simp only [hlinks]
    exact ⟨t, hexec, .refl t⟩

/-- Instructions without calls before a way out. -/
theorem Ends.emit_bind {is : List HostInstruction} {frame : Frame} {k : Lower β Unit}
    {d : Departure β} {p q : Assertion β} (his : Sequence.Tame is)
    (h : ∀ t m, p t m → ∃ n, Runs is m n ∧ ∀ u : Lowering β, u.cycles = t.cycles → q u n)
    (hk : Ends s frame q k d) : Ends s frame p (emit is >>= fun _ => k) d := by
  intro t r v hexec m hm
  obtain ⟨n, hruns, hn⟩ := h t m hm
  rw [exec_bind_of_ok (exec_emit ..)] at hexec
  exact .of_leads rfl (.instructions hruns his.call?_eq_none) (hk hexec (hn _ rfl))

/-- What is kept in the scratch word of branches survives the delay slot. -/
theorem register_kept (ht : Turning reads i pc cycles t) (hj : reads (pc + 4) j)
    (hends : j.mnemonic.endsBlock = false) (known : Bool) {e : Environment β} {value : UInt32} :
    (j.perform s.options s.regions known (pc + 4)
      (i.link pc (e.keep (some value)))).register Slot.branchTemp = value := by
  have hspares := Instruction.spares_of_le (ht.table _ _ hj) (show 32 ≤ Slot.branchTemp by decide)
  refine (hspares.get_perform (by decide) (by decide) (by decide) hends).trans ?_
  refine (Instruction.get_link_reserved (ht.table _ _ ht.found) (by decide) pc).trans ?_
  exact State.get_set_self _ (by decide) _

/-- Leaving as the scratch word of branches says. -/
theorem Ends.savedExits {f : Footing β} {e : Environment β}
    (hmain : ∀ r, s.regions[0]? = some r → f.frame.memoryBase = r.pointer) (target next : UInt32) :
    Ends s f.frame (Lowering.Shows f [] e) (Lower.flushAll >>= fun _ =>
        emit (Sequence.compareState (Slot.offset Slot.branchTemp) 0) >>= fun _ =>
          Lower.writeBranchExits .equal target next)
      (.exit (if e.register Slot.branchTemp != 0 then target else next) f.cycles e) := by
  have hslot : Slot.branchTemp < Slot.count := by decide
  refine Ends.mono (.flushed (fun _ _ => True) hmain <|
    .emit_bind (Sequence.tame_compareState hslot 0) (q := fun t m => m.Holds f.frame e ∧
      t.cycles = f.cycles ∧ m.flags = .ofSub (e.register Slot.branchTemp) 0) (fun t m hm => ?_) <|
      (Ends.writeBranchExits .equal target next _).mono fun t m hm => ⟨hm.1, hm.2.1, ?_⟩)
        fun t m hm => ⟨hm, trivial⟩
  · refine ⟨_, Sequence.runs_compareState hm.1.context hslot 0, fun u hu =>
      ⟨⟨hm.1.env, hm.1.frame, hm.1.context⟩, hu.trans hm.2.1, ?_⟩⟩
    rw [← hm.1.env]
    rfl
  · rw [hm.2.2, Flags.holds_ofSub]
    simp [Condition.holds, bne]

/-! ## Conditional branches -/

/-- The test of the branch `i`, whose target is known. -/
structure Tests (β : Type) (i : Instruction) (test : Test) (pc target : UInt32) : Prop where
  isTaken : ∀ e : Environment β, i.isTaken e = test.holds e
  target : (i.staticTarget? pc).getD 0 = target
  register : i.mnemonic ≠ .jr ∧ i.mnemonic ≠ .jalr
  /-- The lowering looks up the operands of the test. -/
  outcome : ∀ known : GuestIndex → Option UInt32, i.outcome? known =
    match known test.rs, test.rt.elim (some 0) known with
    | some x, some y => some (test.condition.holds x y)
    | _, _ => none

omit [Bus β] in
theorem Tests.destination {test : Test} {target : UInt32} (h : Tests β i test pc target)
    (e : Environment β) :
    i.destination pc e = if test.holds e then target else pc + 8 := by
  obtain ⟨htaken, htarget, ⟨hjr, hjalr⟩, -⟩ := h
  rw [Instruction.destination, htaken]
  split
  · split
    · next hm => exact absurd hm hjr
    · next hm => exact absurd hm hjalr
    · exact htarget
  · rfl

variable {test : Test} {target : UInt32}

/-- A branch that is tested after its delay slot. -/
theorem departs_lateBranch (haccepted : s.options.Accepted s.regions)
    (ht : Turning reads i pc cycles t) (hruns : i.runsSlot t.registers.immediate? = true)
    (htest : Tests β i test pc target) (hlikely : i.mnemonic.discardsDelaySlot = false)
    (hspares : ∀ j, reads (pc + 4) j → (∀ j', reads (pc + 4) j' → j' = j) →
      ∀ reg, test.reads reg = true → j.Spares reg)
    (hlink : ∀ (e : Environment β) reg, test.reads reg = true →
      (i.link pc e).register reg = e.register reg)
    (hexec : exec (lateBranch test i.mnemonic.links target (pc + 8)) s t = (.ok (), u)) :
    t.Departs s (Course s.options s.regions reads (limit + 1) pc cycles) u := by
  unfold lateBranch at hexec
  obtain ⟨w, hexec, hprepares⟩ := prepares_link htest.register.2 hexec
  refine departs_afterDelaySlot (fun _ => none)
    (fun e => if test.holds e then target else pc + 8) haccepted ht hruns
    (fun e m hm => ?_) hprepares (fun v hrest => ?_) (fun e m j known hm hj hends hone => ?_) hexec
  · rw [Instruction.annuls, hlikely, Bool.false_and]
  · refine Lowering.Departs.mono (departs_of_ends
      (g := fun e => .exit (if test.holds e then target else pc + 8) v.cycles e)
        (fun f e hmain _ hcycles => ?_) hrest) fun _ _ _ _ hd => .inl hd
    refine .after (Acts.writeCompare test) (.writeCompare test) (fun t m hm => hm.ready hmain)
      fun _ => ?_
    refine .flushed (fun flags _ => flags = .ofSub (e.register test.rs) (test.rhs e)) hmain ?_
    refine (Ends.writeBranchExits _ target (pc + 8) (test.holds e)).mono fun t m hm => ?_
    refine ⟨hm.1, hm.2.1.trans hcycles, ?_⟩
    rw [hm.2.2, Flags.holds_ofSub, Condition.holds_invert]
    rfl
  -- The slot writes nothing that the test reads, so the test may wait until after it.
  · have hholds : test.holds (j.perform s.options s.regions known (pc + 4) (i.link pc e)) =
        test.holds e :=
      Test.holds_congr fun reg hreg =>
        ((hspares j hj hone reg hreg).register_perform hends).trans (hlink e reg hreg)
    rw [htest.destination]
    exact if_congr (by rw [← hholds]; rfl) rfl rfl

/-- Keeping the outcome of the test prepares the guest. -/
theorem prepares_saved (test : Test) {k : Unit → Lower β Unit}
    (hexec : exec (writeCompare test >>= fun _ =>
      emit (Sequence.storeCondition test.condition (Slot.offset Slot.branchTemp)) >>= fun _ =>
        updateRegisters (·.release) >>= k) s t = (.ok (), u)) :
    ∃ w, exec (k ()) s w = (.ok (), u) ∧
      t.Prepares s (fun e => e.keep (some (bit (test.holds e)))) w := by
  obtain ⟨_, v, hcompare, hexec⟩ := exec_bind_eq_ok hexec
  rw [exec_bind_of_ok (exec_emit ..), exec_bind_of_ok (exec_updateRegisters ..)] at hexec
  let prelude : Lower β Unit := writeCompare test >>= fun _ =>
    emit (Sequence.storeCondition test.condition (Slot.offset Slot.branchTemp)) >>= fun _ =>
      updateRegisters (·.release)
  have hrun : exec prelude s t = _ := exec_bind_of_ok hcompare
  refine ⟨_, hexec, .of_quiet hrun (.seq (.writeCompare test) fun _ =>
    .seq (.emit (Sequence.tame_storeCondition _ (by decide))) fun _ => .release) (fun f e => ?_)
    fun e => .refl _⟩
  exact (Acts.writeCompare test).bind fun _ => Acts.storeCondition.bind fun _ => .release

/-- A branch whose delay slot changes an operand of its test. -/
theorem departs_savedBranch (haccepted : s.options.Accepted s.regions)
    (ht : Turning reads i pc cycles t) (hruns : i.runsSlot t.registers.immediate? = true)
    (htest : Tests β i test pc target) (hlikely : i.mnemonic.discardsDelaySlot = false)
    (hexec : exec (savedBranch test i.mnemonic.links target (pc + 8)) s t = (.ok (), u)) :
    t.Departs s (Course s.options s.regions reads (limit + 1) pc cycles) u := by
  unfold savedBranch at hexec
  obtain ⟨w, hexec, hsaved⟩ := prepares_saved test hexec
  obtain ⟨x, hexec, hlink⟩ := prepares_link htest.register.2 hexec
  refine departs_afterDelaySlot (fun e => some (bit (test.holds e)))
    (fun e => if e.register Slot.branchTemp != 0 then target else pc + 8) haccepted ht hruns
    (fun e m hm => ?_) (hsaved.trans hlink) (fun v hrest => ?_) (fun e m j known hm hj hends hone => ?_)
    hexec
  · rw [Instruction.annuls, hlikely, Bool.false_and]
  · refine Lowering.Departs.mono (departs_of_ends (g := fun e => .exit
      (if e.register Slot.branchTemp != 0 then target else pc + 8) v.cycles e)
        (fun f e hmain _ hcycles => hcycles ▸ .savedExits hmain target (pc + 8)) hrest)
          fun _ _ _ _ hd => .inl hd
  · rw [htest.destination, register_kept ht hj hends known]
    cases test.holds e <;> rfl

/-- A branch whose outcome is known while it is lowered. -/
theorem departs_decidedBranch (haccepted : s.options.Accepted s.regions)
    (ht : Turning reads i pc cycles t) (htest : Tests β i test pc target) {taken : Bool}
    (htaken : ∀ e m, t.Meets s e m → test.holds e = taken)
    (houtcome : i.outcome? t.registers.immediate? = some taken)
    (hexec : exec (decidedBranch taken i.mnemonic.discardsDelaySlot i.mnemonic.links target (pc + 8))
      s t = (.ok (), u)) :
    t.Departs s (Course s.options s.regions reads (limit + 1) pc cycles) u := by
  let leave : Lower β Unit := flushAll >>= fun _ => writeExit (if taken then target else pc + 8)
  have hleave {v : Lowering β} (hexec : exec leave s v = (.ok (), u)) :
      v.Departs s (fun e d => d = .exit (if taken then target else pc + 8) v.cycles e) u :=
    departs_of_ends (fun f e hmain _ hcycles => hcycles ▸ .leave hmain _) hexec
  unfold decidedBranch at hexec
  rw [exec_bind_of_ok (exec_currentPc ..), exec_bind_of_ok (exec_report ..)] at hexec
  obtain ⟨w, hexec, hlink⟩ := prepares_link htest.register.2 hexec
  change exec (if (taken || !i.mnemonic.discardsDelaySlot) = true then afterDelaySlot leave
    else leave) s w = _ at hexec
  have hreport : t.Prepares s id { t with events := t.events.push (.decidedBranch t.pc taken) } :=
    .idle rfl (fun _ _ h => h) fun _ => rfl
  have hprepares : t.Prepares s (i.link pc) w := hreport.trans hlink
  split at hexec
  -- The delay slot runs, unless the branch is likely and not taken.
  · next hruns =>
    have hslot : i.runsSlot t.registers.immediate? = true := by
      refine Instruction.runsSlot_of_outcome? ht.delays houtcome fun hfalse => ?_
      rw [Option.some.inj hfalse, Bool.false_or, Bool.not_eq_true'] at hruns
      exact hruns
    refine departs_afterDelaySlot (fun _ => none)
      (fun _ => if taken then target else pc + 8) haccepted ht hslot (fun e m hm => ?_) hprepares
      (fun v hrest => (hleave hrest).mono fun _ _ _ _ hd => .inl hd) (fun e m j known hm _ _ _ => ?_)
      hexec
    · rw [Instruction.annuls, htest.isTaken, htaken e m hm]
      cases taken <;> simp_all
    · rw [htest.destination, htaken e m hm]
  · next hskips =>
    obtain ⟨htaken', hlikely⟩ : taken = false ∧ i.mnemonic.discardsDelaySlot = true := by
      simpa using hskips
    intro e hm
    obtain ⟨m, hm⟩ := hm
    obtain ⟨-, n, -, -, hn, hfooting⟩ := hprepares hm
    obtain ⟨-, -, hcycles, -⟩ := ht.of_footing hfooting
    refine (Lowering.Departs.performs hprepares.performs (hleave hexec)
      fun e m d hm hd => ?_ : t.Departs s _ u) e ⟨m, hm⟩
    rw [hd, hcycles, htaken']
    refine .annulled ht.found ht.delays ?_
    rw [Instruction.annuls, htest.isTaken, htaken e m hm, htaken', hlikely]
    rfl

/-- The code from `t` to `w` prepares the guest for a decision: every register is stored, and the flags
tell the outcome of the test. -/
def Decides (s : Surroundings) (test : Test) (g : Environment β → Environment β)
    (t w : Lowering β) : Prop :=
  ∀ e m, t.Meets s e m → ∃ (items : List Item) (n : HostMachine β), w.code = t.code ++ items ∧
    Point.Leads ⟨none, items, m⟩ [] ⟨none, [], n⟩ ∧ w.Meets s (g e) n ∧ w.registers.Home ∧
      w.footing n = t.footing m ∧ n.flags = .ofSub (e.register test.rs) (test.rhs e)

/-- The code of a likely branch up to the decision. -/
theorem decides_likelyTest (hjalr : i.mnemonic ≠ .jalr) (test : Test) {k : Unit → Lower β Unit}
    (hexec : exec (writeCompare test >>= fun _ => flushAll >>= fun _ =>
      if i.mnemonic.links = true then
        emit (Sequence.storeStateImmediate (guestOffset linkRegister) (pc + 8)) >>= k
      else k ()) s t = (.ok (), u)) :
    ∃ w, exec (k ()) s w = (.ok (), u) ∧ Decides s test (i.link pc) t w := by
  -- Linking comes last, and may be left out.
  let link : Lower β Unit := if i.mnemonic.links = true then
    emit (Sequence.storeStateImmediate (guestOffset linkRegister) (pc + 8)) else pure ()
  obtain ⟨_, v, hcompare, hexec⟩ := exec_bind_eq_ok hexec
  obtain ⟨_, x, hflush, hexec⟩ := exec_bind_eq_ok hexec
  obtain ⟨w, hlink, hexec⟩ : ∃ w, exec link s x = (.ok (), w) ∧ exec (k ()) s w = (.ok (), u) := by
    split at hexec
    · next hlinks =>
      rw [exec_bind_of_ok (exec_emit ..)] at hexec
      exact ⟨_, by rw [show link = _ from if_pos hlinks, exec_emit], hexec⟩
    · next hlinks => exact ⟨x, by rw [show link = _ from if_neg hlinks, exec_pure], hexec⟩
  have hrun : exec (writeCompare test >>= fun _ => flushAll >>= fun _ => link) s t = (.ok (), w) := by
    rw [exec_bind_of_ok hcompare, exec_bind_of_ok hflush, hlink]
  refine ⟨w, hexec, fun e m hm => ?_⟩
  have hlinked : i.link pc e =
      if i.mnemonic.links then e.setRegister linkRegister (pc + 8) else e := if_neg hjalr
  -- Neither storing the registers nor linking changes the flags.
  have hacts : Acts s (Lowering.Shows (t.footing m) [] e)
      (writeCompare test >>= fun _ => flushAll >>= fun _ => link) fun _ t' m' =>
        t'.Shows (t.footing m) [] (i.link pc e) m' ∧ t'.registers.Home ∧
          m'.flags = .ofSub (e.register test.rs) (test.rhs e) := by
    refine (Acts.writeCompare test).bind fun _ => (Acts.flushAll_keeping
      fun flags _ => flags = .ofSub (e.register test.rs) (test.rhs e)).bind fun _ => ?_
    rw [hlinked]
    refine .ite (fun hlinks => ?_) fun hlinks => ?_
    · rw [if_pos hlinks]
      exact .storeLink
    · rw [if_neg hlinks]
      exact .pure fun t m hm => hm
  obtain ⟨items, n, hcode, hleads, hn, hhome, hflags⟩ := hm.leads hrun
    (.seq (.writeCompare test) fun _ => .seq .flushAll fun _ =>
      .ite (.emit (Sequence.tame_storeStateImmediate (by decide) _)) (.pure trivial)) hacts
  have hframe : n.frame = m.frame := congrArg Footing.frame hn.footing
  have hbus : (i.link pc e).bus = e.bus := by
    rw [hlinked]
    split <;> rfl
  exact ⟨items, n, hcode, hleads, ⟨hn.registers, hframe ▸ hm.main, hbus ▸ hm.backed⟩, hhome,
    hn.footing, hflags⟩

/-- A jump if the test fails, to a label of its own. -/
def unlessTaken (test : Test) (w : Lowering β) : Lowering β :=
  { w with
    code := w.code ++ [Item.jumpIf test.condition.invert w.labels]
    labels := w.labels + 1 }

omit [Bus β] in
theorem unlessTaken_code (test : Test) (w : Lowering β) :
    (unlessTaken test w).code = w.code ++ [Item.jumpIf test.condition.invert w.labels] := rfl

/-- The jump is over the delay slot, so it is taken if the branch is not. -/
theorem leads_unlessTaken (test : Test) (label : Nat) {e : Environment β} {n : HostMachine β}
    (hflags : n.flags = .ofSub (e.register test.rs) (test.rhs e)) :
    Point.Leads ⟨none, [.jumpIf test.condition.invert label], n⟩ []
      ⟨if test.holds e then none else some label, [], n⟩ := by
  have hone : Point.Leads ⟨none, [.jumpIf test.condition.invert label], n⟩ []
      ⟨if n.flags.holds test.condition.invert then some label else none, [], n⟩ :=
    .one trivial rfl
  rw [hflags, Flags.holds_ofSub, Condition.holds_invert] at hone
  cases hholds : test.holds e <;> rw [Test.holds] at hholds <;> rw [hholds] at hone <;> exact hone

/-- The code behind the decision of a likely branch: the delay slot and the way out behind it, which
the branch jumps over if it is not taken. -/
theorem exec_likelyBranch {w : Lowering β} {next : UInt32}
    (hexec : exec (freshLabel >>= fun notTaken =>
      append [.jumpIf test.condition.invert notTaken] >>= fun _ => get >>= fun t =>
        attempt delaySlot >>= fun outcome => do
          if outcome matches .ok () then
            if !(← get).cancelled then
              flushAll
              writeExit target
          updateRegisters fun _ => t.registers
          append [.bind notTaken]
          writeExitCharging next t.cycles
          match outcome with
          | .ok () => return
          | .error f => throw f) s w = (.ok (), u)) :
    ∃ x, exec (afterDelaySlot (flushAll >>= fun _ => writeExit target)) s (unlessTaken test w) =
        (.ok (), x) ∧
      u.code = x.code ++ (Item.bind w.labels :: exitItems s next w.cycles) := by
  have hjump : exec (append [.jumpIf test.condition.invert w.labels] : Lower β Unit) s
      { w with labels := w.labels + 1 } = (.ok (), unlessTaken test w) := exec_append ..
  rw [exec_bind_of_ok (exec_freshLabel ..), exec_bind_of_ok hjump, exec_get_bind,
    exec_bind_of_ok (exec_attempt ..)] at hexec
  -- Whatever the delay slot came to, the label and the way out for the other case follow.
  have hjoin {x : Lowering β} (hexec : exec (updateRegisters (fun _ => w.registers) >>= fun _ =>
      append [.bind w.labels] >>= fun _ => writeExitCharging next w.cycles >>= fun _ => pure ()) s x =
        (.ok (), u)) : u.code = x.code ++ (Item.bind w.labels :: exitItems s next w.cycles) := by
    rw [exec_bind_of_ok (exec_updateRegisters ..), exec_bind_of_ok (exec_append ..),
      exec_bind_of_ok (exec_writeExitCharging ..)] at hexec
    obtain rfl := (Prod.mk.inj hexec).2
    exact appendList_append ..
  dsimp only at hexec
  rcases hslot : exec delaySlot s (unlessTaken test w) with ⟨f | ⟨⟨⟩⟩, v⟩ <;> rw [hslot] at hexec
  · cases hexec
  dsimp only at hexec
  rw [if_pos rfl, exec_get_bind] at hexec
  rw [afterDelaySlot, exec_bind_of_ok hslot, exec_get_bind]
  cases hcancelled : v.cancelled with
  | false =>
    rw [hcancelled, if_pos (by decide), ← bind_assoc] at hexec
    obtain ⟨⟨⟩, x, hleave, hexec⟩ := exec_bind_eq_ok hexec
    exact ⟨x, hleave, hjoin hexec⟩
  | true =>
    rw [hcancelled] at hexec
    exact ⟨v, rfl, hjoin hexec⟩

section Likely

variable {w x : Lowering β} {e : Environment β} {m : HostMachine β}

/-- A likely branch that is taken falls into the delay slot. -/
theorem leaves_taken (haccepted : s.options.Accepted s.regions) (ht : Turning reads i pc cycles t)
    (hruns : i.runsSlot t.registers.immediate? = true) (htest : Tests β i test pc target) (hdecides : Decides s test (i.link pc) t w)
    (hslot : exec (afterDelaySlot (flushAll >>= fun _ => writeExit target)) s (unlessTaken test w) =
      (.ok (), x)) (hm : t.Meets s e m) (hholds : test.holds e = true) :
    ∃ d, Course s.options s.regions reads (limit + 1) pc cycles e d ∧
      ∀ m', t.Meets s e m' → t.Leaves s m'.frame d x m' := by
  have hleave {y z : Lowering β} (hexec : exec (flushAll >>= fun _ => writeExit target) s y =
      (.ok (), z)) : y.Departs s (fun e d => d = .exit target y.cycles e ∨
        d = .dispatch target y.cycles e) z :=
    (departs_of_ends (fun f e hmain _ hcycles => hcycles ▸ .leave hmain _) hexec).mono
      fun _ _ _ _ hd => .inl hd
  have hjumped {n : HostMachine β} (hn : w.Meets s (i.link pc e) n) :
      (unlessTaken test w).Meets s (i.link pc e) n := hn.of_registers hn.shows
  obtain ⟨-, n, -, -, hn, -, hfooting, -⟩ := hdecides e m hm
  -- The test left program counter and cycles alone, so the slot is the one behind this branch.
  obtain ⟨hpc, hbus, hcycles, hcancelled⟩ := ht.of_footing hfooting
  obtain ⟨j, bus, hread, hdeparts⟩ := departs_slotted (t := unlessTaken test w) (fun _ => target)
    haccepted (hjumped hn).ready.placed hcancelled (fun _ => hleave) hslot
  obtain ⟨d, hd, hleaves⟩ := hdeparts (i.link pc e) ⟨n, hjumped hn⟩
  change Bus.instructionAt (w.pc + 4) w.bus = _ at hread
  change Slotted s j w.pc w.cycles _ _ d at hd
  rw [hpc] at hread hd
  rw [hcycles] at hd
  have hj : reads (pc + 4) j := ht.slot hruns j (hbus ▸ .of_instructionAt hread)
  have hannuls : i.annuls e = false := by
    rw [Instruction.annuls, htest.isTaken, hholds, Bool.not_true, Bool.and_false]
  refine ⟨d, hd.course none ht.found hj ht.delays hannuls
    (fun _ _ _ => by rw [htest.destination, hholds, if_pos rfl]), fun m' hm' => ?_⟩
  -- The inverted jump is not taken, and behind it stands the code of the delay slot.
  obtain ⟨items, n', hitems, hleads, hn', -, hfooting', hflags⟩ := hdecides e m' hm'
  have hfall := leads_unlessTaken test w.labels hflags
  rw [hholds, if_pos rfl] at hfall
  have hstart : (unlessTaken test w).code =
      t.code ++ (items ++ [.jumpIf test.condition.invert w.labels]) := by
    rw [appendList_append, ← hitems, unlessTaken_code]
  have hframe : n'.frame = m'.frame := congrArg Footing.frame hfooting'
  exact .of_leads hstart (hleads.append hfall) (hframe ▸ hleaves n' (hjumped hn'))

/-- A likely branch that is not taken passes over the delay slot. -/
theorem leaves_untaken (haccepted : s.options.Accepted s.regions) (ht : Turning reads i pc cycles t)
    (htest : Tests β i test pc target) (hlikely : i.mnemonic.discardsDelaySlot = true)
    (hdecides : Decides s test (i.link pc) t w)
    (hslot : exec (afterDelaySlot (flushAll >>= fun _ => writeExit target)) s (unlessTaken test w) =
      (.ok (), x))
    (hcode : u.code = x.code ++ (Item.bind w.labels :: exitItems s (pc + 8) w.cycles))
    (hm : t.Meets s e m) (hholds : test.holds e = false) :
    ∃ d, Course s.options s.regions reads (limit + 1) pc cycles e d ∧
      ∀ m', t.Meets s e m' → t.Leaves s m'.frame d u m' := by
  obtain ⟨-, n, -, -, hn, -, hfooting, -⟩ := hdecides e m hm
  obtain ⟨-, -, hcycles, hcancelled⟩ := ht.of_footing hfooting
  have hplaced : (unlessTaken test w).registers.Placed := hn.ready.placed
  obtain ⟨-, -, chart, hchart, -, hsound, -⟩ := Charted.afterDelaySlot haccepted
    (Charted.after .flushAll fun _ => Charted.writeExit target) hplaced hcancelled hslot
  -- Nothing in the delay slot binds the label behind it.
  have hlabel : w.labels ∉ bindLabels (chart.items s.stubs) := fun hmem =>
    absurd (hsound.le_of_mem _ hmem) (Nat.not_succ_le_self w.labels)
  have hcourse : Course s.options s.regions reads (limit + 1) pc cycles e
      (.exit (pc + 8) w.cycles (i.link pc e)) := by
    rw [hcycles]
    refine .annulled ht.found ht.delays ?_
    rw [Instruction.annuls, hlikely, htest.isTaken, hholds]
    rfl
  refine ⟨.exit (pc + 8) w.cycles (i.link pc e), hcourse, fun m' hm' => ?_⟩
  obtain ⟨items, n', hitems, hleads, hn', hhome, hfooting', hflags⟩ := hdecides e m' hm'
  have hjump := leads_unlessTaken test w.labels hflags
  rw [hholds, if_neg (by decide)] at hjump
  have hframe : n'.frame = m'.frame := congrArg Footing.frame hfooting'
  have hholds' : n'.Holds m'.frame (i.link pc e) :=
    ⟨hn'.shows.env_eq hhome, hframe, hn'.ready.roles.context⟩
  obtain ⟨p, hexit, hp, hframe'⟩ := leads_exitItems (s := s) hholds' (pc + 8) w.cycles
  refine ⟨items ++ ([.jumpIf test.condition.invert w.labels] ++ ((chart.items s.stubs ++
    [.bind w.labels]) ++ exitItems s (pc + 8) w.cycles)), [], p, ?_, ?_, hp, hframe'⟩
  · rw [appendList_append, appendList_append, appendList_append, appendList_append, ← hitems, hcode,
      hchart, unlessTaken_code]
    exact appendList_append _ [_] _
  · rw [List.append_nil]
    exact hleads.append (hjump.append ((Point.Leads.passOver hlabel n').append hexit))

end Likely

/-- A branch whose delay slot runs only if it is taken. -/
theorem departs_likelyBranch (haccepted : s.options.Accepted s.regions)
    (ht : Turning reads i pc cycles t) (hruns : i.runsSlot t.registers.immediate? = true)
    (htest : Tests β i test pc target) (hlikely : i.mnemonic.discardsDelaySlot = true)
    (hexec : exec (likelyBranch test i.mnemonic.links target (pc + 8)) s t = (.ok (), u)) :
    t.Departs s (Course s.options s.regions reads (limit + 1) pc cycles) u := by
  unfold likelyBranch at hexec
  obtain ⟨w, hexec, hdecides⟩ := decides_likelyTest htest.register.2 test hexec
  obtain ⟨x, hslot, hcode⟩ := exec_likelyBranch hexec
  intro e hm
  obtain ⟨m, hm⟩ := hm
  cases hholds : test.holds e with
  | true =>
    obtain ⟨d, hd, hleaves⟩ := leaves_taken haccepted ht hruns htest hdecides hslot hm hholds
    exact ⟨d, hd, fun m' hm' => (hleaves m' hm').extend hcode⟩
  | false => exact leaves_untaken haccepted ht htest hlikely hdecides hslot hcode hm hholds

/-- A branch whose outcome is not known while it is lowered. -/
theorem departs_undecidedBranch (haccepted : s.options.Accepted s.regions)
    (ht : Turning reads i pc cycles t) (htest : Tests β i test pc target)
    (houtcome : i.outcome? t.registers.immediate? = none)
    (hexec : exec (if i.mnemonic.discardsDelaySlot then
        likelyBranch test i.mnemonic.links target (pc + 8)
      else decode (pc + 4) >>= fun slot =>
        if (slot.outputRegister?.any fun reg => test.reads (guestOperand reg)) ||
            (i.mnemonic.links && test.reads linkRegister) then
          savedBranch test i.mnemonic.links target (pc + 8)
        else lateBranch test i.mnemonic.links target (pc + 8)) s t = (.ok (), u)) :
    t.Departs s (Course s.options s.regions reads (limit + 1) pc cycles) u := by
  have hruns : i.runsSlot t.registers.immediate? = true :=
    Instruction.runsSlot_of_outcome? ht.delays houtcome fun h => (by cases h)
  split at hexec
  · next hlikely => exact departs_likelyBranch haccepted ht hruns htest hlikely hexec
  next hlikely =>
  have hlikely : i.mnemonic.discardsDelaySlot = false := (Bool.not_eq_true _).mp hlikely
  -- The delay slot is read ahead, to see whether it writes what the branch depends on.
  obtain ⟨slot, v, hdecode, hexec⟩ := exec_bind_eq_ok hexec
  obtain ⟨bus, hread, rfl⟩ := instructionAt_of_exec_decode hdecode
  have hahead := Bus.readsTo_instructionAt (pc + 4) t.bus
  rw [hread] at hahead
  have hv := ht.of_readsTo hahead
  refine departs_of_idle (u := { t with bus := bus }) rfl (fun _ _ h => h) ?_
  split at hexec
  · exact departs_savedBranch haccepted hv hruns htest hlikely hexec
  · next hkeeps =>
    simp only [Bool.or_eq_true, Bool.and_eq_true, not_or, not_and, Bool.not_eq_true] at hkeeps
    obtain ⟨hslot, hlink⟩ := hkeeps
    refine departs_lateBranch haccepted hv hruns htest hlikely (fun j hj hone reg hreg => ?_)
      (fun e reg hreg => ?_) hexec
    · obtain rfl := hone slot (ht.slot hruns slot (.of_instructionAt hread))
      exact .of_any hslot hreg
    · rw [Instruction.link, if_neg htest.register.2]
      split
      · next hlinks =>
        have hne : Slot.ra ≠ reg.val := fun heq => by
          have hsame : linkRegister = reg := Fin.ext heq
          rw [← hsame, hlink hlinks] at hreg
          cases hreg
        exact (State.get_set_of_ne _ hne _)
      · rfl

/-- A conditional branch. -/
theorem departs_branch (haccepted : s.options.Accepted s.regions)
    (ht : Turning reads i pc cycles t) (htest : Tests β i test pc target)
    (hexec : exec (branch i test target) s t = (.ok (), u)) :
    t.Departs s (Course s.options s.regions reads (limit + 1) pc cycles) u := by
  let v : Lowering β := { t with isOpen := false }
  have hv : Turning reads i pc cycles v := ht.close
  have hlhs {x : UInt32} (hx : v.registers.immediate? test.rs = some x) (e : Environment β)
      (m : HostMachine β) (hm : v.Meets s e m) : e.register test.rs = x :=
    hm.shows.get_of_immediate? hx
  refine departs_of_idle (u := v) rfl (fun _ _ h => h) ?_
  unfold branch at hexec
  rw [exec_bind_of_ok (exec_currentPc ..), ht.pc_eq, close, exec_bind_of_ok (exec_modify ..),
    exec_bind_of_ok (exec_immediate? ..)] at hexec
  -- If the cache knows both operands, the outcome is known while the branch is lowered.
  have hdecided {x y : UInt32} (hx : v.registers.immediate? test.rs = some x)
      (hknown : test.rt.elim (some 0) v.registers.immediate? = some y)
      (hy : ∀ e m, v.Meets s e m → test.rhs e = y)
      (hexec : exec (decidedBranch (test.condition.holds x y) i.mnemonic.discardsDelaySlot
        i.mnemonic.links target (pc + 8)) s v = (.ok (), u)) :
      v.Departs s (Course s.options s.regions reads (limit + 1) pc cycles) u := by
    refine departs_decidedBranch haccepted hv htest (fun e m hm => ?_) ?_ hexec
    · rw [Test.holds, hlhs hx e m hm, hy e m hm]
    · rw [htest.outcome, hx, hknown]
  have hundecided (hnone : ∀ x y, v.registers.immediate? test.rs = some x →
      test.rt.elim (some 0) v.registers.immediate? = some y → False) :
      i.outcome? v.registers.immediate? = none := by
    rw [htest.outcome]
    split
    · next x y hx hy => exact (hnone x y hx hy).elim
    · rfl
  cases hrt : test.rt with
  | none =>
    rw [hrt] at hexec
    dsimp only at hexec
    rw [exec_bind_of_ok (exec_pure ..)] at hexec
    split at hexec
    · next x y hx hy =>
      refine hdecided hx (hrt ▸ hy) (fun e m _ => ?_) hexec
      rw [Test.rhs, hrt]
      exact Option.some.inj hy
    · next hnone =>
      exact departs_undecidedBranch haccepted hv htest (hundecided (hrt ▸ hnone)) hexec
  | some rt =>
    rw [hrt] at hexec
    dsimp only at hexec
    rw [exec_bind_of_ok (exec_immediate? ..)] at hexec
    split at hexec
    · next x y hx hy =>
      refine hdecided hx (hrt ▸ hy) (fun e m hm => ?_) hexec
      rw [Test.rhs, hrt]
      exact hm.shows.get_of_immediate? hy
    · next hnone =>
      exact departs_undecidedBranch haccepted hv htest (hundecided (hrt ▸ hnone)) hexec

/-! ## Jumps -/

/-- A jump to a known address. -/
theorem departs_jump (haccepted : s.options.Accepted s.regions)
    (ht : Turning reads i pc cycles t) (hm : i.mnemonic = .j ∨ i.mnemonic = .jal)
    (htarget : (i.staticTarget? pc).getD 0 = target)
    (hexec : exec (jump i.mnemonic.links target) s t = (.ok (), u)) :
    t.Departs s (Course s.options s.regions reads (limit + 1) pc cycles) u := by
  let v : Lowering β := { t with isOpen := false }
  have hv : Turning reads i pc cycles v := ht.close
  refine departs_of_idle (u := v) rfl (fun _ _ h => h) ?_
  unfold jump at hexec
  rw [exec_bind_of_ok (exec_currentPc ..), ht.pc_eq, close, exec_bind_of_ok (exec_modify ..)] at hexec
  obtain ⟨w, hexec, hlink⟩ := prepares_link (t := v) (by rcases hm with hm | hm <;> simp [hm]) hexec
  have htaken (e : Environment β) : i.isTaken e = true := by
    rcases hm with hm | hm <;> rw [Instruction.isTaken, hm] <;> rfl
  have hruns : i.runsSlot v.registers.immediate? = true := by
    rcases hm with hm | hm <;> rw [Instruction.runsSlot, hm] <;> rfl
  refine departs_afterDelaySlot (fun _ => none) (fun _ => target) haccepted hv hruns
    (fun e m _ => by rw [Instruction.annuls, htaken, Bool.not_true, Bool.and_false]) hlink
    (fun x hrest => ?_) (fun e m j known _ _ _ _ => ?_) hexec
  · exact (departs_of_ends (fun f e hmain _ hcycles => hcycles ▸ .leave hmain target) hrest).mono
      fun _ _ _ _ hd => .inl hd
  · rw [Instruction.destination, if_pos (htaken e), ← htarget]
    rcases hm with hm | hm <;> rw [hm]

/-- Leaving for the address in a guest register. -/
theorem Ends.liveExit {f : Footing β} {e : Environment β}
    (hmain : ∀ r, s.regions[0]? = some r → f.frame.memoryBase = r.pointer) (rs : GuestIndex) :
    Ends s f.frame (Lowering.Shows f [] e)
      (Lower.map rs .read >>= fun src => Lower.flushAll >>= fun _ => Lower.writeRegisterExit src)
      (.dispatch (e.register rs) f.cycles e) := by
  refine .after (Acts.map_read rs) (.mono (.map rs .read) fun _ _ => trivial)
    (fun t m hm => hm.ready hmain) fun src => ?_
  intro t r u hexec m hm
  have hsrc : src.Valid := HostRegister.valid_of_mem_allocationOrder
    (hm.2.mem_of_read hm.1.consistent.toPaired)
  -- storing everything leaves the host registers alone
  refine Ends.flushed (fun _ registers =>
    UInt64.toUInt32 registers[Fin.ofNat 16 src.number.toNat] = e.register rs) hmain ?_ hexec
    ⟨hm.1, hm.2.value (by decide)⟩
  exact (Ends.writeRegisterExit hsrc (e.register rs)).mono fun t m hm => hm

/-- Leaving for the address in the scratch word of branches. -/
theorem Ends.keptExit {f : Footing β} {e : Environment β}
    (hmain : ∀ r, s.regions[0]? = some r → f.frame.memoryBase = r.pointer) :
    Ends s f.frame (Lowering.Shows f [] e)
      (Lower.flushAll >>= fun _ =>
        emit (Sequence.loadState .scratch (Slot.offset Slot.branchTemp)) >>= fun _ =>
          Lower.writeRegisterExit .scratch)
      (.dispatch (e.register Slot.branchTemp) f.cycles e) := by
  have hslot : Slot.branchTemp < Slot.count := by decide
  have hscratch : HostRegister.scratch.Valid := by decide
  refine Ends.mono (.flushed (fun _ _ => True) hmain <|
    .emit_bind (Sequence.tame_loadState (by decide) hslot) (fun t m hm => ?_) <|
      Ends.writeRegisterExit hscratch (e.register Slot.branchTemp)) fun t m hm => ⟨hm, trivial⟩
  obtain ⟨hholds, hcycles, -⟩ := hm
  have hkeeps : m.Keeps [.scratch] (m.setWord .scratch (m.env.state.get Slot.branchTemp)) :=
    .setWord hscratch (by decide) m _
  refine ⟨_, Sequence.runs_loadState hscratch hholds.context hslot, fun u hu =>
    ⟨⟨hholds.env, ?_, ?_⟩, hu.trans hcycles, ?_⟩⟩
  · exact (hkeeps.frame (by decide) (by decide) (by decide)).trans hholds.frame
  · exact (hkeeps.registers .context (by decide) (by decide)).trans hholds.context
  · rw [getWord_setWord_self, hholds.env]
    rfl

/-- Keeping the target of a jump prepares the guest. -/
theorem prepares_keptTarget (rs : GuestIndex) {k : Unit → Lower β Unit}
    (hexec : exec (map rs .read >>= fun src =>
      emit (Sequence.storeState (Slot.offset Slot.branchTemp) src) >>= k) s t = (.ok (), u)) :
    ∃ w, exec (k ()) s w = (.ok (), u) ∧
      t.Prepares s (fun e => e.keep (some (e.register rs))) w := by
  obtain ⟨src, v, hmap, hexec⟩ := exec_bind_eq_ok hexec
  rw [exec_bind_of_ok (exec_emit ..)] at hexec
  let prelude : Lower β Unit := map rs .read >>= fun src =>
    emit (Sequence.storeState (Slot.offset Slot.branchTemp) src)
  have hrun : exec prelude s t = _ := exec_bind_of_ok hmap
  refine ⟨_, hexec, .of_quiet hrun (.bind (.map rs .read) fun src hsrc =>
    .emit (Sequence.tame_storeState hsrc.valid (by decide))) (fun f e => ?_) fun e => .refl _⟩
  refine (Acts.map_read rs).bind fun src => .assume (fun t m hm =>
    HostRegister.valid_of_mem_allocationOrder (hm.2.mem_of_read hm.1.consistent.toPaired))
      fun hsrc => ?_
  exact (Acts.storeState (by decide) (by decide) hsrc).mono
    (fun t m hm => ⟨hm.1, hm.2.value (by decide)⟩) fun _ _ _ h => h

/-- The jump `i` goes to the address in `rs` and writes the return address to `rd`. -/
structure JumpsTo (β : Type) (i : Instruction) (rs rd : GuestIndex) (pc : UInt32) : Prop where
  destination : ∀ e : Environment β, i.destination pc e = e.register rs
  link : ∀ e : Environment β, i.link pc e = e.setRegister rd (pc + 8)
  annuls : ∀ e : Environment β, i.annuls e = false
  runsSlot : ∀ known, i.runsSlot known = true

/-- A jump to an address in a register. -/
theorem departs_registerJump (haccepted : s.options.Accepted s.regions)
    (ht : Turning reads i pc cycles t) {rs rd : GuestIndex} (hi : JumpsTo β i rs rd pc)
    (hexec : exec (registerJump rs rd) s t = (.ok (), u)) :
    t.Departs s (Course s.options s.regions reads (limit + 1) pc cycles) u := by
  let v : Lowering β := { t with isOpen := false }
  have hv : Turning reads i pc cycles v := ht.close
  have hlink {w x : Lowering β} (h : w.Prepares s (fun e => e.setRegister rd (pc + 8)) x) :
      w.Prepares s (i.link pc) x := by
    rwa [show (i.link pc : Environment β → Environment β) = _ from funext hi.link]
  refine departs_of_idle (u := v) rfl (fun _ _ h => h) ?_
  unfold registerJump at hexec
  rw [exec_bind_of_ok (exec_currentPc ..), ht.pc_eq, close, exec_bind_of_ok (exec_modify ..),
    exec_bind_of_ok (exec_immediate? ..)] at hexec
  -- The target is known to the cache, or else it is kept for after the delay slot, unless neither
  -- the delay slot nor the return address overwrites it.
  cases himmediate : v.registers.immediate? rs with
  | some target =>
    rw [show t.registers.immediate? rs = some target from himmediate] at hexec
    obtain ⟨w, hexec, hprepares⟩ := prepares_setImmediate (t := v) rd (pc + 8) hexec
    refine departs_afterDelaySlot (fun _ => none) (fun _ => target) haccepted hv (hi.runsSlot _)
      (fun e _ _ => hi.annuls e) (hlink hprepares) (fun x hrest => ?_) (fun e m j known hm _ _ _ => ?_)
      hexec
    · exact (departs_of_ends (fun f e hmain _ hcycles => hcycles ▸ .leave hmain target) hrest).mono
        fun _ _ _ _ hd => .inl hd
    · rw [hi.destination]
      exact (hm.shows.get_of_immediate? himmediate).symm
  | none =>
    rw [show t.registers.immediate? rs = none from himmediate] at hexec
    obtain ⟨slot, w, hdecode, hexec⟩ := exec_bind_eq_ok hexec
    obtain ⟨bus, hread, rfl⟩ := instructionAt_of_exec_decode (t := v) hdecode
    have hahead := Bus.readsTo_instructionAt (pc + 4) t.bus
    rw [show Bus.instructionAt (pc + 4) t.bus = _ from hread] at hahead
    let w : Lowering β := { v with bus := bus }
    have hw : Turning reads i pc cycles w := hv.of_readsTo hahead
    refine departs_of_idle (u := w) rfl (fun _ _ h => h) ?_
    dsimp only at hexec
    split at hexec
    · obtain ⟨x, hexec, hkept⟩ := prepares_keptTarget (t := w) rs hexec
      obtain ⟨y, hexec, hprepares⟩ := prepares_setImmediate rd (pc + 8) hexec
      refine departs_afterDelaySlot (fun e => some (e.register rs))
        (fun e => e.register Slot.branchTemp) haccepted hw (hi.runsSlot _) (fun e _ _ => hi.annuls e)
        (hkept.trans (hlink hprepares)) (fun z hrest => ?_) (fun e m j known hm hj hends _ => ?_) hexec
      · exact (departs_of_ends (fun f e hmain _ hcycles => hcycles ▸ .keptExit hmain) hrest).mono
          fun _ _ _ _ hd => .inr hd
      · rw [hi.destination]
        exact register_kept hw hj hends known
    · next hkeeps =>
      simp only [Bool.or_eq_true, Bool.and_eq_true, not_or, not_and, Bool.not_eq_true,
        decide_eq_true_eq] at hkeeps
      obtain ⟨hslot, hrd⟩ := hkeeps
      have hlinked (e : Environment β) : (i.link pc e).register rs = e.register rs := by
        rw [hi.link, Environment.register, Environment.setRegister, State.setRegister]
        split
        · rfl
        · next hzero =>
          exact State.get_set_of_ne _ (fun heq => hrd (fun hz => hzero (congrArg Fin.val hz))
            (Fin.ext heq)) _
      obtain ⟨x, hexec, hprepares⟩ := prepares_setImmediate (t := w) rd (pc + 8) hexec
      refine departs_afterDelaySlot (fun _ => none) (fun e => e.register rs) haccepted
        hw (hi.runsSlot _) (fun e _ _ => hi.annuls e) (hlink hprepares) (fun z hrest => ?_)
        (fun e m j known hm hj hends hone => ?_) hexec
      · exact (departs_of_ends (fun f e hmain _ hcycles => hcycles ▸ .liveExit hmain rs) hrest).mono
          fun _ _ _ _ hd => .inr hd
      · obtain rfl := hone slot (ht.slot (hi.runsSlot _) slot (.of_instructionAt hread))
        have hspares := Instruction.Spares.of_any (p := fun reg => decide (reg = rs)) hslot
          (decide_eq_true rfl)
        rw [hi.destination]
        exact (hspares.register_perform hends).trans (hlinked e)

end Turning

end Lower

end Recompiler
