import Recompiler.Proofs.Block.Charted
import Recompiler.Proofs.Block.Departing

/-!
# Instructions that do not transfer control

The code for an instruction that does not transfer control, as an effect on the guest: what is
interpreted is interpreted with everything stored, what is lowered to host instructions comes to the
same, and loads and stores go where they should.

* `Lower.leads_interpretCall`, `Lower.performs_interpretCall`: leaving an instruction to the
  interpreter.
* `Lower.straight_of_isNative`: instructions with code of their own.
* `Lower.performs_straight`: any such instruction that is not refused.
-/

namespace Recompiler

open HostMachine

variable {β : Type} [Bus β]

theorem Mnemonic.isNative_of_ofImmediate? {m : Mnemonic} {x : BinaryOp × Bool}
    (h : BinaryOp.ofImmediate? m = some x) : m.isNative = true := by
  cases m <;> cases h <;> rfl

theorem Mnemonic.isNative_of_ofRegister? {m : Mnemonic} {op : BinaryOp}
    (h : BinaryOp.ofRegister? m = some op) : m.isNative = true := by
  cases m <;> cases h <;> rfl

namespace Instruction

variable {i : Instruction} {e : Environment β}

omit [Bus β] in
theorem word_of_decode? {word : UInt32} (h : decode? word = some i) : i.word = word := by
  obtain ⟨_, -, rfl⟩ := Option.map_eq_some_iff.1 h
  rfl

omit [Bus β] in
theorem interpreted?_of_decode? (h : decode? i.word = some i)
    (hinterpreted : i.mnemonic.isInterpreted = true) : interpreted? i.word = some i := by
  rw [interpreted?, h]
  exact if_pos hinterpreted

/-- An instruction that is lowered to code of its own does what the interpreter does, without a
call. -/
theorem perform_of_isNative (hop : MemoryOp.ofMnemonic? i.mnemonic = none)
    (hnative : i.mnemonic.isNative = true) (o : Options) (regions : List FastRegion) (known : Bool)
    (pc : UInt32) :
    (i.calls pc e, i.perform o regions known pc e) = ([], i.interpret e) := by
  rw [calls, perform, hop, hnative]
  rfl

omit [Bus β] in
theorem calls_of_memory {op : MemoryOp} (hop : MemoryOp.ofMnemonic? i.mnemonic = some op)
    (pc : UInt32) : i.calls pc e = [] := by
  rw [calls, hop]
  rfl

omit [Bus β] in
theorem not_mem_of_mayDeal {op : MemoryOp} {regions : List FastRegion} {ds : List Dealing}
    (h : op.DealsOnce regions ds ∨ i.LoadsNothing ∧ ds = []) :
    .call Helper.interpret.address ∉ ds := by
  rintro hmem
  obtain ⟨d, rfl, hfits⟩ | ⟨-, rfl⟩ := h
  · obtain rfl := List.mem_singleton.1 hmem
    have haddress : Helper.interpret.address = op.helper.address := hfits
    have hhelper := congrArg Helper.ofAddress? haddress
    rw [Sequence.ofAddress?_address, Sequence.ofAddress?_address] at hhelper
    cases op <;> cases hhelper
  · cases hmem

end Instruction

namespace Lower

variable {s : Surroundings} {t u : Lowering β} {i : Instruction}

theorem tame_interpretArguments (i : Instruction) :
    Sequence.Tame (Sequence.interpretArguments i) := by
  have hcontext : Argument.context.Valid := trivial
  have hpass := Sequence.tame_passArgument (by decide : HostRegister.rdi.Spare) hcontext
  exact ((hpass.append (Sequence.tame_moveImmediate (by decide) _)).append
    (Sequence.tame_movePointer (by decide) _)).append (Sequence.tame_movePointer (by decide) _)

/-- The code that leaves an instruction to the interpreter, with everything stored. Register zero may
be anything afterwards. -/
theorem leads_interpretCall {pc : UInt32} {e : Environment β} {m : HostMachine β}
    (hi : Instruction.decode? i.word = some i)
    (hexec : exec (interpretCall i pc) s t = (.ok (), u)) (hm : t.Meets s e m) :
    ∃ (items : List Item) (n : HostMachine β), u.code = t.code ++ items ∧
      Point.Leads ⟨none, items, m⟩ [⟨i.word, e.setWord Slot.pc pc⟩] ⟨none, [], n⟩ ∧
      n.env = i.interpret (e.setWord Slot.pc pc) ∧ n.frame = m.frame ∧ u.registers.Home ∧
      u.registers.Paired ∧ u.cycles = t.cycles := by
  have hslot : Slot.pc < Slot.count := by decide
  have hpc := Sequence.tame_storeStateImmediate (by decide : Slot.Free Slot.pc) pc
  unfold interpretCall at hexec
  split at hexec
  · next hinterpreted =>
    rw [exec_bind] at hexec
    rcases hflush : exec flushAll s t with ⟨_ | ⟨⟨⟩⟩, t₁⟩ <;> rw [hflush] at hexec
    · cases hexec
    dsimp only at hexec
    rw [exec_bind_of_ok (exec_emit ..), Sequence.call_interpret,
      exec_emitChecked rfl] at hexec
    obtain rfl := (Prod.mk.inj hexec).2
    obtain ⟨n₁, hcarries, hn₁, hhome⟩ := Acts.flushAll (s := s) hflush hm.showsAt
    have hquiet := (Quiet.flushAll hm.ready.placed hflush).2
    obtain ⟨items, hcode, hleads⟩ := hcarries.leads_of_quiet hquiet hm.ready
    -- The program counter is stored, the arguments are passed, and the helper is called.
    let n₂ := n₁.setSlot Slot.pc pc
    have hstore := Sequence.runs_storeStateImmediate hn₁.context hslot pc
    have henv : n₂.env = e.setWord Slot.pc pc :=
      congrArg (·.setWord Slot.pc pc) (hn₁.registers.env_eq hhome)
    have hcontext : n₂.get .context = Linkage.contextBase := hn₁.context
    obtain ⟨p, n, hargs, hp, hrsi, hrax, hcall, hkeeps⟩ :=
      Sequence.runs_interpretArguments hcontext (Instruction.interpreted?_of_decode? hi hinterpreted)
    have hleads' := Point.Leads.instructions (hstore.append hargs)
      (hpc.append (tame_interpretArguments i)).call?_eq_none
    have hleads'' := Point.Leads.call (by decide : HostRegister.rax.Valid) hrax hcall
    rw [hrsi, hp, henv] at hleads''
    have hn : n.env = i.interpret (e.setWord Slot.pc pc) := by
      rw [← henv]
      exact hkeeps.env
    have hframe : n.frame = m.frame :=
      (hkeeps.frame (by decide) (by decide) (by decide)).trans
        (congrArg Footing.frame hn₁.footing)
    refine ⟨items ++ (_ ++ _), n, ?_, hleads.append (hleads'.append hleads''), hn, hframe, hhome,
      hn₁.consistent.toPaired, hquiet.cycles⟩
    rw [hcode]
    simp only [List.map_append, appendList_append, List.map_cons, List.map_nil]
  · cases hexec

/-- Leaving an instruction to the interpreter that keeps register zero. -/
theorem performs_interpretCall {pc : UInt32} (hi : Instruction.decode? i.word = some i)
    (hzero : ∀ e : Environment β, e.state.get 0 = 0 →
      (i.interpret (e.setWord Slot.pc pc)).state.get 0 = 0)
    (hexec : exec (interpretCall i pc) s t = (.ok (), u)) :
    t.Performs s (fun e => ([⟨i.word, e.setWord Slot.pc pc⟩], i.interpret (e.setWord Slot.pc pc)))
      u := by
  intro e m hm
  obtain ⟨items, n, hcode, hleads, henv, hframe, hhome, hpaired, -⟩ := leads_interpretCall hi hexec hm
  have hshows := hhome.shows (m := n) hpaired (by rw [henv]; exact hzero e hm.shows.zero)
    ((congrArg Frame.context hframe).trans hm.shows.consistent.context)
  rw [henv] at hshows
  refine ⟨items, n, hcode, hleads, ⟨hshows, ?_, ?_⟩, hframe⟩
  · rw [hframe]
    exact hm.main
  · exact hm.backed.evolves (i.evolves_interpret (e.setWord Slot.pc pc))

/-- An instruction with code of its own: nothing but tame instructions, which show the guest that
interpreting the instruction gives. -/
theorem straight_of_isNative (hi : i.entry ∈ Entry.table) (hnative : i.mnemonic.isNative = true) :
    MemoryOp.ofMnemonic? i.mnemonic = none ∧ Quiet (straight i : Lower β Unit) (fun _ => True) ∧
      ∀ (s : Surroundings) (f : Footing β) (e : Environment β),
        Acts s (Lowering.Shows f [] e) (straight i) fun _ =>
          Lowering.Shows f [] (i.interpret e) := by
  have hop : MemoryOp.ofMnemonic? i.mnemonic = none := by
    revert hnative
    cases i.mnemonic <;> simp [MemoryOp.ofMnemonic?, Mnemonic.isNative, BinaryOp.ofImmediate?,
      BinaryOp.ofRegister?]
  refine ⟨hop, ?_⟩
  -- Each branch of the lowering has a lemma about it.
  unfold straight
  dsimp only
  split
  · next op signed h =>
    exact ⟨.immediateArithmetic i op signed, fun _ _ _ => .immediateArithmetic hi h⟩
  split
  · next op h => exact ⟨.registerArithmetic i op, fun _ _ _ => .registerArithmetic hi h⟩
  split
  · next op h =>
    rw [hop] at h
    cases h
  next _ himmediate _ hregister _ _ =>
  split
  · next hm => exact ⟨.loadUpper i, fun _ _ _ => .loadUpper hi hm⟩
  iterate 3
    · next hm =>
      rw [hm]
      exact ⟨.constantShift i _, fun _ _ _ =>
        .constantShift hi (by rw [hm]; rfl) (by simp [hm])⟩
  iterate 3
    · next hm =>
      rw [hm]
      exact ⟨.variableShift i _, fun _ _ _ =>
        .variableShift hi (by rw [hm]; rfl) (by simp [hm])⟩
  iterate 2
    · next hm => exact ⟨.product i _, fun _ _ _ => .product hi hm⟩
  iterate 2
    · next hm =>
      refine ⟨.moveFrom i (by decide), fun _ _ _ => .moveFrom hi (by decide) (by decide) ?_⟩
      rw [Instruction.interpret, hm]
  iterate 2
    · next hm =>
      refine ⟨.moveTo i (by decide), fun _ _ _ => .moveTo hi (by decide) (by decide) ?_⟩
      rw [Instruction.interpret, hm]
      rfl
  iterate 4
    · next hm =>
      rw [hm] at hnative
      cases hnative
  · -- What is left has no code of its own.
    have hno : i.mnemonic.isNative = false := by
      have himm : BinaryOp.ofImmediate? i.mnemonic = none :=
        Option.eq_none_iff_forall_ne_some.2 fun x => himmediate x.1 x.2
      have hreg : BinaryOp.ofRegister? i.mnemonic = none :=
        Option.eq_none_iff_forall_ne_some.2 hregister
      rw [Mnemonic.isNative, himm, hreg] <;> first | rfl | assumption
    rw [hno] at hnative
    cases hnative

omit [Bus β] in
/-- An instruction without code of its own that is not refused is left to the interpreter. -/
theorem straight_of_interpreted (hop : MemoryOp.ofMnemonic? i.mnemonic = none)
    (hnative : ¬ i.mnemonic.isNative = true) (hrefused : i.mnemonic.isRefused = false) :
    straight i = (currentPc >>= fun pc => interpretCall i pc : Lower β Unit) := by
  have himmediate : BinaryOp.ofImmediate? i.mnemonic = none :=
    Option.eq_none_iff_forall_ne_some.2 fun _ h => hnative (Mnemonic.isNative_of_ofImmediate? h)
  have hregister : BinaryOp.ofRegister? i.mnemonic = none :=
    Option.eq_none_iff_forall_ne_some.2 fun _ h => hnative (Mnemonic.isNative_of_ofRegister? h)
  unfold straight
  simp only [himmediate, hregister, hop]
  generalize i.mnemonic = m at hnative hrefused
  split <;> first | exact absurd rfl hnative | cases hrefused | rfl

/-- A load or store by the code for it. -/
theorem performs_memoryAccess (haccepted : s.options.Accepted s.regions)
    (hi : i.entry ∈ Entry.table) {op : MemoryOp} (hop : MemoryOp.ofMnemonic? i.mnemonic = some op)
    (hexec : exec (memoryAccess i op) s t = (.ok (), u)) :
    t.Performs s
      (fun e => (i.calls t.pc e, i.perform s.options s.regions (t.knows i) t.pc e)) u := by
  have hact : (fun e : Environment β =>
      (i.calls t.pc e, i.perform s.options s.regions (t.knows i) t.pc e)) =
        fun e => ([], i.perform s.options s.regions (t.knows i) t.pc e) :=
    funext fun e => congrArg (·, _) (Instruction.calls_of_memory hop t.pc)
  rw [hact]
  refine .of_acts hexec (fun ht => Paves.memoryAccess_mayDeal haccepted hop ht hexec)
    (fun _ => trivial) ?_ (fun f e hbacked hmain => ?_) fun e => Instruction.evolves_perform
  · intro ds hds
    rw [Instruction.MayDeal, hop] at hds
    exact Instruction.not_mem_of_mayDeal hds
  · refine (Acts.memoryAccess haccepted hbacked.backs hmain hi hop).mono ?_ fun _ _ _ h => h
    rintro t' m ⟨rfl, ht⟩
    exact ⟨ht, rfl⟩

/-- The code for an instruction that neither transfers control nor is refused does to the guest what
`Instruction.perform` says. -/
theorem performs_straight (haccepted : s.options.Accepted s.regions)
    (hi : Instruction.decode? i.word = some i) (hends : i.mnemonic.endsBlock = false)
    (hrefused : i.mnemonic.isRefused = false) (hexec : exec (straight i) s t = (.ok (), u)) :
    t.Performs s
      (fun e => (i.calls t.pc e, i.perform s.options s.regions (t.knows i) t.pc e)) u := by
  have htable := Instruction.mem_table_of_decode? hi
  -- Native code, an access to memory, or a call of the interpreter.
  by_cases hnative : i.mnemonic.isNative = true
  · obtain ⟨hop, hquiet, hacts⟩ := straight_of_isNative (β := β) htable hnative
    have hact : (fun e : Environment β =>
        (i.calls t.pc e, i.perform s.options s.regions (t.knows i) t.pc e)) =
          fun e => ([], i.interpret e) :=
      funext fun e => Instruction.perform_of_isNative hop hnative ..
    rw [hact]
    exact .of_quiet hexec hquiet
      (fun f e => (hacts s f e).mono (fun _ _ h => h.2) fun _ _ _ h => h)
      fun e => i.evolves_interpret e
  cases hop : MemoryOp.ofMnemonic? i.mnemonic with
  | some op =>
    rw [straight_of_memoryOp hop] at hexec
    exact performs_memoryAccess haccepted htable hop hexec
  | none =>
    rw [straight_of_interpreted hop hnative hrefused, exec_bind_of_ok (exec_currentPc ..)] at hexec
    have hact : (fun e : Environment β =>
        (i.calls t.pc e, i.perform s.options s.regions (t.knows i) t.pc e)) =
          fun e => ([⟨i.word, e.setWord Slot.pc t.pc⟩], i.interpret (e.setWord Slot.pc t.pc)) := by
      funext e
      rw [Instruction.calls, Instruction.perform, hop, Bool.eq_false_iff.2 hnative]
      rfl
    rw [hact]
    refine performs_interpretCall hi (fun e hzero => ?_) hexec
    rw [i.spares_zero.get_interpret (by decide) (by decide) hends]
    exact (State.get_set_of_ne _ (by decide) _).trans hzero

end Lower

end Recompiler
