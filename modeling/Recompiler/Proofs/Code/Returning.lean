import Recompiler.Proofs.Code.Crossing
import Recompiler.Proofs.Code.Stubs
import Recompiler.Proofs.Host.Stack

/-!
# Through the stubs

What the stubs at the beginning of an arena do: the way in leads to the entry that the host asked for,
and the ways out return to the host with their reasons, everything that the host expects back restored.

* `HostMachine.Below`, `StepsBelow`: steps through the stubs.
* `Stubs.steps_enter`: the way in.
* `ExitReason.stub`, `Stubs.returns`: the ways out.
* `Stubs.steps_check`: the check of the core state.
-/

namespace Recompiler

open HostMachine

variable {β : Type} [Bus β] {code : Arena} {stop j k : Nat} {m n p : HostMachine β}

/-- The instruction calls a helper. -/
def HostInstruction.isCall : HostInstruction → Bool
  | call _ => true
  | _ => false

/-! ## Steps through the stubs -/

/-- The machine is below `stop`, and is not about to call a helper. -/
def HostMachine.Below (code : Arena) (stop : Nat) (m : HostMachine β) : Prop :=
  m.ip < stop ∧ ∀ target, m.instruction? code ≠ some (.call target)

omit [Bus β] in
theorem HostMachine.Below.call? (h : m.Below code stop) : m.call? code = none := by
  rw [call?_eq]
  cases hi : m.instruction? code with
  | none => rfl
  | some i =>
    rw [Option.bind_some]
    cases i with
    | call target => exact absurd hi (h.2 target)
    | _ => rfl

omit [Bus β] in
theorem HostMachine.Below.of_hasBytes {i : HostInstruction} {ip : Nat}
    (h : HasBytes code.written ip i.encode) (hi : i.Valid) (hstop : ip < stop)
    (hcall : i.isCall = false) (m : HostMachine β) : (m.goto ip).Below code stop := by
  refine ⟨hstop, fun target htarget => ?_⟩
  rw [Point.instruction?_of_hasBytes h hi] at htarget
  rw [Option.some.inj htarget] at hcall
  cases hcall

/-- Some steps through code below `stop`, without calls. -/
structure StepsBelow (code : Arena) (stop k : Nat) (m n : HostMachine β) : Prop where
  steps : Steps code k m n
  below : ∀ v ∈ visits code k m, v.Below code stop

namespace StepsBelow

theorem one (h : m.step code = some (.running n)) (hm : m.Below code stop) :
    StepsBelow code stop 1 m n := by
  refine ⟨.one h, fun v hv => ?_⟩
  rw [visits_succ h, visits, List.mem_singleton] at hv
  rw [hv]
  exact hm

theorem trans (h : StepsBelow code stop j m p) (h' : StepsBelow code stop k p n) :
    StepsBelow code stop (j + k) m n := by
  refine ⟨h.steps.trans h'.steps, fun v hv => ?_⟩
  rw [h.steps.visits, List.mem_append] at hv
  exact hv.elim (h.below v) (h'.below v)

/-- A step whose instruction is known. -/
theorem of_hasBytes {i : HostInstruction} {ip : Nat} (h : HasBytes code.written ip i.encode)
    (hi : i.Valid) (hstop : ip < stop) (hcall : i.isCall = false)
    (hstep : execute (m.goto (ip + i.encode.length)) i = some (.running n)) :
    StepsBelow code stop 1 (m.goto ip) n :=
  .one ((step_of_hasBytes h hi m).trans hstep) (.of_hasBytes h hi hstop hcall m)

end StepsBelow

/-- A straight run of instructions without calls. -/
theorem HostMachine.Runs.stepsBelow {is : List HostInstruction} {ip : Nat} (h : Runs is m n)
    (hbytes : HasBytes code.written ip (is.flatMap HostInstruction.encode))
    (hsilent : ∀ i ∈ is, i.isCall = false)
    (hstop : ip + (is.flatMap HostInstruction.encode).length ≤ stop) :
    StepsBelow code stop is.length (m.goto ip)
      (n.goto (ip + (is.flatMap HostInstruction.encode).length)) := by
  induction is generalizing m ip with
  | nil =>
    obtain rfl : n = m := h
    exact ⟨rfl, by simp [visits]⟩
  | cons i is ih =>
    obtain ⟨hvalid, m₁, hexecute, hrest⟩ := h
    have hlength := (HostInstruction.length_encode_le i).1
    rw [List.flatMap_cons, HasBytes.append_iff] at hbytes
    rw [List.flatMap_cons, List.length_append] at hstop ⊢
    rw [← Nat.add_assoc] at hstop ⊢
    have hstep : execute (m.goto (ip + i.encode.length)) i =
        some (.running (m₁.goto (ip + i.encode.length))) := by
      rw [HostInstruction.execute_of_isStraight
        (HostInstruction.isStraight_of_executeStraight hexecute), executeStraight_goto, hexecute]
      rfl
    have hlt : ip < stop := by omega
    have hfirst := StepsBelow.of_hasBytes hbytes.1 hvalid hlt (hsilent i List.mem_cons_self) hstep
    have hthen := ih hrest hbytes.2 (fun q hq => hsilent q (List.mem_cons_of_mem _ hq)) hstop
    rw [List.length_cons, Nat.add_comm]
    exact hfirst.trans hthen

/-! ## The stubs and their bytes -/

/-- The stub that returns to the host with a reason. -/
def ExitReason.stub : ExitReason → Nat
  | dispatch => Stubs.standard.dispatcher
  | coreState => Stubs.standard.dispatcher + 10
  | downcountExpired => Stubs.standard.outerLoop
  | hardFault => Stubs.standard.hardFault

namespace Stubs

/-- The arena begins with the stubs. -/
def Written (code : Arena) : Prop :=
  ∀ i < length, code.written[i]? = Stubs.code[i]?

/-- The comparison of the core state with zero. -/
def coreStateCheck : HostInstruction :=
  .groupImmediate .compare (.memory (Sequence.stateAddress (Slot.offset Slot.coreState))) 0

omit [Bus β] in
/-- Bytes of the stubs are bytes of the arena. -/
theorem Written.hasBytes (h : Written code) {offset : Nat} {bytes : List UInt8}
    (hbytes : HasBytes Stubs.code offset bytes) : HasBytes code.written offset bytes := by
  refine hbytes.of_eq fun i _ hi => h i ?_
  cases bytes with
  | nil => exact absurd hi (by simpa using ‹offset ≤ i›)
  | cons b bytes =>
    have hsize := hbytes.le_size (List.cons_ne_nil _ _)
    rw [size_code] at hsize
    exact Nat.lt_of_lt_of_le hi hsize

instance (code : Array UInt8) (offset : Nat) (bytes : List UInt8) :
    Decidable (HasBytes code offset bytes) :=
  inferInstanceAs (Decidable (∀ i < bytes.length, _))

private theorem hasBytes_enter :
    HasBytes Stubs.code standard.enter (Sequence.enter.flatMap HostInstruction.encode) := by
  decide +kernel

private theorem hasBytes_leave :
    HasBytes Stubs.code standard.exit (Sequence.leave.flatMap HostInstruction.encode) := by
  decide +kernel

private theorem hasBytes_check :
    HasBytes Stubs.code standard.dispatcherCheckCoreState (coreStateCheck.encode ++
      (HostInstruction.jumpIf .notEqual
        (jumpDistance ExitReason.coreState.stub ExitReason.dispatch.stub)).encode) := by
  decide +kernel

private theorem hasBytes_stub (reason : ExitReason) :
    HasBytes Stubs.code reason.stub
      ((HostInstruction.moveImmediate .scratch reason.toWord).encode ++
        (HostInstruction.jump (jumpDistance standard.exit (reason.stub + 5 + 5))).encode) := by
  cases reason <;> decide +kernel

/-! ## The way in -/

variable {regions : List FastRegion} {entry : Nat}

/-- The way in leads to the entry that the host asked for. -/
theorem steps_enter (hcode : Written code) (h : m.Called regions entry)
    (hentry : entry < UInt64.size) :
    ∃ n : HostMachine β, StepsBelow code length 10 (m.goto standard.enter) (n.goto entry) ∧
      n.Roles regions ∧ n.env = m.env ∧ m.Hosts n.frame := by
  obtain ⟨n, hruns, hroles, henv, hrdx, hholds⟩ := runs_enter h
  refine ⟨n, ?_, hroles, henv, hholds⟩
  have hbytes := hcode.hasBytes hasBytes_enter
  rw [Sequence.enter_eq, List.flatMap_append, List.flatMap_singleton, HasBytes.append_iff] at hbytes
  have hfits : standard.enter + (Sequence.saving.flatMap HostInstruction.encode).length < length := by
    decide
  have hsaving := hruns.stepsBelow hbytes.1 (by decide) (Nat.le_of_lt hfits)
  have hjump := StepsBelow.of_hasBytes (m := n) (i := .jumpRegister .rdx)
    (n := n.goto entry) hbytes.2 (by decide) hfits rfl (by
      change some (Outcome.running (n.goto (codeOffset (n.get .rdx)))) = _
      have hoffset : codeOffset (Linkage.codeBase + entry.toUInt64) = entry := by
        rw [codeOffset, UInt64.add_comm, UInt64.add_sub_cancel, toNat_toUInt64 hentry]
      rw [hrdx, hoffset])
  exact hsaving.trans hjump

/-! ## The ways out -/

/-- The machine `r` returns to the host from a call that began with `m`: the reason, and what the host
expects back. -/
structure Returns (reason : ExitReason) (m r : HostMachine β) : Prop where
  reason : r.getWord .rax = reason.toWord
  top : r.get .rsp = m.get .rsp + 8
  preserved : ∀ x ∈ HostRegister.preserved, r.get x = m.get x

/-- A stub returns to the host with its reason. -/
theorem returns (hcode : Written code) {f : Frame} (hm : m.Called regions entry)
    (hf : m.Hosts f) (hp : p.frame = f) (reason : ExitReason) :
    ∃ q r, StepsBelow code length 9 (p.goto reason.stub) q ∧ q.step code = some (.returned r) ∧
      q.Below code length ∧ r.env = p.env ∧ Returns reason m r := by
  have hbytes := hcode.hasBytes (hasBytes_stub reason)
  have hlength : (HostInstruction.moveImmediate .scratch reason.toWord).encode.length = 5 := rfl
  rw [HasBytes.append_iff, hlength] at hbytes
  have hleave := hcode.hasBytes hasBytes_leave
  rw [Sequence.leave_eq, List.flatMap_append, List.flatMap_singleton, HasBytes.append_iff] at hleave
  have hbound : reason.stub + 10 ≤ length := by cases reason <;> decide
  obtain ⟨p₁, hp₁⟩ : ∃ p₁ : HostMachine β, p₁ = p.setWord .scratch reason.toWord := ⟨_, rfl⟩
  have hframe : p₁.frame = f := by
    have hkeeps : Keeps [.scratch] p p₁ :=
      hp₁ ▸ Keeps.setWord (by decide) (List.mem_singleton_self _) p _
    rw [← hp]
    exact hkeeps.frame (by decide) (by decide) (by decide)
  -- The stub puts the reason into a register and jumps to the code that restores the others.
  obtain ⟨q, hruns, henv, hrax, hrsp, hpreserved, hback⟩ := hf.restores p₁ hframe
  have hbelow : reason.stub < length := by omega
  have hmove := StepsBelow.of_hasBytes (m := p)
    (i := .moveImmediate .scratch reason.toWord) (n := p₁.goto (reason.stub + 5)) hbytes.1
    (by decide : HostRegister.scratch.Valid) hbelow rfl (by rw [hp₁]; rfl)
  have hjump : StepsBelow code length 1 (p₁.goto (reason.stub + 5)) (p₁.goto standard.exit) := by
    have hwithin : reason.stub + 5 < length := by omega
    refine .one (step_jump hbytes.2 (by decide) ?_ p₁) (.of_hasBytes hbytes.2 trivial hwithin rfl p₁)
    rw [length] at hwithin
    omega
  -- Behind that stands the return, which finds the address of the host on the stack.
  let back := standard.exit + (Sequence.restoring.flatMap HostInstruction.encode).length
  have hend : back < length := by decide
  have hrestoring := hruns.stepsBelow hleave.1 (by decide) (Nat.le_of_lt hend)
  have hvalue : q.stack[returnSlot] = Linkage.returnAddress := by
    have hslot : returnSlot < Linkage.stackSlots := by decide
    rwa [Vector.getElem?_eq_getElem hslot, Option.some.injEq] at hback
  obtain ⟨r, hr⟩ : ∃ r : HostMachine β,
    r = (q.goto (back + 1)).set .rsp (slotAddress (returnSlot + 1)) := ⟨_, rfl⟩
  refine ⟨q.goto back, r, (hmove.trans hjump).trans hrestoring, ?_,
    .of_hasBytes hleave.2 trivial hend rfl q, ?_, ?_, ?_, ?_⟩
  · have hstep := step_of_hasBytes hleave.2 trivial q
    rw [hstep]
    have hpop := popValue_eq (m := q.goto (back + 1)) (by decide : returnSlot < Linkage.stackSlots)
      (hrsp.trans hm.top)
    change ((q.goto (back + 1)).popValue).bind _ = _
    rw [hpop, hr]
    change (if q.stack[returnSlot] = Linkage.returnAddress then _ else none) = _
    rw [if_pos hvalue]
    rfl
  · rw [hr]
    exact henv.trans (by rw [hp₁]; rfl)
  · have hget : r.get .rax = p₁.get .rax := by
      rw [hr, get_set_of_ne _ (by decide) (by decide) (by decide)]
      exact hrax
    rw [getWord, hget, hp₁]
    exact getWord_setWord_self p .rax _
  · rw [hr, get_set_self, hm.top]
    exact (slotAddress_succ ⟨returnSlot, by decide⟩).2.symm
  · intro x hx
    have hne : x.Valid ∧ x ≠ .rsp := by
      revert x
      decide
    rw [hr, get_set_of_ne _ (by decide) hne.1 (Ne.symm hne.2)]
    exact hpreserved x hx

/-- The core state decides between two of the ways out. -/
theorem steps_check (hcode : Written code) (hp : p.get .context = Linkage.contextBase) :
    ∃ q : HostMachine β, StepsBelow code length 2 (p.goto standard.dispatcherCheckCoreState)
        (q.goto (if p.env.state.get Slot.coreState = 0 then ExitReason.dispatch
          else ExitReason.coreState).stub) ∧ q.env = p.env ∧ q.frame = p.frame := by
  have hbytes := hcode.hasBytes hasBytes_check
  rw [HasBytes.append_iff] at hbytes
  have hlength : standard.dispatcherCheckCoreState + coreStateCheck.encode.length + 6 =
    ExitReason.dispatch.stub := by decide
  obtain ⟨hvalid, p₁, hexecute, hp₁⟩ := Sequence.runs_compareState hp
    (by decide : Slot.coreState < Slot.count) 0
  obtain rfl : p.setFlags _ = p₁ := hp₁
  refine ⟨p.setFlags (.ofSub (p.env.state.get Slot.coreState) 0), ?_, rfl, rfl⟩
  have hwithin : standard.dispatcherCheckCoreState < length := by decide
  have hcheck := StepsBelow.of_hasBytes (m := p) hbytes.1 hvalid hwithin rfl (by
      rw [HostInstruction.execute_of_isStraight rfl, executeStraight_goto, coreStateCheck, hexecute]
      rfl)
  have hjump := step_jumpIf (m := p.setFlags (.ofSub (p.env.state.get Slot.coreState) 0)) hbytes.2
    (fun _ => by decide) (by decide)
  have hbelow : standard.dispatcherCheckCoreState + coreStateCheck.encode.length < length := by decide
  refine hcheck.trans (.one (hjump.trans ?_) (.of_hasBytes hbytes.2 trivial hbelow rfl _))
  rw [hlength, flags_setFlags, Flags.holds_ofSub]
  by_cases hcore : p.env.state.get Slot.coreState = 0
  · rw [if_pos hcore]
    simp [Condition.holds, hcore]
  · rw [if_neg hcore]
    simp [Condition.holds, hcore]

end Stubs

end Recompiler
