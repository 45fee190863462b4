import Recompiler.Block.Branch
import Recompiler.Proofs.Block.Acting
import Recompiler.Proofs.Guest.Interpreter

/-!
# Arithmetic does what the interpreter does

The arithmetic that is lowered to host instructions, against the interpretation of the same guest
instruction: whatever is known of the operands, and wherever they live, the code shows the guest that
interpreting the instruction gives.

* `Instruction.interpret_immediate` and following: the interpretation by kinds of instructions.
* `Acts.immediateArithmetic` and following: the code by kinds of instructions.
-/

namespace Recompiler

open HostMachine

variable {β : Type}

/-! ## Interpretation -/

namespace Instruction

variable {i : Instruction} {op : Operand} {what : String} {v : UInt32}

theorem value_of_operand (h : i.operand op what = .ok v) : i.value op = v := by
  rw [operand] at h
  rw [value]
  cases hget : i.get? op with
  | none =>
    rw [hget] at h
    cases h
  | some w =>
    rw [hget] at h
    cases h
    rfl

theorem registerOf_of_operand (hi : i.entry ∈ Entry.table) (hop : op.isRegister = true)
    (h : i.operand op what = .ok v) : i.registerOf op = (guestOperand v).val := by
  have hlt := registerOf_lt hi hop
  rw [registerOf, value_of_operand h] at hlt ⊢
  exact (Nat.mod_eq_of_lt hlt).symm

/-- The address of a load or store, by the operands that its lowering reads. -/
theorem effectiveAddress_of_operands {base offset : UInt32} (hi : i.entry ∈ Entry.table)
    (hbase : i.operand .base what = .ok base) (hoffset : i.offset = .ok offset)
    (e : Environment β) : i.effectiveAddress e = e.state.get (guestOperand base) + offset := by
  obtain ⟨v, hv, rfl⟩ : ∃ v, i.operand .offset "offset" = .ok v ∧ Word.signExtend16 v = offset := by
    rw [Instruction.offset] at hoffset
    cases hv : i.operand .offset "offset" with
    | error b =>
      rw [hv] at hoffset
      cases hoffset
    | ok v =>
      rw [hv] at hoffset
      exact ⟨v, rfl, Except.ok.inj hoffset⟩
  rw [effectiveAddress, registerOf_of_operand hi rfl hbase, value_of_operand hv]
  rfl

variable {e : Environment β} [Bus β]

theorem interpret_immediate {op : BinaryOp} {signed : Bool}
    (h : BinaryOp.ofImmediate? i.mnemonic = some (op, signed)) :
    i.interpret e = i.withImmediate e fun rs imm =>
      op.fold rs (if signed then Word.signExtend16 imm else imm) := by
  unfold interpret
  generalize i.mnemonic = m at h ⊢
  cases m <;> cases h <;> rfl

theorem interpret_register {op : BinaryOp} (h : BinaryOp.ofRegister? i.mnemonic = some op) :
    i.interpret e = i.withRegisters e op.fold := by
  unfold interpret
  generalize i.mnemonic = m at h ⊢
  cases m <;> cases h <;> rfl

theorem shiftLeft_low (a b : UInt32) : a <<< (b &&& 31) = a <<< b := by
  apply UInt32.toBitVec_inj.1
  simp only [UInt32.toBitVec_shiftLeft, UInt32.toBitVec_and]
  congr 1
  apply BitVec.eq_of_toNat_eq
  have hmask (n : Nat) : n &&& 31 = n % 32 := Nat.and_two_pow_sub_one_eq_mod n 5
  simp [BitVec.toNat_umod, hmask]

theorem shiftRight_low (a b : UInt32) : a >>> (b &&& 31) = a >>> b := by
  apply UInt32.toBitVec_inj.1
  simp only [UInt32.toBitVec_shiftRight, UInt32.toBitVec_and]
  congr 1
  apply BitVec.eq_of_toNat_eq
  have hmask (n : Nat) : n &&& 31 = n % 32 := Nat.and_two_pow_sub_one_eq_mod n 5
  simp [BitVec.toNat_umod, hmask]

theorem interpret_constantShift {op : ShiftOp} (h : ShiftOp.ofMnemonic? i.mnemonic = some op)
    (hm : i.mnemonic = .sll ∨ i.mnemonic = .srl ∨ i.mnemonic = .sra) :
    i.interpret e = i.withAmount e op.fold := by
  have hleft : (fun a b : UInt32 => a <<< b) = ShiftOp.left.fold :=
    funext fun a => funext fun b => (shiftLeft_low a b).symm
  have hright : (fun a b : UInt32 => a >>> b) = ShiftOp.right.fold :=
    funext fun a => funext fun b => (shiftRight_low a b).symm
  unfold interpret
  generalize i.mnemonic = m at h hm ⊢
  obtain rfl | rfl | rfl := hm <;> cases h
  · rw [← hleft]
  · rw [← hright]
  · rfl

theorem interpret_variableShift {op : ShiftOp} (h : ShiftOp.ofMnemonic? i.mnemonic = some op)
    (hm : i.mnemonic = .sllv ∨ i.mnemonic = .srlv ∨ i.mnemonic = .srav) :
    i.interpret e = i.withRegisters e fun rs rt => op.fold rt rs := by
  unfold interpret
  generalize i.mnemonic = m at h hm ⊢
  obtain rfl | rfl | rfl := hm <;> cases h <;> rfl

end Instruction

/-- Words at different places may be written in any order. -/
theorem Environment.setWord_comm {e : Environment β} {slot other : Nat} (hne : slot ≠ other)
    (v w : UInt32) : (e.setWord slot v).setWord other w = (e.setWord other w).setWord slot v := by
  refine congrArg (Environment.mk · e.bus e.events) (congrArg State.mk (Vector.ext fun k hk => ?_))
  simp only [Environment.setWord, State.set, Vector.getElem_setIfInBounds]
  split <;> split <;> first | rfl | omega

/-! ## Mapped registers -/

namespace RegisterCache.Mapped

variable [Bus β] {c : RegisterCache} {m : HostMachine β} {reg : GuestIndex} {access : Access}
  {value : UInt32} {host : HostRegister}

omit [Bus β] in
theorem mem_allocationOrder (h : c.Mapped m reg access value host) (hc : c.Paired)
    (hreg : reg = zeroRegister → access.writes = false) : host ∈ HostRegister.allocationOrder := by
  obtain ⟨hzero, hwrites, -⟩ | hplace := h.place
  · rw [hreg hzero] at hwrites
    cases hwrites
  · obtain ⟨dirty, hheld⟩ := (hc.resident reg host).1 hplace
    exact hc.mem_allocationOrder hheld

omit [Bus β] in
theorem mem_of_read (h : c.Mapped m reg .read value host) (hc : c.Paired) :
    host ∈ HostRegister.allocationOrder :=
  h.mem_allocationOrder hc fun _ => rfl

end RegisterCache.Mapped

theorem RegisterCache.writes_targetAccess (dst : GuestIndex) (sources : List GuestIndex) :
    (targetAccess dst sources).writes = true := by
  unfold targetAccess
  split <;> rfl

theorem Access.eq_of_mem_lost {access : Access} {reg r : GuestIndex} (h : r ∈ access.lost reg) :
    r = reg := by
  rw [lost] at h
  split at h
  · exact List.mem_singleton.1 h
  · cases h

theorem HostRegister.ne_rcx_of_mem_allocationOrder {r : HostRegister}
    (h : r ∈ HostRegister.allocationOrder) : r ≠ .rcx ∧ r ≠ .rax := by
  have hall : ∀ r ∈ HostRegister.allocationOrder, r ≠ .rcx ∧ r ≠ .rax := by decide
  exact hall r h

namespace Lower

variable [Bus β] {s : Surroundings} {f : Footing β} {e : Environment β} {i : Instruction}

/-- The code of an operation with two operands. -/
theorem runs_sequence (op : BinaryOp) {dst lhs : HostRegister} {rhs : Source} (hdst : dst.Valid)
    (hlhs : lhs.Valid) (hrhs : rhs.Valid) (m : HostMachine β) :
    ∃ n, Runs (op.sequence dst lhs rhs) m n ∧
      n.getWord dst = op.fold (m.getWord lhs) (rhs.value m) ∧
      m.Keeps (dst :: HostRegister.volatile) n := by
  cases op with
  | alu op =>
    obtain ⟨n, hruns, hvalue, hkeeps⟩ := Sequence.runs_alu op hdst hlhs hrhs m
    exact ⟨n, hruns, hvalue, hkeeps.mono (by simp)⟩
  | set c =>
    obtain ⟨n, hruns, hvalue, hkeeps⟩ := Sequence.runs_setCondition c hdst hlhs hrhs m
    exact ⟨n, hruns, hvalue, hkeeps.mono (by simp [HostRegister.volatile])⟩

namespace Acts

/-- Code that leaves a value in the host register that a guest register was mapped to for writing. -/
theorem emit_assign {is : List HostInstruction} {reg : GuestIndex} {access : Access}
    {hidden : List GuestIndex} {old v : UInt32} {host : HostRegister} {l : List HostRegister}
    {k : Assertion β} (hreg : reg ≠ zeroRegister) (hwrites : access.writes = true)
    (hhidden : ∀ r ∈ hidden, r = reg)
    (hlost : ∀ r ∈ l, r = host ∨ r ∈ HostRegister.volatile)
    (h : ∀ t m, t.Shows f hidden e m → host ∈ HostRegister.allocationOrder → k t m →
      ∃ n, Runs is m n ∧ n.getWord host = v ∧ m.Keeps l n) :
    Acts s (fun t m => t.Shows f hidden e m ∧ t.registers.Mapped m reg access old host ∧ k t m)
      (Lower.emit is) fun _ => Lowering.Shows f [] (e.setRegister reg v) := by
  refine emit fun t m hm => ?_
  obtain ⟨ht, hmapped, hknown⟩ := hm
  have hheld := hmapped.dirty hreg hwrites
  have hhost : host ∈ HostRegister.allocationOrder := ht.consistent.mem_allocationOrder hheld
  obtain ⟨n, hruns, rfl, hkeeps⟩ := h t m ht hhost hknown
  have hfree : ∀ r ∈ HostRegister.volatile, r ∉ HostRegister.allocationOrder ∧ r ≠ .context := by
    decide
  have hrole {r : HostRegister} (hr : r ∉ HostRegister.volatile)
      (hr' : r ∉ HostRegister.allocationOrder) : r ∉ l :=
    fun hmem => (hlost r hmem).elim (fun heq => hr' (heq ▸ hhost)) hr
  have hframe : n.frame = m.frame := hkeeps.frame (hrole (by decide) (by decide))
    (hrole (by decide) (by decide)) (hrole (by decide) (by decide))
  refine ⟨n, hruns, fun u hregisters hfooting => ⟨?_, ?_⟩⟩
  · rw [hregisters]
    exact ht.registers.assign hheld hkeeps (fun r hr => (hlost r hr).imp id (hfree r))
      fun r hr => .inl (hhidden r hr)
  · rw [hfooting, ← ht.footing, Lowering.footing, Lowering.footing, hframe]

/-- Code with one source and a destination. -/
theorem mapTarget_emit {dst src : GuestIndex} (hdst : dst ≠ zeroRegister)
    {is : HostRegister × HostRegister → List HostInstruction} {v : UInt32}
    (h : ∀ (m : HostMachine β) x y, x ∈ HostRegister.allocationOrder →
      y ∈ HostRegister.allocationOrder → m.getWord y = e.state.get src →
        ∃ n, Runs (is (x, y)) m n ∧ n.getWord x = v ∧ m.Keeps (x :: HostRegister.volatile) n) :
    Acts s (Lowering.Shows f [] e)
      (Lower.allocating (RegisterCache.mapTarget dst src) >>= fun r => Lower.emit (is r)) fun _ =>
      Lowering.Shows f [] (e.setRegister dst v) := by
  refine (mapTarget dst src).bind fun r => ?_
  refine emit_assign (l := r.1 :: HostRegister.volatile) hdst
    (RegisterCache.writes_targetAccess dst [src]) (fun _ => Access.eq_of_mem_lost)
    (fun _ => List.mem_cons.1) fun t m ht hhost hsrc => ?_
  exact h m r.1 r.2 hhost (hsrc.mem_of_read ht.consistent.toPaired) (hsrc.value (by decide))

/-- Code with two sources and a destination. -/
theorem mapTargetSources_emit {dst rs rt : GuestIndex} (hdst : dst ≠ zeroRegister)
    {is : HostRegister × HostRegister × HostRegister → List HostInstruction} {v : UInt32}
    (h : ∀ (m : HostMachine β) x y z, x ∈ HostRegister.allocationOrder →
      y ∈ HostRegister.allocationOrder → z ∈ HostRegister.allocationOrder →
      m.getWord y = e.state.get rs → m.getWord z = e.state.get rt →
        ∃ n, Runs (is (x, y, z)) m n ∧ n.getWord x = v ∧ m.Keeps (x :: HostRegister.volatile) n) :
    Acts s (Lowering.Shows f [] e)
      (Lower.allocating (RegisterCache.mapTargetSources dst rs rt) >>= fun r => Lower.emit (is r))
      fun _ => Lowering.Shows f [] (e.setRegister dst v) := by
  refine (mapTargetSources dst rs rt).bind fun r => ?_
  refine emit_assign (l := r.1 :: HostRegister.volatile) hdst
    (RegisterCache.writes_targetAccess dst [rs, rt]) (fun _ => Access.eq_of_mem_lost)
    (fun _ => List.mem_cons.1) fun t m ht hhost hsources => ?_
  exact h m r.1 r.2.1 r.2.2 hhost (hsources.1.mem_of_read ht.consistent.toPaired)
    (hsources.2.mem_of_read ht.consistent.toPaired) (hsources.1.value (by decide))
    (hsources.2.value (by decide))

/-- An operation on a register and a constant. -/
theorem mapTarget_sequence (op : BinaryOp) {dst src : GuestIndex} (hdst : dst ≠ zeroRegister)
    (imm : UInt32) :
    Acts s (Lowering.Shows f [] e)
      (Lower.allocating (RegisterCache.mapTarget dst src) >>= fun r =>
        Lower.emit (op.sequence r.1 r.2 (.immediate imm))) fun _ =>
      Lowering.Shows f [] (e.setRegister dst (op.fold (e.state.get src) imm)) := by
  refine mapTarget_emit hdst fun m x y hx hy hvalue => ?_
  rw [← hvalue]
  exact runs_sequence op (HostRegister.valid_of_mem_allocationOrder hx)
    (HostRegister.valid_of_mem_allocationOrder hy) (show (Source.immediate imm).Valid from trivial) m

/-- An operation on two registers. -/
theorem mapTargetSources_sequence (op : BinaryOp) {dst rs rt : GuestIndex}
    (hdst : dst ≠ zeroRegister) :
    Acts s (Lowering.Shows f [] e)
      (Lower.allocating (RegisterCache.mapTargetSources dst rs rt) >>= fun r =>
        Lower.emit (op.sequence r.1 r.2.1 (.register r.2.2))) fun _ =>
      Lowering.Shows f [] (e.setRegister dst (op.fold (e.state.get rs) (e.state.get rt))) := by
  refine mapTargetSources_emit hdst fun m x y z hx hy hz hlhs hrhs => ?_
  rw [← hlhs, ← hrhs]
  exact runs_sequence op (HostRegister.valid_of_mem_allocationOrder hx)
    (HostRegister.valid_of_mem_allocationOrder hy)
    (show (Source.register z).Valid from HostRegister.valid_of_mem_allocationOrder hz) m

/-- A shift by a constant amount. -/
theorem mapTarget_shift (op : ShiftOp) {dst src : GuestIndex} (hdst : dst ≠ zeroRegister)
    (amount : UInt32) :
    Acts s (Lowering.Shows f [] e)
      (Lower.allocating (RegisterCache.mapTarget dst src) >>= fun r =>
        Lower.emit (Sequence.shift op r.1 r.2 (.immediate amount))) fun _ =>
      Lowering.Shows f [] (e.setRegister dst (op.fold (e.state.get src) amount)) := by
  refine mapTarget_emit hdst fun m x y hx hy hvalue => ?_
  obtain ⟨n, hruns, hresult, hkeeps⟩ := Sequence.runs_shift op amount
    (HostRegister.valid_of_mem_allocationOrder hx) (HostRegister.valid_of_mem_allocationOrder hy) m
  exact ⟨n, hruns, hvalue ▸ hresult, hkeeps.mono (by simp)⟩

/-- A shift by the amount in a register. -/
theorem mapTargetSources_shift (op : ShiftOp) {dst rt rs : GuestIndex}
    (hdst : dst ≠ zeroRegister) :
    Acts s (Lowering.Shows f [] e)
      (Lower.allocating (RegisterCache.mapTargetSources dst rt rs) >>= fun r =>
        Lower.emit (Sequence.shift op r.1 r.2.1 (.register r.2.2))) fun _ =>
      Lowering.Shows f [] (e.setRegister dst (op.fold (e.state.get rt) (e.state.get rs))) := by
  refine mapTargetSources_emit hdst fun m x y z hx hy hz hvalue hamount => ?_
  obtain ⟨n, hruns, hresult, hkeeps⟩ := Sequence.runs_shift_register op
    (HostRegister.valid_of_mem_allocationOrder hx) (HostRegister.valid_of_mem_allocationOrder hy)
    (HostRegister.valid_of_mem_allocationOrder hz) (HostRegister.ne_rcx_of_mem_allocationOrder hx).1
    (HostRegister.ne_rcx_of_mem_allocationOrder hy).1 m
  rw [hvalue, hamount] at hresult
  exact ⟨n, hruns, hresult, hkeeps.mono (by simp [HostRegister.volatile])⟩

/-! ### Kinds of instructions -/

theorem immediateArithmetic (hi : i.entry ∈ Entry.table) {op : BinaryOp} {signed : Bool}
    (h : BinaryOp.ofImmediate? i.mnemonic = some (op, signed)) :
    Acts s (Lowering.Shows f [] e) (Lower.immediateArithmetic i op signed) fun _ =>
      Lowering.Shows f [] (i.interpret e) := by
  refine registerOperand_bind fun rt hrt => registerOperand_bind fun rs hrs => ?_
  have htarget := Instruction.registerOf_of_operand hi rfl hrt
  have hsource := Instruction.registerOf_of_operand hi rfl hrs
  refine ite (fun hzero => pure fun t m ht => ?_) fun hzero => checked_bind fun imm himm => ?_
  · rw [Instruction.interpret_immediate h, Instruction.withImmediate, htarget, hzero]
    exact ht
  -- The constant is the field of the instruction, extended as the mnemonic says.
  · have hvalue : (if signed then Word.signExtend16 (i.value .immediate)
        else i.value .immediate) = imm := by
      cases signed with
      | false => exact Instruction.value_of_operand himm
      | true =>
        cases hraw : i.immediate with
        | error b =>
          rw [if_pos rfl, Instruction.signedImmediate, hraw] at himm
          cases himm
        | ok raw =>
          rw [if_pos rfl, Instruction.signedImmediate, hraw] at himm
          cases himm
          rw [if_pos rfl, Instruction.value_of_operand hraw]
    have hinterpret : i.interpret e = e.setRegister (guestOperand rt)
        (op.fold (e.state.get (guestOperand rs)) imm) := by
      rw [Instruction.interpret_immediate h, Instruction.withImmediate, htarget, hsource, hvalue]
      rfl
    rw [hinterpret]
    refine immediate?_bind fun v? hv => ?_
    cases v? with
    | some v =>
      rw [hv v rfl]
      exact setImmediate _ _
    | none => exact mapTarget_sequence op hzero imm

theorem loadUpper (hi : i.entry ∈ Entry.table) (h : i.mnemonic = .lui) :
    Acts s (Lowering.Shows f [] e) (Lower.loadUpper i) fun _ =>
      Lowering.Shows f [] (i.interpret e) := by
  refine registerOperand_bind fun rt hrt => ?_
  have htarget := Instruction.registerOf_of_operand hi rfl hrt
  have hinterpret : i.interpret e =
      e.setRegister (guestOperand rt) (i.value .immediate <<< 16) := by
    rw [Instruction.interpret, h, ← htarget]
  rw [hinterpret]
  refine ite (fun _ => checked_bind fun imm himm => ?_) fun hzero => pure fun t m ht => ?_
  · rw [Instruction.value_of_operand himm]
    exact setImmediate _ _
  · rw [not_not.1 hzero]
    exact ht

theorem registerArithmetic (hi : i.entry ∈ Entry.table) {op : BinaryOp}
    (h : BinaryOp.ofRegister? i.mnemonic = some op) :
    Acts s (Lowering.Shows f [] e) (Lower.registerArithmetic i op) fun _ =>
      Lowering.Shows f [] (i.interpret e) := by
  refine registerOperand_bind fun rd hrd => registerOperand_bind fun rs hrs =>
    registerOperand_bind fun rt hrt => ?_
  have hinterpret : i.interpret e = e.setRegister (guestOperand rd)
      (op.fold (e.state.get (guestOperand rs)) (e.state.get (guestOperand rt))) := by
    rw [Instruction.interpret_register h, Instruction.withRegisters,
      Instruction.registerOf_of_operand hi rfl hrd, Instruction.registerOf_of_operand hi rfl hrs,
      Instruction.registerOf_of_operand hi rfl hrt]
    rfl
  rw [hinterpret]
  refine ite (fun hzero => pure fun t m ht => ?_) fun hzero => ?_
  · rw [hzero]
    exact ht
  refine immediate?_bind fun lhs? hlhs => immediate?_bind fun rhs? hrhs => ?_
  -- Two constants are folded. One can be an immediate operand, on the left only if that commutes.
  cases rhs? with
  | some rhs =>
    rw [hrhs rhs rfl]
    cases lhs? with
    | some lhs =>
      rw [hlhs lhs rfl]
      exact setImmediate _ _
    | none => exact mapTarget_sequence op hzero rhs
  | none =>
    cases lhs? with
    | none => exact mapTargetSources_sequence op hzero
    | some lhs =>
      by_cases hcommutes : op.isCommutative = true
      · have hswap : op.fold (e.state.get (guestOperand rs)) (e.state.get (guestOperand rt)) =
            op.fold (e.state.get (guestOperand rt)) lhs := by
          rw [hlhs lhs rfl]
          cases op with
          | alu op => exact AluOp.fold_comm hcommutes _ _
          | set c => cases hcommutes
        have hfilter : ((some lhs).filter fun _ => op.isCommutative) = some lhs := if_pos hcommutes
        dsimp only
        rw [hfilter, hswap]
        exact mapTarget_sequence op hzero lhs
      · have hfilter : ((some lhs).filter fun _ => op.isCommutative) = none := if_neg hcommutes
        dsimp only
        rw [hfilter]
        exact mapTargetSources_sequence op hzero

theorem constantShift (hi : i.entry ∈ Entry.table) {op : ShiftOp}
    (h : ShiftOp.ofMnemonic? i.mnemonic = some op)
    (hm : i.mnemonic = .sll ∨ i.mnemonic = .srl ∨ i.mnemonic = .sra) :
    Acts s (Lowering.Shows f [] e) (Lower.constantShift i op) fun _ =>
      Lowering.Shows f [] (i.interpret e) := by
  refine registerOperand_bind fun rd hrd => registerOperand_bind fun rt hrt =>
    checked_bind fun amount hamount => ?_
  have hinterpret : i.interpret e = e.setRegister (guestOperand rd)
      (op.fold (e.state.get (guestOperand rt)) amount) := by
    rw [Instruction.interpret_constantShift h hm, Instruction.withAmount,
      Instruction.registerOf_of_operand hi rfl hrd, Instruction.registerOf_of_operand hi rfl hrt,
      Instruction.value_of_operand hamount]
    rfl
  rw [hinterpret]
  refine ite (fun hzero => pure fun t m ht => ?_) fun hzero => immediate?_bind fun v? hv => ?_
  · rw [hzero]
    exact ht
  cases v? with
  | some v =>
    rw [hv v rfl]
    exact setImmediate _ _
  | none => exact mapTarget_shift op hzero amount

theorem variableShift (hi : i.entry ∈ Entry.table) {op : ShiftOp}
    (h : ShiftOp.ofMnemonic? i.mnemonic = some op)
    (hm : i.mnemonic = .sllv ∨ i.mnemonic = .srlv ∨ i.mnemonic = .srav) :
    Acts s (Lowering.Shows f [] e) (Lower.variableShift i op) fun _ =>
      Lowering.Shows f [] (i.interpret e) := by
  refine registerOperand_bind fun rd hrd => registerOperand_bind fun rs hrs =>
    registerOperand_bind fun rt hrt => ?_
  have hinterpret : i.interpret e = e.setRegister (guestOperand rd)
      (op.fold (e.state.get (guestOperand rt)) (e.state.get (guestOperand rs))) := by
    rw [Instruction.interpret_variableShift h hm, Instruction.withRegisters,
      Instruction.registerOf_of_operand hi rfl hrd, Instruction.registerOf_of_operand hi rfl hrs,
      Instruction.registerOf_of_operand hi rfl hrt]
    rfl
  rw [hinterpret]
  refine ite (fun hzero => pure fun t m ht => ?_) fun hzero => ?_
  · rw [hzero]
    exact ht
  refine immediate?_bind fun v? hv => immediate?_bind fun amount? hamount => ?_
  cases amount? with
  | none => cases v? <;> exact mapTargetSources_shift op hzero
  | some amount =>
    rw [hamount amount rfl]
    cases v? with
    | some v =>
      rw [hv v rfl]
      exact setImmediate _ _
    | none =>
      -- Only the low five bits of the amount count.
      have hmask (n : Nat) : n &&& 31 = n % 32 := Nat.and_two_pow_sub_one_eq_mod n 5
      have hlow : op.fold (e.state.get (guestOperand rt)) amount =
          op.fold (e.state.get (guestOperand rt)) (amount &&& 31) := by
        refine op.fold_congr _ ?_
        rw [UInt32.toNat_and]
        change amount.toNat % 32 = (amount.toNat &&& 31) % 32
        rw [hmask, Nat.mod_mod]
      rw [hlow]
      exact mapTarget_shift op hzero (amount &&& 31)

/-! ### HI and LO -/

theorem product (hi : i.entry ∈ Entry.table) {signed : Bool}
    (h : i.mnemonic = if signed then .mult else .multu) :
    Acts s (Lowering.Shows f [] e) (Lower.product i signed) fun _ =>
      Lowering.Shows f [] (i.interpret e) := by
  refine registerOperand_bind fun rs hrs => registerOperand_bind fun rt hrt => ?_
  have hinterpret : i.interpret e = (e.setWord Slot.hi (Sequence.product signed
      (e.state.get (guestOperand rs)) (e.state.get (guestOperand rt))).1).setWord Slot.lo
        (Sequence.product signed (e.state.get (guestOperand rs)) (e.state.get (guestOperand rt))).2 := by
    have hkind : i.interpret e = i.withHiLo e (Sequence.product signed) := by
      rw [Instruction.interpret, h]
      cases signed <;> rfl
    rw [hkind, Instruction.withHiLo, Instruction.registerOf_of_operand hi rfl hrs,
      Instruction.registerOf_of_operand hi rfl hrt]
    rfl
  refine (mapSources _ _).bind fun r => emit fun t m hm => ?_
  obtain ⟨ht, hlhs, hrhs⟩ := hm
  have hlhs' := hlhs.mem_of_read ht.consistent.toPaired
  have hrhs' := hrhs.mem_of_read ht.consistent.toPaired
  obtain ⟨n, hruns, hkeeps⟩ := Sequence.runs_multiply signed
    (HostRegister.valid_of_mem_allocationOrder hlhs') (HostRegister.valid_of_mem_allocationOrder hrhs')
    (HostRegister.ne_rcx_of_mem_allocationOrder hrhs').2 ht.context
    (show Slot.hi < Slot.count by decide) (show Slot.lo < Slot.count by decide)
  rw [hlhs.value (by decide), hrhs.value (by decide)] at hkeeps
  -- Both halves of the product go to the guest state, around the cache.
  have hstored : Lowering.Shows f [] (i.interpret e) t ((m.setSlot Slot.lo
      (Sequence.product signed (e.state.get (guestOperand rs)) (e.state.get (guestOperand rt))).2).setSlot
        Slot.hi (Sequence.product signed (e.state.get (guestOperand rs))
          (e.state.get (guestOperand rt))).1) := by
    rw [hinterpret, Environment.setWord_comm (by decide)]
    exact ⟨(ht.registers.setSlot (by decide) _).setSlot (by decide) _, ht.footing⟩
  refine ⟨n, hruns, fun u hregisters hfooting => ?_⟩
  exact (hstored.keeps hkeeps (by simp [HostRegister.volatile])).of_eq hregisters (hfooting n)

theorem moveFrom (hi : i.entry ∈ Entry.table) {slot : Nat} (hslot : 32 ≤ slot)
    (hcount : slot < Slot.count)
    (h : i.interpret e = e.setRegister (i.registerOf .destination) (e.state.get slot)) :
    Acts s (Lowering.Shows f [] e) (Lower.moveFrom i slot) fun _ =>
      Lowering.Shows f [] (i.interpret e) := by
  refine registerOperand_bind fun rd hrd => ?_
  rw [Instruction.registerOf_of_operand hi rfl hrd] at h
  rw [h]
  refine ite (fun hzero => (map _ .write).bind fun host => ?_) fun hzero => pure fun t m ht => ?_
  · refine (emit_assign (l := [host]) (k := fun _ _ => True) hzero rfl
      (fun _ => Access.eq_of_mem_lost) (by simp) fun t m ht hhost _ => ?_).mono
      (fun t m hm => ⟨hm.1, hm.2, trivial⟩) fun _ _ _ h => h
    have hvalid := HostRegister.valid_of_mem_allocationOrder hhost
    refine ⟨_, Sequence.runs_loadState hvalid ht.context hcount, ?_, .setWord hvalid (by simp) m _⟩
    rw [getWord_setWord_self]
    exact ht.registers.words slot hslot
  · rw [not_not.1 hzero]
    exact ht

theorem moveTo (hi : i.entry ∈ Entry.table) {slot : Nat} (hslot : 32 ≤ slot)
    (hcount : slot < Slot.count)
    (h : i.interpret e = e.setWord slot (e.state.get (i.registerOf .source))) :
    Acts s (Lowering.Shows f [] e) (Lower.moveTo i slot) fun _ =>
      Lowering.Shows f [] (i.interpret e) := by
  refine registerOperand_bind fun rs hrs => ?_
  rw [Instruction.registerOf_of_operand hi rfl hrs] at h
  rw [h]
  refine immediate?_bind fun v? hv => ?_
  cases v? with
  | some v =>
    rw [hv v rfl]
    exact storeStateImmediate hslot hcount v
  | none =>
    refine (map_read _).bind fun host => emit fun t m hm => ?_
    obtain ⟨ht, hmapped⟩ := hm
    have hvalid := HostRegister.valid_of_mem_allocationOrder
      (hmapped.mem_of_read ht.consistent.toPaired)
    refine ⟨_, Sequence.runs_storeState hvalid ht.context hcount, fun u hregisters hfooting => ?_⟩
    rw [hmapped.value (by decide)]
    exact ⟨hregisters ▸ ht.registers.setSlot hslot _, (hfooting _).trans ht.footing⟩

end Acts

end Lower

end Recompiler
