import Recompiler.Proofs.Host.Machine

/-!
# What instruction sequences compute

Each sequence computes its value, whatever the aliasing of its operands, and changes nothing but
its destination and the registers that are free for computations.

* `Sequence.runs_alu`, `Sequence.runs_shift`, `Sequence.runs_shift_register`,
  `Sequence.runs_setCondition`, `Sequence.runs_multiply`: arithmetic.
* `Sequence.runs_loadState` and following: transfers between registers and the guest state.
* `Sequence.runs_loadHelper`, `Sequence.runs_storeHelper`, `Sequence.runs_interpretArguments`: calls.
-/

namespace Recompiler

open HostMachine

/-- The right hand side can be encoded. -/
def Source.Valid : Source → Prop
  | register r => r.Valid
  | immediate _ => True

/-- The value of a right hand side. -/
def Source.value {β : Type} (m : HostMachine β) : Source → UInt32
  | register r => m.getWord r
  | immediate value => value

/-- Only the low five bits of the amount of a shift count. -/
theorem ShiftOp.fold_congr (op : ShiftOp) (value : UInt32) {a b : UInt32}
    (h : a.toNat % 32 = b.toNat % 32) : op.fold value a = op.fold value b := by
  have hmask : a &&& 31 = b &&& 31 := by
    rw [← UInt32.toNat_inj, UInt32.toNat_and, UInt32.toNat_and]
    have hmod (n : Nat) : n &&& (31 : UInt32).toNat = n % 32 := Nat.and_two_pow_sub_one_eq_mod n 5
    rw [hmod, hmod, h]
  cases op <;> simp only [fold, Word.shiftRightSigned, hmask]

theorem ShiftOp.fold_zero (op : ShiftOp) (value : UInt32) : op.fold value 0 = value := by
  have hzero : (0 : UInt32) &&& 31 = 0 := by decide
  cases op with
  | left => rw [fold, hzero, UInt32.shiftLeft_zero]
  | right => rw [fold, hzero, UInt32.shiftRight_zero]
  | signedRight =>
    rw [fold, Word.shiftRightSigned, hzero]
    exact (congrArg Int32.toUInt32 Int32.shiftRight_zero).trans (UInt32.toUInt32_toInt32 value)

/-- Registers that sequences may use for themselves. -/
def HostRegister.free : List HostRegister := [rax, rcx, rdx]

namespace Sequence

variable {β : Type} [Bus β] {m : HostMachine β} {dst lhs src : HostRegister} {rhs : Source}

/-! ## Registers and the guest state -/

omit [Bus β] in
theorem valid_stateAddress (offset : UInt32) : (stateAddress offset).Valid :=
  ⟨show HostRegister.context.Valid by decide, fun _ h => by cases h⟩

theorem runs_loadState (hdst : dst.Valid) (hcontext : m.get .context = Linkage.contextBase)
    {slot : Nat} (hslot : slot < Slot.count) :
    Runs (loadState dst (Slot.offset slot)) m (m.setWord dst (m.env.state.get slot)) := by
  refine .one ⟨hdst, valid_stateAddress _⟩ ?_
  have hread := readMemory_slot hcontext hslot
  simp only [executeStraight, LoadKind.width, hread]
  rfl

theorem runs_storeState (hsrc : src.Valid) (hcontext : m.get .context = Linkage.contextBase)
    {slot : Nat} (hslot : slot < Slot.count) :
    Runs (storeState (Slot.offset slot) src) m (m.setSlot slot (m.getWord src)) :=
  .one ⟨valid_stateAddress _, hsrc⟩ (writeMemory_slot hcontext hslot _)

theorem runs_storeStateImmediate (hcontext : m.get .context = Linkage.contextBase) {slot : Nat}
    (hslot : slot < Slot.count) (value : UInt32) :
    Runs (storeStateImmediate (Slot.offset slot) value) m (m.setSlot slot value) :=
  .one (valid_stateAddress _) (writeMemory_slot hcontext hslot _)

theorem runs_compareState (hcontext : m.get .context = Linkage.contextBase) {slot : Nat}
    (hslot : slot < Slot.count) (value : UInt32) :
    Runs (compareState (Slot.offset slot) value) m
      (m.setFlags (.ofSub (m.env.state.get slot) value)) := by
  refine .one (valid_stateAddress _) ?_
  have hread := readMemory_slot hcontext hslot
  simp only [executeStraight, readPlace, hread]
  rfl

theorem runs_subtractState (hcontext : m.get .context = Linkage.contextBase) {slot : Nat}
    (hslot : slot < Slot.count) (value : UInt32) :
    Runs (subtractState (Slot.offset slot) value) m
      ((m.setFlags (.ofSub (m.env.state.get slot) value)).setSlot slot
        (m.env.state.get slot - value)) := by
  refine .one (valid_stateAddress _) ?_
  have hread := readMemory_slot hcontext hslot
  have hwrite := writeMemory_slot (m := m.setFlags (.ofSub (m.env.state.get slot) value)) hcontext
    hslot (m.env.state.get slot - value)
  simp only [executeStraight, readPlace, hread]
  exact hwrite

theorem runs_move (hdst : dst.Valid) (hsrc : src.Valid) (m : HostMachine β) :
    ∃ n, Runs (move dst src) m n ∧ n.getWord dst = m.getWord src ∧ n.flags = m.flags ∧
      Keeps [dst] m n := by
  rw [move]
  split
  · next heq => exact ⟨m, rfl, by rw [heq], rfl, .refl _ m⟩
  · exact ⟨_, .one ⟨hdst, hsrc⟩ rfl, m.getWord_setWord_self _ _, rfl, .setWord hdst (by simp) m _⟩

/-! ## Arithmetic -/

/-- An operation of the two operand group. -/
theorem runs_group (hdst : dst.Valid) (hrhs : rhs.Valid) {op : GroupOp} (hop : op ≠ .compare)
    (m : HostMachine β) :
    Runs [group op dst rhs] m ((m.setFlags (op.apply (m.getWord dst) (rhs.value m)).2).setWord dst
      (op.apply (m.getWord dst) (rhs.value m)).1) := by
  cases rhs with
  | register src =>
    refine .one ⟨hdst, hrhs⟩ ?_
    cases op <;> first | rfl | exact absurd rfl hop
  | immediate value =>
    refine .one hdst ?_
    cases op <;> first | rfl | exact absurd rfl hop

theorem runs_compare (hlhs : lhs.Valid) (hrhs : rhs.Valid) (m : HostMachine β) :
    Runs (compare lhs rhs) m (m.setFlags (.ofSub (m.getWord lhs) (rhs.value m))) := by
  cases rhs with
  | register src => exact .one ⟨hlhs, hrhs⟩ rfl
  | immediate value => exact .one hlhs rfl

/-- The group operation that stands for an arithmetic operation, the final complement apart. -/
theorem apply_ofAlu (op : AluOp) (a b : UInt32) :
    GroupOp.ofAlu op ≠ .compare ∧
      op.fold a b = if op = .nor then ~~~((GroupOp.ofAlu op).apply a b).1
        else ((GroupOp.ofAlu op).apply a b).1 := by
  cases op <;> exact ⟨by decide, rfl⟩

/-- The part of an arithmetic sequence before the final complement. -/
theorem runs_aluBody (op : AluOp) (hdst : dst.Valid) (hlhs : lhs.Valid) (hrhs : rhs.Valid)
    (m : HostMachine β) :
    ∃ n, Runs (if rhs = .register dst ∧ lhs ≠ dst then
          if op.isCommutative then [.group (.ofAlu op) dst lhs]
          else [.negate dst, .group .add dst lhs]
        else move dst lhs ++ [group (.ofAlu op) dst rhs]) m n ∧
      n.getWord dst = ((GroupOp.ofAlu op).apply (m.getWord lhs) (rhs.value m)).1 ∧
      Keeps [dst] m n := by
  have hop := (apply_ofAlu op 0 0).1
  -- The destination may hold the right operand, and is then to be read before it is written.
  split
  · next halias =>
    obtain ⟨rfl, hne⟩ := halias
    split
    · next hcomm =>
      refine ⟨_, runs_group hdst (show (Source.register lhs).Valid from hlhs) hop m, ?_, ?_⟩
      · rw [getWord_setWord_self]
        have hfold := op.fold_comm hcomm (m.getWord dst) (m.getWord lhs)
        rw [(apply_ofAlu op _ _).2, (apply_ofAlu op _ _).2] at hfold
        split at hfold
        · exact UInt32.not_inj.1 hfold
        · exact hfold
      · exact (Keeps.setFlags m _).trans (.setWord hdst (by simp) _ _)
    · next hcomm =>
      -- Subtraction is the one operation that does not commute, and comes to adding the negated
      -- operand.
      have hsub : op = .sub := by
        cases op <;> first | rfl | exact absurd rfl hcomm
      subst hsub
      refine ⟨_, .cons hdst rfl (runs_group hdst (show (Source.register lhs).Valid from hlhs)
        (by decide) _), ?_, ?_⟩
      · rw [getWord_setWord_self]
        have hlhs_word : (m.setWord dst (0 - m.getWord dst)).getWord lhs = m.getWord lhs :=
          congrArg UInt64.toUInt32 (m.get_setWord_of_ne hdst hlhs (Ne.symm hne) _)
        change (m.setWord dst (0 - m.getWord dst)).getWord dst +
          (m.setWord dst (0 - m.getWord dst)).getWord lhs = m.getWord lhs - m.getWord dst
        rw [hlhs_word, getWord_setWord_self, UInt32.zero_sub, UInt32.add_comm, UInt32.sub_eq_add_neg]
      · exact ((Keeps.setWord hdst (by simp) m _).trans (.setFlags _ _)).trans
          ((Keeps.setFlags _ _).trans (.setWord hdst (by simp) _ _))
  · next halias =>
    obtain ⟨n, hmove, hvalue, -, hkeeps⟩ := runs_move hdst hlhs m
    refine ⟨_, hmove.append (runs_group hdst hrhs hop n), ?_, ?_⟩
    · rw [getWord_setWord_self, hvalue]
      have hrhs_value : rhs.value n = rhs.value m := by
        cases rhs with
        | immediate value => rfl
        | register r =>
          by_cases hr : r = dst
          · -- The destination is read as well, so nothing was moved into it.
            have hlhs_eq : lhs = dst := by
              by_cases hlhs_eq : lhs = dst
              · exact hlhs_eq
              · exact absurd ⟨congrArg Source.register hr, hlhs_eq⟩ halias
            rw [Source.value, Source.value, hr, hvalue, hlhs_eq]
          · exact hkeeps.getWord hrhs (by simpa using hr)
      rw [hrhs_value]
    · exact hkeeps.trans ((Keeps.setFlags n _).trans (.setWord hdst (by simp) _ _))

theorem runs_alu (op : AluOp) (hdst : dst.Valid) (hlhs : lhs.Valid) (hrhs : rhs.Valid)
    (m : HostMachine β) :
    ∃ n, Runs (alu op dst lhs rhs) m n ∧
      n.getWord dst = op.fold (m.getWord lhs) (rhs.value m) ∧ Keeps [dst] m n := by
  obtain ⟨n, hbody, hvalue, hkeeps⟩ := runs_aluBody op hdst hlhs hrhs m
  have hfold := (apply_ofAlu op (m.getWord lhs) (rhs.value m)).2
  rw [alu]
  split
  · next hnor =>
    refine ⟨_, hbody.append (.one (i := .complement dst) hdst rfl), ?_, ?_⟩
    · rw [getWord_setWord_self, hvalue, hfold, if_pos hnor]
    · exact hkeeps.trans (.setWord hdst (by simp) n _)
  · next hnor =>
    refine ⟨n, hbody, ?_, hkeeps⟩
    rw [hvalue, hfold, if_neg hnor]

theorem runs_shift (op : ShiftOp) (amount : UInt32) (hdst : dst.Valid) (hsrc : src.Valid)
    (m : HostMachine β) :
    ∃ n, Runs (shift op dst src (.immediate amount)) m n ∧
      n.getWord dst = op.fold (m.getWord src) amount ∧ Keeps [dst] m n := by
  obtain ⟨n, hmove, hvalue, -, hkeeps⟩ := runs_move hdst hsrc m
  have hmask : (amount &&& 31).toNat = amount.toNat % 32 := by
    rw [UInt32.toNat_and]
    exact Nat.and_two_pow_sub_one_eq_mod amount.toNat 5
  rw [shift]
  split
  · next hzero =>
    refine ⟨n, by rwa [List.append_nil], ?_, hkeeps⟩
    rw [hzero] at hmask
    rw [hvalue, op.fold_congr _ (b := 0) hmask.symm, op.fold_zero]
  · refine ⟨_, hmove.append (.one (i := .shift op dst _) hdst rfl), ?_, ?_⟩
    · refine (n.getWord_setWord_self dst _).trans ?_
      rw [hvalue]
      refine op.fold_congr _ ?_
      rw [UInt8.toNat_toUInt32, UInt32.toNat_toUInt8, hmask]
      omega
    · exact hkeeps.trans ((Keeps.setWord hdst (by simp) n _).trans (.setFlags _ _))

theorem runs_shift_register (op : ShiftOp) {amount : HostRegister} (hdst : dst.Valid)
    (hsrc : src.Valid) (hamount : amount.Valid) (hdst_rcx : dst ≠ .rcx) (hsrc_rcx : src ≠ .rcx)
    (m : HostMachine β) :
    ∃ n, Runs (shift op dst src (.register amount)) m n ∧
      n.getWord dst = op.fold (m.getWord src) (m.getWord amount) ∧ Keeps [dst, .rcx] m n := by
  obtain ⟨m₁, hcount, hcount_value, -, hcount_keeps⟩ :=
    runs_move (show HostRegister.rcx.Valid by decide) hamount m
  obtain ⟨m₂, hmove, hvalue, -, hkeeps⟩ := runs_move hdst hsrc m₁
  refine ⟨_, (hcount.append hmove).append (.one (i := .shiftByCount op dst) hdst rfl), ?_, ?_⟩
  · refine (m₂.getWord_setWord_self dst _).trans ?_
    rw [hvalue, hcount_keeps.getWord hsrc (by simpa using hsrc_rcx),
      hkeeps.getWord (by decide) (by simpa using Ne.symm hdst_rcx), hcount_value]
    refine op.fold_congr _ ?_
    rw [UInt8.toNat_toUInt32, UInt32.toNat_toUInt8]
    omega
  · exact ((hcount_keeps.mono (by simp)).trans (hkeeps.mono (by simp))).trans
      ((Keeps.setWord hdst (by simp) m₂ _).trans (.setFlags _ _))

omit [Bus β] in
/-- The low byte of a register whose low byte was replaced by a bit. -/
theorem toUInt8_replaceLow (x : UInt64) (b : Bool) :
    ((x &&& 0xFFFFFFFFFFFFFF00) ||| (bit b).toUInt64).toUInt32.toUInt8.toUInt32 = bit b := by
  have hbit : (bit b).toNat < 2 := by cases b <;> decide
  rw [← UInt32.toNat_inj, UInt8.toNat_toUInt32, UInt32.toNat_toUInt8, UInt64.toNat_toUInt32,
    UInt64.toNat_or, UInt64.toNat_and, UInt32.toNat_toUInt64]
  have hmod : (x.toNat &&& (0xFFFFFFFFFFFFFF00 : UInt64).toNat ||| (bit b).toNat) % 2 ^ 8 =
      (bit b).toNat % 2 ^ 8 := by
    rw [Nat.or_mod_two_pow, Nat.and_mod_two_pow]
    change x.toNat % 2 ^ 8 &&& 0 ||| _ = _
    rw [Nat.and_zero, Nat.zero_or]
  omega

/-- The outcome of the last comparison as a word. -/
theorem runs_setLow (c : Condition) (hdst : dst.Valid) (m : HostMachine β) :
    ∃ n, Runs [.setLow c, .widenLow dst] m n ∧ n.getWord dst = bit (m.flags.holds c) ∧
      Keeps [dst, .rax] m n := by
  refine ⟨_, .cons trivial rfl (.one (i := .widenLow dst) hdst rfl), ?_, ?_⟩
  · refine (getWord_setWord_self _ dst _).trans ?_
    have hget := m.get_set_self .rax ((m.get .rax &&& 0xFFFFFFFFFFFFFF00) |||
      (bit (m.flags.holds c)).toUInt64)
    rw [getWord, hget, toUInt8_replaceLow]
  · exact (Keeps.set (by decide) (by simp) m _).trans (.setWord hdst (by simp) _ _)

theorem runs_setCondition (c : Condition) (hdst : dst.Valid) (hlhs : lhs.Valid)
    (hrhs : rhs.Valid) (m : HostMachine β) :
    ∃ n, Runs (setCondition c dst lhs rhs) m n ∧
      n.getWord dst = bit (c.holds (m.getWord lhs) (rhs.value m)) ∧ Keeps [dst, .rax] m n := by
  obtain ⟨n, hset, hvalue, hkeeps⟩ :=
    runs_setLow c hdst (m.setFlags (.ofSub (m.getWord lhs) (rhs.value m)))
  refine ⟨n, (runs_compare hlhs hrhs m).append hset, ?_, (Keeps.setFlags m _).trans hkeeps⟩
  rw [hvalue, flags_setFlags, Flags.holds_ofSub]

theorem runs_storeCondition (c : Condition) (hcontext : m.get .context = Linkage.contextBase)
    {slot : Nat} (hslot : slot < Slot.count) :
    ∃ n, Runs (storeCondition c (Slot.offset slot)) m n ∧
      Keeps [.rax] (m.setSlot slot (bit (m.flags.holds c))) n := by
  obtain ⟨n, hset, hvalue, hkeeps⟩ := runs_setLow c (show HostRegister.rax.Valid by decide) m
  have hcontext' : n.get .context = Linkage.contextBase :=
    (hkeeps.registers _ (by decide) (by decide)).trans hcontext
  refine ⟨_, hset.append (runs_storeState (by decide) hcontext' hslot), ?_⟩
  rw [hvalue]
  exact (hkeeps.mono (by simp)).setSlot slot _

/-- The two words of a product. -/
def product (signed : Bool) : (a b : UInt32) → UInt32 × UInt32 :=
  if signed then signedProduct else unsignedProduct

theorem runs_multiply (signed : Bool) {factor : HostRegister} (hlhs : lhs.Valid)
    (hfactor : factor.Valid) (hne : factor ≠ .rax)
    (hcontext : m.get .context = Linkage.contextBase) {hi lo : Nat} (hhi : hi < Slot.count)
    (hlo : lo < Slot.count) :
    ∃ n, Runs (multiply signed lhs factor (Slot.offset hi) (Slot.offset lo)) m n ∧
      Keeps [.rax, .rdx]
        ((m.setSlot lo (product signed (m.getWord lhs) (m.getWord factor)).2).setSlot hi
          (product signed (m.getWord lhs) (m.getWord factor)).1) n := by
  obtain ⟨m₁, hmove, hvalue, -, hkeeps⟩ := runs_move (show HostRegister.rax.Valid by decide) hlhs m
  have hproduct : product signed (m₁.getWord .rax) (m₁.getWord factor) =
      product signed (m.getWord lhs) (m.getWord factor) := by
    rw [hvalue, hkeeps.getWord hfactor (by simpa using hne)]
  rw [← hproduct]
  have hstep : m₁.executeStraight (.multiply signed factor) =
      some (((m₁.setWord .rax (product signed (m₁.getWord .rax) (m₁.getWord factor)).2).setWord .rdx
        (product signed (m₁.getWord .rax) (m₁.getWord factor)).1).setFlags .clear) := rfl
  -- From here on only the halves of the product matter.
  generalize product signed (m₁.getWord .rax) (m₁.getWord factor) = p at hstep ⊢
  let m₂ := ((m₁.setWord .rax p.2).setWord .rdx p.1).setFlags .clear
  have hkeeps₂ : Keeps [.rax, .rdx] m m₂ :=
    (hkeeps.mono (by simp)).trans (((Keeps.setWord (by decide) (by simp) m₁ _).trans
      (.setWord (by decide) (by simp) _ _)).trans (.setFlags _ _))
  have hcontext₂ : m₂.get .context = Linkage.contextBase :=
    (hkeeps₂.registers _ (by decide) (by decide)).trans hcontext
  have hrax : m₂.getWord .rax = p.2 :=
    (congrArg UInt64.toUInt32 (get_setWord_of_ne (m₁.setWord .rax p.2) (r := .rdx) (q := .rax)
      (by decide) (by decide) (by decide) p.1)).trans (m₁.getWord_setWord_self .rax p.2)
  have hrdx : (m₂.setSlot lo p.2).getWord .rdx = p.1 := getWord_setWord_self _ .rdx p.1
  have hlow : Runs (storeState (Slot.offset lo) .rax) m₂ (m₂.setSlot lo p.2) := by
    have h := runs_storeState (show HostRegister.rax.Valid by decide) hcontext₂ hlo
    rwa [hrax] at h
  have hhigh := runs_storeState (m := m₂.setSlot lo p.2) (show HostRegister.rdx.Valid by decide)
    hcontext₂ hhi
  rw [hrdx] at hhigh
  refine ⟨_, ((hmove.append (.one (i := .multiply signed factor) hfactor hstep)).append hlow).append
    hhigh, ?_⟩
  exact (hkeeps₂.setSlot lo p.2).setSlot hi p.1

omit [Bus β] in
theorem toUInt32_signExtend (w : UInt32) : w.toInt32.toInt64.toUInt64.toUInt32 = w := by
  have hbits : (w.toBitVec.signExtend 64).setWidth 32 = w.toBitVec := by
    ext k hk
    rw [BitVec.getElem_setWidth, BitVec.getLsbD_signExtend]
    simp [hk, Nat.lt_trans hk (by decide : 32 < 64)]
  exact UInt32.toBitVec_inj.1 hbits

theorem runs_loadAddress {base : HostRegister} (hdst : dst.Valid) (hbase : base.Valid)
    (displacement : UInt32) (m : HostMachine β) :
    Runs (loadAddress dst base displacement) m
      (m.setWord dst (m.getWord base + displacement)) := by
  refine .one ⟨hdst, hbase, by simp⟩ ?_
  have haddress : (m.address ⟨base, none, displacement⟩).toUInt32 =
      m.getWord base + displacement := by
    change (m.get base + 0 + displacement.toInt32.toInt64.toUInt64).toUInt32 = _
    rw [UInt64.add_zero, UInt64.toUInt32_add, toUInt32_signExtend]
    rfl
  rw [← haddress]
  rfl

/-! ## Calls -/

end Sequence

namespace HostMachine

variable {β : Type} {m n : HostMachine β}

/-- The machine with another guest. -/
def withEnv (m : HostMachine β) (env : Environment β) : HostMachine β :=
  { m with env := env }

@[simp] theorem get_withEnv (env : Environment β) (r : HostRegister) :
    (m.withEnv env).get r = m.get r := rfl

theorem Keeps.loseVolatile (m : HostMachine β) : Keeps HostRegister.volatile m m.loseVolatile := by
  have hfold (rs : List HostRegister) (hsub : ∀ r ∈ rs, r.Valid ∧ r ∈ HostRegister.volatile)
      (m : HostMachine β) :
      Keeps HostRegister.volatile m (rs.foldl (fun m r => m.set r lost) m) := by
    induction rs generalizing m with
    | nil => exact .refl _ m
    | cons r rs ih =>
      have hr := hsub r List.mem_cons_self
      exact (Keeps.set hr.1 hr.2 m _).trans (ih (fun q hq => hsub q (List.mem_cons_of_mem _ hq)) _)
  exact hfold _ (by decide) m

theorem Keeps.withEnv {lost : List HostRegister} (h : Keeps lost m n) (env : Environment β) :
    Keeps lost (m.withEnv env) (n.withEnv env) :=
  ⟨rfl, h.stack, h.registers⟩

variable [Bus β]

theorem callHelper_load (hcontext : m.get .rdi = Linkage.contextBase) (kind : LoadKind) :
    m.callHelper (.load kind) =
      some ((m.withEnv (m.env.load kind (m.getWord .rsi)).2).loseVolatile.setWord .rax
        (m.env.load kind (m.getWord .rsi)).1) := by
  rw [callHelper, if_neg (not_not_intro hcontext)]
  rfl

theorem callHelper_store (hcontext : m.get .rdi = Linkage.contextBase) (width : Width) :
    m.callHelper (.store width) =
      some (m.withEnv (m.env.write width (m.getWord .rsi) (m.getWord .rdx))).loseVolatile := by
  rw [callHelper, if_neg (not_not_intro hcontext)]
  rfl

theorem callHelper_interpret (hcontext : m.get .rdi = Linkage.contextBase) {i : Instruction}
    (hword : Instruction.interpreted? (m.getWord .rsi) = some i)
    (hroutine : m.get .rdx = i.mnemonic.routineAddress) :
    m.callHelper .interpret = some (m.withEnv (i.interpret m.env)).loseVolatile := by
  rw [callHelper, if_neg (not_not_intro hcontext)]
  simp only [hword, hroutine]
  simp
  rfl

end HostMachine

namespace Sequence

variable {β : Type} [Bus β] {m : HostMachine β}

theorem ofAddress?_address (h : Helper) : Helper.ofAddress? h.address = some h := by
  cases h with
  | load kind => cases kind <;> rfl
  | store width => cases width <;> rfl
  | interpret => rfl

/-- Calling a helper once its arguments are in place. -/
theorem runs_callHelper {h : Helper} {n : HostMachine β}
    (hn : (m.set .rax h.address).callHelper h = some n) :
    Runs (movePointer .rax h.address ++ [.call .rax]) m n := by
  have hrax : HostRegister.rax.Valid := by decide
  refine .cons hrax rfl (.one (i := .call .rax) hrax ?_)
  simp only [executeStraight, get_set_self, ofAddress?_address]
  exact hn

/-- Reading guest memory through a helper, with the address in the scratch register. -/
theorem runs_loadHelper (hcontext : m.get .context = Linkage.contextBase) (kind : LoadKind) :
    ∃ is, call (Helper.load kind).address [.context, .register .scratch] = .ok is ∧
      ∃ n, Runs is m n ∧ n.getWord .scratch = (m.env.load kind (m.getWord .scratch)).1 ∧
        Keeps HostRegister.volatile (m.withEnv (m.env.load kind (m.getWord .scratch)).2) n := by
  refine ⟨_, rfl, ?_⟩
  -- The arguments are passed first, of which the second comes from the scratch register.
  let m₁ := m.set .rdi (m.get .context)
  let m₂ := m₁.setWord .rsi (m₁.getWord .rax)
  let m₃ := m₂.set .rax (Helper.load kind).address
  have hlate : Keeps [.rsi, .rax] m₁ m₃ :=
    (Keeps.setWord (by decide) (by decide) m₁ _).trans (.set (by decide) (by decide) m₂ _)
  have hkeeps : Keeps HostRegister.volatile m m₃ :=
    (Keeps.set (by decide) (by decide) m _).trans (hlate.mono (by decide))
  have hrdi : m₃.get .rdi = Linkage.contextBase :=
    (hlate.registers _ (by decide) (by decide)).trans ((m.get_set_self .rdi _).trans hcontext)
  have hrsi : m₃.getWord .rsi = m.getWord .scratch := by
    refine ((Keeps.set (by decide) (List.mem_singleton_self HostRegister.rax) m₂ _).getWord (by decide)
      (by decide)).trans ((m₁.getWord_setWord_self .rsi _).trans ?_)
    exact (Keeps.set (by decide) (List.mem_singleton_self HostRegister.rdi) m _).getWord (by decide)
      (by decide)
  have hcall := callHelper_load hrdi kind
  rw [hrsi] at hcall
  have hmoveWide : HostRegister.rdi.Valid ∧ HostRegister.context.Valid := by decide
  have hmove : HostRegister.rsi.Valid ∧ HostRegister.rax.Valid := by decide
  have hpass : Runs ([.moveWide .rdi .context] ++ move .rsi .rax) m m₂ :=
    .cons hmoveWide rfl (.one hmove rfl)
  refine ⟨_, hpass.append (runs_callHelper hcall), ?_, ?_⟩
  · exact getWord_setWord_self _ .rax _
  · exact ((hkeeps.withEnv _).trans (.loseVolatile _)).trans (.setWord (by decide) (by decide) _ _)

/-- Writing guest memory through a helper, with the address in the scratch register. -/
theorem runs_storeHelper (hcontext : m.get .context = Linkage.contextBase) (width : Width)
    {value : HostRegister} (hvalue : value ∈ HostRegister.allocationOrder) :
    ∃ is, call (Helper.store width).address [.context, .register .scratch, .register value] =
        .ok is ∧
      ∃ n, Runs is m n ∧ Keeps HostRegister.volatile
        (m.withEnv (m.env.write width (m.getWord .scratch) (m.getWord value))) n := by
  have hcall_eq : call (Helper.store width).address
      [.context, .register .scratch, .register value] =
        .ok ([.moveWide .rdi .context] ++ move .rsi .rax ++ move .rdx value ++
          (movePointer .rax (Helper.store width).address ++ [.call .rax])) := by
    simp [call, HostRegister.arguments, passArgument, HostRegister.scratch]
  refine ⟨_, hcall_eq, ?_⟩
  -- The value is in a register of the cache, which passing the other arguments does not touch.
  have hvalid : value.Valid ∧ value ≠ .rdx ∧ value ≠ .rsi ∧ value ≠ .rdi :=
    (by decide : ∀ value ∈ HostRegister.allocationOrder,
      value.Valid ∧ value ≠ .rdx ∧ value ≠ .rsi ∧ value ≠ .rdi) value hvalue
  let m₁ := m.set .rdi (m.get .context)
  let m₂ := m₁.setWord .rsi (m₁.getWord .rax)
  have hkeeps₂ : Keeps [.rdi, .rsi] m m₂ :=
    (Keeps.set (by decide) (by decide) m _).trans (.setWord (by decide) (by decide) m₁ _)
  let m₃ := m₂.setWord .rdx (m₂.getWord value)
  let m₄ := m₃.set .rax (Helper.store width).address
  have hlate : Keeps [.rdx, .rax] m₂ m₄ :=
    (Keeps.setWord (by decide) (by decide) m₂ _).trans (.set (by decide) (by decide) m₃ _)
  have hkeeps : Keeps HostRegister.volatile m m₄ :=
    (hkeeps₂.mono (by decide)).trans (hlate.mono (by decide))
  have hrdi : m₄.get .rdi = Linkage.contextBase := by
    refine (hlate.registers _ (by decide) (by decide)).trans ?_
    refine (get_setWord_of_ne m₁ (r := .rsi) (q := .rdi) (by decide) (by decide) (by decide) _).trans ?_
    exact (m.get_set_self .rdi _).trans hcontext
  have hrsi : m₄.getWord .rsi = m.getWord .scratch := by
    refine (hlate.getWord (by decide) (by decide)).trans
      ((m₁.getWord_setWord_self .rsi _).trans ?_)
    exact (Keeps.set (by decide) (List.mem_singleton_self HostRegister.rdi) m _).getWord (by decide)
      (by decide)
  have hrdx : m₄.getWord .rdx = m.getWord value := by
    refine ((Keeps.set (by decide) (List.mem_singleton_self HostRegister.rax) m₃ _).getWord (by decide)
      (by decide)).trans ((m₂.getWord_setWord_self .rdx _).trans (hkeeps₂.getWord hvalid.1 ?_))
    simp [hvalid]
  have hcall := callHelper_store hrdi width
  rw [hrsi, hrdx] at hcall
  have hmove : move .rdx value = [.move .rdx value] := if_neg (Ne.symm hvalid.2.1)
  have hpass : Runs ([.moveWide .rdi .context] ++ move .rsi .rax ++ move .rdx value) m m₃ := by
    have hrdi : HostRegister.rdi.Valid ∧ HostRegister.context.Valid := by decide
    have hrsi : HostRegister.rsi.Valid ∧ HostRegister.rax.Valid := by decide
    rw [hmove]
    exact .cons hrdi rfl (.cons hrsi rfl (.one ⟨by decide, hvalid.1⟩ rfl))
  refine ⟨_, hpass.append (runs_callHelper hcall), ?_⟩
  exact (hkeeps.withEnv _).trans (.loseVolatile _)

/-- The arguments for having an instruction interpreted, and the address of the helper. -/
def interpretArguments (i : Instruction) : List HostInstruction :=
  [.moveWide .rdi .context] ++ moveImmediate .rsi i.word ++
    movePointer .rdx i.mnemonic.routineAddress ++ movePointer .rax Helper.interpret.address

theorem call_interpret (i : Instruction) :
    call Helper.interpret.address
      [.context, .immediate i.word, .pointer i.mnemonic.routineAddress] =
        .ok (interpretArguments i ++ [.call .rax]) := rfl

/-- Having an instruction interpreted, up to the call and behind it. -/
theorem runs_interpretArguments (hcontext : m.get .context = Linkage.contextBase) {i : Instruction}
    (hword : Instruction.interpreted? i.word = some i) :
    ∃ p n, Runs (interpretArguments i) m p ∧ p.env = m.env ∧ p.getWord .rsi = i.word ∧
      p.get .rax = Helper.interpret.address ∧ p.executeStraight (.call .rax) = some n ∧
        Keeps HostRegister.volatile (m.withEnv (i.interpret m.env)) n := by
  let m₁ := m.set .rdi (m.get .context)
  let m₂ := m₁.setWord .rsi i.word
  let m₃ := m₂.set .rdx i.mnemonic.routineAddress
  let m₄ := m₃.set .rax Helper.interpret.address
  -- Once the first two arguments are set, only `rdx` and `rax` are written.
  have hlate : Keeps [.rdx, .rax] m₂ m₄ :=
    (Keeps.set (by decide) (by decide) m₂ _).trans (.set (by decide) (by decide) m₃ _)
  have hkeeps : Keeps HostRegister.volatile m m₄ :=
    ((Keeps.set (by decide) (by decide) m _).trans (.setWord (by decide) (by decide) m₁ _)).trans
      (hlate.mono (by decide))
  have hrdi : m₄.get .rdi = Linkage.contextBase := by
    refine (hlate.registers _ (by decide) (by decide)).trans ?_
    refine (get_setWord_of_ne m₁ (r := .rsi) (q := .rdi) (by decide) (by decide) (by decide) _).trans ?_
    exact (m.get_set_self .rdi _).trans hcontext
  have hrsi : m₄.getWord .rsi = i.word :=
    (hlate.getWord (by decide) (by decide)).trans (m₁.getWord_setWord_self .rsi _)
  have hrdx : m₄.get .rdx = i.mnemonic.routineAddress := by
    refine ((Keeps.set (by decide) (List.mem_singleton_self HostRegister.rax) m₃ _).registers _ (by decide)
      (by decide)).trans (m₂.get_set_self .rdx _)
  have hrax : m₄.get .rax = Helper.interpret.address := m₃.get_set_self .rax _
  have hpass : Runs (interpretArguments i) m m₄ := by
    have hcontext : HostRegister.rdi.Valid ∧ HostRegister.context.Valid := by decide
    have hword : HostRegister.rsi.Valid := by decide
    have hroutine : HostRegister.rdx.Valid := by decide
    have haddress : HostRegister.rax.Valid := by decide
    exact .cons hcontext rfl (.cons hword rfl (.cons hroutine rfl (.one haddress rfl)))
  refine ⟨m₄, _, hpass, rfl, hrsi, hrax, ?_, (hkeeps.withEnv _).trans (.loseVolatile _)⟩
  simp only [executeStraight, hrax, ofAddress?_address]
  exact callHelper_interpret hrdi (hrsi ▸ hword) hrdx

end Sequence

end Recompiler
