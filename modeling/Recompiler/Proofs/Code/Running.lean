import Recompiler.Proofs.Code.Layout
import Recompiler.Proofs.Host.Machine

/-!
# Running code from its bytes

What the machine does at a place in an arena, from the instructions whose bytes lie there.

* `HostMachine.step_of_hasBytes`, `HostMachine.step_jump`, `HostMachine.step_jumpIf`: one step.
* `HostMachine.Steps`: a number of steps.
* `HostMachine.Runs.steps`: a straight run of instructions.
-/

namespace Recompiler

variable {β : Type}

/-! ## Running from bytes -/

namespace HostMachine

/-- The machine at another place in the code. -/
def goto (m : HostMachine β) (ip : Nat) : HostMachine β :=
  { m with ip := ip }

@[simp] theorem ip_goto (m : HostMachine β) (ip : Nat) : (m.goto ip).ip = ip := rfl

@[simp] theorem env_goto (m : HostMachine β) (ip : Nat) : (m.goto ip).env = m.env := rfl

@[simp] theorem frame_goto (m : HostMachine β) (ip : Nat) : (m.goto ip).frame = m.frame := rfl

@[simp] theorem goto_goto (m : HostMachine β) (ip ip' : Nat) : (m.goto ip).goto ip' = m.goto ip' := rfl

variable [Bus β] {m n p : HostMachine β} {code : Arena}

theorem writeMemory_goto (m : HostMachine β) (ip : Nat) (width : Width) (addr : UInt64)
    (value : UInt32) :
    (m.goto ip).writeMemory width addr value = (m.writeMemory width addr value).map (·.goto ip) := by
  rw [writeMemory, writeMemory]
  cases stateSlot? addr with
  | some slot =>
    dsimp only
    split <;> rfl
  | none =>
    dsimp only
    by_cases hall : ((List.range width.size).all fun i =>
        (Bus.hostByte? m.env.bus (addr + i.toUInt64)).isSome) = true
    · rw [if_pos hall]
      exact if_pos hall
    · rw [if_neg hall]
      exact if_neg hall

theorem callHelper_goto (m : HostMachine β) (ip : Nat) (h : Helper) :
    (m.goto ip).callHelper h = (m.callHelper h).map (·.goto ip) := by
  have hrdi : (m.goto ip).get .rdi = m.get .rdi := rfl
  rw [callHelper, callHelper, hrdi]
  split
  · rfl
  · cases h with
    | load kind => rfl
    | store width => rfl
    | interpret =>
      change (Instruction.interpreted? (m.getWord .rsi)).bind _ =
        ((Instruction.interpreted? (m.getWord .rsi)).bind _).map _
      cases Instruction.interpreted? (m.getWord .rsi) with
      | none => rfl
      | some i =>
        dsimp only [Option.bind_some]
        by_cases hroutine : i.mnemonic.routineAddress ≠ m.get .rdx
        · rw [if_pos hroutine]
          exact if_pos hroutine
        · rw [if_neg hroutine]
          exact if_neg hroutine

/-- What an instruction does does not depend on where it stands, jumps apart. -/
theorem executeStraight_goto (m : HostMachine β) (ip : Nat) (i : HostInstruction) :
    (m.goto ip).executeStraight i = (m.executeStraight i).map (·.goto ip) := by
  cases i with
  | store width dst src => exact writeMemory_goto m ip _ _ _
  | storeImmediate dst value => exact writeMemory_goto m ip _ _ _
  | call target =>
    change (Helper.ofAddress? (m.get target)).bind (m.goto ip).callHelper =
      ((Helper.ofAddress? (m.get target)).bind m.callHelper).map _
    cases Helper.ofAddress? (m.get target) with
    | none => rfl
    | some h => exact callHelper_goto m ip h
  | load kind dst src =>
    change (m.readMemory kind.width (m.address src)).bind _ =
      ((m.readMemory kind.width (m.address src)).bind _).map _
    cases m.readMemory kind.width (m.address src) <;> rfl
  | group op dst src => cases op <;> rfl
  | groupImmediate op dst value =>
    change (m.readPlace dst).bind _ = ((m.readPlace dst).bind _).map _
    cases m.readPlace dst with
    | none => rfl
    | some old =>
      cases dst with
      | register r => cases op <;> rfl
      | memory a => cases op <;> first | rfl | exact writeMemory_goto (m.setFlags _) ip _ _ _
  | push src =>
    change (stackSlot? (m.get .rsp - 8)).bind _ = ((stackSlot? (m.get .rsp - 8)).bind _).map _
    cases stackSlot? (m.get .rsp - 8) <;> rfl
  | pop dst =>
    change ((stackSlot? (m.get .rsp)).bind _).bind _ =
      (((stackSlot? (m.get .rsp)).bind _).bind _).map _
    cases stackSlot? (m.get .rsp) <;> rfl
  | _ => rfl

/-- The bytes at an offset are the first that are read there. -/
theorem window_of_hasBytes {offset : Nat} {bytes : List UInt8}
    (h : HasBytes code.written offset bytes) {length : Nat} (hlength : bytes.length ≤ length) :
    ∃ rest, code.window offset length = bytes ++ rest := by
  refine ⟨(code.window offset length).drop bytes.length, ?_⟩
  have htake : (code.window offset length).take bytes.length = bytes := by
    apply List.ext_getElem?
    intro i
    rw [List.getElem?_take]
    by_cases hi : i < bytes.length
    · rw [if_pos hi, Arena.window, Array.getElem?_toList, Array.getElem?_extract, ← h i hi]
      have hsize := (Array.getElem?_eq_some_iff.1 ((h i hi).trans (List.getElem?_eq_getElem hi))).1
      rw [if_pos (by omega)]
    · rw [if_neg hi, List.getElem?_eq_none (by omega)]
  exact (List.take_append_drop bytes.length _).symm.trans (by rw [htake])

/-- One step runs the instruction whose bytes lie at the current offset. -/
theorem step_of_hasBytes {i : HostInstruction} {ip : Nat}
    (h : HasBytes code.written ip i.encode) (hi : i.Valid) (m : HostMachine β) :
    (m.goto ip).step code = execute (m.goto (ip + i.encode.length)) i := by
  obtain ⟨rest, hwindow⟩ := window_of_hasBytes h (HostInstruction.length_encode_le i).2
  rw [step, ip_goto, hwindow]
  dsimp only
  rw [HostInstruction.decode?_encode hi, List.length_append]
  change execute (m.goto (ip + (i.encode.length + rest.length - rest.length))) i = _
  rw [Nat.add_sub_cancel]

/-- Some steps lead from one machine to another. -/
def Steps (code : Arena) : (count : Nat) → HostMachine β → HostMachine β → Prop
  | 0, m, n => n = m
  | count + 1, m, n => ∃ p, m.step code = some (.running p) ∧ Steps code count p n

theorem Steps.one (h : m.step code = some (.running n)) : Steps code 1 m n :=
  ⟨n, h, rfl⟩

theorem Steps.trans {j k : Nat} (h : Steps code j m n) (h' : Steps code k n p) :
    Steps code (j + k) m p := by
  induction j generalizing m with
  | zero =>
    obtain rfl : n = m := h
    rwa [Nat.zero_add]
  | succ j ih =>
    obtain ⟨m₁, hstep, hrest⟩ := h
    rw [Nat.succ_add]
    exact ⟨m₁, hstep, ih hrest⟩

/-- What lies ahead of a machine lies ahead of those it comes to on the way. -/
theorem Steps.drop {j k : Nat} (h : Steps code k m p) (h' : Steps code j m n) (hjk : j ≤ k) :
    Steps code (k - j) n p := by
  induction j generalizing m k with
  | zero =>
    obtain rfl : n = m := h'
    exact h
  | succ j ih =>
    obtain ⟨k, rfl⟩ : ∃ k', k = k' + 1 := ⟨k - 1, by omega⟩
    obtain ⟨m₁, hstep, hrest⟩ := h
    obtain ⟨m₂, hstep', hrest'⟩ := h'
    cases hstep.symm.trans hstep'
    rw [Nat.succ_sub_succ]
    exact ih hrest hrest' (by omega)

theorem Steps.run {k : Nat} (h : Steps code k m n) (fuel : Nat) :
    m.run code (k + fuel) = n.run code fuel := by
  induction k generalizing m with
  | zero =>
    obtain rfl : n = m := h
    rw [Nat.zero_add]
  | succ k ih =>
    obtain ⟨m₁, hstep, hrest⟩ := h
    rw [Nat.succ_add, HostMachine.run, hstep]
    exact ih hrest

omit [Bus β] in
/-- A jump that lies in two gibibytes of code goes where it leads. -/
theorem jumpBy_jumpDistance {target stop : Nat} (htarget : target ≤ 0x80000000)
    (hpos : 0 < stop) (hstop : stop ≤ 0x80000000) (m : HostMachine β) :
    (m.goto stop).jumpBy (jumpDistance target stop) = m.goto target := by
  have hip : (stop.toUInt64 + (jumpDistance target stop).toInt32.toInt64.toUInt64).toNat =
      target := by
    have hsigned := @toInt_jumpDistance target stop (by omega) (by omega)
    rw [Word.toInt_eq, Int.bmod] at hsigned
    have hlt := (jumpDistance target stop).toNat_lt
    have hstop_nat : stop.toUInt64.toNat = stop := toNat_toUInt64 (by change _ < 2 ^ 64; omega)
    rw [UInt64.toNat_add, hstop_nat, Word.toNat_signExtend]
    split at hsigned <;> split <;> omega
  exact congrArg m.goto hip

theorem step_jump {ip target : Nat}
    (h : HasBytes code.written ip (HostInstruction.jump (jumpDistance target (ip + 5))).encode)
    (htarget : target ≤ 0x80000000) (hip : ip + 5 ≤ 0x80000000) (m : HostMachine β) :
    (m.goto ip).step code = some (.running (m.goto target)) := by
  have hjump := jumpBy_jumpDistance htarget (Nat.succ_pos _) hip m
  rw [step_of_hasBytes h trivial, ← hjump]
  rfl

theorem step_jumpIf {c : Condition} {ip target : Nat}
    (h : HasBytes code.written ip (HostInstruction.jumpIf c (jumpDistance target (ip + 6))).encode)
    (htarget : m.flags.holds c = true → target ≤ 0x80000000) (hip : ip + 6 ≤ 0x80000000) :
    (m.goto ip).step code =
      some (.running (m.goto (if m.flags.holds c then target else ip + 6))) := by
  rw [step_of_hasBytes h trivial]
  change some (Outcome.running (if m.flags.holds c then (m.goto (ip + 6)).jumpBy _ else
    m.goto (ip + 6))) = _
  split
  · next htaken => rw [jumpBy_jumpDistance (htarget htaken) (Nat.succ_pos _) hip]
  · rfl

end HostMachine


/-! ## Straight runs -/

theorem HostInstruction.execute_of_isStraight [Bus β] {i : HostInstruction}
    (h : i.isStraight = true) (m : HostMachine β) :
    m.execute i = (m.executeStraight i).map .running := by
  cases i <;> first | rfl | cases h

/-- Jumps and returns are not carried out by `HostMachine.executeStraight`. -/
theorem HostInstruction.isStraight_of_executeStraight [Bus β] {i : HostInstruction}
    {m n : HostMachine β} (h : m.executeStraight i = some n) : i.isStraight = true := by
  cases i <;> first | rfl | cases h

namespace HostMachine

variable [Bus β] {m n : HostMachine β} {code : Arena}

/-- A straight run of instructions is what running their bytes comes to, one step for each. -/
theorem Runs.steps {is : List HostInstruction} {ip : Nat} (h : Runs is m n)
    (hbytes : HasBytes code.written ip (is.flatMap HostInstruction.encode)) :
    Steps code is.length (m.goto ip)
      (n.goto (ip + (is.flatMap HostInstruction.encode).length)) := by
  induction is generalizing m ip with
  | nil =>
    obtain rfl : n = m := h
    rfl
  | cons i is ih =>
    obtain ⟨hvalid, m₁, hexecute, hrest⟩ := h
    rw [List.flatMap_cons, HasBytes.append_iff] at hbytes
    refine ⟨m₁.goto (ip + i.encode.length), ?_, ?_⟩
    · rw [step_of_hasBytes hbytes.1 hvalid, HostInstruction.execute_of_isStraight
        (HostInstruction.isStraight_of_executeStraight hexecute), executeStraight_goto, hexecute]
      rfl
    · have hsteps := ih hrest hbytes.2
      rwa [Nat.add_assoc, ← List.length_append, ← List.flatMap_cons] at hsteps

end HostMachine

end Recompiler
