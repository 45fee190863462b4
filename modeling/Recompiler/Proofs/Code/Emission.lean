import Recompiler.Proofs.Code.Writing
import Recompiler.Proofs.Host.Contained
import Recompiler.Proofs.Host.Format

/-!
# What is emitted

The ways of appending instructions to an arena, each with the machine instructions that it is meant
to append, and the proof that reading the appended bytes gives these.

* `Emission`: the ways of appending instructions.
* `Emission.emit`: what an arena is after one of them.
* `Emission.listing`: the instructions that are meant, independent of how they are encoded.
* `Emission.exists_reads_emit`: exactly the meant instructions are read back, from exactly the
  appended bytes.
-/

namespace Recompiler

/-! ## Writing where there is room -/

namespace Arena

variable {a : Arena}

theorem foldl_emit_of_fits {pieces : List (List UInt8)} (h : a.overflowed = false)
    (h' : a.size + pieces.flatten.length ≤ a.limit) :
    pieces.foldl emit a = a.append pieces.flatten := by
  induction pieces generalizing a with
  | nil => exact (append_nil a).symm
  | cons piece pieces ih =>
    rw [List.flatten_cons, List.length_append] at h'
    have hfits : (a.append piece).size + pieces.flatten.length ≤ (a.append piece).limit := by
      rw [size_append, Nat.add_assoc]
      exact h'
    rw [List.foldl_cons, emit_of_fits h (by omega), ih (a := a.append piece) h hfits, append_append,
      List.flatten_cons]

theorem write_of_fits {i : HostInstruction} (h : a.overflowed = false)
    (h' : a.size + i.encode.length ≤ a.limit) : a.write i = a.append i.encode :=
  foldl_emit_of_fits h h'

theorem writeAll_of_fits {is : List HostInstruction} (h : a.overflowed = false)
    (h' : a.size + (is.flatMap HostInstruction.encode).length ≤ a.limit) :
    a.writeAll is = a.append (is.flatMap HostInstruction.encode) := by
  induction is generalizing a with
  | nil => exact (append_nil a).symm
  | cons i is ih =>
    rw [List.flatMap_cons, List.length_append] at h'
    have hfits : (a.append i.encode).size + (is.flatMap HostInstruction.encode).length ≤
        (a.append i.encode).limit := by
      rw [size_append, Nat.add_assoc]
      exact h'
    have hwrite : a.write i = a.append i.encode := write_of_fits h (by omega)
    rw [writeAll, List.foldl_cons, hwrite, ← writeAll, ih (a := a.append i.encode) h hfits,
      append_append, List.flatMap_cons]

theorem fill_of_fits {count : Nat} (h : a.overflowed = false)
    (h' : a.size + ((List.replicate count .trap).flatMap HostInstruction.encode).length ≤ a.limit) :
    fill count a = a.append ((List.replicate count .trap).flatMap HostInstruction.encode) := by
  induction count generalizing a with
  | zero => exact (append_nil a).symm
  | succ count ih =>
    have hone : HostInstruction.trap.encode.length = 1 := rfl
    rw [List.replicate_succ, List.flatMap_cons, List.length_append] at h'
    have hwrite : a.write .trap = a.append HostInstruction.trap.encode :=
      write_of_fits h (by omega)
    have hfits : (a.append HostInstruction.trap.encode).size +
        ((List.replicate count .trap).flatMap HostInstruction.encode).length ≤
          (a.append HostInstruction.trap.encode).limit := by
      rw [size_append, Nat.add_assoc]
      exact h'
    simp only [fill, hwrite, size_append, hone]
    rw [if_neg (by omega), ih (a := a.append _) h hfits, append_append, List.replicate_succ,
      List.flatMap_cons]

end Arena

/-! ## The ways of appending instructions -/

/-- A way of appending instructions. -/
inductive Emission where
  | loadState (dst : HostRegister) (offset : UInt32)
  | storeState (offset : UInt32) (src : HostRegister)
  | storeStateImmediate (offset value : UInt32)
  | move (dst src : HostRegister)
  | moveImmediate (dst : HostRegister) (value : UInt32)
  | movePointer (dst : HostRegister) (value : UInt64)
  | alu (op : AluOp) (dst lhs : HostRegister) (rhs : Source)
  | shift (op : ShiftOp) (dst src : HostRegister) (amount : Source)
  | setCondition (c : Condition) (dst lhs : HostRegister) (rhs : Source)
  | compare (lhs : HostRegister) (rhs : Source)
  | compareState (offset value : UInt32)
  | subtractState (offset value : UInt32)
  | storeCondition (c : Condition) (offset : UInt32)
  | multiply (signed : Bool) (lhs rhs : HostRegister) (hi lo : UInt32)
  | loadAddress (dst base : HostRegister) (displacement : UInt32)
  | loadHost (kind : LoadKind) (dst : HostRegister) (addr : FastAddress)
  | storeHost (width : Width) (addr : FastAddress) (src : HostRegister)
  | call (function : UInt64) (args : List Argument)
  | enter
  | leave
  /-- A jump whose target is told later. -/
  | jump
  | jumpIf (c : Condition)
  /-- A jump to a known offset, which can be sent elsewhere later. -/
  | jumpTo (target : Nat)
  | jumpIfTo (c : Condition) (target : Nat)
  | align (alignment : Nat)
  deriving DecidableEq, Repr

/-- The registers are registers, the stack pointer is no index, and a constant offset is a positive
displacement. -/
def FastAddress.Valid : FastAddress → Prop
  | indexed index => index.Valid ∧ index ≠ .rsp
  | fixed offset => offset < 0x80000000
  | based base index => base.Valid ∧ index.Valid ∧ index ≠ .rsp

namespace Emission

/-- The operands can be encoded: registers are registers, no index is the stack pointer, a constant
offset is a positive displacement, a call has as many arguments as there are registers for them, and
there is something to align to. -/
def Valid : Emission → Prop
  | loadState r _ | storeState _ r | moveImmediate r _ | movePointer r _ => r.Valid
  | move dst src | loadAddress dst src _ | multiply _ dst src _ _ => dst.Valid ∧ src.Valid
  | alu _ dst lhs rhs | setCondition _ dst lhs rhs | shift _ dst lhs rhs =>
    dst.Valid ∧ lhs.Valid ∧ rhs.Valid
  | compare lhs rhs => lhs.Valid ∧ rhs.Valid
  | loadHost _ r addr | storeHost _ addr r => r.Valid ∧ addr.Valid
  | call _ args => args.length ≤ 4 ∧ ∀ arg ∈ args, arg.Valid
  | align alignment => alignment ≠ 0
  | storeStateImmediate .. | compareState .. | subtractState .. | storeCondition .. | enter | leave
  | jump | jumpIf _ | jumpTo _ | jumpIfTo .. => True

/-- The arena after something was appended. -/
def emit (a : Arena) : Emission → Except Breach Arena
  | loadState dst offset => return a.writeAll (Sequence.loadState dst offset)
  | storeState offset src => return a.writeAll (Sequence.storeState offset src)
  | storeStateImmediate offset value =>
    return a.writeAll (Sequence.storeStateImmediate offset value)
  | move dst src => return a.writeAll (Sequence.move dst src)
  | moveImmediate dst value => return a.writeAll (Sequence.moveImmediate dst value)
  | movePointer dst value => return a.writeAll (Sequence.movePointer dst value)
  | alu op dst lhs rhs => return a.writeAll (Sequence.alu op dst lhs rhs)
  | shift op dst src amount => return a.writeAll (Sequence.shift op dst src amount)
  | setCondition c dst lhs rhs => return a.writeAll (Sequence.setCondition c dst lhs rhs)
  | compare lhs rhs => return a.writeAll (Sequence.compare lhs rhs)
  | compareState offset value => return a.writeAll (Sequence.compareState offset value)
  | subtractState offset value => return a.writeAll (Sequence.subtractState offset value)
  | storeCondition c offset => return a.writeAll (Sequence.storeCondition c offset)
  | multiply signed lhs rhs hi lo => return a.writeAll (Sequence.multiply signed lhs rhs hi lo)
  | loadAddress dst base displacement =>
    return a.writeAll (Sequence.loadAddress dst base displacement)
  | loadHost kind dst addr => return a.writeAll (← Sequence.loadHost kind dst addr)
  | storeHost width addr src => return a.writeAll (← Sequence.storeHost width addr src)
  | call function args => return a.writeAll (← Sequence.call function args)
  | enter => return a.writeAll Sequence.enter
  | leave => return a.writeAll Sequence.leave
  | jump => return a.jump.2
  | jumpIf c => return (a.jumpIf c).2
  | jumpTo target => return a.jumpTo target
  | jumpIfTo c target => return a.jumpIfTo c target
  | align alignment => a.checkedAlign alignment

end Emission

/-! ## What is meant -/

/-- The state word `offset` bytes behind `r15`. -/
def HostOperand.stateWord (offset : UInt32) : HostOperand :=
  .memory ⟨.r15, none, offset⟩

/-- The right hand side of an operation on 32 bits. -/
def Source.operand : Source → HostOperand
  | register r => .register r
  | immediate value => .constant value.toUInt64

/-- A place in memory: behind `r14`, or behind a base of its own. -/
def FastAddress.operand : FastAddress → HostOperand
  | indexed index => .memory ⟨.r14, some index, 0⟩
  | fixed offset => .memory ⟨.r14, none, offset⟩
  | based base index => .memory ⟨base, some index, 0⟩

namespace MachineInstruction

/-- Copies 32 bits; nothing for a register and itself. -/
def copy (dst src : HostRegister) : List MachineInstruction :=
  if dst = src then [] else [⟨.move, .word, [.register dst, .register src]⟩]

/-- Moves an argument into its register. -/
def pass (dst : HostRegister) : Argument → List MachineInstruction
  | .context => [⟨.move, .wide, [.register dst, .register .r15]⟩]
  | .register src => copy dst src
  | .immediate value => [⟨.move, .word, [.register dst, .constant value.toUInt64]⟩]
  | .pointer value => [⟨.move, .wide, [.register dst, .constant value]⟩]

/-- The distance of a jump of `length` bytes that stands at `start`, in 32 bits. -/
def distance (start length target : Nat) : HostOperand :=
  .distance (((target : Int) - (start + length)).bmod 0x100000000)

end MachineInstruction

namespace Emission

open MachineInstruction

/-- The instructions that are meant, where they start at the offset `start`. -/
def listing (start : Nat) : Emission → List MachineInstruction
  | loadState dst offset => [⟨.move, .word, [.register dst, .stateWord offset]⟩]
  | storeState offset src => [⟨.move, .word, [.stateWord offset, .register src]⟩]
  | storeStateImmediate offset value =>
    [⟨.move, .word, [.stateWord offset, .constant value.toUInt64]⟩]
  | move dst src => copy dst src
  | moveImmediate dst value => [⟨.move, .word, [.register dst, .constant value.toUInt64]⟩]
  | movePointer dst value => [⟨.move, .wide, [.register dst, .constant value]⟩]
  | alu op dst lhs rhs =>
    (if rhs = .register dst ∧ lhs ≠ dst then
      if op.isCommutative then [⟨.group (.ofAlu op), .word, [.register dst, .register lhs]⟩]
      else [⟨.negate, .word, [.register dst]⟩,
        ⟨.group .add, .word, [.register dst, .register lhs]⟩]
    else copy dst lhs ++ [⟨.group (.ofAlu op), .word, [.register dst, rhs.operand]⟩]) ++
      if op = .nor then [⟨.complement, .word, [.register dst]⟩] else []
  | shift op dst src (.immediate amount) =>
    copy dst src ++
      if amount.toNat % 32 = 0 then []
      else [⟨.shift op, .word, [.register dst, .constant (amount.toNat % 32).toUInt64]⟩]
  | shift op dst src (.register amount) =>
    copy .rcx amount ++ copy dst src ++ [⟨.shift op, .word, [.register dst, .register .rcx]⟩]
  | setCondition c dst lhs rhs =>
    [⟨.group .compare, .word, [.register lhs, rhs.operand]⟩,
      ⟨.set c, .byte, [.register .rax]⟩,
      ⟨.moveZeroExtended .byte, .word, [.register dst, .register .rax]⟩]
  | compare lhs rhs => [⟨.group .compare, .word, [.register lhs, rhs.operand]⟩]
  | compareState offset value =>
    [⟨.group .compare, .word, [.stateWord offset, .constant value.toUInt64]⟩]
  | subtractState offset value =>
    [⟨.group .sub, .word, [.stateWord offset, .constant value.toUInt64]⟩]
  | storeCondition c offset =>
    [⟨.set c, .byte, [.register .rax]⟩,
      ⟨.moveZeroExtended .byte, .word, [.register .rax, .register .rax]⟩,
      ⟨.move, .word, [.stateWord offset, .register .rax]⟩]
  | multiply signed lhs rhs hi lo =>
    copy .rax lhs ++
      [⟨.multiply signed, .word, [.register rhs]⟩,
        ⟨.move, .word, [.stateWord lo, .register .rax]⟩,
        ⟨.move, .word, [.stateWord hi, .register .rdx]⟩]
  | loadAddress dst base displacement =>
    [⟨.loadAddress, .word, [.register dst, .memory ⟨base, none, displacement⟩]⟩]
  | loadHost kind dst addr =>
    [⟨HostInstruction.loadOperation kind, .word, [.register dst, addr.operand]⟩]
  | storeHost width addr src =>
    [⟨.move, width.operandSize, [addr.operand, .register src]⟩]
  | call function args =>
    ([HostRegister.rdi, .rsi, .rdx, .rcx].zip args).flatMap (fun (dst, arg) => pass dst arg) ++
      [⟨.move, .wide, [.register .rax, .constant function]⟩, ⟨.call, .wide, [.register .rax]⟩]
  | enter =>
    [.rbx, .rbp, .r12, .r13, .r14, .r15].map (fun r => ⟨.push, .wide, [.register r]⟩) ++
      [⟨.group .sub, .wide, [.register .rsp, .constant 8]⟩,
        ⟨.move, .wide, [.register .r15, .register .rdi]⟩,
        ⟨.move, .wide, [.register .r14, .register .rsi]⟩, ⟨.jump, .wide, [.register .rdx]⟩]
  | leave =>
    [⟨.group .add, .wide, [.register .rsp, .constant 8]⟩] ++
      [.r15, .r14, .r13, .r12, .rbp, .rbx].map (fun r => ⟨.pop, .wide, [.register r]⟩) ++
      [⟨.ret, .wide, []⟩]
  | jump => [⟨.jump, .wide, [.distance 0]⟩]
  | jumpIf c => [⟨.jumpIf c, .wide, [.distance 0]⟩]
  | jumpTo target => [⟨.jump, .wide, [distance start 5 target]⟩]
  | jumpIfTo c target => [⟨.jumpIf c, .wide, [distance start 6 target]⟩]
  | align alignment =>
    List.replicate ((alignment - start % alignment) % alignment) ⟨.trap, .word, []⟩

end Emission

/-! ## What is written -/

/-- The instructions can be encoded, and are the meant ones. -/
structure Denotes (is : List HostInstruction) (meant : List MachineInstruction) : Prop where
  valid : ∀ i ∈ is, i.Valid
  eq : is.map HostInstruction.asMachine = meant

namespace Denotes

variable {is is' : List HostInstruction} {meant meant' : List MachineInstruction}
  {dst lhs src : HostRegister} {rhs : Source}

theorem nil : Denotes [] [] :=
  ⟨nofun, rfl⟩

theorem one {i : HostInstruction} {j : MachineInstruction} (h : i.Valid) (h' : i.asMachine = j) :
    Denotes [i] [j] :=
  ⟨fun _ hi => by rwa [List.mem_singleton.1 hi], congrArg (fun j => [j]) h'⟩

theorem append (h : Denotes is meant) (h' : Denotes is' meant') :
    Denotes (is ++ is') (meant ++ meant') where
  valid i hi := (List.mem_append.1 hi).elim (h.valid i) (h'.valid i)
  eq := by rw [List.map_append, h.eq, h'.eq]

theorem cons {i : HostInstruction} {j : MachineInstruction} (h : i.Valid) (h' : i.asMachine = j)
    (hrest : Denotes is meant) : Denotes (i :: is) (j :: meant) :=
  (one h h').append hrest

theorem ite {c : Prop} [Decidable c] (h : c → Denotes is meant) (h' : ¬ c → Denotes is' meant') :
    Denotes (if c then is else is') (if c then meant else meant') := by
  by_cases hc : c
  · rw [if_pos hc, if_pos hc]
    exact h hc
  · rw [if_neg hc, if_neg hc]
    exact h' hc

theorem appendIf {c : Prop} [Decidable c] (h : Denotes is meant) (h' : Denotes is' meant') :
    Denotes (if c then is ++ is' else is) (meant ++ if c then meant' else []) := by
  by_cases hc : c
  · rw [if_pos hc, if_pos hc]
    exact h.append h'
  · rw [if_neg hc, if_neg hc, List.append_nil]
    exact h

theorem replicate (count : Nat) :
    Denotes (List.replicate count .trap) (List.replicate count ⟨.trap, .word, []⟩) where
  valid i hi := by
    rw [List.eq_of_mem_replicate hi]
    trivial
  eq := List.map_replicate

theorem move (hdst : dst.Valid) (hsrc : src.Valid) :
    Denotes (Sequence.move dst src) (MachineInstruction.copy dst src) :=
  ite (fun _ => nil) fun _ => one ⟨hdst, hsrc⟩ rfl

theorem group (op : GroupOp) (hdst : dst.Valid) (hrhs : rhs.Valid) :
    Denotes [Sequence.group op dst rhs] [⟨.group op, .word, [.register dst, rhs.operand]⟩] := by
  cases rhs with
  | register src => exact one ⟨hdst, hrhs⟩ rfl
  | immediate value => exact one hdst rfl

theorem storeState (offset : UInt32) (hsrc : src.Valid) :
    Denotes (Sequence.storeState offset src)
      [⟨.move, .word, [.stateWord offset, .register src]⟩] :=
  one ⟨Sequence.valid_stateAddress offset, hsrc⟩ rfl

theorem alu (op : AluOp) (hdst : dst.Valid) (hlhs : lhs.Valid) (hrhs : rhs.Valid) (start : Nat) :
    Denotes (Sequence.alu op dst lhs rhs) ((Emission.alu op dst lhs rhs).listing start) := by
  refine appendIf (ite (fun _ => ite (fun _ => ?_) fun _ => ?_) fun _ => ?_) (one hdst rfl)
  · exact one ⟨hdst, hlhs⟩ rfl
  · exact cons hdst rfl (one ⟨hdst, hlhs⟩ rfl)
  · exact (move hdst hlhs).append (group _ hdst hrhs)

/-- Only the low five bits of an amount are written. -/
theorem shift (op : ShiftOp) (hdst : dst.Valid) (hsrc : src.Valid) {amount : Source}
    (hamount : amount.Valid) (start : Nat) :
    Denotes (Sequence.shift op dst src amount)
      ((Emission.shift op dst src amount).listing start) := by
  cases amount with
  | register r =>
    exact ((move (by decide) hamount).append (move hdst hsrc)).append (one hdst rfl)
  | immediate amount =>
    refine (move hdst hsrc).append ?_
    have hmask : (amount &&& 31).toNat = amount.toNat % 32 := by
      rw [UInt32.toNat_and]
      exact Nat.and_two_pow_sub_one_eq_mod _ 5
    have hzero : amount &&& 31 = 0 ↔ amount.toNat % 32 = 0 := by
      rw [← hmask, ← UInt32.toNat_inj, UInt32.toNat_zero]
    have hbyte : (amount &&& 31).toUInt8.toUInt64 = (amount.toNat % 32).toUInt64 := by
      have hlt : amount.toNat % 32 < 32 := Nat.mod_lt _ (by decide)
      rw [← UInt64.toNat_inj, toNat_toUInt64 (Nat.lt_trans hlt (by decide)), UInt8.toNat_toUInt64,
        UInt32.toNat_toUInt8, hmask]
      omega
    simp only [hzero]
    exact ite (fun _ => nil) fun _ => one hdst (by rw [HostInstruction.asMachine, hbyte])

theorem pass (hdst : dst.Valid) {arg : Argument} (harg : arg.Valid) :
    Denotes (Sequence.passArgument dst arg) (MachineInstruction.pass dst arg) := by
  cases arg with
  | context => exact one ⟨hdst, by decide⟩ rfl
  | register src => exact move hdst harg
  | immediate value => exact one hdst rfl
  | pointer value => exact one hdst rfl

theorem flatMap {α : Type} {f : α → List HostInstruction} {g : α → List MachineInstruction}
    {xs : List α} (h : ∀ x ∈ xs, Denotes (f x) (g x)) : Denotes (xs.flatMap f) (xs.flatMap g) := by
  induction xs with
  | nil => exact nil
  | cons x xs ih =>
    obtain ⟨hx, hxs⟩ := List.forall_mem_cons.1 h
    exact hx.append (ih hxs)

theorem call {args : List Argument} (hargs : ∀ arg ∈ args, arg.Valid) (function : UInt64)
    (start : Nat) :
    Denotes ((HostRegister.arguments.zip args).flatMap
        (fun (dst, arg) => Sequence.passArgument dst arg) ++ Sequence.movePointer .rax function ++
          [.call .rax])
      ((Emission.call function args).listing start) := by
  have hrax : HostRegister.rax.Valid := by decide
  have hpassing : ∀ x ∈ HostRegister.arguments.zip args,
      Denotes (Sequence.passArgument x.1 x.2) (MachineInstruction.pass x.1 x.2) := by
    intro x hx
    obtain ⟨hdst, harg⟩ := List.of_mem_zip hx
    exact pass ((by decide : ∀ r ∈ HostRegister.arguments, r.Valid) _ hdst) (hargs _ harg)
  rw [List.append_assoc]
  exact (flatMap hpassing).append (cons hrax rfl (one hrax rfl))

end Denotes

/-- The distance of a jump. -/
theorem Word.toInt_jumpDistance_eq (target stop : Nat) :
    toInt (jumpDistance target stop) = ((target : Int) - stop).bmod 0x100000000 := by
  have htarget : target.toUInt64.toNat = target % 2 ^ 64 := rfl
  have hstop : stop.toUInt64.toNat = stop % 2 ^ 64 := rfl
  rw [toInt_eq, jumpDistance, UInt64.toNat_toUInt32, UInt64.toNat_sub, htarget, hstop, Int.bmod_def,
    Int.bmod_def]
  omega

theorem FastAddress.resolve_of_valid {addr : FastAddress} (h : addr.Valid) :
    ∃ a : HostAddress, addr.resolve = .ok a ∧ a.Valid ∧ addr.operand = .memory a := by
  cases addr with
  | indexed index =>
    exact ⟨_, rfl, ⟨show HostRegister.memoryBase.Valid by decide, by rintro r ⟨⟩; exact h⟩, rfl⟩
  | fixed offset =>
    exact ⟨_, if_pos h, ⟨show HostRegister.memoryBase.Valid by decide, nofun⟩, rfl⟩
  | based base index =>
    exact ⟨_, rfl, ⟨h.1, by rintro r ⟨⟩; exact h.2⟩, rfl⟩

namespace Emission

variable {e : Emission} {a : Arena}

/-- What is emitted is what the meant instructions are encoded to, as long as there is room. -/
theorem exists_denotes (h : e.Valid) (a : Arena) :
    ∃ is, Denotes is (e.listing a.size) ∧
      (a.overflowed = false → a.size + (is.flatMap HostInstruction.encode).length ≤ a.limit →
        e.emit a = .ok (a.append (is.flatMap HostInstruction.encode))) := by
  have hsequence {l : List HostInstruction} (hemit : e.emit a = .ok (a.writeAll l))
      (hl : Denotes l (e.listing a.size)) :
      ∃ is, Denotes is (e.listing a.size) ∧
        (a.overflowed = false → a.size + (is.flatMap HostInstruction.encode).length ≤ a.limit →
          e.emit a = .ok (a.append (is.flatMap HostInstruction.encode))) :=
    ⟨l, hl, fun hclean hroom => by rw [hemit, Arena.writeAll_of_fits hclean hroom]⟩
  have hrax : HostRegister.rax.Valid := by decide
  -- All but a jump with an open target and filler are written instruction by instruction.
  cases e with
  | loadState dst offset => exact hsequence rfl (.one ⟨h, Sequence.valid_stateAddress offset⟩ rfl)
  | storeState offset src => exact hsequence rfl (.storeState offset h)
  | storeStateImmediate offset value =>
    exact hsequence rfl (.one (Sequence.valid_stateAddress offset) rfl)
  | move dst src => exact hsequence rfl (.move h.1 h.2)
  | moveImmediate dst value => exact hsequence rfl (.one h rfl)
  | movePointer dst value => exact hsequence rfl (.one h rfl)
  | alu op dst lhs rhs => exact hsequence rfl (.alu op h.1 h.2.1 h.2.2 _)
  | shift op dst src amount => exact hsequence rfl (.shift op h.1 h.2.1 h.2.2 _)
  | setCondition c dst lhs rhs =>
    exact hsequence rfl ((Denotes.group .compare h.2.1 h.2.2).append
      (.cons trivial rfl (.one h.1 rfl)))
  | compare lhs rhs => exact hsequence rfl (.group .compare h.1 h.2)
  | compareState offset value =>
    exact hsequence rfl (.one (Sequence.valid_stateAddress offset) rfl)
  | subtractState offset value =>
    exact hsequence rfl (.one (Sequence.valid_stateAddress offset) rfl)
  | storeCondition c offset =>
    exact hsequence rfl (.cons trivial rfl (.cons hrax rfl (.storeState offset hrax)))
  | multiply signed lhs rhs hi lo =>
    refine hsequence rfl ?_
    rw [Sequence.multiply, List.append_assoc, List.append_assoc]
    exact (Denotes.move hrax h.1).append (.cons h.2 rfl
      ((Denotes.storeState lo hrax).append (.storeState hi (by decide))))
  | loadAddress dst base displacement => exact hsequence rfl (.one ⟨h.1, h.2, nofun⟩ rfl)
  | loadHost kind dst addr =>
    obtain ⟨host, hresolve, hhost, hoperand⟩ := FastAddress.resolve_of_valid h.2
    refine hsequence (l := [.load kind dst host]) ?_ ?_
    · rw [emit, Sequence.loadHost, hresolve]
      rfl
    · rw [listing, hoperand]
      exact .one ⟨h.1, hhost⟩ rfl
  | storeHost width addr src =>
    obtain ⟨host, hresolve, hhost, hoperand⟩ := FastAddress.resolve_of_valid h.2
    refine hsequence (l := [.store width host src]) ?_ ?_
    · rw [emit, Sequence.storeHost, hresolve]
      rfl
    · rw [listing, hoperand]
      exact .one ⟨hhost, h.1⟩ rfl
  | call function args =>
    refine hsequence ?_ (.call h.2 function _)
    have hfew : ¬ HostRegister.arguments.length < args.length := Nat.not_lt.2 h.1
    rw [emit, Sequence.call, if_neg hfew]
    rfl
  | enter => exact hsequence rfl ⟨by decide, rfl⟩
  | leave => exact hsequence rfl ⟨by decide, rfl⟩
  | jump =>
    exact ⟨[.jump 0], .one trivial rfl, fun hclean hroom =>
      congrArg Except.ok (Arena.emit_of_fits hclean hroom)⟩
  | jumpIf c =>
    exact ⟨[.jumpIf c 0], .one trivial rfl, fun hclean hroom =>
      congrArg Except.ok (Arena.emit_of_fits hclean hroom)⟩
  | jumpTo target =>
    refine hsequence (l := [.jump (jumpDistance target (a.size + 5))]) rfl (.one trivial ?_)
    rw [HostInstruction.asMachine, Word.toInt_jumpDistance_eq]
    rfl
  | jumpIfTo c target =>
    refine hsequence (l := [.jumpIf c (jumpDistance target (a.size + 6))]) rfl (.one trivial ?_)
    rw [HostInstruction.asMachine, Word.toInt_jumpDistance_eq]
    rfl
  | align alignment =>
    refine ⟨_, .replicate _, fun hclean hroom => ?_⟩
    have halignment : alignment ≠ 0 := h
    rw [emit, Arena.checkedAlign, if_neg halignment, Arena.align, Arena.fill_of_fits hclean hroom]

/-- Where there is room, what is emitted are bytes that are read in one way only: as the meant
instructions, each with its registers, operand size, address and constant, and none left over. -/
theorem exists_reads_emit (h : e.Valid) (a : Arena) :
    ∃ code, (∀ is, MachineInstruction.Reads code is ↔ is = e.listing a.size) ∧
      (a.overflowed = false → a.size + code.length ≤ a.limit →
        e.emit a = .ok (a.append code)) := by
  obtain ⟨is, his, hemit⟩ := exists_denotes h a
  have hreads : MachineInstruction.Reads (is.flatMap HostInstruction.encode) (e.listing a.size) :=
    his.eq ▸ MachineInstruction.reads_encode his.valid
  refine ⟨is.flatMap HostInstruction.encode, fun read => ⟨fun hread => ?_, fun heq => ?_⟩, hemit⟩
  · exact hread.unique hreads
  · exact heq ▸ hreads

/-- A byte is stored from a register whose low byte can be named only with a selection byte. -/
theorem exists_reads_emit_storeHost :
    (storeHost .byte (.based .rdx .r13) .rsi).Valid ∧
      ∃ code, (∀ is, MachineInstruction.Reads code is ↔
          is = [⟨.move, .byte, [.memory ⟨.rdx, some .r13, 0⟩, .register .rsi]⟩]) ∧
        (0 + code.length ≤ 16 →
          emit (.blank 16) (.storeHost .byte (.based .rdx .r13) .rsi) =
            .ok ((Arena.blank 16).append code)) := by
  have hvalid : (storeHost .byte (.based .rdx .r13) .rsi).Valid :=
    ⟨by decide, by decide, by decide, by decide⟩
  obtain ⟨code, hreads, hemit⟩ := exists_reads_emit hvalid (.blank 16)
  exact ⟨hvalid, code, hreads, hemit rfl⟩

end Emission

end Recompiler
