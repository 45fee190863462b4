import Recompiler.Proofs.Block.Straight
import Recompiler.Proofs.Block.Success

/-!
# Arithmetic agrees with the interpreter

The code for arithmetic, on its own: from any machine that agrees with the register cache, it leads
to one that shows the guest that the interpreter leaves, whatever the cache says of the operands.

* `Lower.arithmetic_agrees`: the code for an instruction that is lowered to code of its own.
-/

namespace Recompiler

open HostMachine

theorem Mnemonic.isInterpreted_of_isNative {m : Mnemonic} (h : m.isNative = true) :
    m.isInterpreted = true ∧ m.endsBlock = false := by
  cases m <;> first | exact ⟨rfl, rfl⟩ | cases h

namespace Lower

variable {β : Type} [Bus β] {s : Surroundings} {t : Lowering β} {m : HostMachine β}

/-- The code for arithmetic with an immediate or with registers, for shifts, products and moves of HI
and LO: with no locks held, wherever the operands live and whatever is known of them, it runs to its
end, and then the cache shows the guest that interpreting the word leaves, its registers, HI, LO and
all the rest. -/
theorem arithmetic_agrees (h : t.registers.Consistent m)
    (hunlocked : ∀ r : GuestIndex, t.registers.locked.get r = false) {word : UInt32} {i : Instruction}
    (hdecode : Instruction.decode? word = some i) (hnative : i.mnemonic.isNative = true) :
    Instruction.interpreted? word = some i ∧
      ∃ (u : Lowering β) (n : HostMachine β) (is : List HostInstruction),
        exec (straight i) s t = (.ok (), u) ∧ u.code = t.code ++ is.map Item.instruction ∧
        (∀ (code : Arena) (ip : Nat),
          HasBytes code.written ip (is.flatMap HostInstruction.encode) →
            Steps code is.length (m.goto ip)
              (n.goto (ip + (is.flatMap HostInstruction.encode).length))) ∧
        u.registers.Consistent n ∧
        u.registers.shown n = i.interpret (t.registers.shown m) := by
  have htable := Instruction.mem_table_of_decode? hdecode
  obtain ⟨hinterpreted, hends⟩ := Mnemonic.isInterpreted_of_isNative hnative
  refine ⟨?_, ?_⟩
  · rw [Instruction.interpreted?, hdecode]
    exact if_pos hinterpreted
  · have hlocks : t.registers.Locks [] :=
      ⟨h.sound, fun reg hreg => absurd hreg (by rw [hunlocked]; decide)⟩
    obtain ⟨⟨⟩, u, hexec, -⟩ := Succeeds.straight htable hends s t hlocks
    obtain ⟨-, hquiet, hacts⟩ := straight_of_isNative (β := β) htable hnative
    obtain ⟨n, hcarries, hshows⟩ := hacts s (t.footing m) _ hexec ⟨h.shows, rfl⟩
    obtain ⟨is, hcode, -, hruns⟩ := (hquiet h.toPaired.placed hexec).2.runs hcarries
    exact ⟨u, n, is, hexec, hcode, fun code ip hbytes => hruns.steps hbytes, hshows.consistent,
      hshows.registers.shown_eq⟩

/-- `subu t2, t1, t0` with a known `t1`, while `t0` is still in the guest state. -/
theorem arithmetic_agrees_of_subtraction :
    ∃ (t u : Lowering FlatMemory) (m n : HostMachine FlatMemory) (i : Instruction),
      Instruction.decode? 0x01285023 = some i ∧ t.registers.Consistent m ∧
      t.registers.location 9 = .immediate 5 ∧ m.env.state.get 8 = 3 ∧
      exec (straight i) ⟨.standard, [], ⟨0, 0, 0, 0, 0, 0⟩, fun _ => none⟩ t = (.ok (), u) ∧
      (u.registers.shown n).state.get 10 = 2 := by
  let registers : RegisterCache := RegisterCache.fresh.setImmediate 9 5
  let t : Lowering FlatMemory :=
    { Lowering.initial (FlatMemory.zeros 0 0 0) 0 with registers := registers }
  let m : HostMachine FlatMemory :=
    (HostMachine.start ((Environment.initial (FlatMemory.zeros 0 0 0)).setWord 8 3) 0 0 0).set
      .context Linkage.contextBase
  have hfresh : RegisterCache.fresh.start.Consistent m := .start rfl (by decide) (by decide)
  have hconsistent : t.registers.Consistent m :=
    (hfresh.setImmediate (by decide : (9 : GuestIndex) ≠ zeroRegister) 5).1
  let i : Instruction := (Instruction.decode? 0x01285023).get (by decide)
  have hdecode : Instruction.decode? 0x01285023 = some i := (Option.some_get _).symm
  obtain ⟨-, u, n, -, hexec, -, -, -, hshown⟩ :=
    arithmetic_agrees (s := ⟨.standard, [], ⟨0, 0, 0, 0, 0, 0⟩, fun _ => none⟩) hconsistent
      (by decide) hdecode (by decide)
  refine ⟨t, u, m, n, i, hdecode, hconsistent, by decide, by decide, hexec, ?_⟩
  have hrs : (registers.shown m).register 9 = 5 :=
    (RegisterCache.get_shown registers m 9).trans (by decide)
  have hrt : (registers.shown m).register 8 = 3 :=
    (RegisterCache.get_shown registers m 8).trans (by decide)
  have hop : BinaryOp.ofRegister? i.mnemonic = some (.alu .sub) := by decide
  have hdestination : i.registerOf .destination = 10 := by decide
  have hsource : i.registerOf .source = 9 := by decide
  have htarget : i.registerOf .target = 8 := by decide
  rw [hshown, Instruction.interpret_register hop, Instruction.withRegisters, hdestination, hsource,
    htarget, hrs, hrt]
  exact State.get_set_self _ (by decide) _

end Lower

end Recompiler
