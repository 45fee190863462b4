import Recompiler.Proofs.Block.Mapping
import Recompiler.Proofs.Block.Steps
import Recompiler.Proofs.Code.Flow

/-!
# Lowering steps and the machine

A lowering step adds symbolic code. Here the code is run: it takes the machine from one state to
another, from its first instruction to behind its last.

* `Lower.exec_allocating`: an operation on the register cache as a lowering step.
* `Lowering.Carries`: the code that was added takes the machine along.
-/

namespace Recompiler

variable {α β γ : Type}

namespace Lower

theorem exec_allocating (x : Allocate α) (s : Surroundings) (t : Lowering γ) :
    exec (allocating x) s t = ((x.exec ⟨t.registers, [], []⟩).1,
      { t with
        registers := (x.exec ⟨t.registers, [], []⟩).2.cache
        code := t.code ++ (x.exec ⟨t.registers, [], []⟩).2.code.map Item.instruction
        events := t.events ++ (x.exec ⟨t.registers, [], []⟩).2.events }) := by
  unfold allocating
  rw [exec_get_bind]
  unfold Allocate.exec
  generalize x.run.run ⟨t.registers, [], []⟩ = ran
  obtain ⟨f | value, a⟩ := ran <;> rfl

theorem exec_emitChecked {is : List HostInstruction} {x : Except Breach (List HostInstruction)}
    (h : x = .ok is) (s : Surroundings) (t : Lowering γ) :
    exec (emitChecked x) s t =
      (.ok (), { t with code := t.code ++ is.map Item.instruction }) := by
  rw [h]
  rfl

end Lower

/-- The code that was added between two points of a lowering takes the machine along. -/
def Lowering.Carries [Bus β] (t : Lowering γ) (m : HostMachine β) (u : Lowering γ)
    (n : HostMachine β) : Prop :=
  ∃ items : List Item, u.code = t.code ++ items ∧ Closed items ∧ Passes none items m none n

namespace Lowering.Carries

variable [Bus β] {t u v : Lowering γ} {m n p : HostMachine β}

theorem of_code_eq (h : u.code = t.code) (m : HostMachine β) : t.Carries m u m :=
  ⟨[], by rw [h, Array.appendList_nil], trivial, .nil none m⟩

theorem trans (h : t.Carries m u n) (h' : u.Carries n v p) : t.Carries m v p := by
  obtain ⟨items, hcode, hclosed, hpasses⟩ := h
  obtain ⟨more, hcode', hclosed', hpasses'⟩ := h'
  exact ⟨items ++ more, by rw [hcode', hcode, appendList_append], hclosed.append hclosed',
    hpasses.append hpasses'⟩

theorem instructions {is : List HostInstruction}
    (hcode : u.code = t.code ++ is.map Item.instruction) (h : HostMachine.Runs is m n) :
    t.Carries m u n :=
  ⟨_, hcode, .instructions is, .instructions h⟩

/-- The code of an operation on the register cache. -/
theorem moves {lost : List GuestIndex} {c : RegisterCache} {a : Allocation}
    (h : Allocation.Moves lost ⟨c, [], []⟩ m a n)
    (hcode : u.code = t.code ++ a.code.map Item.instruction) : t.Carries m u n := by
  obtain ⟨is, hcode', hruns⟩ := h.code
  rw [hcode'] at hcode
  exact instructions hcode hruns

end Lowering.Carries

/-- The code that was added takes the machine along, the register cache stays consistent with it,
and guest registers keep their values, apart from those on the list. -/
structure Lowering.Moves [Bus β] (lost : List GuestIndex) (t : Lowering γ) (m : HostMachine β)
    (u : Lowering γ) (n : HostMachine β) : Prop where
  carries : t.Carries m u n
  consistent : u.registers.Consistent n
  value : ∀ reg, reg ∉ lost → u.registers.value n reg = t.registers.value m reg
  transfers : m.Transfers lost n

namespace Lowering.Moves

variable [Bus β] {lost lost' : List GuestIndex} {t u v : Lowering γ} {m n p : HostMachine β}

theorem trans (h : t.Moves lost m u n) (h' : u.Moves lost' n v p) :
    t.Moves (lost ++ lost') m v p := by
  refine ⟨h.carries.trans h'.carries, h'.consistent, fun reg hreg => ?_,
    h.transfers.trans h'.transfers⟩
  simp only [List.mem_append, not_or] at hreg
  exact (h'.value reg hreg.2).trans (h.value reg hreg.1)

theorem mono (h : t.Moves lost m u n) (hsub : lost ⊆ lost') : t.Moves lost' m u n :=
  ⟨h.carries, h.consistent, fun reg hreg => h.value reg fun hmem => hreg (hsub hmem),
    h.transfers.mono hsub⟩

theorem of_allocation {a : Allocation} (h : Allocation.Moves lost ⟨t.registers, [], []⟩ m a n)
    (hcode : u.code = t.code ++ a.code.map Item.instruction) (hregisters : u.registers = a.cache) :
    t.Moves lost m u n :=
  ⟨.moves h hcode, hregisters ▸ h.consistent, fun reg hreg => hregisters ▸ h.value reg hreg,
    h.transfers⟩

/-- Locks do not move anything. -/
theorem locks (h : t.registers.Consistent m) (hcode : u.code = t.code)
    (hregisters : ∃ locked, u.registers = { t.registers with locked := locked }) :
    t.Moves [] m u m := by
  obtain ⟨locked, hlocked⟩ := hregisters
  refine ⟨.of_code_eq hcode m, ?_, fun reg _ => by rw [hlocked]; rfl, .refl m⟩
  rw [hlocked]
  exact ⟨⟨h.hosts, h.resident⟩, h.clean, h.zeroWord, h.zero, h.context⟩

end Lowering.Moves

namespace Lower

open RegisterCache

variable [Bus β] {t : Lowering γ} {m : HostMachine β}

/-- Mapping a guest register while three registers at most are locked. -/
theorem moves_map (h : t.registers.Consistent m) {kept : List GuestIndex} (hkept : kept.length ≤ 3)
    (hlocked : ∀ r : GuestIndex, t.registers.locked.get r = true → r ∈ kept) (s : Surroundings)
    (reg : GuestIndex) (access : Access) :
    ∃ host u n, exec (map reg access) s t = (.ok host, u) ∧ t.Moves (access.lost reg) m u n ∧
      t.registers.Spares u.registers ∧
      u.registers.Mapped n reg access (t.registers.value m reg) host := by
  obtain ⟨n, hmoves, hspares, hmapped⟩ := maps (a := ⟨t.registers, [], []⟩) h reg access
  obtain ⟨host, hok⟩ := map_ok (a := ⟨t.registers, [], []⟩) h.toPaired hkept hlocked reg access
  refine ⟨host, _, n, (exec_allocating _ s t).trans (Prod.ext hok rfl), .of_allocation hmoves rfl rfl,
    hspares, hmapped host hok⟩

end Lower

end Recompiler
