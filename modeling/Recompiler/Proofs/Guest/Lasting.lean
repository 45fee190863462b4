import Recompiler.Proofs.Block.Transferring
import Recompiler.Proofs.Guest.Plain

/-!
# Instructions that last

Generated code runs the instructions that were there when a block was compiled. That is what a machine
does which fetches every instruction from memory as it is, as long as the words of the instructions stay
what they are.

* `Guest.Clock`: how far a machine has come that goes on where instructions were refused.
* `Guest.Reaches`: the guests that the machine comes by.
* `Guest.Fetched`, `Guest.Steady`: the words that a step fetches, and that they stay what they are.
* `Guest.Run.of_seen`, `Guest.Refuses.of_seen`: the machine may fetch from memory as it was.
-/

namespace Recompiler

variable {β : Type} [Bus β]

/-! ## Reading -/

namespace Bus

variable {bus bus' : β}

/-- Reading leads nowhere else, if it is harmless. -/
theorem Harmless.eq_of_readsTo (h : Harmless β) (hreads : ReadsTo bus bus') : bus' = bus := by
  induction hreads with
  | refl => rfl
  | read _ width addr ih => exact (h width addr _).trans ih

/-- Harmless reading finds one instruction at an address. -/
theorem Harmless.eq_of_finds (h : Harmless β) {pc : UInt32} {i j : Instruction} (hi : Finds bus pc i)
    (hj : Finds bus pc j) : i = j := by
  obtain ⟨b, hb, hi⟩ := hi
  obtain ⟨c, hc, hj⟩ := hj
  rw [h.eq_of_readsTo hb] at hi
  rw [h.eq_of_readsTo hc] at hj
  exact Except.ok.inj (hi.symm.trans hj)

/-- The same word is the same instruction. -/
theorem Harmless.finds_of_read_eq (h : Harmless β) {pc : UInt32} {i : Instruction}
    (hread : (read .word pc bus').1 = (read .word pc bus).1) (hi : Finds bus' pc i) :
    Finds bus pc i := by
  obtain ⟨b, hreads, hi⟩ := hi
  rw [h.eq_of_readsTo hreads] at hi
  refine ⟨bus, .refl, ?_⟩
  rw [← hi]
  unfold instructionAt
  rcases hb : read .word pc bus with ⟨r, c⟩
  rcases hb' : read .word pc bus' with ⟨r', c'⟩
  rw [hb, hb'] at hread
  obtain rfl : r' = r := hread
  cases r' with
  | error => rfl
  | ok word =>
    dsimp only
    cases Instruction.decode? word <;> rfl

end Bus

namespace Guest

/-! ## Time -/

/-- How often an instruction was refused, and the cycles since. -/
structure Clock where
  faults : Nat
  cycles : Nat

namespace Clock

instance : LE Clock where
  le t t' := t.faults < t'.faults ∨ t.faults = t'.faults ∧ t.cycles ≤ t'.cycles

instance : LT Clock where
  lt t t' := t.faults < t'.faults ∨ t.faults = t'.faults ∧ t.cycles < t'.cycles

variable {t t' t'' : Clock}

theorem le_def : t ≤ t' ↔ t.faults < t'.faults ∨ t.faults = t'.faults ∧ t.cycles ≤ t'.cycles :=
  .rfl

theorem lt_def : t < t' ↔ t.faults < t'.faults ∨ t.faults = t'.faults ∧ t.cycles < t'.cycles :=
  .rfl

theorem le_refl (t : Clock) : t ≤ t :=
  .inr ⟨rfl, Nat.le_refl _⟩

theorem le_trans (h : t ≤ t') (h' : t' ≤ t'') : t ≤ t'' := by
  rw [le_def] at h h' ⊢
  omega

end Clock

/-! ## The machine -/

/-- The machine fetches every instruction from memory as it is, and interprets it. It comes by the
guest `e'`, if it goes on wherever it is left with an instruction that is refused. -/
inductive Reaches (e : Environment β) : Clock → Environment β → Prop
  | run {cs : List (Call β)} {c : Nat} {e' : Environment β}
      (h : Run Bus.Finds interprets e cs c e') : Reaches e ⟨0, c⟩ e'
  | refused {cs : List (Call β)} {t : Clock} {c : Nat} {g g' e' : Environment β} (h : Reaches e t g)
      (hrefuses : Refuses Bus.Finds g g') (hrest : Run Bus.Finds interprets g' cs c e') :
    Reaches e ⟨t.faults + 1, c⟩ e'

namespace Reaches

variable {e g g' : Environment β} {cs : List (Call β)} {k c c' : Nat} {t : Clock}

theorem refl (e : Environment β) : Reaches e ⟨0, 0⟩ e :=
  .run (.refl (.refl e))

theorem trans (h : Reaches e ⟨k, c⟩ g) (hrun : Run Bus.Finds interprets g cs c' g') :
    Reaches e ⟨k, c + c'⟩ g' := by
  cases h with
  | run h => exact .run (h.trans hrun)
  | refused h hrefuses hrest => exact .refused h hrefuses (hrest.trans hrun)

theorem of_agrees (h : Reaches e t g) (hagrees : g.Agrees g') : Reaches e t g' := by
  have hrun : Run Bus.Finds interprets g [] 0 g' := .refl hagrees
  exact h.trans hrun

/-- The machine that was refused an instruction. -/
theorem refuse (h : Reaches e t g) (hrefuses : Refuses Bus.Finds g g') :
    Reaches e ⟨t.faults + 1, 0⟩ g' :=
  .refused h hrefuses (.refl (.refl g'))

/-- The machine does nothing to the bus but operations. -/
theorem evolves (h : Reaches e t g) : Bus.Evolves e.bus g.bus := by
  have hact (i : Instruction) (pc : UInt32) (e e' : Environment β) (h : interprets i pc e e') :
      Bus.Evolves e.bus e'.bus := evolves_of_interprets h
  induction h with
  | run h => exact h.evolves hact
  | refused h hrefuses hrest ih => exact ih.trans (hrefuses.bus ▸ hrest.evolves hact)

end Reaches

/-! ## Instructions that stay -/

/-- The words that are fetched for the next step: that of the instruction, and that of its delay slot
if it has one which is to run. -/
inductive Fetched (e : Environment β) : UInt32 → Prop
  | here : Fetched e e.state.pc
  | slot {i : Instruction} (hi : Bus.Finds e.bus e.state.pc i)
      (hdelays : i.mnemonic.hasDelaySlot = true) (hannuls : i.annuls e = false) :
    Fetched e (e.state.pc + 4)

/-- Up to the limit the words that the machine fetches are the same at all times. -/
def Steady (e : Environment β) (limit : Clock) : Prop :=
  ∀ ⦃t g⦄, Reaches e t g → t < limit → ∀ ⦃t' g'⦄, Reaches e t' g' → t' ≤ limit →
    ∀ addr, Fetched g addr → (Bus.read .word addr g'.bus).1 = (Bus.read .word addr g.bus).1

/-- Guest memory as the machine comes by it up to the limit. -/
def Seen (e : Environment β) (limit : Clock) (bus : β) : Prop :=
  ∃ t g, Reaches e t g ∧ t ≤ limit ∧ g.bus = bus

section Seen

variable {e g g' : Environment β} {limit : Clock} {fetch : β → UInt32 → Instruction → Prop}
  {cs : List (Call β)} {k c c' : Nat}

/-- A word that the machine fetches was the same before, and will be. -/
theorem Steady.finds (hharmless : Bus.Harmless β) (h : Steady e limit) {t : Clock}
    (hg : Reaches e t g) (ht : t < limit) {bus : β} (hbus : Seen e limit bus) {addr : UInt32}
    (haddr : Fetched g addr) {i : Instruction} (hi : Bus.Finds bus addr i) :
    Bus.Finds g.bus addr i := by
  obtain ⟨t', g', hg', ht', rfl⟩ := hbus
  exact hharmless.finds_of_read_eq (h hg ht hg' ht' addr haddr) hi

variable (hharmless : Bus.Harmless β) (hsteady : Steady e limit)
  (hseen : ∀ b pc i, fetch b pc i → ∃ bus, Seen e limit bus ∧ Bus.Finds bus pc i)

include hharmless hsteady hseen

/-- The instructions of the next step are in memory as it is. -/
theorem finds_of_seen {t : Clock} (hg : Reaches e t g) (ht : t < limit) :
    (∀ i, fetch g.bus g.state.pc i → Bus.Finds g.bus g.state.pc i) ∧
      ∀ i j, fetch g.bus g.state.pc i → i.mnemonic.hasDelaySlot = true → i.annuls g = false →
        fetch g.bus (g.state.pc + 4) j → Bus.Finds g.bus (g.state.pc + 4) j := by
  have hhere (i : Instruction) (hi : fetch g.bus g.state.pc i) :
      Bus.Finds g.bus g.state.pc i := by
    obtain ⟨bus, hbus, hi⟩ := hseen _ _ _ hi
    exact hsteady.finds hharmless hg ht hbus .here hi
  refine ⟨hhere, fun i j hi hdelays hannuls hj => ?_⟩
  obtain ⟨bus, hbus, hj⟩ := hseen _ _ _ hj
  exact hsteady.finds hharmless hg ht hbus (.slot (hhere i hi) hdelays hannuls) hj

theorem Refuses.of_seen {t : Clock} (hg : Reaches e t g) (ht : t < limit)
    (h : Refuses fetch g g') : Refuses Bus.Finds g g' :=
  h.refetch (finds_of_seen hharmless hsteady hseen hg ht).1
    (finds_of_seen hharmless hsteady hseen hg ht).2

/-- A run up to the limit, whose instructions were in memory at some time, is a run of the machine. -/
theorem Run.of_seen (hg : Reaches e ⟨k, c⟩ g) (hrun : Run fetch Guest.interprets g cs c' g')
    (hlimit : ⟨k, c + c'⟩ ≤ limit) : Run Bus.Finds Guest.interprets g cs c' g' := by
  induction hrun generalizing c with
  | refl h => exact .refl h
  | @step g g₁ g₂ g' cs cs' c₁ c₂ h hstep _ ih =>
    have hg₁ := hg.of_agrees h
    have hpos := hstep.pos
    have hbefore : (⟨k, c⟩ : Clock) < limit := by
      rw [Clock.le_def] at hlimit
      rw [Clock.lt_def]
      dsimp only at hlimit ⊢
      omega
    obtain ⟨hhere, hslot⟩ := finds_of_seen hharmless hsteady hseen hg₁ hbefore
    have hstep' := hstep.refetch hhere hslot
    refine .step h hstep' (ih (hg₁.trans (.one (.refl g₁) hstep')) ?_)
    rwa [Nat.add_assoc]

end Seen

end Guest

end Recompiler
