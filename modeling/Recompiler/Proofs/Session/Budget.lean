import Recompiler.Proofs.Memory.Rom
import Recompiler.Proofs.Session.Entering

/-!
# Runs end

A block is entered only while there is some budget left, and takes at least one cycle off it. So a
run ends, and overspends by one block at most.

* `Session.entries`: the blocks that a run enters.
* `Session.Ends`: a run that ends.
* `Session.Runnable.exists_ends`: every run ends, by induction on the budget.
* `Session.Reachable.run_ends_within_budget`: what that means for a host.
-/

namespace Recompiler

/-! ## What a round costs -/

/-- The most that a block can cost, where its delay slot is one instruction more. -/
def Options.maxCost (o : Options) : Nat :=
  36 * (o.maxBlockInstructions + 1)

variable {β : Type} [Bus β]

namespace Session

variable {s : Session β} {known : UInt32 → β → Prop}

/-- What the blocks of a round cost: at least one cycle each, and not more than the budget but for the
last. A block that comes to a refused instruction costs nothing. -/
theorem Round.budget {s' : Session β} {n : Nat} {b : Block} {legs : List (BlockTable.Leg β)}
    {d : Departure β} (h : s.Round known n b s' legs d)
    (hbound : 36 * (s.options.maxBlockInstructions + 1) < 2 ^ 31)
    (hdowncount : Bus.Respects β Slot.downcount) (hbudget : 0 ≤ s.env.state.downcount) :
    (∀ l ∈ legs, 0 ≤ l.env.state.downcount) ∧ legs.length ≤ s.env.state.downcount + 1 ∧
      (d.reason ≠ .hardFault → legs.length + d.env.state.downcount ≤ s.env.state.downcount ∧
        -(s.options.maxCost : Int) ≤ d.env.state.downcount) := by
  have hrunnable := h.runnable
  have hbound' : 36 * (s'.options.maxBlockInstructions + 1) < 2 ^ 31 := h.settings.1 ▸ hbound
  have hstate := h.reads.state
  obtain ⟨hentered, b', e', -, hlast, hleft, hlength⟩ := h.voyage.exists_last hrunnable.accepted
    hbound' hrunnable.coherent (hstate ▸ hbudget)
  rw [hstate] at hlength
  refine ⟨hentered, by omega, fun hreason => ?_⟩
  rcases hlast.downcount hrunnable.accepted hbound' (fun _ => hdowncount) hleft with
    ⟨hway, -⟩ | ⟨hless, hlow, -⟩
  · exact absurd (Departure.reason_eq_hardFault.2 hway) hreason
  · rw [h.settings.1] at hlow
    exact ⟨by omega, hlow⟩

/-! ## Runs -/

/-- The blocks that a run of at most `rounds` rounds enters, each with the guest it finds. -/
def entries : (rounds : Nat) → Session β → List (Block × Environment β)
  | 0, _ => []
  | rounds + 1, s =>
    if s.env.state.coreState ≠ .running ∨ s.env.state.downcount < 0 then []
    else
      match s.compile s.env.state.pc with
      | (.error _, _) => []
      | (.ok n, s) =>
        let entry := ((s.table.block? n).map (·.checkedEntry)).getD 0
        s.entered entry ++
          match s.enter entry with
          | none => []
          | some (.hardFault, _) => []
          | some (_, s) => entries rounds s

theorem Round.entries_eq {s' : Session β} {n : Nat} {b : Block} {legs : List (BlockTable.Leg β)}
    {d : Departure β} (h : s.Round known n b s' legs d)
    (hrunning : s.env.state.coreState = .running) (hbudget : 0 ≤ s.env.state.downcount)
    (rounds : Nat) :
    s.entries (rounds + 1) =
      legs.map (fun l => (l.block, l.env)) ++
        if d.reason = .hardFault then [] else entries rounds { s' with env := d.env } := by
  rw [entries, if_neg (by simp [hrunning, hbudget]), h.compiled]
  dsimp only
  rw [h.block, Option.map_some, Option.getD_some, h.entered, h.enter]
  generalize d.reason = reason
  cases reason <;> rfl

/-- Runs of more than `n` rounds come to one answer, and enter the blocks `es`. -/
structure Ends (s : Session β) (n : Nat) (es : List (Block × Environment β))
    (result : Except SessionError RunExit) (s' : Session β) : Prop where
  loop : ∀ rounds, n < rounds → s.loop rounds = some (result, s')
  entries : ∀ rounds, n < rounds → s.entries rounds = es

namespace Ends

variable {n : Nat} {es : List (Block × Environment β)} {result : Except SessionError RunExit}
  {s' : Session β}

/-- A run that comes to an answer in its first round. -/
theorem of_loop (hloop : ∀ rounds, s.loop (rounds + 1) = some (result, s'))
    (hentries : ∀ rounds, s.entries (rounds + 1) = es) (n : Nat) : s.Ends n es result s' := by
  refine ⟨fun rounds h => ?_, fun rounds h => ?_⟩ <;>
    obtain ⟨rounds, rfl⟩ : ∃ j, rounds = j + 1 := ⟨rounds - 1, by omega⟩
  · exact hloop rounds
  · exact hentries rounds

/-- A run that enters blocks once more than another. -/
theorem of_round {s₁ : Session β} {fs : List (Block × Environment β)}
    (h : s₁.Ends n es result s') (hloop : ∀ rounds, s.loop (rounds + 1) = s₁.loop rounds)
    (hentries : ∀ rounds, s.entries (rounds + 1) = fs ++ s₁.entries rounds) :
    s.Ends (n + 1) (fs ++ es) result s' := by
  refine ⟨fun rounds hrounds => ?_, fun rounds hrounds => ?_⟩ <;>
    obtain ⟨rounds, rfl⟩ : ∃ j, rounds = j + 1 := ⟨rounds - 1, by omega⟩
  · rw [hloop, h.loop rounds (by omega)]
  · rw [hentries, h.entries rounds (by omega)]

end Ends

/-- A run that enters no block, for the guest is not to run or the budget is spent. -/
theorem exists_ends_of_stopped (s : Session β) (n : Nat)
    (h : s.env.state.coreState ≠ .running ∨ s.env.state.downcount < 0) :
    ∃ result s', s.Ends n [] result s' ∧ (result = .ok .downcountExpired →
      s' = s ∧ s.env.state.downcount < 0) := by
  have hentries (rounds : Nat) : s.entries (rounds + 1) = [] := by
    rw [entries, if_pos h]
  by_cases hrunning : s.env.state.coreState = .running
  · have hspent := h.resolve_left (not_not_intro hrunning)
    exact ⟨_, s, .of_loop (loop_of_spent hrunning hspent) hentries n, fun _ => ⟨rfl, hspent⟩⟩
  · exact ⟨_, _, .of_loop (loop_of_halted hrunning) hentries n, fun hexpired => by cases hexpired⟩

/-- A run whose first block does not compile. -/
theorem ends_of_error {e : SessionError} (hrunning : s.env.state.coreState = .running)
    (hbudget : 0 ≤ s.env.state.downcount) (h : (s.compile s.env.state.pc).1 = .error e) (n : Nat) :
    s.Ends n [] (.error e) (s.compile s.env.state.pc).2 := by
  have hpair : s.compile s.env.state.pc = (.error e, (s.compile s.env.state.pc).2) := Prod.ext h rfl
  refine .of_loop (fun rounds => ?_) (fun rounds => ?_) n
  · rw [loop]
    dsimp only
    rw [if_neg (not_not_intro hrunning), if_neg (Int.not_lt.2 hbudget), hpair]
  · rw [entries, if_neg (by simp [hrunning, hbudget]), hpair]

/-- A run ends before the budget is overspent by more than one block. -/
theorem Runnable.exists_ends (h : s.Runnable fun _ _ => True)
    (hbound : 36 * (s.options.maxBlockInstructions + 1) < 2 ^ 31)
    (hregister : Bus.Maintains β 0 (· = 0)) (hdowncount : Bus.Respects β Slot.downcount)
    (hlow : -(s.options.maxCost : Int) ≤ s.env.state.downcount) {budget : Nat}
    (hbudget : s.env.state.downcount < budget) :
    ∃ es result s', s.Ends budget es result s' ∧ es.length ≤ (s.env.state.downcount + 1).toNat ∧
      (∀ x ∈ es, 0 ≤ x.2.state.downcount) ∧
      (result = .ok .downcountExpired →
        -(s.options.maxCost : Int) ≤ s'.env.state.downcount ∧ s'.env.state.downcount < 0) := by
  -- Every round takes something off the budget, so the induction is on a bound of what is left.
  induction budget generalizing s with
  | zero =>
    obtain ⟨result, s', hends, hexpired⟩ := s.exists_ends_of_stopped 0 (.inr hbudget)
    refine ⟨[], result, s', hends, Nat.zero_le _, by simp, fun hresult => ?_⟩
    obtain ⟨rfl, hspent⟩ := hexpired hresult
    exact ⟨hlow, hspent⟩
  | succ budget ih =>
    by_cases hstopped : s.env.state.coreState ≠ .running ∨ s.env.state.downcount < 0
    · obtain ⟨result, s', hends, hexpired⟩ := s.exists_ends_of_stopped (budget + 1) hstopped
      refine ⟨[], result, s', hends, Nat.zero_le _, by simp, fun hresult => ?_⟩
      obtain ⟨rfl, hspent⟩ := hexpired hresult
      exact ⟨hlow, hspent⟩
    · rw [not_or, not_not, Int.not_lt] at hstopped
      obtain ⟨hrunning, hleft⟩ := hstopped
      cases hcompile : (s.compile s.env.state.pc).1 with
      | error e =>
        exact ⟨[], _, _, ends_of_error hrunning hleft hcompile _, Nat.zero_le _, by simp,
          fun hresult => by cases hresult⟩
      | ok n =>
        obtain ⟨b, s₁, legs, d, hround⟩ := h.exists_round hbound hleft (fun _ _ => trivial) hcompile
        obtain ⟨hentered, hlength, hcost⟩ := hround.budget hbound hdowncount hleft
        have hloop := hround.loop_eq hrunning hleft
        have hentries := hround.entries_eq hrunning hleft
        have henvs : ∀ x ∈ legs.map fun l => (l.block, l.env), 0 ≤ x.2.state.downcount := by
          simpa using hentered
        by_cases hreason : d.reason = .hardFault
        · simp only [if_pos hreason, List.append_nil] at hloop hentries
          refine ⟨_, _, _, .of_loop hloop hentries _, ?_, henvs, fun hresult => by cases hresult⟩
          rw [List.length_map]
          omega
        · simp only [if_neg hreason] at hloop hentries
          obtain ⟨hspent, hlow'⟩ := hcost hreason
          -- A round enters one block or more, each at the cost of a cycle or more.
          have hpos := hround.voyage.length_pos
          have hoptions := hround.settings.1
          rw [← hoptions] at hlow'
          obtain ⟨es, result, s', hends, hes, hall, hexpired⟩ :=
            ih (hround.left hregister) (hoptions ▸ hbound) hlow' (by dsimp only; omega)
          dsimp only at hes hexpired
          refine ⟨_, result, s', hends.of_round hloop hentries, ?_, ?_, ?_⟩
          · rw [List.length_append, List.length_map]
            omega
          · exact fun x hx => (List.mem_append.1 hx).elim (henvs x) (hall x)
          · rwa [hoptions] at hexpired

/-- Whatever a host did before, as long as its failed compilations left the code alone: a run with any
budget that is not negative ends, with as many rounds as there are cycles and two more. It enters at
most one block more than there are cycles, links counted, and none of them once the budget is spent.
If it ends for that, the last block overspent by no more than its cost. -/
theorem Reachable.run_ends_within_budget (hs : s.Reachable fun _ => True)
    (hintact : ¬ s.table.Damaged)
    (hbound : 36 * (s.options.maxBlockInstructions + 1) < 2 ^ 31)
    (hreach : s.options.codeSize ≤ 0x80000000) (hzero : s.env.state.get 0 = 0)
    (hbacked : Bus.Backed s.regions s.env.bus) (hregister : Bus.Maintains β 0 (· = 0))
    (hdowncount : Bus.Respects β Slot.downcount) {cycles : UInt32}
    (hcycles : cycles.toNat < 0x80000000) :
    ∃ es result s', (∀ rounds, cycles.toNat + 2 ≤ rounds →
        s.run rounds cycles = some (result, s') ∧
          (s.setState (s.env.state.set Slot.downcount cycles)).entries rounds = es) ∧
      es.length ≤ cycles.toNat + 1 ∧ (∀ x ∈ es, 0 ≤ x.2.state.downcount) ∧
      (result = .ok .downcountExpired →
        -(36 * (s.options.maxBlockInstructions + 1) : Nat) ≤ s'.env.state.downcount ∧
          s'.env.state.downcount ≤ -1) := by
  have hleft : (s.env.state.set Slot.downcount cycles).downcount = cycles.toNat := by
    rw [State.downcount, State.get_set_self _ (by decide), Word.toInt_of_lt hcycles]
  obtain ⟨origin, hrecorded⟩ := hs.exists_recorded
  have hsourced : s.Sourced fun _ _ => True :=
    (hrecorded.sourced_of_intact hintact).mono fun _ _ _ => trivial
  have hstart := hs.runnable hsourced hreach hzero hbacked cycles
  -- The session with its budget gets a name, so that rewriting leaves it closed.
  obtain ⟨s₀, hs₀⟩ : ∃ s₀, s₀ = s.setState (s.env.state.set Slot.downcount cycles) := ⟨_, rfl⟩
  have hdown : s₀.env.state.downcount = cycles.toNat := by
    rw [hs₀]
    exact hleft
  have hoptions : s₀.options = s.options := by
    rw [hs₀]
    rfl
  rw [← hs₀] at hstart
  have hless : s₀.env.state.downcount < (cycles.toNat + 1 : Nat) := by omega
  obtain ⟨es, result, s', hends, hlength, hentered, hexpired⟩ :=
    hstart.exists_ends (hoptions ▸ hbound) hregister hdowncount (by omega) hless
  refine ⟨es, result, s', fun rounds hrounds => ?_, by omega, hentered, fun hresult => ?_⟩
  · rw [Session.run, ← hs₀]
    exact ⟨hends.loop rounds hrounds, hends.entries rounds hrounds⟩
  · obtain ⟨hlow, hspent⟩ := hexpired hresult
    rw [hoptions] at hlow
    exact ⟨hlow, by omega⟩

/-- A loop of one block that is linked to itself ends with its budget. -/
theorem run_ends_within_budget_of_spinning :
    let s := (unused spinning small).setState (State.initial.set Slot.pc 0x1000)
    s.Reachable (fun _ => True) ∧ ¬ s.table.Damaged ∧ ∃ es result s', (∀ rounds, 102 ≤ rounds →
        s.run rounds 100 = some (result, s') ∧
          (s.setState (s.env.state.set Slot.downcount 100)).entries rounds = es) ∧
      es.length ≤ 101 ∧ (∀ x ∈ es, 0 ≤ x.2.state.downcount) ∧
      (result = .ok .downcountExpired →
        -(36 * (s.options.maxBlockInstructions + 1) : Nat) ≤ s'.env.state.downcount ∧
          s'.env.state.downcount ≤ -1) := by
  intro s
  have hnew : Reachable (fun _ => True) (unused spinning small) :=
    .create (create_of_valid rfl (by decide) (by decide))
  have hs : s.Reachable fun _ => True := .write hnew _
  have hspace : ¬ s.table.spaceLeft < 8 := by decide +kernel
  have hintact : ¬ s.table.Damaged := fun hdamaged => hspace hdamaged.1
  have hrespects (slot : Nat) : Bus.Respects Rom slot := fun _ _ _ _ _ h => by cases h
  have hbacked : Bus.Backed s.regions s.env.bus := fun _ _ r hr => by cases hr
  have hends := hs.run_ends_within_budget hintact (by decide) (by decide) rfl hbacked
    ((hrespects 0).maintains _) (hrespects Slot.downcount) (by decide : (100 : UInt32).toNat < 0x80000000)
  exact ⟨hs, hintact, hends⟩

end Session

end Recompiler
