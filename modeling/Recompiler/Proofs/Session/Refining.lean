import Recompiler.Proofs.Memory.LastWritten
import Recompiler.Proofs.Session.Budget
import Recompiler.Proofs.Session.Failing

/-!
# Runs and the reference machine

A guest that runs as generated code comes by where it would come by if every instruction was fetched
from memory and interpreted, as long as the words of its instructions stay what they are. The budget is
less by the cycles of these instructions.

* `Session.Calls`: a session that is run any number of times.
* `Session.Follows`: its guest is one that the machine comes by.
* `Session.Runnable.follows`: a run of a session, by induction on the rounds.
* `Session.Calls.follows`: all runs of a session, by induction on the calls.
* `Session.run_refines_interpreter`: what that means for flat memory.
-/

namespace Recompiler

variable {β : Type} [Bus β]

/-! ## Time -/

/-- An instruction was refused. -/
def Faults (result : Except SessionError RunExit) : Prop :=
  ∃ pc word, result = .error (.hardFault pc word)

namespace Guest.Clock

/-- The time after a call that took some cycles off the budget. -/
def after (t : Clock) (spent : Int) : Except SessionError RunExit → Clock
  | .error (.hardFault _ _) => ⟨t.faults + 1, 0⟩
  | _ => ⟨t.faults, t.cycles + spent.toNat⟩

variable {t : Clock} {spent : Int} {result : Except SessionError RunExit}

theorem after_of_not_faults (h : ¬ Faults result) :
    t.after spent result = ⟨t.faults, t.cycles + spent.toNat⟩ := by
  unfold after
  split
  · exact absurd ⟨_, _, rfl⟩ h
  · rfl

theorem after_of_faults (h : Faults result) : t.after spent result = ⟨t.faults + 1, 0⟩ := by
  obtain ⟨pc, word, rfl⟩ := h
  rfl

theorem le_after (t : Clock) (spent : Int) (result : Except SessionError RunExit) :
    t ≤ t.after spent result := by
  by_cases h : Faults result
  · rw [after_of_faults h, le_def]
    exact .inl (Nat.lt_succ_self _)
  · rw [after_of_not_faults h, le_def]
    exact .inr ⟨rfl, Nat.le_add_right _ _⟩

/-- A call that does a round first. -/
theorem after_add {c : Nat} {left : Int} (hleft : ¬ Faults result → 0 ≤ left) :
    after ⟨t.faults, t.cycles + c⟩ left result = t.after (c + left) result := by
  by_cases h : Faults result
  · rw [after_of_faults h, after_of_faults h]
  · have hnonneg := hleft h
    rw [after_of_not_faults h, after_of_not_faults h, mk.injEq]
    exact ⟨rfl, by dsimp only; omega⟩

end Guest.Clock

namespace Session

variable {s s' : Session β} {known : UInt32 → β → Prop} {rounds : Nat} {cycles : UInt32}
  {result : Except SessionError RunExit}

/-! ## Budgets -/

/-- A run does not add to the budget. -/
theorem Runnable.downcount_loop (h : s.Runnable fun _ _ => True)
    (hbound : 36 * (s.options.maxBlockInstructions + 1) < 2 ^ 31)
    (hregister : Bus.Maintains β 0 (· = 0)) (hdowncount : Bus.Respects β Slot.downcount)
    (hloop : s.loop rounds = some (result, s')) (hresult : ¬ Faults result) :
    s'.env.state.downcount ≤ s.env.state.downcount := by
  induction rounds generalizing s with
  | zero => cases hloop
  | succ rounds ih =>
    by_cases hgoes : s.Goes
    · cases hcompile : (s.compile s.env.state.pc).1 with
      | error e =>
        rw [loop_of_error hgoes hcompile] at hloop
        cases hloop
        exact Int.le_of_eq (congrArg State.downcount (s.reads_compile s.env.state.pc).state)
      | ok n =>
        obtain ⟨b, s₁, legs, d, hround⟩ := h.exists_round hbound hgoes.2 (fun _ _ => trivial) hcompile
        rw [hround.loop_eq hgoes.1 hgoes.2] at hloop
        split at hloop
        · obtain ⟨pc, word, env, hrefuse, -⟩ := exists_refuse { s₁ with env := d.env }
          rw [hrefuse] at hloop
          cases hloop
          exact absurd ⟨_, _, rfl⟩ hresult
        · next hreason =>
          -- A round that ends otherwise than by a fault takes cycles off the budget.
          obtain ⟨hspent, -⟩ := (hround.budget hbound hdowncount hgoes.2).2.2 hreason
          have hrest := ih (hround.left hregister) (hround.settings.1 ▸ hbound) hloop
          exact Int.le_trans hrest (by dsimp only; omega)
    · obtain ⟨exit, events, hreports⟩ := loop_of_not_goes hgoes rounds
      rw [hreports] at hloop
      cases hloop
      exact Int.le_refl _

/-! ## Runs -/

/-- What the interpreter and generated code have in common. -/
structure Comparable (o : Options) (regions : List FastRegion) (bus : β) : Prop where
  fast : o.fastMemory = false
  bound : 36 * (o.maxBlockInstructions + 1) < 2 ^ 31
  ends : ∀ r ∈ regions, r.stop ≤ UInt32.size
  harmless : Bus.Harmless β
  register : Bus.Maintains β 0 (· = 0)
  downcount : Bus.Respects β Slot.downcount
  mirrored : Bus.Mirrored regions bus

/-- The guest is one that the machine comes by which starts with `e`. Blocks were compiled from memory
as the machine comes by it up to the limit. -/
structure Follows (e : Environment β) (limit t : Guest.Clock) (s : Session β) : Prop where
  reached : Guest.Reaches e t s.env
  ready : s.Runnable (fun _ => Guest.Seen e limit) ∨ s.Stuck

section Refines

variable {e : Environment β} {limit t : Guest.Clock}

/-- A call with the budget `budget` during which nothing happens to the guest. -/
theorem Follows.of_agrees {g : Environment β} {budget : Int} (ht : Guest.Reaches e t g)
    (hagrees : g.Agrees s'.env) (hbudget : s'.env.state.downcount = budget)
    (hready : s'.Runnable (fun _ => Guest.Seen e limit) ∨ s'.Stuck) (hresult : ¬ Faults result) :
    s'.Follows e limit (t.after (budget - s'.env.state.downcount) result) ∧
      (¬ Faults result → ∃ cs c, Guest.Run Bus.Finds Guest.interprets g cs c s'.env ∧
        s'.env.state.downcount = budget - c) := by
  rw [Guest.Clock.after_of_not_faults hresult, hbudget, Int.sub_self]
  exact ⟨⟨ht.of_agrees hagrees, hready⟩,
    fun _ => ⟨[], 0, .refl hagrees, (Int.sub_zero _).symm⟩⟩

/-- A round does what the machine does. -/
theorem Round.exists_steps {n : Nat} {b : Block} {s₁ : Session β} {legs : List (BlockTable.Leg β)}
    {d : Departure β} (h : s.Round (fun _ => Guest.Seen e limit) n b s₁ legs d)
    (hc : Comparable s.options s.regions e.bus) (hsteady : Guest.Steady e limit)
    (ht : Guest.Reaches e t s.env) (hbudget : 0 ≤ s.env.state.downcount) :
    ∃ cs c g, (⟨t.faults, t.cycles + c⟩ ≤ limit → Guest.Run Bus.Finds Guest.interprets s.env cs c g ∧
        (d.reason = .hardFault → t.faults < limit.faults → Guest.Refuses Bus.Finds g d.env)) ∧
      (d.reason ≠ .hardFault → g.Agrees d.env ∧
        d.env.state.downcount = s.env.state.downcount - c) := by
  obtain ⟨c, g, hrun, hstops, hleft⟩ := h.exists_run hc.harmless 0
  have hmirrored : Bus.Mirrored s.regions s.env.bus := hc.mirrored.evolves ht.evolves
  have hseen (bus : β) (pc : UInt32) (i : Instruction)
      (hi : s₁.Contains (fun _ => Guest.Seen e limit) bus pc i) :
      ∃ bus, Guest.Seen e limit bus ∧ Bus.Finds bus pc i := by
    obtain ⟨_, _, bus, hbus, hword⟩ := hi
    exact ⟨bus, hbus, hword.finds⟩
  have htable (bus : β) (pc : UInt32) (i : Instruction)
      (hi : s₁.Contains (fun _ => Guest.Seen e limit) bus pc i) : i.entry ∈ Entry.table := by
    obtain ⟨_, _, hfinds⟩ := hseen bus pc i hi
    exact hfinds.mem_table
  have hinterprets := hrun.interprets hc.fast hc.ends hc.harmless htable hmirrored
  refine ⟨s.interpreted 0, c, g, fun hlimit => ?_, fun hreason => ?_⟩
  · have hsteps := hinterprets.of_seen hc.harmless hsteady hseen ht hlimit
    refine ⟨hsteps, fun hreason hfaults => ?_⟩
    exact (hstops hreason).of_seen hc.harmless hsteady hseen (ht.trans hsteps) (.inl hfaults)
  · obtain ⟨hagrees, hspent⟩ := hleft hreason
    exact ⟨hagrees, hspent hc.bound hc.downcount hbudget⟩

/-- A round that ends with a fault within the limit: the machine comes to the instruction that is
refused, and refuses it too. -/
theorem Round.follows_of_refuses {n : Nat} {b : Block} {s₁ : Session β}
    {legs : List (BlockTable.Leg β)} {d : Departure β} {env : Environment β}
    (h : s.Round (fun _ => Guest.Seen e limit) n b s₁ legs d)
    (hc : Comparable s.options s.regions e.bus) (hsteady : Guest.Steady e limit)
    (ht : Guest.Reaches e t s.env) (hbudget : 0 ≤ s.env.state.downcount)
    (hreason : d.reason = .hardFault) (hlimit : ⟨t.faults + 1, 0⟩ ≤ limit)
    (hreads : d.env.ReadsTo env) :
    ({ s₁ with env := env } : Session β).Follows e limit ⟨t.faults + 1, 0⟩ := by
  obtain ⟨cs, c, g, hsteps, -⟩ := h.exists_steps hc hsteady ht hbudget
  have hfaults : t.faults < limit.faults := by
    rw [Guest.Clock.le_def] at hlimit
    dsimp only at hlimit
    omega
  obtain ⟨hrun, hrefuses⟩ := hsteps (.inl hfaults)
  have hrefused := (ht.trans hrun).refuse (hrefuses hreason hfaults)
  have hleft := h.left hc.register
  have hzero : env.state.get 0 = 0 := (congrArg (State.get · 0) hreads.state).trans hleft.zero
  exact ⟨hrefused.of_agrees (hreads.agrees hc.harmless),
    .inl (hleft.withEnv hzero hreads.bus.evolves)⟩

/-- A run does what the machine does. -/
theorem Runnable.follows (h : s.Runnable fun _ => Guest.Seen e limit)
    (hc : Comparable s.options s.regions e.bus) (hsteady : Guest.Steady e limit)
    (ht : Guest.Reaches e t s.env) (hloop : s.loop rounds = some (result, s'))
    (hlimit : t.after (s.env.state.downcount - s'.env.state.downcount) result ≤ limit) :
    s'.Follows e limit (t.after (s.env.state.downcount - s'.env.state.downcount) result) ∧
      (¬ Faults result → ∃ cs c, Guest.Run Bus.Finds Guest.interprets s.env cs c s'.env ∧
        s'.env.state.downcount = s.env.state.downcount - c) := by
  -- One round of the loop is a number of steps of the machine, after which the rest of the rounds
  -- goes on from the guest that the round left. A fault or an error ends the run.
  induction rounds generalizing s t with
  | zero => cases hloop
  | succ rounds ih =>
    by_cases hgoes : s.Goes
    · cases hcompile : (s.compile s.env.state.pc).1 with
      | error err =>
        -- Nothing happens to the guest, and nothing will.
        have hreads := s.reads_compile s.env.state.pc
        rw [loop_of_error hgoes hcompile] at hloop
        cases hloop
        have hresult : ¬ Faults (.error err) := by
          rintro ⟨pc, word, heq⟩
          cases heq
          obtain ⟨f, hf⟩ := exists_failure_of_compile hcompile
          cases f <;> cases hf
        exact Follows.of_agrees ht (hreads.agrees hc.harmless) (by rw [hreads.state])
          (.inr (stuck_of_error hc.harmless h.levelled hcompile)) hresult
      | ok n =>
        have hknown (bus : β) (hbus : Bus.ReadsTo s.env.bus bus) : Guest.Seen e limit bus :=
          ⟨t, s.env, ht, Guest.Clock.le_trans (t.le_after _ _) hlimit,
            (hc.harmless.eq_of_readsTo hbus).symm⟩
        -- The guest enters the block, and the machine does the steps of the legs.
        obtain ⟨b, s₁, legs, d, hround⟩ := h.exists_round hc.bound hgoes.2 hknown hcompile
        obtain ⟨cs, c, g, hsteps, hleft⟩ := hround.exists_steps hc hsteady ht hgoes.2
        obtain ⟨hoptions, hregions⟩ := hround.settings
        rw [hround.loop_eq hgoes.1 hgoes.2] at hloop
        by_cases hreason : d.reason = .hardFault
        · obtain ⟨pc, word, env, hrefuse, hreads⟩ := exists_refuse { s₁ with env := d.env }
          rw [if_pos hreason, hrefuse] at hloop
          cases hloop
          rw [Guest.Clock.after_of_faults ⟨pc, word, rfl⟩] at hlimit ⊢
          exact ⟨hround.follows_of_refuses hc hsteady ht hgoes.2 hreason hlimit hreads,
            fun hresult => absurd ⟨pc, word, rfl⟩ hresult⟩
        · obtain ⟨hagrees, hspent⟩ := hleft hreason
          rw [if_neg hreason] at hloop
          have hrunnable := hround.left hc.register
          -- The budget that the rest of the run takes.
          have hmore (hresult : ¬ Faults result) :
              0 ≤ d.env.state.downcount - s'.env.state.downcount := by
            have hless := (hrunnable.mono fun _ _ _ => trivial).downcount_loop
              (hoptions ▸ hc.bound) hc.register hc.downcount hloop hresult
            exact Int.sub_nonneg.2 hless
          have hafter : Guest.Clock.after ⟨t.faults, t.cycles + c⟩
              (d.env.state.downcount - s'.env.state.downcount) result =
                t.after (s.env.state.downcount - s'.env.state.downcount) result := by
            rw [Guest.Clock.after_add hmore, hspent]
            congr 1
            omega
          rw [← hafter] at hlimit ⊢
          have hlimit' := Guest.Clock.le_trans (Guest.Clock.le_after _ _ _) hlimit
          obtain ⟨hrun, -⟩ := hsteps hlimit'
          have hrun' := hrun.trans (.refl hagrees)
          -- What the rest of the rounds takes adds to what this one took.
          obtain ⟨hfollows, hgoes'⟩ := ih hrunnable
            (by dsimp only; rw [hoptions, hregions]; exact hc) (ht.trans hrun') hloop hlimit
          refine ⟨hfollows, fun hresult => ?_⟩
          obtain ⟨cs', c', hrest, hspent'⟩ := hgoes' hresult
          refine ⟨_, _, hrun'.trans hrest, ?_⟩
          dsimp only at hspent'
          rw [hspent', hspent]
          omega
    · obtain ⟨exit, events, hreports⟩ := loop_of_not_goes hgoes rounds
      rw [hreports] at hloop
      cases hloop
      have hresult : ¬ Faults (.ok exit) := by
        rintro ⟨pc, word, heq⟩
        cases heq
      exact Follows.of_agrees ht ⟨fun _ _ _ => rfl, rfl⟩ rfl (.inl (h.withEnv h.zero (.refl _))) hresult

end Refines

/-! ## Calls -/

/-- The session is run any number of times, each time with a budget of its own. In the end it is `s'`,
and the machine has come as far as `t`. -/
inductive Calls (s : Session β) : Guest.Clock → Session β → Prop
  | none : s.Calls ⟨0, 0⟩ s
  | run {t : Guest.Clock} {s₁ s₂ : Session β} {rounds : Nat} {cycles : UInt32}
      {result : Except SessionError RunExit} (h : s.Calls t s₁)
      (hrun : s₁.run rounds cycles = some (result, s₂)) :
    s.Calls (t.after (Word.toInt cycles - s₂.env.state.downcount) result) s₂

section Calls

variable {e : Environment β} {limit t : Guest.Clock}

/-- A call does what the machine does. -/
theorem Follows.run (h : s.Follows e limit t) (hc : Comparable s.options s.regions e.bus)
    (hsteady : Guest.Steady e limit) (hrun : s.run rounds cycles = some (result, s'))
    (hlimit : t.after (Word.toInt cycles - s'.env.state.downcount) result ≤ limit) :
    s'.Follows e limit (t.after (Word.toInt cycles - s'.env.state.downcount) result) ∧
      (¬ Faults result → ∃ cs c, Guest.Run Bus.Finds Guest.interprets s.env cs c s'.env ∧
        s'.env.state.downcount = Word.toInt cycles - c) := by
  obtain ⟨s₀, hs₀⟩ : ∃ s₀, s₀ = s.setState (s.env.state.set Slot.downcount cycles) := ⟨_, rfl⟩
  have hagrees : s.env.Agrees s₀.env := hs₀ ▸ .setWord s.env (.inl rfl) cycles
  have hbudget : s₀.env.state.downcount = Word.toInt cycles := by
    rw [hs₀]
    exact congrArg Word.toInt (State.get_set_self _ (by decide) _)
  have hreached := h.reached.of_agrees hagrees
  rw [Session.run, ← hs₀] at hrun
  rw [← hbudget] at hlimit ⊢
  -- A session that is stuck came to an error before, and comes to it again.
  rcases h.ready with hrunnable | hstuck
  · have hzero : s₀.env.state.get 0 = 0 :=
      (hagrees.words 0 (by decide) (by decide)).trans hrunnable.zero
    have hrunnable₀ : s₀.Runnable fun _ => Guest.Seen e limit := by
      have hwith := hrunnable.withEnv hzero (hagrees.bus ▸ .refl _)
      rw [hs₀] at hwith ⊢
      exact hwith
    obtain ⟨hfollows, hdoes⟩ :=
      hrunnable₀.follows (by rw [hs₀]; exact hc) hsteady hreached hrun hlimit
    refine ⟨hfollows, fun hresult => ?_⟩
    obtain ⟨cs, c, hsteps, hspent⟩ := hdoes hresult
    exact ⟨cs, c, hsteps.of_agrees hagrees, hspent⟩
  · have hstuck₀ : s₀.Stuck := by
      have hwith := hstuck.withEnv hagrees.pc hagrees.bus
      rw [hs₀] at hwith ⊢
      exact hwith
    obtain ⟨hstuck', hstate, hbus, hresult⟩ := hstuck₀.loop hc.harmless hrun
    have hsame : s₀.env.Agrees s'.env := ⟨fun _ _ _ => by rw [hstate], hbus⟩
    have hclean : ¬ Faults result := by
      rintro ⟨pc, word, heq⟩
      exact hresult pc word heq
    exact Follows.of_agrees h.reached (hagrees.trans hsame) (by rw [hstate]) (.inr hstuck') hclean

/-- All calls do what the machine does. -/
theorem Calls.follows (h : s.Calls t s') (hs : s.Runnable fun _ => Guest.Seen s.env limit)
    (hc : Comparable s.options s.regions s.env.bus) (hsteady : Guest.Steady s.env limit)
    (hlimit : t ≤ limit) :
    s'.Follows s.env limit t ∧ s'.options = s.options ∧ s'.regions = s.regions := by
  induction h with
  | none => exact ⟨⟨.refl _, .inl hs⟩, rfl, rfl⟩
  | @run t s₁ s₂ rounds cycles result _ hrun ih =>
    obtain ⟨hfollows, hoptions, hregions⟩ := ih (Guest.Clock.le_trans (t.le_after _ _) hlimit)
    obtain ⟨hoptions', hregions'⟩ :=
      settings_loop (s := s₁.setState (s₁.env.state.set Slot.downcount cycles)) hrun
    exact ⟨(hfollows.run (hoptions ▸ hregions ▸ hc) hsteady hrun hlimit).1, hoptions'.trans hoptions,
      hregions'.trans hregions⟩

end Calls

/-! ## Flat memory -/

section Flat

variable {m : FlatMemory} {o : Options}

/-- Generated code and the interpreter see flat memory in the same way. -/
theorem comparable_of_hosted (hplace : m.base.toNat + m.size ≤ UInt32.size)
    (hhosted : m.size < UInt32.size → m.Hosted) (hfast : o.fastMemory = false)
    (hbound : 36 * (o.maxBlockInstructions + 1) < 2 ^ 31) :
    Comparable o (Bus.fastRegions m) m ∧ Bus.Backed (Bus.fastRegions m) m := by
  have hrespects (slot : Nat) : Bus.Respects FlatMemory slot := fun _ _ _ _ _ h => by cases h
  have hregions : (∀ r ∈ Bus.fastRegions m, r.stop ≤ UInt32.size) ∧
      Bus.Mirrored (Bus.fastRegions m) m := by
    by_cases hsize : m.size < UInt32.size
    · refine ⟨fun r hr => ?_, FlatMemory.mirrored (hhosted hsize)⟩
      rw [FlatMemory.fastRegions_eq hsize] at hr
      obtain rfl := List.mem_singleton.1 hr
      have hlength : m.size.toUInt32.toNat = m.size := UInt32.toNat_ofNat_of_lt hsize
      change m.base.toNat + m.size.toUInt32.toNat ≤ _
      omega
    · rw [FlatMemory.fastRegions_eq_nil hsize]
      refine ⟨fun r hr => (by cases hr), fun c _ => ⟨?_, ?_⟩⟩ <;>
        exact fun r hr => by cases hr
  exact ⟨⟨hfast, hbound, hregions.1, FlatMemory.harmless, (hrespects 0).maintains _, hrespects _,
    hregions.2⟩, FlatMemory.backed_of_hosted hhosted⟩

/-- Whenever a call returns without refusing an instruction, the guest is the one that the reference
machine comes to, which starts with the guest of the host and interprets one instruction of memory after
the other. What the call took off the budget is what these instructions cost. Blocks that do not compile
make no difference. Where an earlier call refused an instruction, the machine goes on with the guest
that was left then.

This holds for calls with any budgets, as long as the words of the instructions that the machine fetches
meanwhile stay what they are. -/
theorem run_refines_interpreter {available : Nat} {s : Session FlatMemory}
    (hcreate : create m o available = .ok s)
    (hplace : m.base.toNat + m.size ≤ UInt32.size) (hhosted : m.size < UInt32.size → m.Hosted)
    (hfast : o.fastMemory = false) (hreach : o.codeSize ≤ 0x80000000)
    (hbound : 36 * (o.maxBlockInstructions + 1) < 2 ^ 31) {state : State} (hzero : state.get 0 = 0)
    {t : Guest.Clock} {s₁ s₂ : Session FlatMemory} (hcalls : (s.setState state).Calls t s₁)
    {rounds : Nat} {cycles : UInt32} {result : Except SessionError RunExit}
    (hrun : s₁.run rounds cycles = some (result, s₂)) (hresult : ¬ Faults result)
    (hsteady : Guest.Steady (s.setState state).env
      (t.after (Word.toInt cycles - s₂.env.state.downcount) result)) :
    ∃ g cs c g', Guest.Reaches (s.setState state).env t g ∧ g.Agrees s₁.env ∧
      Guest.Run Bus.Finds Guest.interprets g cs c g' ∧ g'.Agrees s₂.env ∧
      s₂.env.state.downcount = Word.toInt cycles - c := by
  have hsourced : s.Sourced fun _ => Guest.Seen (s.setState state).env
      (t.after (Word.toInt cycles - s₂.env.state.downcount) result) := sourced_of_create hcreate
  obtain ⟨hvalidate, -, -, rfl⟩ := create_eq_ok hcreate
  obtain ⟨hc, hbacked⟩ := comparable_of_hosted hplace hhosted hfast hbound
  have hrunnable : Runnable _ ((unused m o).setState state) :=
    ⟨⟨hsourced.ready, hsourced.coherent, hsourced.sourced⟩, Options.accepted_of_validate hvalidate,
      hreach, hzero, hbacked⟩
  obtain ⟨hfollows, hoptions, hregions⟩ :=
    hcalls.follows hrunnable hc hsteady (t.le_after _ _)
  obtain ⟨cs, c, hsteps, hspent⟩ :=
    (hfollows.run (hoptions ▸ hregions ▸ hc) hsteady hrun (Guest.Clock.le_refl _)).2 hresult
  exact ⟨_, cs, c, _, hfollows.reached, .refl _, hsteps, .refl _, hspent⟩

end Flat

/-- A guest that stores a register in the delay slot of a branch, which leads to where there is no
memory. -/
def leaping : FlatMemory :=
  (FlatMemory.zeros 0x1000 64 (Linkage.memoryBase 0)).store 0
    ([0x15000FFF, 0xAC081030].flatMap Word.bytes)

/-- Its memory with the register stored. -/
def leapt : FlatMemory :=
  leaping.store 0x30 (Word.bytes 42)

namespace Leaping

/-- The branch is taken unless the register is zero. -/
def branch : Instruction :=
  (Instruction.decode? 0x15000FFF).get (by decide)

def slot : Instruction :=
  (Instruction.decode? 0xAC081030).get (by decide)

/-! ### Its instructions -/

section Memory

variable {m : FlatMemory}

/-- The store does not change what is read on the way. -/
theorem read_eq (h : m = leaping ∨ m = leapt) :
    Bus.read .word 0x1000 m = (.ok branch.word, m) ∧ Bus.read .word 0x1004 m = (.ok slot.word, m) ∧
      Bus.read .word 0x5000 m = (.error (.addressNotMapped 0x5000), m) := by
  have hoffset : m.offset 0x1000 4 = .ok 0 ∧ m.offset 0x1004 4 = .ok 4 ∧
      m.offset 0x5000 4 = .error (.addressNotMapped 0x5000) := by
    rcases h with rfl | rfl <;> decide
  have hrun : m.run 0 4 = Word.bytes branch.word ∧ m.run 4 4 = Word.bytes slot.word := by
    have hwords : branch.word = 0x15000FFF ∧ slot.word = 0xAC081030 := by decide
    rw [hwords.1, hwords.2]
    rcases h with rfl | rfl <;>
      simp [FlatMemory.run, leapt, leaping, FlatMemory.byte_store, List.range, List.range.loop,
        Word.bytes]
  refine ⟨FlatMemory.read_word hoffset.1 hrun.1, FlatMemory.read_word hoffset.2.1 hrun.2, ?_⟩
  refine Prod.ext ?_ rfl
  change m.offset 0x5000 4 >>= _ = _
  rw [hoffset.2.2]
  rfl

theorem instructionAt_eq (h : m = leaping ∨ m = leapt) :
    Bus.instructionAt 0x1000 m = (.ok branch, m) ∧ Bus.instructionAt 0x1004 m = (.ok slot, m) := by
  obtain ⟨hbranch, hslot, -⟩ := read_eq h
  exact ⟨Bus.instructionAt_of_read hbranch (by decide), Bus.instructionAt_of_read hslot (by decide)⟩

end Memory

/-! ### Its block -/

def surroundings : Surroundings :=
  (BlockTable.bare unlinked.codeSize unlinked.maxBlocks).surroundings unlinked
    (Bus.fastRegions leaping) 0x1000

/-- The lowering before the delay slot. -/
def atSlot : Lowering FlatMemory :=
  { (Lowering.entered leaping surroundings.stubs 0x1000).reading leaping branch with isOpen := false }

/-- The lowering of the delay slot. -/
def behindSlot : Except Failure Unit × Lowering FlatMemory :=
  (Lower.inSlot slot).exec surroundings (Lowering.reading { atSlot with pc := 0x1004 } leaping slot)

/-- The lowering of the exits behind it. -/
def behindExits : Except Failure Unit × Lowering FlatMemory :=
  (Lower.writeCompare ⟨.notEqual, guestOperand 8, some (guestOperand 0)⟩ >>= fun _ =>
    Lower.flushAll >>= fun _ => Lower.writeBranchExits .equal 0x5000 0x1008).exec surroundings
      { behindSlot.2 with
        pc := 0x1000
        registers := { behindSlot.2.registers.release with pc := 0x1000 } }

theorem exec_branch :
    (Lower.branch branch ⟨.notEqual, guestOperand 8, some (guestOperand 0)⟩ 0x5000).exec surroundings
      ((Lowering.entered leaping surroundings.stubs 0x1000).reading leaping branch) =
        behindExits := by
  obtain ⟨-, hslot⟩ := instructionAt_eq (.inl rfl)
  -- The branch links nothing, and the delay slot writes neither operand.
  have hplain : branch.mnemonic.links = false ∧ branch.mnemonic.discardsDelaySlot = false ∧
      slot.outputRegister? = none := by decide
  obtain ⟨hlinks, hlikely, houtput⟩ := hplain
  have hdecode := Lower.exec_decode_of_ok (t := atSlot) surroundings hslot
  have hlowered : behindSlot = (.ok (), behindSlot.2) := Prod.ext (by decide +kernel) rfl
  rw [Lower.branch, Lower.exec_bind_of_ok (Lower.exec_currentPc ..)]
  dsimp only
  rw [Lower.close, Lower.exec_bind_of_ok (Lower.exec_modify ..),
    Lower.exec_bind_of_ok (Lower.exec_immediate? ..),
    Lower.exec_bind_of_ok (Lower.exec_immediate? ..), hlikely, hlinks]
  change (Lower.decode 0x1004 >>= _).exec _ atSlot = _
  rw [Lower.exec_bind_of_ok hdecode, houtput]
  exact Lower.exec_afterDelaySlot (t := atSlot) hslot hlowered (by decide +kernel)

theorem exec_instruction :
    Lower.instruction.exec surroundings (.entered leaping surroundings.stubs 0x1000) =
      (.ok (), { behindExits.2 with registers := behindExits.2.registers.release }) := by
  obtain ⟨hbranch, -⟩ := instructionAt_eq (.inl rfl)
  have hm : branch.mnemonic = .bne := by decide
  have hrs : branch.rs = .ok 8 := by rfl
  have hrt : branch.rt = .ok 0 := by rfl
  have hpc : ((Lowering.entered leaping surroundings.stubs 0x1000).reading leaping branch).pc =
      0x1000 := rfl
  have htarget : branch.staticTarget? 0x1000 = some 0x5000 := by decide
  have hlowered : behindExits = (.ok (), behindExits.2) := Prod.ext (by decide +kernel) rfl
  rw [Lower.instruction,
    Lower.exec_instructionWith (t := .entered leaping surroundings.stubs 0x1000) hbranch,
    Lower.exec_bind_of_ok (Lower.exec_currentPc ..), hpc, htarget]
  dsimp only
  simp only [hm, Condition.ofBranch?]
  rw [Lower.exec_bind_of_ok (Lower.exec_registerOperand hrs _ _),
    Lower.exec_bind_of_ok (Lower.exec_registerOperand hrt _ _), Option.getD_some, exec_branch, hlowered]

/-- The block is lowered to a few hundred bytes. -/
theorem plan_eq_ok : (plan leaping unlinked (Bus.fastRegions leaping) 0x1000).1 = .ok () ∧
    (plan leaping unlinked (Bus.fastRegions leaping) 0x1000).2.length ≤ 400 := by
  have hclosed : behindExits.2.isOpen = false := by decide +kernel
  have hplan : plan leaping unlinked (Bus.fastRegions leaping) 0x1000 =
      (.ok (), { behindExits.2 with
        registers := behindExits.2.registers.release
        pc := behindExits.2.pc + 4
        code := behindExits.2.code ++ #[Item.align Lower.blockAlignment] }) := by
    change (Lower.block 0x1000).exec surroundings (.initial leaping 0x1000) = _
    rw [Lower.exec_block, show surroundings.options.maxBlockInstructions = _ + 1 from rfl, Lower.body,
      Lower.exec_bind_of_ok exec_instruction, Lower.exec_bind_of_ok (Lower.exec_modify ..),
      Lower.exec_get_bind]
    dsimp only
    rw [hclosed]
    rfl
  rw [hplan]
  exact ⟨rfl, by decide +kernel⟩

/-! ### Its guest -/

/-- The guest before the branch. -/
structure Poised (e : Environment FlatMemory) : Prop where
  zero : e.state.get 0 = 0
  value : e.state.get 8 = 42
  running : e.state.coreState = .running
  pc : e.state.pc = 0x1000
  bus : e.bus = leaping

/-- The guest behind the delay slot. -/
structure Landed (e : Environment FlatMemory) : Prop where
  running : e.state.coreState = .running
  pc : e.state.pc = 0x5000
  bus : e.bus = leapt

variable {e e' : Environment FlatMemory} {cs : List (Call FlatMemory)} {c : Nat} {t : Guest.Clock}

theorem Poised.of_agrees (h : Poised e) (hagrees : e.Agrees e') : Poised e' := by
  refine ⟨?_, ?_, ?_, hagrees.pc.trans h.pc, hagrees.bus.trans h.bus⟩
  · rw [hagrees.words 0 (by decide) (by decide), h.zero]
  · rw [hagrees.words 8 (by decide) (by decide), h.value]
  · rw [State.coreState, hagrees.words Slot.coreState (by decide) (by decide)]
    exact h.running

theorem Landed.of_agrees (h : Landed e) (hagrees : e.Agrees e') : Landed e' := by
  refine ⟨?_, hagrees.pc.trans h.pc, hagrees.bus.trans h.bus⟩
  rw [State.coreState, hagrees.words Slot.coreState (by decide) (by decide)]
  exact h.running

/-- There is one instruction at the branch, and one in its delay slot. -/
theorem Poised.finds (h : Poised e) {pc : UInt32} {i : Instruction} (hpc : e.state.pc = pc)
    (hi : Bus.Finds e.bus pc i) :
    pc = 0x1000 ∧ i = branch ∧ ∀ j, Bus.Finds e.bus (pc + 4) j → j = slot := by
  obtain ⟨hbranch, hslot⟩ := instructionAt_eq (.inl h.bus)
  obtain rfl := hpc.symm.trans h.pc
  exact ⟨rfl, FlatMemory.harmless.eq_of_finds hi (.of_instructionAt hbranch),
    fun j hj => FlatMemory.harmless.eq_of_finds hj (.of_instructionAt hslot)⟩

/-- There is none where it leads. -/
theorem Landed.not_finds (h : Landed e) {pc : UInt32} {i : Instruction} (hpc : e.state.pc = pc) :
    ¬ Bus.Finds e.bus pc i := by
  rintro ⟨b, hreads, hi⟩
  rw [FlatMemory.harmless.eq_of_readsTo hreads, ← hpc, h.pc, Bus.instructionAt,
    (read_eq (.inr h.bus)).2.2] at hi
  cases hi

theorem Poised.taken (h : Poised e) :
    branch.link 0x1000 e = e ∧ branch.destination 0x1000 e = 0x5000 := by
  have hm : branch.mnemonic = .bne := by decide
  have htaken : branch.isTaken e = true := by
    change decide (e.state.get 8 ≠ e.state.get 0) = true
    rw [h.value, h.zero]
    rfl
  have htarget : branch.staticTarget? 0x1000 = some 0x5000 := by decide
  constructor
  · rw [Instruction.link, if_neg (by decide), if_neg (by decide)]
  · rw [Instruction.destination, if_pos htaken, hm, htarget]
    rfl

theorem Poised.stored (h : Poised e) : slot.interpret (e.setWord Slot.pc 0x1004) =
    { e.setWord Slot.pc 0x1004 with bus := leapt } := by
  have hm : slot.mnemonic = .sw := by decide
  have hoperands : slot.registerOf .base = 0 ∧ slot.registerOf .target = 8 ∧
      Word.signExtend16 (slot.value .offset) = 0x1030 := by decide
  have hget {k : Nat} (hk : Slot.pc ≠ k) :
      (e.setWord Slot.pc 0x1004).register k = e.state.get k :=
    State.get_set_of_ne _ hk _
  have hinterpret : slot.interpret (e.setWord Slot.pc 0x1004) =
      (e.setWord Slot.pc 0x1004).write .word 0x1030 42 := by
    rw [Instruction.interpret, hm]
    dsimp only
    rw [Instruction.storeTarget, Instruction.effectiveAddress, hoperands.1, hoperands.2.1,
      hoperands.2.2, hget (by decide), hget (by decide), h.zero, h.value]
    rfl
  have hwrite : Bus.write .word 0x1030 42 (e.setWord Slot.pc 0x1004).bus = (.ok (), leapt) := by
    rw [show (e.setWord Slot.pc 0x1004).bus = leaping from h.bus]
    rfl
  rw [hinterpret, Environment.write, show Width.word.truncate 42 = 42 from rfl, hwrite]

/-! ### The reference machine -/

/-- The branch and its delay slot are one step. -/
theorem Poised.step (h : Poised e) (hstep : Guest.Step Bus.Finds Guest.interprets e cs c e') :
    Landed e' ∧ c ≤ 72 := by
  cases hstep with
  | straight hpc hi hends =>
    obtain ⟨rfl, rfl, -⟩ := h.finds hpc hi
    cases hends
  | syscall hpc hi hm | trap hpc hi hm =>
    obtain ⟨rfl, rfl, -⟩ := h.finds hpc hi
    cases hm
  | annulled hpc hi _ hannuls =>
    obtain ⟨rfl, rfl, -⟩ := h.finds hpc hi
    cases hannuls
  | transfer hpc hi hj _ _ _ _ hact =>
    obtain ⟨rfl, rfl, hslot⟩ := h.finds hpc hi
    obtain rfl := hslot _ hj
    obtain ⟨hlink, hdestination⟩ := h.taken
    rw [hlink] at hact
    obtain rfl := hact.trans h.stored
    rw [hdestination]
    refine ⟨⟨?_, Environment.pc_setWord _ _, rfl⟩, by decide⟩
    rw [← h.running]
    refine congrArg (fun w => (CoreState.ofWord? w).getD .stopping) ?_
    exact (State.get_set_of_ne _ (by decide) _).trans (State.get_set_of_ne _ (by decide) _)

theorem Landed.run (h : Landed e) (hrun : Guest.Run Bus.Finds Guest.interprets e cs c e') :
    Landed e' ∧ c = 0 := by
  cases hrun with
  | refl hagrees => exact ⟨h.of_agrees hagrees, rfl⟩
  | step hagrees hstep =>
    have hlanded := h.of_agrees hagrees
    cases hstep with
    | straight hpc hi | syscall hpc hi | trap hpc hi | transfer hpc hi | annulled hpc hi =>
      exact absurd hi (hlanded.not_finds hpc)

theorem Poised.run (h : Poised e) (hrun : Guest.Run Bus.Finds Guest.interprets e cs c e') :
    Poised e' ∧ c = 0 ∨ Landed e' ∧ c ≤ 72 := by
  cases hrun with
  | refl hagrees => exact .inl ⟨h.of_agrees hagrees, rfl⟩
  | step hagrees hstep hrest =>
    obtain ⟨hlanded, hcost⟩ := (h.of_agrees hagrees).step hstep
    obtain ⟨hlanded', rfl⟩ := hlanded.run hrest
    exact .inr ⟨hlanded', hcost⟩

/-- The machine is refused no instruction. -/
theorem Poised.reaches (h : Poised e) (hreaches : Guest.Reaches e t e') :
    t.faults = 0 ∧ (Poised e' ∨ Landed e') := by
  induction hreaches with
  | run hrun => exact ⟨rfl, (h.run hrun).imp And.left And.left⟩
  | refused _ hrefuses _ ih =>
    rcases ih.2 with hpoised | hlanded
    · cases hrefuses with
      | here hpc hi hrefused =>
        obtain ⟨rfl, rfl, -⟩ := hpoised.finds hpc hi
        cases hrefused
      | slot hpc hi hj _ _ hrefused =>
        obtain ⟨rfl, rfl, hslot⟩ := hpoised.finds hpc hi
        obtain rfl := hslot _ hj
        rcases hrefused with hends | hrefused
        · cases hends
        · cases hrefused
    · cases hrefuses with
      | here hpc hi | slot hpc hi => exact absurd hi (hlanded.not_finds hpc)

/-- What it fetches stays. -/
theorem Poised.steady (h : Poised e) (limit : Guest.Clock) : Guest.Steady e limit := by
  have hbus {t : Guest.Clock} {g : Environment FlatMemory} (hg : Guest.Reaches e t g) :
      g.bus = leaping ∨ g.bus = leapt :=
    (h.reaches hg).2.imp Poised.bus Landed.bus
  intro t g hg _ t' g' hg' _ addr haddr
  obtain ⟨hbranch, hslot, hnone⟩ := read_eq (hbus hg)
  obtain ⟨hbranch', hslot', hnone'⟩ := read_eq (hbus hg')
  rcases (h.reaches hg).2 with hpoised | hlanded
  · cases haddr with
    | here => rw [hpoised.pc, hbranch, hbranch']
    | slot => rw [hpoised.pc, show (0x1000 + 4 : UInt32) = 0x1004 from rfl, hslot, hslot']
  · cases haddr with
    | here => rw [hlanded.pc, hnone, hnone']
    | slot hi => exact absurd hi (hlanded.not_finds rfl)

/-! ### Its session -/

variable {s s₁ : Session FlatMemory} {n : Nat}

/-- From the branch, a round comes to where it leads. -/
theorem Poised.round {b : Block} {legs : List (BlockTable.Leg FlatMemory)} {d : Departure FlatMemory}
    (h : Poised s.env) (hround : s.Round (fun _ => Guest.Seen s.env ⟨1, 0⟩) n b s₁ legs d)
    (hc : Comparable s.options s.regions s.env.bus) (hbudget : 72 ≤ s.env.state.downcount) :
    d.reason ≠ .hardFault ∧ Landed d.env ∧ 0 ≤ d.env.state.downcount := by
  have hnonneg : 0 ≤ s.env.state.downcount := Int.le_trans (by decide) hbudget
  obtain ⟨cs, c, g, hsteps, hleft⟩ := hround.exists_steps hc (h.steady _) (.refl _) hnonneg
  obtain ⟨hrun, hrefuses⟩ := hsteps (.inl Nat.zero_lt_one)
  have hreason : d.reason ≠ .hardFault := fun hreason => by
    have hrefused := (Guest.Reaches.run hrun).refuse (hrefuses hreason Nat.zero_lt_one)
    cases (h.reaches hrefused).1
  obtain ⟨hagrees, hspent⟩ := hleft hreason
  -- The round takes something off the budget, so that the branch was done.
  obtain ⟨-, -, hcharged⟩ := hround.budget hc.bound hc.downcount hnonneg
  have hless := (hcharged hreason).1
  have hlegs := hround.voyage.length_pos
  obtain ⟨-, rfl⟩ | ⟨hlanded, hcost⟩ := h.run hrun
  · omega
  · exact ⟨hreason, hlanded.of_agrees hagrees, by omega⟩

theorem Landed.compile (h : Landed s.env) (hs : s.Runnable fun start _ => start = 0x1000) :
    (s.compile s.env.state.pc).1 =
      .error (.compile (.fetch 0x5000 (.addressNotMapped 0x5000))) := by
  have hnone : s.table.number? s.env.state.pc = none := by
    rw [h.pc]
    cases hnumber : s.table.number? 0x5000 with
    | none => rfl
    | some m =>
      obtain ⟨b, hb, hstart⟩ := (hs.coherent.indexed _ m).1 hnumber
      obtain ⟨_, hstart', -⟩ := hs.sourced m b hb
      cases hstart.symm.trans hstart'
  have hunreadable : (Bus.instructionAt s.env.state.pc s.env.bus).1 =
      .error (.fetch 0x5000 (.addressNotMapped 0x5000)) := by
    rw [h.pc, Bus.instructionAt, (read_eq (.inr h.bus)).2.2]
  have hlimit := Nat.pos_of_ne_zero hs.accepted.instructions
  have hplanned := compile_planned hs.levelled hnone (.of_harmless FlatMemory.harmless s.env.bus)
  have hplan : (plan s.env.bus s.options s.regions s.env.state.pc).1 =
      .error (.compile (.fetch 0x5000 (.addressNotMapped 0x5000))) :=
    Lower.exec_block_of_unreadable hlimit hunreadable
  rw [hplan] at hplanned
  exact hplanned

theorem Landed.loop (h : Landed s.env) (hs : s.Runnable fun start _ => start = 0x1000)
    (hbudget : 0 ≤ s.env.state.downcount) (rounds : Nat) :
    ∃ s', s.loop (rounds + 1) =
        some (.error (.compile (.fetch 0x5000 (.addressNotMapped 0x5000))), s') ∧ Landed s'.env :=
  ⟨_, loop_of_error ⟨h.running, hbudget⟩ (h.compile hs) rounds,
    h.of_agrees ((s.reads_compile _).agrees FlatMemory.harmless)⟩

/-- A run takes the branch, and stops where it leads. -/
theorem Poised.loop (h : Poised s.env) (hs : ∀ known, s.Runnable known)
    (hc : Comparable s.options s.regions s.env.bus) (hbudget : 72 ≤ s.env.state.downcount)
    (hcompile : (s.compile s.env.state.pc).1 = .ok n) {rounds : Nat} (hrounds : 2 ≤ rounds) :
    ∃ s', s.loop rounds = some (.error (.compile (.fetch 0x5000 (.addressNotMapped 0x5000))), s') ∧
      Landed s'.env := by
  obtain ⟨k, rfl⟩ := Nat.exists_eq_add_of_le' hrounds
  have hgoes : s.Goes := ⟨h.running, Int.le_trans (by decide) hbudget⟩
  have hknown (bus : FlatMemory) (hbus : Bus.ReadsTo s.env.bus bus) :
      Guest.Seen s.env ⟨1, 0⟩ bus :=
    ⟨_, _, .refl _, .inl Nat.zero_lt_one, (FlatMemory.harmless.eq_of_readsTo hbus).symm⟩
  obtain ⟨b, s₁, legs, d, hround⟩ :=
    (hs fun _ => Guest.Seen s.env ⟨1, 0⟩).exists_round hc.bound hgoes.2 hknown hcompile
  obtain ⟨hreason, hlanded, hleft⟩ := h.round hround hc hbudget
  -- There is one block, and it begins at the branch.
  have hone := (hs fun start _ => start = 0x1000).compile (fun _ _ => h.pc) hcompile
  rw [hround.compiled] at hone
  have hstarts := hone.withEnv (hround.left hc.register).zero hround.voyage.evolves
  rw [hround.loop_eq hgoes.1 hgoes.2, if_neg hreason]
  exact hlanded.loop hstarts hleft k

end Leaping

open Leaping in
/-- It takes the branch and stores the register. The block where it comes to does not compile. -/
theorem run_refines_interpreter_of_leaping :
    let s := (unused leaping unlinked).setState ((State.initial.set 8 42).set Slot.pc 0x1000)
    let result := Except.error (.compile (.fetch 0x5000 (.addressNotMapped 0x5000)))
    ∃ s₂ g cs c g', s.run 2 1000 = some (result, s₂) ∧ ¬ Faults result ∧
      (Bus.read .word 0x1030 s₂.env.bus).1 = .ok 42 ∧
      Guest.Reaches s.env ⟨0, 0⟩ g ∧ g.Agrees s.env ∧
      Guest.Run Bus.Finds Guest.interprets g cs c g' ∧ g'.Agrees s₂.env ∧
      s₂.env.state.downcount = Word.toInt 1000 - c := by
  intro s result
  have hcreate : create leaping unlinked = .ok (unused leaping unlinked) :=
    create_of_valid (by decide) (by decide) (by decide)
  have hplace : leaping.base.toNat + leaping.size ≤ UInt32.size := by decide
  have hhosted (_ : leaping.size < UInt32.size) : leaping.Hosted :=
    FlatMemory.hosted_of_pointer (by decide) rfl
  have hpoised : Poised s.env := ⟨rfl, rfl, rfl, rfl, rfl⟩
  obtain ⟨s₂, hrun, hlanded⟩ : ∃ s₂, s.run 2 1000 = some (result, s₂) ∧ Landed s₂.env := by
    obtain ⟨hc, hbacked⟩ := comparable_of_hosted (o := unlinked) hplace hhosted rfl (by decide)
    have hrunnable (known : UInt32 → FlatMemory → Prop) :
        (s.setState (s.env.state.set Slot.downcount 1000)).Runnable known := by
      have hsourced : (unused leaping unlinked).Sourced known := sourced_of_create hcreate
      exact ⟨⟨hsourced.ready, hsourced.coherent, hsourced.sourced⟩,
        Options.accepted_of_validate (by decide), by decide, rfl, hbacked⟩
    obtain ⟨hok, hshort⟩ := plan_eq_ok
    obtain ⟨n, hn⟩ := exists_compile_of_plan (hrunnable fun _ _ => True).levelled
      (.of_harmless FlatMemory.harmless leaping) hok
      (Nat.le_trans (Nat.add_le_add_left hshort _) (by decide))
    exact (hpoised.of_agrees (.setWord s.env (.inl rfl) 1000)).loop hrunnable hc (by decide) hn
      (by decide)
  have hresult : ¬ Faults result := by
    simp [Faults, result]
  have hstored : (Bus.read .word 0x1030 s₂.env.bus).1 = .ok 42 := by
    have hoffset : leapt.offset 0x1030 Width.word.size = .ok 0x30 := by decide
    have hbytes : leapt.run 0x30 Width.word.size = Word.bytes 42 := by
      simp [FlatMemory.run, leapt, FlatMemory.byte_store, List.range, List.range.loop, Word.bytes,
        Width.size]
    rw [hlanded.bus, FlatMemory.read_word hoffset hbytes]
  obtain ⟨g, cs, c, g', hrefines⟩ := run_refines_interpreter hcreate hplace hhosted rfl (by decide)
    (by decide) rfl .none hrun hresult (hpoised.steady _)
  exact ⟨s₂, g, cs, c, g', hrun, hresult, hstored, hrefines⟩

end Session

end Recompiler
