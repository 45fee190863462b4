import Recompiler.Proofs.Guest.Lasting
import Recompiler.Proofs.Session.Serving

/-!
# What the interpreter gets to see

Generated code calls the interpreter for instructions it has no code for. In whichever round of a run
it does so, over links or not, the guest state is that of a machine that interprets every instruction,
and the run goes on from what the interpreter or a handler left there.

* `Session.stages`, `Session.interpreted`: the rounds of a run, and their calls for interpretation.
* `Session.Executes`: the instructions that the blocks of the rounds were lowered from.
* `Session.Leaves`: what is left at the end of a run.
* `Session.Runnable.exists_interpretation`: the machine that interprets everything, by induction on the
  rounds.
* `Session.Recorded.interpreter_sees_guest`: what that means for a host.
-/

namespace Recompiler

variable {β : Type} [Bus β]

theorem Environment.ReadsTo.agrees (hharmless : Bus.Harmless β) {e e' : Environment β}
    (h : e.ReadsTo e') : e.Agrees e' :=
  ⟨fun slot _ _ => by rw [h.state], hharmless.eq_of_readsTo h.bus⟩

/-- Where reading is harmless, delay slots agree. -/
theorem BlockTable.slotsAgree_of_harmless (hharmless : Bus.Harmless β) (o : Options)
    (known : UInt32 → β → Prop) (b : Block) : SlotsAgree o known b :=
  fun _ _ _ _ _ _ _ _ hj hj' => hharmless.eq_of_finds hj.finds hj'.finds

namespace Session

variable {s s' : Session β} {known : UInt32 → β → Prop} {origin : UInt32 → β}

/-! ## Rounds -/

/-- The guest is to run, and there is some budget left. -/
def Goes (s : Session β) : Prop :=
  s.env.state.coreState = .running ∧ 0 ≤ s.env.state.downcount

instance (s : Session β) : Decidable s.Goes :=
  inferInstanceAs (Decidable (_ ∧ _))

/-- The session with which a round enters generated code, and the entry of the block. -/
def entering? (s : Session β) : Option (Session β × Nat) :=
  match s.compile s.env.state.pc with
  | (.error _, _) => none
  | (.ok n, s) => some (s, ((s.table.block? n).map (·.checkedEntry)).getD 0)

/-- The session that a round hands over to the next one. -/
def next? (s : Session β) : Option (Session β) := do
  let (s, entry) ← s.entering?
  let (reason, s) ← s.enter entry
  if reason = .hardFault then none else return s

/-- The sessions that the rounds of a run find, at most `rounds` of them. -/
def stages : (rounds : Nat) → Session β → List (Session β)
  | 0, _ => []
  | rounds + 1, s => if s.Goes then s :: (s.next?.map (stages rounds)).getD [] else []

/-- The sessions with which the rounds of a run enter generated code, at most `rounds` of them, each
with the guests that its blocks were lowered from. -/
def entering : (rounds : Nat) → Session β → (UInt32 → β) → List (Session β × (UInt32 → β))
  | 0, _, _ => []
  | rounds + 1, s, origin =>
    if s.Goes then
      match s.entering? with
      | none => []
      | some (s', _) =>
        (s', s.noted origin s.env.state.pc) ::
          (s.next?.map (entering rounds · (s.noted origin s.env.state.pc))).getD []
    else []

/-- The calls for interpretation that generated code makes in a round. Where the round is not over
within the bound of the machine, they are those of the first `fuel` steps at least. -/
def interpreted (s : Session β) (fuel : Nat) : List (Call β) :=
  match s.entering? with
  | none => []
  | some (s, entry) => s.callsWithin entry (max fuel s.stepBound)

/-- In one of the rounds the session has a block that was lowered from the instruction. -/
def Executes (s : Session β) (rounds : Nat) (origin : UInt32 → β) : β → UInt32 → Instruction → Prop :=
  fun _ pc i => ∃ x ∈ s.entering rounds origin, ∃ b ∈ x.1.table.blocks, x.1.LoweredFrom x.2 b pc i

/-- What is left at the end of a run, when a machine without generated code has come to `g`. -/
def Leaves (fetch : β → UInt32 → Instruction → Prop) (g e : Environment β) :
    Except SessionError RunExit → Prop
  | .error (.hardFault _ _) => ∃ g', Guest.Refuses fetch g g' ∧ g'.Agrees e
  | _ => g.Agrees e

/-! ### Rounds that are not entered -/

theorem loop_of_not_goes (h : ¬ s.Goes) (rounds : Nat) :
    ∃ exit events, s.loop (rounds + 1) = some (.ok exit, s.report events) := by
  by_cases hrunning : s.env.state.coreState = .running
  · have hspent : s.env.state.downcount < 0 := Int.not_le.1 fun hle => h ⟨hrunning, hle⟩
    exact ⟨.downcountExpired, [], loop_of_spent hrunning hspent rounds⟩
  · exact ⟨_, _, loop_of_halted hrunning rounds⟩

theorem loop_of_error (h : s.Goes) {e : SessionError}
    (hcompile : (s.compile s.env.state.pc).1 = .error e) (rounds : Nat) :
    s.loop (rounds + 1) = some (.error e, (s.compile s.env.state.pc).2) := by
  have hpair : s.compile s.env.state.pc = (.error e, (s.compile s.env.state.pc).2) :=
    Prod.ext hcompile rfl
  rw [loop]
  dsimp only
  rw [if_neg (not_not_intro h.1), if_neg (Int.not_lt.2 h.2), hpair]

theorem entering?_of_error {e : SessionError} (hcompile : (s.compile s.env.state.pc).1 = .error e) :
    s.entering? = none := by
  have hpair : s.compile s.env.state.pc = (.error e, (s.compile s.env.state.pc).2) :=
    Prod.ext hcompile rfl
  rw [entering?, hpair]

theorem stages_of_error (h : s.Goes) {e : SessionError}
    (hcompile : (s.compile s.env.state.pc).1 = .error e) (rounds : Nat) :
    s.stages (rounds + 1) = [s] := by
  rw [stages, if_pos h, next?, entering?_of_error hcompile]
  rfl

theorem interpreted_of_error {e : SessionError} (hcompile : (s.compile s.env.state.pc).1 = .error e)
    (fuel : Nat) : s.interpreted fuel = [] := by
  rw [interpreted, entering?_of_error hcompile]

/-! ### Rounds that are entered -/

/-- The run goes on with the session that a round hands over. -/
theorem loop_of_next? (h : s.Goes) (hnext : s.next? = some s') (rounds : Nat) :
    s.loop (rounds + 1) = s'.loop rounds ∧ s.stages (rounds + 1) = s :: s'.stages rounds := by
  refine ⟨?_, ?_⟩
  · rw [next?, entering?] at hnext
    rw [loop]
    dsimp only
    rw [if_neg (not_not_intro h.1), if_neg (Int.not_lt.2 h.2)]
    rcases hcompile : s.compile s.env.state.pc with ⟨_ | n, t⟩ <;> rw [hcompile] at hnext
    · cases hnext
    · simp only [Option.bind_eq_bind, Option.bind_some] at hnext
      obtain ⟨⟨reason, u⟩, henter, hrest⟩ := Option.bind_eq_some_iff.1 hnext
      dsimp only at hrest ⊢
      rw [henter]
      split at hrest
      · cases hrest
      · next hreason =>
        cases hrest
        cases reason <;> first | rfl | exact absurd rfl hreason
  · rw [stages, if_pos h, hnext]
    rfl

/-- The session with the guest that generated code leaves. -/
def returned (s : Session β) (entry : Nat) : Session β :=
  { s with env := ((s.left? entry).map (·.2)).getD s.env }

/-- The entry of the block with a number. -/
def entry (s : Session β) (n : Nat) : Nat :=
  ((s.table.block? n).map (·.checkedEntry)).getD 0

theorem next?_of_left {n : Nat} (hcompile : s.compile s.env.state.pc = (.ok n, s')) {reason : ExitReason}
    (hleft : (s'.left? (s'.entry n)).map (·.1) = some reason) (hreason : reason ≠ .hardFault) :
    s.entering? = some (s', s'.entry n) ∧ s.next? = some (s'.returned (s'.entry n)) := by
  have hentering : s.entering? = some (s', s'.entry n) := by
    rw [entering?, hcompile]
    rfl
  obtain ⟨⟨_, env⟩, hreturns, rfl⟩ := Option.map_eq_some_iff.1 hleft
  refine ⟨hentering, ?_⟩
  rw [next?, hentering, returned, hreturns]
  simp only [Option.bind_eq_bind, Option.bind_some, enter_eq_left, hreturns, Option.map_some,
    if_neg hreason]
  rfl

namespace Opens

variable {n : Nat} {b : Block}

theorem entering?_eq (h : s.Opens known n b s') : s.entering? = some (s', b.checkedEntry) := by
  rw [entering?, h.compiled]
  dsimp only
  rw [h.block]
  rfl

theorem interpreted_eq (h : s.Opens known n b s') (fuel : Nat) :
    s.interpreted fuel = s'.callsWithin b.checkedEntry (max fuel s'.stepBound) := by
  rw [interpreted, h.entering?_eq]

/-- The guest that enters the block is at its start, and was only read from. -/
theorem agrees (h : s.Opens known n b s') (hharmless : Bus.Harmless β) :
    s.env.Agrees s'.env ∧ s'.env.setWord Slot.pc b.start = s'.env := by
  refine ⟨h.reads.agrees hharmless, ?_⟩
  rw [h.start, ← h.reads.state]
  exact s'.env.setWord_get Slot.pc

theorem loop_of_enter_eq_none (h : s.Opens known n b s') (hgoes : s.Goes)
    (henter : s'.enter b.checkedEntry = none) (origin : UInt32 → β) (rounds : Nat) :
    s.loop (rounds + 1) = none ∧ s.stages (rounds + 1) = [s] ∧
      s.entering (rounds + 1) origin = [(s', s.noted origin s.env.state.pc)] := by
  have hnext : s.next? = none := by
    rw [next?, h.entering?_eq]
    simp [henter]
  refine ⟨?_, ?_, ?_⟩
  · rw [loop]
    dsimp only
    rw [if_neg (not_not_intro hgoes.1), if_neg (Int.not_lt.2 hgoes.2), h.compiled]
    dsimp only
    rw [h.block, Option.map_some, Option.getD_some, henter]
  · rw [stages, if_pos hgoes, hnext]
    rfl
  · rw [entering, if_pos hgoes, h.entering?_eq]
    dsimp only
    rw [hnext]
    rfl

end Opens

section Round

variable {n : Nat} {b : Block} {legs : List (BlockTable.Leg β)} {d : Departure β}

theorem Round.next?_eq (h : s.Round known n b s' legs d) :
    s.next? = if d.reason = .hardFault then none else some { s' with env := d.env } := by
  rw [next?, h.entering?_eq]
  simp only [Option.bind_eq_bind, Option.bind_some, h.enter]
  rfl

theorem Round.stages_eq (h : s.Round known n b s' legs d) (hgoes : s.Goes) (rounds : Nat) :
    s.stages (rounds + 1) =
      s :: if d.reason = .hardFault then [] else stages rounds { s' with env := d.env } := by
  rw [stages, if_pos hgoes, h.next?_eq]
  split <;> rfl

theorem Round.entering_eq (h : s.Round known n b s' legs d) (hgoes : s.Goes) (origin : UInt32 → β)
    (rounds : Nat) :
    s.entering (rounds + 1) origin =
      (s', s.noted origin s.env.state.pc) ::
        if d.reason = .hardFault then []
        else entering rounds { s' with env := d.env } (s.noted origin s.env.state.pc) := by
  rw [entering, if_pos hgoes, h.entering?_eq]
  dsimp only
  rw [h.next?_eq]
  split <;> rfl

end Round

/-! ## Runs -/

/-- The guest that a refused instruction leaves. -/
theorem exists_refuse (s : Session β) :
    ∃ pc word env, s.refuse = (.error (.hardFault pc word), { s with env := env }) ∧
      s.env.ReadsTo env := by
  obtain ⟨⟨state, bus, events⟩, table, options, regions⟩ := s
  exact ⟨_, _, _, rfl, rfl, Bus.ReadsTo.read .refl .word state.pc⟩

theorem Leaves.mono {fetch fetch' : β → UInt32 → Instruction → Prop} {g e : Environment β}
    {result : Except SessionError RunExit} (h : Leaves fetch g e result)
    (hfetch : ∀ b pc i, fetch b pc i → fetch' b pc i) : Leaves fetch' g e result := by
  cases result with
  | ok exit => exact h
  | error e =>
    cases e with
    | hardFault pc word =>
      obtain ⟨g', hrefuses, hagrees⟩ := h
      exact ⟨g', hrefuses.mono hfetch, hagrees⟩
    | _ => exact h

omit [Bus β] in
theorem leaves_ofFailure {fetch : β → UInt32 → Instruction → Prop} {g e : Environment β} {f : Failure}
    (h : g.Agrees e) : Leaves fetch g e (.error (.ofFailure f)) := by
  cases f <;> exact h

section Run

variable {n : Nat} {b : Block} {legs : List (BlockTable.Leg β)} {d : Departure β}

/-- A block of the session was lowered from the instruction. -/
def Contains (s : Session β) (known : UInt32 → β → Prop) : β → UInt32 → Instruction → Prop :=
  fun _ pc i => ∃ b ∈ s.table.blocks, b.Fetches s.options.maxBlockInstructions known pc i

theorem contains_of_fetched (hlegs : ∀ l ∈ legs, l.block ∈ s.table.blocks) (bus : β) (pc : UInt32)
    (i : Instruction) (hi : BlockTable.Fetched s.options known legs pc i) :
    s.Contains known bus pc i := by
  obtain ⟨l, hl, hfetches⟩ := hi
  exact ⟨l.block, hlegs l hl, hfetches⟩

/-- In a round a machine without generated code makes the same calls. The budget is less by the cycles
of its steps. -/
theorem Round.exists_run (h : s.Round known n b s' legs d) (hharmless : Bus.Harmless β) (fuel : Nat) :
    ∃ c g, Guest.Run (s'.Contains known) (performs s.options s.regions) s.env (s.interpreted fuel) c g ∧
      (d.reason = .hardFault → Guest.Refuses (s'.Contains known) g d.env) ∧
      (d.reason ≠ .hardFault → g.Agrees d.env ∧
        (36 * (s.options.maxBlockInstructions + 1) < 2 ^ 31 → Bus.Respects β Slot.downcount →
          0 ≤ s.env.state.downcount → d.env.state.downcount = s.env.state.downcount - c)) := by
  obtain ⟨hagrees, hstart⟩ := h.agrees hharmless
  obtain ⟨hoptions, hregions⟩ := h.settings
  have hcoherent := h.runnable.coherent
  have hcontains (bus : β) (pc : UInt32) (i : Instruction)
      (hi : BlockTable.Fetched s'.options known legs pc i) : s'.Contains known bus pc i :=
    contains_of_fetched (h.voyage.mem_blocks hcoherent (Array.mem_of_getElem? h.block)) bus pc i hi
  obtain ⟨c, g, hrun, hstops, hgoes⟩ := h.voyage.run hcoherent
    fun l _ => BlockTable.slotsAgree_of_harmless hharmless _ _ l.block
  rw [hstart, hoptions, hregions] at hrun
  refine ⟨c, g, ?_, fun hreason => ?_, fun hreason => ?_⟩
  · rw [h.interpreted_eq, h.calls _ (Nat.le_max_right _ _)]
    exact (hrun.of_agrees hagrees).mono (hoptions ▸ hcontains)
  · exact (hstops (Departure.reason_eq_hardFault.1 hreason)).mono hcontains
  · obtain ⟨hleft, hspent⟩ := hgoes fun hway => hreason (Departure.reason_eq_hardFault.2 hway)
    refine ⟨hleft, fun hbound hrespects hbudget => ?_⟩
    rw [hspent h.runnable.accepted (hoptions ▸ hbound) (fun _ => hrespects) (h.downcount hbudget),
      h.reads.state]

/-- So it does while control does not come back. -/
theorem Opens.exists_run (h : s.Opens known n b s') (hharmless : Bus.Harmless β)
    (hlegs : (∃ d, s'.table.Voyage s'.options.enableBlockLink
        (BlockTable.Courses s'.options s'.regions known) b s'.env legs d) ∨
      ∃ b' e', s'.table.Stretch s'.options.enableBlockLink
        (BlockTable.Courses s'.options s'.regions known) b s'.env legs b' e') :
    ∃ c g, Guest.Run (s'.Contains known) (performs s.options s.regions) s.env
      (legs.flatMap (·.departure.calls)) c g := by
  obtain ⟨hagrees, hstart⟩ := h.agrees hharmless
  obtain ⟨hoptions, hregions⟩ := h.settings
  have hcoherent := h.runnable.coherent
  have hb : b ∈ s'.table.blocks := Array.mem_of_getElem? h.block
  have hslots (l : BlockTable.Leg β) (_ : l ∈ legs) :
      BlockTable.SlotsAgree s'.options known l.block :=
    BlockTable.slotsAgree_of_harmless hharmless _ _ _
  obtain ⟨c, g, hrun⟩ : ∃ c g, Guest.Run (s'.Contains known) (performs s'.options s'.regions)
      (s'.env.setWord Slot.pc b.start) (legs.flatMap (·.departure.calls)) c g := by
    rcases hlegs with ⟨d, hvoyage⟩ | ⟨b', e', hstretch⟩
    · obtain ⟨c, g, hrun, -⟩ := hvoyage.run hcoherent hslots
      exact ⟨c, g, hrun.mono (contains_of_fetched (hvoyage.mem_blocks hcoherent hb))⟩
    · obtain ⟨c, g, hrun⟩ := hstretch.run hcoherent hslots
      exact ⟨c, g, hrun.mono (contains_of_fetched (hstretch.mem_blocks hcoherent hb))⟩
  rw [hstart, hoptions, hregions] at hrun
  exact ⟨c, g, hrun.of_agrees hagrees⟩

/-- A run does what a machine without generated code does, whether or not it comes to an end. -/
theorem Runnable.exists_interpretation (h : s.Runnable fun start bus => origin start = bus)
    (hregister : Bus.Maintains β 0 (· = 0)) (hharmless : Bus.Harmless β) (fuel rounds : Nat) :
    ∃ later c g, Guest.Run (s.Executes rounds origin) (performs s.options s.regions) s.env
        ((s.stages rounds).flatMap (·.interpreted fuel) ++ later) c g ∧
      ∀ result s', s.loop rounds = some (result, s') →
        later = [] ∧ Leaves (s.Executes rounds origin) g s'.env result := by
  -- By rounds of the loop. In each the machine does the steps of the legs, and then goes on.
  induction rounds generalizing s origin with
  | zero => exact ⟨[], 0, s.env, .refl (.refl _), fun _ _ hloop => by cases hloop⟩
  | succ rounds ih =>
    by_cases hgoes : s.Goes
    · cases hcompile : (s.compile s.env.state.pc).1 with
      | error e =>
        obtain ⟨f, rfl⟩ := exists_failure_of_compile hcompile
        have hreads := s.reads_compile s.env.state.pc
        rw [stages_of_error hgoes hcompile, List.flatMap_singleton, interpreted_of_error hcompile,
          loop_of_error hgoes hcompile]
        refine ⟨[], 0, s.env, .refl (.refl _), fun result s' hloop => ⟨rfl, ?_⟩⟩
        cases hloop
        exact leaves_ofFailure (hreads.agrees hharmless)
      | ok n =>
        obtain ⟨b, s₁, hopens⟩ := h.opens hcompile (h.toSourced.compile_noted hcompile)
        -- The blocks of this round are lowered from what is on record now.
        have hhere {entered : List (Session β × (UInt32 → β))}
            (hentered : s.entering (rounds + 1) origin = (s₁, s.noted origin s.env.state.pc) :: entered)
            (bus : β) (pc : UInt32) (i : Instruction)
            (hi : s₁.Contains (fun start bus => s.noted origin s.env.state.pc start = bus) bus pc i) :
            s.Executes (rounds + 1) origin bus pc i := by
          obtain ⟨b, hb, _, rfl, hword⟩ := hi
          exact ⟨(s₁, s.noted origin s.env.state.pc), hentered ▸ List.mem_cons_self, b, hb, hword⟩
        rcases hopens.exists_round_or hgoes.2 (max fuel s₁.stepBound) with
          ⟨legs, d, hround⟩ | ⟨henter, legs, hlegs, later, hlater⟩
        · obtain ⟨c, g, hrun, hstops, hleft⟩ := hround.exists_run hharmless fuel
          obtain ⟨hoptions, hregions⟩ := hround.settings
          have hentering := hround.entering_eq hgoes origin rounds
          rw [hround.stages_eq hgoes, hround.loop_eq hgoes.1 hgoes.2, List.flatMap_cons]
          by_cases hreason : d.reason = .hardFault
          · rw [if_pos hreason, if_pos hreason]
            refine ⟨[], c, g, by simpa using hrun.mono (hhere hentering),
              fun result s' hloop => ⟨rfl, ?_⟩⟩
            obtain ⟨pc, word, env, hrefuse, hreads⟩ := exists_refuse { s₁ with env := d.env }
            rw [hrefuse] at hloop
            cases hloop
            exact ⟨d.env, (hstops hreason).mono (hhere hentering), hreads.agrees hharmless⟩
          · rw [if_neg hreason, if_neg hreason]
            obtain ⟨later, c', g', hrun', hend⟩ := ih (hround.left hregister)
            -- What is executed later is executed in this run.
            have hlater (bus : β) (pc : UInt32) (i : Instruction)
                (hi : Executes { s₁ with env := d.env } rounds (s.noted origin s.env.state.pc) bus pc i) :
                s.Executes (rounds + 1) origin bus pc i := by
              obtain ⟨x, hx, hblock⟩ := hi
              rw [if_neg hreason] at hentering
              exact ⟨x, hentering ▸ List.mem_cons_of_mem _ hx, hblock⟩
            have hsame : (performs s₁.options s₁.regions : Guest.Effect β) =
                performs s.options s.regions := by rw [hoptions, hregions]
            refine ⟨later, c + c', g', ?_, fun result s' hloop => ?_⟩
            · rw [hsame] at hrun'
              rw [List.append_assoc]
              exact (hrun.mono (hhere hentering)).trans
                ((hrun'.mono hlater).of_agrees (hleft hreason).1)
            · exact ⟨(hend result s' hloop).1, (hend result s' hloop).2.mono hlater⟩
        -- Generated code may go on for longer than the fuel lasts. The loop comes to no end then.
        · obtain ⟨hloop, hstages, hentering⟩ :=
            hopens.loop_of_enter_eq_none hgoes henter origin rounds
          obtain ⟨c, g, hrun⟩ := hopens.exists_run hharmless hlegs
          rw [← hlater] at hrun
          rw [hstages, hloop, List.flatMap_singleton, hopens.interpreted_eq]
          exact ⟨later, c, g, hrun.mono (hhere hentering), fun _ _ hnone => by cases hnone⟩
    · obtain ⟨exit, events, hloop⟩ := loop_of_not_goes hgoes rounds
      rw [stages, if_neg hgoes, hloop]
      refine ⟨[], 0, s.env, .refl (.refl _), fun result s' hresult => ⟨rfl, ?_⟩⟩
      cases hresult
      exact ⟨fun _ _ _ => rfl, rfl⟩

end Run

/-- Whatever a host did before, as long as its failed compilations left the code alone: whenever
generated code calls the interpreter in a run, the guest state is that of a machine which interprets
one instruction after the other, and which goes on with the state that the interpreter or a handler
leaves. In the end the guest is as that machine leaves it. Its instructions are those that the blocks
of the session were lowered from, by the guests that are on record from the beginning of the session
to the rounds of this run.

The calls of all rounds are those of the machine, in order. Of a round that is not over within the
bound of the host they are those of any number of steps, and the machine may make more. -/
theorem Recorded.interpreter_sees_guest (hs : s.Recorded (fun _ => True) origin)
    (hintact : ¬ s.table.Damaged) (hreach : s.options.codeSize ≤ 0x80000000)
    (hfast : s.options.fastMemory = false) (hends : ∀ r ∈ s.regions, r.stop ≤ UInt32.size)
    (hzero : s.env.state.get 0 = 0) (hregister : Bus.Maintains β 0 (· = 0))
    (hharmless : Bus.Harmless β) (hbacked : Bus.Backed s.regions s.env.bus)
    (hmirrored : Bus.Mirrored s.regions s.env.bus) (cycles : UInt32) (fuel rounds : Nat) :
    let s₀ := s.setState (s.env.state.set Slot.downcount cycles)
    ∃ later c g, Guest.Run (s₀.Executes rounds origin) Guest.interprets s₀.env
        ((s₀.stages rounds).flatMap (·.interpreted fuel) ++ later) c g ∧
      ∀ result s', s.run rounds cycles = some (result, s') →
        later = [] ∧ Leaves (s₀.Executes rounds origin) g s'.env result := by
  intro s₀
  have hrunnable : s₀.Runnable fun start bus => origin start = bus :=
    hs.reachable.runnable (hs.sourced_of_intact hintact) hreach hzero hbacked cycles
  obtain ⟨later, c, g, hrun, hleaves⟩ :=
    hrunnable.exists_interpretation hregister hharmless fuel rounds
  have htable (b : β) (pc : UInt32) (i : Instruction) (hi : s₀.Executes rounds origin b pc i) :
      i.entry ∈ Entry.table := by
    obtain ⟨_, _, _, _, hword⟩ := hi
    exact hword.finds.mem_table
  have hmirrored₀ : Bus.Mirrored s₀.regions s₀.env.bus := hmirrored
  exact ⟨later, c, g, Guest.Run.interprets hfast hends hharmless htable hmirrored₀ hrun, hleaves⟩

/-- A guest that sets a register and makes a system call. The handler adds the code to the register, and
sends the guest elsewhere. -/
def echoing : HandledMemory where
  memory := .zeros 0x2000 64 (Linkage.memoryBase 0)
  word addr := if addr = 0x1000 then 0x24020041 else if addr = 0x1004 then 0x0000108C else 0
  handler code s := (s.setRegister 2 (s.get 2 + code)).set Slot.pc 0x2000
  zero _ s := (State.get_set_of_ne _ (by decide) _).trans (State.get_set_of_ne s (by decide) _)

/-- This guest before it sets the register. Its block was compiled before. -/
def echoed : Session HandledMemory :=
  ((unused echoing unlinked).withBlock 0x1000).setState (State.initial.set Slot.pc 0x1000)

/-- The system call finds the register, which was never stored before it, and the address behind it. The
guest goes on with what the handler leaves. -/
theorem interpreter_sees_guest_of_echoing :
    let origin := (unused echoing unlinked).noted (fun _ => echoing) 0x1000
    let s₀ := echoed.setState (echoed.env.state.set Slot.downcount 1)
    echoed.Recorded (fun _ => True) origin ∧ echoed.table.size = 1 ∧
    ((s₀.stages 2).flatMap (·.interpreted 0)).map
        (fun c => (c.word, c.env.state.pc, c.env.state.get 2)) = [(0x0000108C, 0x1008, 0x41)] ∧
    ∃ s', echoed.run 2 1 = some (.ok .downcountExpired, s') ∧
      s'.env.state.get 2 = 0x83 ∧ s'.env.state.pc = 0x2000 ∧
      ∃ c g, Guest.Run (s₀.Executes 2 origin) Guest.interprets s₀.env
          ((s₀.stages 2).flatMap (·.interpreted 0)) c g ∧
        Leaves (s₀.Executes 2 origin) g s'.env (.ok .downcountExpired) := by
  intro origin s₀
  have hcomputed : (unused echoing unlinked).Admits 0x1000 = true ∧ s₀.Goes ∧
      s₀.table.size = 1 ∧ ¬ s₀.table.spaceLeft < 8 ∧
      (s₀.left? (s₀.entry 0)).map (·.1) = some .dispatch ∧
      (s₀.returned (s₀.entry 0)).env.state.coreState = .running ∧
      (s₀.returned (s₀.entry 0)).env.state.downcount < 0 ∧
      (s₀.returned (s₀.entry 0)).env.state.get 2 = 0x83 ∧
      (s₀.returned (s₀.entry 0)).env.state.pc = 0x2000 ∧
      (s₀.callsWithin (s₀.entry 0) s₀.stepBound).map
        (fun c => (c.word, c.env.state.pc, c.env.state.get 2)) = [(0x0000108C, 0x1008, 0x41)] := by
    decide +kernel
  obtain ⟨hadmits, hgoes, hsize, hspace, hleft, hrunning, hspent, hregister, hpc, hcalls⟩ := hcomputed
  have hs : echoed.Recorded (fun _ => True) origin := (recorded_unused echoing rfl hadmits).write _
  have hbus : echoed.env.bus = echoing := by
    have hreads := reads_compile (unused echoing unlinked) 0x1000
    rw [compile_unused echoing rfl hadmits] at hreads
    have hsame := HandledMemory.harmless.eq_of_readsTo hreads.bus
    rw [echoed]
    generalize (unused echoing unlinked).withBlock 0x1000 = s at hsame ⊢
    exact hsame
  -- The block is looked up, and the budget is spent after it.
  have hlooked : s₀.compile s₀.env.state.pc = (.ok 0, s₀) :=
    compile_of_some ((number?_withBlock (unused echoing unlinked) 0x1000 0x1000).trans (if_pos rfl))
  obtain ⟨hentering, hnext⟩ := next?_of_left hlooked hleft (by decide)
  -- The session that is left gets a name, so that nothing evaluates it again.
  obtain ⟨s₁, hs₁⟩ : ∃ s₁, s₁ = s₀.returned (s₀.entry 0) := ⟨_, rfl⟩
  rw [← hs₁] at hrunning hspent hregister hpc hnext
  obtain ⟨hloop, hstages⟩ := loop_of_next? hgoes hnext 1
  have hover : s₁.stages 1 = [] := by
    rw [stages, if_neg fun hgoes => Int.not_le.2 hspent hgoes.2]
  have hinterpreted : (s₀.stages 2).flatMap (·.interpreted 0) =
      s₀.callsWithin (s₀.entry 0) s₀.stepBound := by
    rw [hstages, hover, List.flatMap_singleton, interpreted, hentering]
    dsimp only
    rw [Nat.zero_max]
  have hrun : echoed.run 2 1 = some (.ok .downcountExpired, s₁) :=
    hloop.trans (loop_of_spent hrunning hspent 0)
  have hhosted : echoing.memory.Hosted := FlatMemory.hosted_of_pointer (by decide) rfl
  have hregions : echoed.regions = Bus.fastRegions echoing := rfl
  obtain ⟨later, c, g, hsees, hleaves⟩ := hs.interpreter_sees_guest (fun hdamaged => hspace hdamaged.1)
    (by decide : unlinked.codeSize ≤ _) rfl (by rw [hregions]; decide +kernel) rfl
    (HandledMemory.respects.maintains _) HandledMemory.harmless
    (by rw [hregions, hbus]; exact HandledMemory.backed hhosted)
    (by rw [hregions, hbus]; exact HandledMemory.mirrored hhosted) 1 0 2
  obtain ⟨rfl, hleft⟩ := hleaves _ _ hrun
  rw [List.append_nil] at hsees
  exact ⟨hs, hsize, hinterpreted ▸ hcalls, s₁, hrun, hregister, hpc, c, g, hsees, hleft⟩

end Session

end Recompiler
