import Recompiler.Proofs.Block.Tour
import Recompiler.Proofs.Session.Planned

/-!
# One round of a run

In every round of a run a block is looked up or compiled, and entered. Compiling only reads from the
guest. What control does until it comes back is a voyage over the blocks of the table.

* `Environment.ReadsTo`: a guest that was only read from.
* `Session.reads_compile`: compiling only reads, whatever comes of it.
* `Session.Runnable`: what a session needs for its blocks to run.
* `Session.visited`, `Session.entered`: the machines and the blocks that control comes by.
* `Session.Round`, `Session.Runnable.exists_round`: one round of a run.
* `Session.Opens.exists_round_or`: what is known of control that does not come back.
-/

namespace Recompiler

variable {β : Type} [Bus β]

/-! ## Reading -/

/-- Reading is one of the things that may happen to a bus. -/
theorem Bus.ReadsTo.evolves {bus bus' : β} (h : ReadsTo bus bus') : Evolves bus bus' := by
  induction h with
  | refl => exact .refl _
  | read _ width addr ih => exact ih.trans (.does (.read _ width addr))

/-- The guest was read from, and nothing else happened to it but events. -/
structure Environment.ReadsTo (e e' : Environment β) : Prop where
  state : e'.state = e.state
  bus : Bus.ReadsTo e.bus e'.bus

namespace Environment.ReadsTo

variable {e e' e'' : Environment β}

theorem refl (e : Environment β) : e.ReadsTo e := ⟨rfl, .refl⟩

theorem trans (h : e.ReadsTo e') (h' : e'.ReadsTo e'') : e.ReadsTo e'' :=
  ⟨h'.state.trans h.state, h.bus.trans h'.bus⟩

end Environment.ReadsTo

namespace BlockTable

variable (t : BlockTable) (bus : β) (o : Options) (regions : List FastRegion) (start : UInt32)

/-- Lowering only reads, be the block lowered or not. -/
theorem readsTo_lower : Bus.ReadsTo bus (t.lower bus o regions start).2.bus := by
  -- Two runs from one bus end with one bus, and it stays one that reading leads to.
  have hmatched : Bus.Matched fun b b' : β => b' = b ∧ Bus.ReadsTo bus b := by
    rintro b _ ⟨rfl, hreads⟩ addr
    exact ⟨rfl, rfl, hreads.read .word addr⟩
  have hlower := @lower_elsewhere β _ t t bus bus o o regions start (.refl o) rfl _ hmatched
    ⟨rfl, .refl⟩
  exact hlower.2.2.2

theorem readsTo_compile : Bus.ReadsTo bus (t.compile bus o regions start).bus := by
  cases hfull : t.isFull with
  | true =>
    rw [compile_of_full hfull]
    exact .refl
  | false =>
    rw [bus_compile hfull]
    exact t.readsTo_lower bus o regions start

end BlockTable

namespace Session

theorem readsTo_dumpGuest (addr : UInt32) (count : Nat) (bus : β) :
    Bus.ReadsTo bus (dumpGuest addr count bus).2 := by
  induction count generalizing addr bus with
  | zero => exact .refl
  | succ count ih => exact (Bus.ReadsTo.read .refl .word addr).trans (ih _ _)

section Compile

variable (s : Session β) (addr : UInt32)

omit [Bus β] in
theorem reads_makeRoom [Bus β] : s.env.ReadsTo s.makeRoom.env := by
  rw [makeRoom]
  split
  · exact ⟨rfl, .refl⟩
  · exact .refl _

theorem reads_compileBlock : s.env.ReadsTo (s.compileBlock addr).2.env :=
  ⟨rfl, s.table.readsTo_compile _ _ _ addr⟩

theorem reads_compileRetrying : s.env.ReadsTo (s.compileRetrying addr).2.env := by
  have hblock := s.reads_compileBlock addr
  by_cases hexhausted : (s.compileBlock addr).1 = .error (.compile .codeSpaceExhausted)
  · rw [compileRetrying_of_exhausted hexhausted]
    have hretried : s.env.ReadsTo (s.retried addr).env := ⟨hblock.state, hblock.bus⟩
    exact hretried.trans ((s.retried addr).reads_compileBlock addr)
  · rw [compileRetrying_of_not_exhausted hexhausted]
    exact hblock

theorem reads_dumpBlock (n : Nat) : s.env.ReadsTo (s.dumpBlock n).env := by
  unfold dumpBlock
  split
  · exact .refl _
  · exact ⟨rfl, readsTo_dumpGuest _ _ _⟩

/-- Compiling only reads from the guest, whatever comes of it. -/
theorem reads_compile : s.env.ReadsTo (s.compile addr).2.env := by
  cases hnumber : s.table.number? addr with
  | some n =>
    rw [compile_of_some hnumber]
    exact .refl _
  | none =>
    have hcompile := s.reads_makeRoom.trans (s.makeRoom.reads_compileRetrying addr)
    rw [compile, hnumber]
    rcases hc : s.makeRoom.compileRetrying addr with ⟨_ | n, s'⟩ <;> rw [hc] at hcompile
    · exact hcompile
    · dsimp only at hcompile ⊢
      split
      · exact hcompile.trans (s'.reads_dumpBlock n)
      · exact hcompile

end Compile

variable {s : Session β} {known : UInt32 → β → Prop}

/-- The number that compiling gives is that of a block at the address. -/
theorem Sourced.exists_block (h : s.Sourced known) {addr : UInt32} {n : Nat}
    (hresult : (s.compile addr).1 = .ok n) :
    ∃ b, (s.compile addr).2.table.block? n = some b ∧ b.start = addr := by
  cases hnumber : s.table.number? addr with
  | some m =>
    rw [compile_of_some hnumber] at hresult ⊢
    obtain rfl : m = n := Except.ok.inj hresult
    exact (h.coherent.indexed addr m).1 hnumber
  | none =>
    obtain ⟨t, ht, hfits, hnone, hattempt, htable⟩ := exists_attempt h.ready.toFits hnumber
    have hcompile := result_of_attempt (hattempt.symm.trans hresult)
    obtain ⟨-, ⟨b, hb, hstart, -⟩, -⟩ :=
      BlockTable.holds_compile hfits.toSound hfits.standard (h.attempt ht).1 hnone hcompile
    obtain ⟨-, -, -, rfl, -⟩ := BlockTable.compile_eq_ok hcompile
    rw [htable]
    exact ⟨b, hb, hstart⟩

/-! ## Sessions that run -/

/-- What a session needs for its blocks to run: jumps within reach, register zero, and regions in host
memory. -/
structure Runnable (known : UInt32 → β → Prop) (s : Session β) : Prop extends s.Sourced known where
  accepted : s.options.Accepted s.regions
  reach : s.options.codeSize ≤ 0x80000000
  zero : s.env.state.get 0 = 0
  backed : Bus.Backed s.regions s.env.bus

namespace Runnable

theorem size_le (h : s.Runnable known) : s.table.code.size ≤ 0x80000000 :=
  Nat.le_trans h.ready.room (Nat.le_trans (Nat.le_of_eq h.ready.codeSize) h.reach)

/-- More may be known. -/
theorem mono (h : s.Runnable known) {known' : UInt32 → β → Prop}
    (hknown : ∀ start bus, known start bus → known' start bus) : s.Runnable known' where
  toSourced := h.toSourced.mono hknown
  accepted := h.accepted
  reach := h.reach
  zero := h.zero
  backed := h.backed

/-- A session runs as well with another guest. -/
theorem withEnv (h : s.Runnable known) {env : Environment β} (hzero : env.state.get 0 = 0)
    (hevolves : Bus.Evolves s.env.bus env.bus) : Runnable known { s with env := env } where
  toSourced := ⟨h.ready, h.coherent, h.sourced⟩
  accepted := h.accepted
  reach := h.reach
  zero := hzero
  backed := h.backed.evolves hevolves

/-- Compiling a block leaves a session that runs, if it is sourced. -/
theorem of_compile (h : s.Runnable known) {known' : UInt32 → β → Prop} {addr : UInt32}
    (hsourced : (s.compile addr).2.Sourced known') : (s.compile addr).2.Runnable known' := by
  have hreads := s.reads_compile addr
  refine ⟨hsourced, ?_, ?_, ?_, ?_⟩
  · rw [options_compile, regions_compile]
    exact h.accepted
  · rw [options_compile]
    exact h.reach
  · rw [hreads.state]
    exact h.zero
  · rw [regions_compile]
    exact h.backed.evolves hreads.bus.evolves

/-- So it is if the guest is known that the block is lowered from. -/
theorem compile_lowered (h : s.Runnable known) {addr : UInt32} {n : Nat}
    (hknown : s.table.number? addr = none → known addr (s.lowered addr))
    (hresult : (s.compile addr).1 = .ok n) : (s.compile addr).2.Runnable known :=
  h.of_compile (h.toSourced.compile_lowered hknown hresult)

theorem compile (h : s.Runnable known) {addr : UInt32} {n : Nat}
    (hknown : ∀ bus, Bus.ReadsTo s.env.bus bus → known addr bus)
    (hresult : (s.compile addr).1 = .ok n) : (s.compile addr).2.Runnable known :=
  h.compile_lowered (fun _ => hknown _ (h.toSourced.readsTo_lowered addr)) hresult

end Runnable

/-- Whatever a host did before, a session runs with any budget. -/
theorem Reachable.runnable {allowed : SessionError → Prop} (hs : s.Reachable allowed)
    (hsourced : s.Sourced known) (hreach : s.options.codeSize ≤ 0x80000000)
    (hzero : s.env.state.get 0 = 0) (hbacked : Bus.Backed s.regions s.env.bus) (cycles : UInt32) :
    Runnable known (s.setState (s.env.state.set Slot.downcount cycles)) where
  toSourced := ⟨hsourced.ready, hsourced.coherent, hsourced.sourced⟩
  accepted := Options.accepted_of_validate hs.validate
  reach := hreach
  zero := (State.get_set_of_ne _ (by decide) _).trans hzero
  backed := hbacked

/-! ## Entering a block -/

/-- The machine that the host enters generated code with. -/
def machine (s : Session β) (entry : Nat) : HostMachine β :=
  .start s.env s.memoryBase s.table.stubs.enter entry

/-- What generated code leaves when it is entered: the reason to return, and the guest. -/
def left? (s : Session β) (entry : Nat) : Option (ExitReason × Environment β) := do
  let m ← (s.machine entry).run s.table.code s.stepBound
  let reason ← ExitReason.ofWord? (m.getWord .rax)
  return (reason, m.env)

theorem enter_eq_left (s : Session β) (entry : Nat) :
    s.enter entry = (s.left? entry).map fun left => (left.1, { s with env := left.2 }) := by
  change (do
    let m ← (s.machine entry).run s.table.code s.stepBound
    let reason ← ExitReason.ofWord? (m.getWord .rax)
    return (reason, { s with env := m.env })) = _
  rw [left?]
  cases (s.machine entry).run s.table.code s.stepBound with
  | none => rfl
  | some m =>
    simp only [Option.bind_eq_bind, Option.bind_some]
    cases ExitReason.ofWord? (m.getWord .rax) <;> rfl

/-- The machines that control comes by, from a call with an entry until it returns. -/
def visited (s : Session β) (entry : Nat) : List (HostMachine β) :=
  HostMachine.visits s.table.code s.stepBound (s.machine entry)

/-- The blocks that are entered meanwhile, over links too, each with the guest it finds. -/
def entered (s : Session β) (entry : Nat) : List (Block × Environment β) :=
  (s.visited entry).filterMap s.table.entered?

/-- The calls for interpretation that generated code makes in its first `fuel` steps. -/
def callsWithin (s : Session β) (entry fuel : Nat) : List (Call β) :=
  (HostMachine.visits s.table.code fuel (s.machine entry)).filterMap
    (HostMachine.call? s.table.code)

omit [Bus β] in
theorem called_machine [Bus β] (s : Session β) (entry : Nat) :
    (s.machine entry).Called s.regions entry := by
  refine HostMachine.called_start (fun r hr => ?_) _ _ _
  unfold memoryBase
  cases hregions : s.regions with
  | nil => simp [hregions] at hr
  | cons main rest =>
    rw [hregions] at hr
    exact congrArg FastRegion.pointer (Option.some.inj hr)

end Session

namespace HostMachine

variable {code : Arena} {k : Nat} {m q r : HostMachine β}

/-- A machine that returns does so with any more fuel, and comes by the same machines. -/
theorem run_of_returned (h : Steps code k m q) (hreturned : q.step code = some (.returned r))
    {fuel : Nat} (hfuel : k < fuel) :
    m.run code fuel = some r ∧ visits code fuel m = visits code (k + 1) m := by
  obtain ⟨j, rfl⟩ : ∃ j, fuel = k + (j + 1) := ⟨fuel - k - 1, by omega⟩
  have hlast (i : Nat) : visits code (i + 1) q = [q] := by rw [visits, hreturned]
  refine ⟨?_, ?_⟩
  · rw [h.run, run, hreturned]
  · rw [h.visits, h.visits 1, hlast, hlast]

/-- A machine that goes on gives no answer. -/
theorem run_eq_none (h : Steps code k m q) {fuel : Nat} (hfuel : fuel ≤ k) : m.run code fuel = none := by
  induction fuel generalizing m k with
  | zero => rfl
  | succ fuel ih =>
    obtain ⟨k, rfl⟩ : ∃ j, k = j + 1 := ⟨k - 1, by omega⟩
    obtain ⟨p, hstep, hrest⟩ := h
    rw [run, hstep]
    exact ih hrest (by omega)

/-- A machine returns in one way. -/
theorem eq_of_run (h : Steps code k m q) (hreturned : q.step code = some (.returned r)) {fuel : Nat}
    {r' : HostMachine β} (hrun : m.run code fuel = some r') : r = r' := by
  by_cases hfuel : k < fuel
  · exact Option.some.inj ((run_of_returned h hreturned hfuel).1.symm.trans hrun)
  · rw [run_eq_none h (Nat.not_lt.1 hfuel)] at hrun
    cases hrun

/-- With more fuel control comes by the same machines first. -/
theorem visits_prefix (code : Arena) (m : HostMachine β) {j k : Nat} (hjk : j ≤ k) :
    visits code j m <+: visits code k m := by
  induction j generalizing m k with
  | zero => exact List.nil_prefix
  | succ j ih =>
    obtain ⟨k, rfl⟩ : ∃ i, k = i + 1 := ⟨k - 1, by omega⟩
    rw [visits, visits, List.prefix_cons_inj]
    split
    · exact ih _ (by omega)
    · exact List.prefix_rfl

end HostMachine

namespace Session

variable {s : Session β} {known : UInt32 → β → Prop}

/-- The answer of the machine is the answer of the session. -/
theorem enter_of_answers {entry k : Nat} {cs : List (Call β)}
    {es : List (Block × Environment β)} {r : HostMachine β} {reason : ExitReason}
    (h : s.table.Answers k cs es (s.machine entry) r) (hfuel : k < s.stepBound)
    (hreason : r.getWord .rax = reason.toWord) :
    s.enter entry = some (reason, { s with env := r.env }) ∧ s.entered entry = es ∧
      ∀ fuel, s.stepBound ≤ fuel → s.callsWithin entry fuel = cs := by
  obtain ⟨q, hsteps, hreturned⟩ := h.returned
  obtain ⟨hrun, hvisits⟩ := HostMachine.run_of_returned hsteps hreturned hfuel
  refine ⟨?_, ?_, fun fuel hle => ?_⟩
  rotate_left
  · rw [entered, visited, hvisits]
    exact h.entries
  · obtain ⟨-, hvisits⟩ := HostMachine.run_of_returned hsteps hreturned (Nat.lt_of_lt_of_le hfuel hle)
    rw [callsWithin, hvisits]
    exact h.calls
  have hword : ExitReason.ofWord? (r.getWord .rax) = some reason := by
    rw [hreason, ExitReason.ofWord?_toWord]
  rw [enter_eq_left, left?, hrun, Option.bind_eq_bind, Option.bind_some, hword]
  rfl

/-- There is no answer as long as control goes on. -/
theorem enter_eq_none {entry k : Nat} {q : HostMachine β}
    (h : HostMachine.Steps s.table.code k (s.machine entry) q) (hfuel : s.stepBound ≤ k) :
    s.enter entry = none := by
  rw [enter_eq_left, left?, HostMachine.run_eq_none h hfuel]
  rfl

omit [Bus β] in
/-- A voyage with less blocks than there is budget left is over before the bound. -/
theorem lt_stepBound {legs k : Nat} (hlegs : legs ≤ s.env.state.downcount.toNat + 1)
    (hcode : 112 ≤ s.table.code.size) (hk : k ≤ legs * s.table.code.size + 51) : k < s.stepBound := by
  have hmul := Nat.mul_le_mul_right s.table.code.size hlegs
  have hbound : s.stepBound = (s.env.state.downcount.toNat + 1) * s.table.code.size +
      s.table.code.size + s.env.state.downcount.toNat + 2 := by
    rw [stepBound, Nat.mul_add_one, Nat.succ_mul (_ + 1)]
    omega
  omega

/-! ## Rounds -/

/-- A run of a guest that is not to run is over. -/
theorem loop_of_halted (h : s.env.state.coreState ≠ .running) (rounds : Nat) :
    s.loop (rounds + 1) = some (.ok (.coreStateChanged s.env.state.coreState),
      s.report [.coreStateChanged s.env.state.coreState s.env.state.pc]) := by
  rw [loop]
  dsimp only
  rw [if_pos h]

/-- A run is over once the budget is spent. -/
theorem loop_of_spent (hrunning : s.env.state.coreState = .running)
    (hspent : s.env.state.downcount < 0) (rounds : Nat) :
    s.loop (rounds + 1) = some (.ok .downcountExpired, s) := by
  rw [loop]
  dsimp only
  rw [if_neg (not_not_intro hrunning), if_pos hspent]

/-- The beginning of a round of a run: the block `b` with number `n` is looked up or compiled, which
leads to `s'`. -/
structure Opens (known : UInt32 → β → Prop) (s : Session β) (n : Nat) (b : Block) (s' : Session β) :
    Prop where
  compiled : s.compile s.env.state.pc = (.ok n, s')
  block : s'.table.block? n = some b
  start : b.start = s.env.state.pc
  runnable : s'.Runnable known
  reads : s.env.ReadsTo s'.env

/-- A round of a run: the block is entered, and control comes back after the blocks on the way `legs`,
with `d`. -/
structure Round (known : UInt32 → β → Prop) (s : Session β) (n : Nat) (b : Block) (s' : Session β)
    (legs : List (BlockTable.Leg β)) (d : Departure β) : Prop extends s.Opens known n b s' where
  voyage : s'.table.Voyage s'.options.enableBlockLink
    (BlockTable.Courses s'.options s'.regions known) b s'.env legs d
  enter : s'.enter b.checkedEntry = some (d.reason, { s' with env := d.env })
  entered : s'.entered b.checkedEntry = legs.map fun l => (l.block, l.env)
  calls : ∀ fuel, s'.stepBound ≤ fuel →
    s'.callsWithin b.checkedEntry fuel = legs.flatMap (·.departure.calls)

theorem Runnable.opens (h : s.Runnable known) {known' : UInt32 → β → Prop} {n : Nat}
    (hresult : (s.compile s.env.state.pc).1 = .ok n)
    (hsourced : (s.compile s.env.state.pc).2.Sourced known') : ∃ b s', s.Opens known' n b s' := by
  obtain ⟨b, hb, hstart⟩ := h.toSourced.exists_block hresult
  exact ⟨b, (s.compile s.env.state.pc).2, Prod.ext hresult rfl, hb, hstart, h.of_compile hsourced,
    s.reads_compile _⟩

theorem Runnable.exists_opens (h : s.Runnable known)
    (hknown : ∀ bus, Bus.ReadsTo s.env.bus bus → known s.env.state.pc bus) {n : Nat}
    (hresult : (s.compile s.env.state.pc).1 = .ok n) : ∃ b s', s.Opens known n b s' :=
  h.opens hresult (h.compile hknown hresult).toSourced

namespace Opens

variable {s' : Session β} {n : Nat} {b : Block}

theorem settings (h : s.Opens known n b s') : s'.options = s.options ∧ s'.regions = s.regions := by
  have hoptions := s.options_compile s.env.state.pc
  have hregions := s.regions_compile s.env.state.pc
  rw [h.compiled] at hoptions hregions
  exact ⟨hoptions, hregions⟩

theorem downcount (h : s.Opens known n b s') (hbudget : 0 ≤ s.env.state.downcount) :
    0 ≤ s'.env.state.downcount :=
  h.reads.state ▸ hbudget

/-- A call that returns before the bound makes a round. -/
theorem round (h : s.Opens known n b s') {legs : List (BlockTable.Leg β)} {d : Departure β} {k : Nat}
    {r : HostMachine β}
    (hvoyage : s'.table.Voyage s'.options.enableBlockLink
      (BlockTable.Courses s'.options s'.regions known) b s'.env legs d)
    (hanswers : s'.table.Answers k (legs.flatMap (·.departure.calls))
      (legs.map fun l => (l.block, l.env)) (s'.machine b.checkedEntry) r)
    (hr : r.env = d.env) (hreturns : Stubs.Returns d.reason (s'.machine b.checkedEntry) r)
    (hfuel : k < s'.stepBound) : s.Round known n b s' legs d := by
  obtain ⟨henter, hentered, hcalls⟩ := enter_of_answers hanswers hfuel hreturns.reason
  rw [hr] at henter
  exact ⟨h, hvoyage, henter, hentered, hcalls⟩

theorem traversed (h : s.Opens known n b s') : s'.table.Traversed s'.options s'.regions known
    (BlockTable.Courses s'.options s'.regions known) :=
  h.runnable.coherent.traversed h.runnable.accepted h.runnable.ready.standard h.runnable.size_le
    h.runnable.sourced

/-- Control that enters the block comes back, or goes on to any number of blocks, as the blocks of the
table do. -/
theorem exists_return_or_stretch (h : s.Opens known n b s')
    {course : Block → Environment β → Departure β → Prop}
    (htraversed : s'.table.Traversed s'.options s'.regions known course)
    (hbudget : 0 ≤ s.env.state.downcount) (count : Nat) :
    (∃ legs d k r, s'.table.Voyage s'.options.enableBlockLink course b s'.env legs d ∧
      s'.table.Answers k (legs.flatMap (·.departure.calls)) (legs.map fun l => (l.block, l.env))
        (s'.machine b.checkedEntry) r ∧
      r.env = d.env ∧ Stubs.Returns d.reason (s'.machine b.checkedEntry) r ∧
      k ≤ legs.length * s'.table.code.size + 51) ∨
    ∃ legs b' e' f k, ∃ p : HostMachine β,
      s'.table.Stretch s'.options.enableBlockLink course b s'.env legs b' e' ∧ legs.length = count ∧
      s'.table.Tours f k (legs.flatMap (·.departure.calls)) (legs.map fun l => (l.block, l.env))
        (s'.machine b.checkedEntry) p ∧ count ≤ k := by
  have hrunnable := h.runnable
  have hstubs : s'.table.stubs = Stubs.standard := hrunnable.ready.standard
  have hip : (s'.machine b.checkedEntry).ip = Stubs.standard.enter := by
    rw [machine, hstubs]
    rfl
  have henv : (s'.machine b.checkedEntry).env = s'.env := rfl
  have hreturn := hrunnable.coherent.exists_return_or_stretch hrunnable.accepted
    hrunnable.size_le hrunnable.sourced htraversed (Array.mem_of_getElem? h.block)
    (s'.called_machine _) hip (henv ▸ hrunnable.zero) (henv ▸ hrunnable.backed)
    (henv ▸ h.downcount hbudget) count
  rwa [henv] at hreturn

/-- Control that enters the block comes back before the bound, if a block cannot overspend by more than
there is. -/
theorem exists_return (h : s.Opens known n b s')
    {course : Block → Environment β → Departure β → Prop}
    (htraversed : s'.table.Traversed s'.options s'.regions known course)
    (hbound : 36 * (s.options.maxBlockInstructions + 1) < 2 ^ 31)
    (hbudget : 0 ≤ s.env.state.downcount) :
    ∃ legs d k r, s'.table.Voyage s'.options.enableBlockLink course b s'.env legs d ∧
      s'.table.Answers k (legs.flatMap (·.departure.calls)) (legs.map fun l => (l.block, l.env))
        (s'.machine b.checkedEntry) r ∧
      r.env = d.env ∧ Stubs.Returns d.reason (s'.machine b.checkedEntry) r ∧ k < s'.stepBound := by
  have hrunnable := h.runnable
  have hleft := h.downcount hbudget
  rw [← h.settings.1] at hbound
  rcases h.exists_return_or_stretch htraversed hbudget (s'.env.state.downcount.toNat + 1) with
    ⟨legs, d, k, r, hvoyage, hanswers, hr, hreturns, hk⟩ |
    ⟨legs, b', e', f, k, p, hstretch, hcount, -, -⟩
  · obtain ⟨-, b', e', -, -, hnonneg, hlength⟩ := (hvoyage.mono htraversed.courses).exists_last
      hrunnable.accepted hbound hrunnable.coherent hleft
    exact ⟨legs, d, k, r, hvoyage, hanswers, hr, hreturns,
      lt_stepBound (by omega) hrunnable.ready.stubs hk⟩
  · obtain ⟨hnonneg, hlength⟩ := (hstretch.mono htraversed.courses).budget
      hrunnable.accepted hbound hrunnable.coherent hleft
    omega

end Opens

/-- A round comes about unless the block does not compile. -/
theorem Runnable.exists_round (h : s.Runnable known)
    (hbound : 36 * (s.options.maxBlockInstructions + 1) < 2 ^ 31)
    (hbudget : 0 ≤ s.env.state.downcount)
    (hknown : ∀ bus, Bus.ReadsTo s.env.bus bus → known s.env.state.pc bus) {n : Nat}
    (hresult : (s.compile s.env.state.pc).1 = .ok n) :
    ∃ b s' legs d, s.Round known n b s' legs d := by
  obtain ⟨b, s', hopens⟩ := h.exists_opens hknown hresult
  obtain ⟨legs, d, k, r, hvoyage, hanswers, hr, hreturns, hfuel⟩ :=
    hopens.exists_return hopens.traversed hbound hbudget
  exact ⟨b, s', legs, d, hopens.round hvoyage hanswers hr hreturns hfuel⟩

/-- Unless a round comes about there is no answer. Then the calls are those of blocks on the way, as far
as one looks. -/
theorem Opens.exists_round_or {n : Nat} {b : Block} {s' : Session β} (h : s.Opens known n b s')
    (hbudget : 0 ≤ s.env.state.downcount) (fuel : Nat) :
    (∃ legs d, s.Round known n b s' legs d) ∨
      s'.enter b.checkedEntry = none ∧ ∃ legs : List (BlockTable.Leg β),
        ((∃ d, s'.table.Voyage s'.options.enableBlockLink
            (BlockTable.Courses s'.options s'.regions known) b s'.env legs d) ∨
          ∃ b' e', s'.table.Stretch s'.options.enableBlockLink
            (BlockTable.Courses s'.options s'.regions known) b s'.env legs b' e') ∧
        s'.callsWithin b.checkedEntry fuel <+: legs.flatMap (·.departure.calls) := by
  rcases h.exists_return_or_stretch h.traversed hbudget (max fuel s'.stepBound) with
    ⟨legs, d, k, r, hvoyage, hanswers, hr, hreturns, -⟩ |
    ⟨legs, b', e', f, k, p, hstretch, -, htours, hk⟩
  · by_cases hfuel : k < s'.stepBound
    · exact .inl ⟨legs, d, h.round hvoyage hanswers hr hreturns hfuel⟩
    · obtain ⟨q, hsteps, hreturned⟩ := hanswers.returned
      refine .inr ⟨enter_eq_none hsteps (by omega), legs, .inl ⟨d, hvoyage⟩, ?_⟩
      rw [← hanswers.calls]
      refine List.IsPrefix.filterMap _ ?_
      by_cases hlate : k < fuel
      · exact (HostMachine.run_of_returned hsteps hreturned hlate).2.symm ▸ List.prefix_rfl
      · exact HostMachine.visits_prefix _ _ (by omega)
  · refine .inr ⟨enter_eq_none htours.steps (by omega), legs, .inr ⟨b', e', hstretch⟩, ?_⟩
    rw [← htours.calls]
    exact List.IsPrefix.filterMap _ (HostMachine.visits_prefix _ _ (by omega))

namespace Round

variable {s' : Session β} {n : Nat} {b : Block} {legs : List (BlockTable.Leg β)} {d : Departure β}

/-- After a round the run goes on with the next, unless an instruction was refused. -/
theorem loop_eq (h : s.Round known n b s' legs d) (hrunning : s.env.state.coreState = .running)
    (hbudget : 0 ≤ s.env.state.downcount) (rounds : Nat) :
    s.loop (rounds + 1) =
      if d.reason = .hardFault then some (refuse { s' with env := d.env })
      else loop rounds { s' with env := d.env } := by
  rw [loop]
  dsimp only
  rw [if_neg (not_not_intro hrunning), if_neg (Int.not_lt.2 hbudget), h.compiled]
  dsimp only
  rw [h.block, Option.map_some, Option.getD_some, h.enter]
  generalize d.reason = reason
  cases reason <;> rfl

/-- The session is left with its register zero, and with regions in host memory. -/
theorem left (h : s.Round known n b s' legs d) (hregister : Bus.Maintains β 0 (· = 0)) :
    Runnable known { s' with env := d.env } :=
  h.runnable.withEnv (h.voyage.zero hregister h.runnable.zero) h.voyage.evolves

end Round

end Session

end Recompiler
