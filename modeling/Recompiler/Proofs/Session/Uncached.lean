import Recompiler.Proofs.Block.Rereading
import Recompiler.Proofs.Session.Twins

/-!
# A machine without compiled code

A machine that keeps no blocks lowers the block at the program counter from memory whenever it comes
there. It is told by two of the options only: how memory is accessed, and how long a block may be. What
it does is what the host is to see of a session, however many blocks that has room for.

* `Uncached.Steps`: what one block does.
* `Uncached.Runs`: a run, block by block, and how it ends.
* `Uncached.exists_runs`: every run ends, by induction on the budget.
* `Uncached.Serves`: what a request comes to.
* `Uncached.Visits`, `Uncached.Steady`: the blocks on the way, and that their words stay.
-/

namespace Recompiler

variable {β : Type} [Bus β]

/-! ## Guests -/

namespace Environment

/-- The guest is to run, and there is some budget left. -/
def Goes (e : Environment β) : Prop :=
  e.state.coreState = .running ∧ 0 ≤ e.state.downcount

/-- How a run ends that is over. -/
def exit? (e : Environment β) : Option RunExit :=
  if e.state.coreState ≠ .running then some (.coreStateChanged e.state.coreState)
  else if e.state.downcount < 0 then some .downcountExpired
  else none

/-- How a run ends at an instruction that is refused. -/
def refusal (e : Environment β) : SessionError :=
  .hardFault e.state.pc <|
    match (Bus.read .word e.state.pc e.bus).1 with
    | .ok word => word
    | .error _ => 0

omit [Bus β] in
theorem exit?_eq_none {e : Environment β} : e.exit? = none ↔ e.Goes := by
  unfold exit? Goes
  split
  · next h => simp [h]
  · next h =>
    rw [not_not] at h
    split
    · next hspent => simp [h, Int.not_le.2 hspent]
    · next hleft => simp [h, Int.not_lt.1 hleft]

end Environment

/-- The host asks for a block or a run. -/
def Request.Asks : Request β → Prop
  | compile _ | run _ _ => True
  | _ => False

namespace Uncached

variable (o : Options) (regions : List FastRegion)

/-! ## The machine -/

/-- The block at the program counter is lowered from memory, and does `d` to the guest. -/
structure Steps (e : Environment β) (d : Departure β) : Prop where
  lowers : (Lower.afresh o regions e.bus e.state.pc).1 = .ok ()
  follows : d.Follows regions (Lower.bodyCode o regions e.bus e.state.pc) e

/-- The machine comes from one guest to another before the run ends. -/
inductive Comes : Environment β → Environment β → Prop
  | refl (e : Environment β) : Comes e e
  | block {e g : Environment β} {d : Departure β} (hgoes : e.Goes) (hstep : Steps o regions e d)
      (hreason : d.reason ≠ .hardFault) (hrest : Comes d.env g) : Comes e g

/-- The machine runs until the budget is spent, the guest stops, or there is no block to run. -/
inductive Runs : Environment β → Except SessionError RunExit → Environment β → Prop
  | ended {e : Environment β} {exit : RunExit} (hexit : e.exit? = some exit) : Runs e (.ok exit) e
  | unreadable {e : Environment β} {f : Failure} (hgoes : e.Goes)
      (hlowers : (Lower.afresh o regions e.bus e.state.pc).1 = .error f) :
    Runs e (.error (.ofFailure f)) e
  | refused {e : Environment β} {d : Departure β} (hgoes : e.Goes) (hstep : Steps o regions e d)
      (hreason : d.reason = .hardFault) : Runs e (.error d.env.refusal) d.env
  | block {e e' : Environment β} {d : Departure β} {result : Except SessionError RunExit}
      (hgoes : e.Goes) (hstep : Steps o regions e d) (hreason : d.reason ≠ .hardFault)
      (hrest : Runs d.env result e') : Runs e result e'

/-- What the machine answers to a request, and the guest afterwards. Its blocks have no numbers. -/
inductive Serves : Environment β → Request β → Reply → Environment β → Prop
  | compiled {e : Environment β} {addr : UInt32}
      (hlowers : (Lower.afresh o regions e.bus addr).1 = .ok ()) :
    Serves e (.compile addr) (.compiled (.ok 0)) e
  | failed {e : Environment β} {addr : UInt32} {f : Failure}
      (hlowers : (Lower.afresh o regions e.bus addr).1 = .error f) :
    Serves e (.compile addr) (.compiled (.error (.ofFailure f))) e
  | ran {e e' : Environment β} {rounds : Nat} {cycles : UInt32}
      {result : Except SessionError RunExit}
      (hruns : Runs o regions (e.setWord Slot.downcount cycles) result e') :
    Serves e (.run rounds cycles) (.ran result) e'

/-- The blocks that the machine is asked for or comes to, each with the memory it is lowered from, up
to the first error. -/
inductive Visits : Environment β → List (Request β) → UInt32 → β → Prop
  | compile {e : Environment β} {addr : UInt32} {requests : List (Request β)} :
    Visits e (.compile addr :: requests) addr e.bus
  | run {e g : Environment β} {rounds : Nat} {cycles : UInt32} {requests : List (Request β)}
      (hcomes : Comes o regions (e.setWord Slot.downcount cycles) g) (hgoes : g.Goes) :
    Visits e (.run rounds cycles :: requests) g.state.pc g.bus
  | later {e e' : Environment β} {request : Request β} {reply : Reply}
      {requests : List (Request β)} {start : UInt32} {bus : β}
      (hserves : Serves o regions e request reply e') (hfails : ¬ reply.Fails)
      (hrest : Visits e' requests start bus) : Visits e (request :: requests) start bus

/-- Whenever the block at an address is visited, its words are what they are at any other time. -/
def Steady (visits : UInt32 → β → Prop) : Prop :=
  ∀ start bus bus', visits start bus → visits start bus' →
    (Lower.afresh o regions bus start).1 = .ok () →
      Bus.SameFrom bus bus' start (Lower.afresh o regions bus start).2.instructions.toNat

variable {o : Options} {regions : List FastRegion} {e e' g : Environment β} {d : Departure β}

/-! ## One block -/

/-- A block that is lowered does something to every guest. -/
theorem exists_steps (haccepted : o.Accepted regions) (hzero : e.state.get 0 = 0)
    (hbacked : Bus.Backed regions e.bus)
    (hlowers : (Lower.afresh o regions e.bus e.state.pc).1 = .ok ()) :
    ∃ d, Steps o regions e d := by
  obtain ⟨_, _, -, -, -, hdoes⟩ := Lower.exists_follows haccepted
    (Prod.ext hlowers rfl : Lower.afresh o regions e.bus e.state.pc = (.ok (), _))
  obtain ⟨d, -, hfollows, -⟩ := hdoes e hzero hbacked
  exact ⟨d, hlowers, hfollows⟩

namespace Steps

variable (haccepted : o.Accepted regions) (hzero : e.state.get 0 = 0)
  (hbacked : Bus.Backed regions e.bus)

include haccepted hzero hbacked

/-- The block does what its instructions do. -/
theorem courses (h : Steps o regions e d) :
    BlockTable.Courses o regions (fun _ bus => bus = e.bus)
      ⟨e.state.pc, (Lower.afresh o regions e.bus e.state.pc).2.instructions, 0, 0, 0, #[]⟩ e d := by
  obtain ⟨_, n, -, hn, hcount, hdoes⟩ := Lower.exists_follows haccepted
    (Prod.ext h.lowers rfl : Lower.afresh o regions e.bus e.state.pc = (.ok (), _))
  obtain ⟨d', hcourse, hfollows, -⟩ := hdoes e hzero hbacked
  obtain rfl := h.follows.unique hzero hbacked hfollows
  exact ⟨e.bus, rfl, hcourse.mono fun _ _ hword => ⟨n, hn, hcount, hword⟩⟩

theorem left (h : Steps o regions e d) (hregister : Bus.Maintains β 0 (· = 0)) :
    d.env.state.get 0 = 0 ∧ Bus.Backed regions d.env.bus := by
  have hcourses := h.courses haccepted hzero hbacked
  exact ⟨hcourses.zero (fun _ => hregister) hzero, hbacked.evolves hcourses.evolves⟩

/-- A block takes something off the budget. -/
theorem downcount_lt (h : Steps o regions e d)
    (hbound : 36 * (o.maxBlockInstructions + 1) < 2 ^ 31)
    (hdowncount : Bus.Respects β Slot.downcount) (hgoes : e.Goes) (hreason : d.reason ≠ .hardFault) :
    d.env.state.downcount < e.state.downcount := by
  have hcourses := h.courses haccepted hzero hbacked
  rcases hcourses.downcount haccepted hbound (fun _ => hdowncount) hgoes.2 with
    ⟨hway, -⟩ | ⟨hless, -⟩
  · exact absurd (Departure.reason_eq_hardFault.2 hway) hreason
  · exact hless

end Steps

/-! ## Runs -/

/-- Every run ends. -/
theorem exists_runs (haccepted : o.Accepted regions)
    (hbound : 36 * (o.maxBlockInstructions + 1) < 2 ^ 31) (hregister : Bus.Maintains β 0 (· = 0))
    (hdowncount : Bus.Respects β Slot.downcount) (hzero : e.state.get 0 = 0)
    (hbacked : Bus.Backed regions e.bus) :
    ∃ result e', Runs o regions e result e' ∧ e'.state.get 0 = 0 ∧ Bus.Backed regions e'.bus := by
  obtain ⟨budget, hbudget⟩ : ∃ budget : Nat, e.state.downcount < budget :=
    ⟨(e.state.downcount + 1).toNat, by omega⟩
  induction budget generalizing e with
  | zero =>
    cases hexit : e.exit? with
    | none => exact absurd (Environment.exit?_eq_none.1 hexit).2 (by omega)
    | some exit => exact ⟨_, e, .ended hexit, hzero, hbacked⟩
  | succ budget ih =>
    cases hexit : e.exit? with
    | some exit => exact ⟨_, e, .ended hexit, hzero, hbacked⟩
    | none =>
      have hgoes := Environment.exit?_eq_none.1 hexit
      cases hlowers : (Lower.afresh o regions e.bus e.state.pc).1 with
      | error f => exact ⟨_, e, .unreadable hgoes hlowers, hzero, hbacked⟩
      | ok _ =>
        obtain ⟨d, hstep⟩ := exists_steps haccepted hzero hbacked hlowers
        obtain ⟨hzero', hbacked'⟩ := hstep.left haccepted hzero hbacked hregister
        by_cases hreason : d.reason = .hardFault
        · exact ⟨_, d.env, .refused hgoes hstep hreason, hzero', hbacked'⟩
        · have hless := hstep.downcount_lt haccepted hzero hbacked hbound hdowncount hgoes hreason
          obtain ⟨result, e', hruns, hleft⟩ := ih hzero' hbacked' (by omega)
          exact ⟨result, e', .block hgoes hstep hreason hruns, hleft⟩

/-- Every request is answered. -/
theorem exists_serves (haccepted : o.Accepted regions)
    (hbound : 36 * (o.maxBlockInstructions + 1) < 2 ^ 31) (hregister : Bus.Maintains β 0 (· = 0))
    (hdowncount : Bus.Respects β Slot.downcount) (hzero : e.state.get 0 = 0)
    (hbacked : Bus.Backed regions e.bus) {request : Request β} (hasks : request.Asks) :
    ∃ reply e', Serves o regions e request reply e' ∧ e'.state.get 0 = 0 ∧
      Bus.Backed regions e'.bus := by
  cases request with
  | compile addr =>
    cases hlowers : (Lower.afresh o regions e.bus addr).1 with
    | error f => exact ⟨_, e, .failed hlowers, hzero, hbacked⟩
    | ok _ => exact ⟨_, e, .compiled hlowers, hzero, hbacked⟩
  | run rounds cycles =>
    have hzero' : (e.setWord Slot.downcount cycles).state.get 0 = 0 :=
      (State.get_set_of_ne _ (by decide) _).trans hzero
    obtain ⟨result, e', hruns, hleft⟩ := exists_runs (e := e.setWord Slot.downcount cycles)
      haccepted hbound hregister hdowncount hzero' hbacked
    exact ⟨_, e', .ran hruns, hleft⟩
  | _ => cases hasks

end Uncached

end Recompiler
