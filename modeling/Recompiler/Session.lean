import Recompiler.Block.Compile
import Recompiler.Host.Listing
import Recompiler.Host.Machine

/-!
# Sessions

A guest that runs as generated code: blocks are looked up or compiled as the guest reaches them, and
run until the budget of cycles is spent or the guest stops.

* `Session.create`: a session for a bus.
* `Session.compile`: the block at a guest address.
* `Session.run`: running the guest.
* `Session.clear`, `Session.invalidate`: dropping compiled code.
-/

namespace Recompiler

/-- A guest with its compiled code. -/
structure Session (β : Type) where
  /-- The guest, its memory, and the events so far. -/
  env : Environment β
  /-- The compiled blocks. -/
  table : BlockTable
  /-- The tuning. -/
  options : Options
  /-- The memory that generated code reaches directly. -/
  regions : List FastRegion

/-- Why a session could not go on. -/
inductive SessionError where
  | arena (e : ArenaError)
  | compile (e : CompileError)
  | config (e : ConfigError)
  /-- The guest reached an instruction that is refused on purpose. -/
  | hardFault (pc word : UInt32)
  | breach (b : Breach)
  deriving DecidableEq, Repr

namespace SessionError

/-- The wording of an error, where it does not depend on the host. -/
def message? : SessionError → Option String
  | arena e => e.message?
  | compile e => some e.message
  | config e => some e.message
  | hardFault pc word =>
    some s!"hard fault at {Radix.hexWord pc} (instruction {Radix.hexWord word})"
  | breach b => some b.message

/-- The error that a failure on blocks amounts to. -/
def ofFailure : Failure → SessionError
  | .compile e => compile e
  | .breach b => breach b

end SessionError

/-- Why a run came to its end. -/
inductive RunExit where
  /-- The budget is spent. -/
  | downcountExpired
  /-- The guest stopped. -/
  | coreStateChanged (state : CoreState)
  deriving DecidableEq, Repr

/-- The reports on the regions of a new session. -/
def regionEvents (options : Options) (regions : List FastRegion) : List Event :=
  if regions.isEmpty then [.noFastRegion]
  else regions.zipIdx.map fun (region, n) => .fastRegion region (n == 0 && options.fastMemory)

namespace Session

variable {β : Type} [Bus β]

/-- A session for a guest that has not run yet, in a host that has as many addresses `available` in a
row. -/
def create (bus : β) (options : Options) (available : Nat := Arena.usualRun) :
    Except SessionError (Session β) := do
  let regions := Bus.fastRegions bus
  (options.validate regions).mapError .config
  let code ← (Arena.allocate options.codeSize available).mapError .arena
  let table ← (BlockTable.create code options.maxBlocks).mapError .compile
  return ⟨⟨.initial, bus, (regionEvents options regions).toArray⟩, table, options, regions⟩

variable (s : Session β)

omit [Bus β] in
/-- Reports events. -/
def report (events : List Event) : Session β :=
  { s with env := { s.env with events := s.env.events ++ events } }

omit [Bus β] in
/-- The session with another guest state. -/
def setState (state : State) : Session β :=
  { s with env := { s.env with state := state } }

/-! ## Compiling -/

/-- Compiles the block at an address, whatever the state of the table. -/
def compileBlock (addr : UInt32) : Except Failure Nat × Session β :=
  let ⟨⟨state, bus, events⟩, table, options, regions⟩ := s
  let c := table.compile bus options regions addr
  (c.result, ⟨⟨state, c.bus, events ++ c.events⟩, c.table, options, regions⟩)

/-- The report on the guest instructions of a block, `count` of them from `addr` on. -/
def dumpGuest (addr : UInt32) : (count : Nat) → β → List Event × β
  | 0, bus => ([], bus)
  | count + 1, bus =>
    let (word, bus) := Bus.read .word addr bus
    let (events, bus) := dumpGuest (addr + 4) count bus
    (.dumpGuest addr word :: events, bus)

/-- Reports the guest and host code of a block. -/
def dumpBlock (n : Nat) : Session β :=
  match s.table.block? n with
  | none => s
  | some block =>
    let (guest, bus) := dumpGuest block.start block.instructions.toNat s.env.bus
    let code := s.table.code.bytes block.checkedEntry block.codeSize
    let host := listing code (Linkage.codeBase + block.checkedEntry.toUInt64)
    let events : List Event :=
      .dumpBlock n block.start block.instructions :: guest ++
        .dumpBytes code.length :: host.map .dumpHost
    { s with env := { s.env with bus := bus, events := s.env.events ++ events } }

/-- Makes room for another block if there is little left. -/
def makeRoom : Session β :=
  if s.table.isFull ∨ s.table.spaceLeft < s.options.reservedCodeMargin then
    let s := s.report [.cacheFull s.table.size s.table.spaceLeft]
    { s with table := s.table.clear }
  else s

/-- Compiles the block at an address; once more with an empty table if it does not fit. -/
def compileRetrying (addr : UInt32) : Except Failure Nat × Session β :=
  match s.compileBlock addr with
  | (.error (.compile .codeSpaceExhausted), s) =>
    let s := s.report [.retrying addr]
    compileBlock { s with table := s.table.clear } addr
  | other => other

/-- The number of the block at an address, which is compiled if need be. -/
def compile (addr : UInt32) : Except SessionError Nat × Session β :=
  match s.table.number? addr with
  | some n => (.ok n, s)
  | none =>
    match s.makeRoom.compileRetrying addr with
    | (.ok n, s) => (.ok n, if s.options.dumpBlocks then s.dumpBlock n else s)
    | (.error f, s) => (.error (.ofFailure f), s)

/-! ## Running -/

omit [Bus β] in
/-- The host address of the main region. -/
def memoryBase : UInt64 :=
  match s.regions with
  | [] => 0
  | main :: _ => main.pointer

omit [Bus β] in
/-- More host instructions than can run before the budget is spent: code runs forward within a
block, and every block takes something off the budget. -/
def stepBound : Nat :=
  (s.env.state.downcount.toNat + 2) * (s.table.code.size + 1)

/-- Runs generated code from an offset until it returns to the host. -/
def enter (entry : Nat) : Option (ExitReason × Session β) := do
  let fuel := s.stepBound
  let memoryBase := s.memoryBase
  let ⟨env, table, options, regions⟩ := s
  let m ← (HostMachine.start env memoryBase table.stubs.enter entry).run table.code fuel
  let reason ← ExitReason.ofWord? (m.getWord .scratch)
  return (reason, ⟨m.env, table, options, regions⟩)

/-- Ends a run at the current program counter, where an instruction was refused. -/
def refuse : Except SessionError RunExit × Session β :=
  let ⟨⟨state, bus, events⟩, table, options, regions⟩ := s
  let pc := state.pc
  let (result, bus) := Bus.read .word pc bus
  let word :=
    match result with
    | .ok word => word
    | .error _ => 0
  (.error (.hardFault pc word),
    ⟨⟨state, bus, events.push (.hardFault pc word)⟩, table, options, regions⟩)

/-- Runs blocks until the budget is spent or the guest stops. There is no answer when control has
returned to the host `rounds` times before that, or when generated code gets stuck. -/
def loop : (rounds : Nat) → Session β → Option (Except SessionError RunExit × Session β)
  | 0, _ => none
  | rounds + 1, s =>
    let state := s.env.state.coreState
    if state ≠ .running then
      some (.ok (.coreStateChanged state), s.report [.coreStateChanged state s.env.state.pc])
    else if s.env.state.downcount < 0 then some (.ok .downcountExpired, s)
    else
      match s.compile s.env.state.pc with
      | (.error e, s) => some (.error e, s)
      | (.ok n, s) =>
        let entry := ((s.table.block? n).map (·.checkedEntry)).getD 0
        match s.enter entry with
        | none => none
        | some (.hardFault, s) => some s.refuse
        | some (_, s) => loop rounds s

/-- Runs the guest for `cycles` cycles, or until it stops. Blocks charge their cost as they are
left, so that what is left of the budget in the end is the budget less the cost of all that ran. -/
def run (rounds : Nat) (cycles : UInt32) : Option (Except SessionError RunExit × Session β) :=
  (s.setState (s.env.state.set Slot.downcount cycles)).loop rounds

/-! ## Dropping code -/

omit [Bus β] in
/-- Drops every compiled block. -/
def clear : Session β :=
  { s.report [.clearing] with table := s.table.clear }

omit [Bus β] in
/-- Drops the code compiled from a range of guest memory that changed. -/
def invalidate (addr length : UInt32) : Session β :=
  let (table, events) := s.table.invalidate addr length
  { s.report events with table := table }

omit [Bus β] in
/-- The session on one line. -/
def describe : String :=
  "Jit \x7b env: Environment \x7b state: " ++ s.env.state.describe ++ ", .. \x7d, cache: " ++
    s.table.describe ++ ", options: " ++ s.options.describe ++ ", .. \x7d"

end Session

end Recompiler
