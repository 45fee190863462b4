import Recompiler.CommandLine.Arguments
import Recompiler.Memory.Flat
import Recompiler.Session

/-!
# Execution

Running a program as the command line asks: in slices of cycles, until the guest stops, fails or has
used up its slices.

* `Execution.start`: the guest before its first slice.
* `Execution.slice`: one slice.
* `Execution.run`: all of them.
* `ExitStatus`: how the program ends.
-/

namespace Recompiler

/-- How the program ends. -/
inductive ExitStatus where
  | success
  /-- The guest or its preparation failed. -/
  | failure
  /-- The arguments were not understood, or the guest stopped of its own accord without halting. -/
  | stopped
  deriving DecidableEq, Repr

namespace ExitStatus

/-- The number that stands for a status. -/
def code : ExitStatus → UInt8
  | success => 0
  | failure => 1
  | stopped => 2

end ExitStatus

/-- The status after arguments that are not acted on. -/
def ArgumentError.status : ArgumentError → ExitStatus
  | helpRequested => .success
  | _ => .stopped

/-- Why a guest could not be prepared. -/
inductive StartError where
  /-- The program does not fit in memory. -/
  | load (path : String) (e : BusError)
  | session (e : SessionError)
  deriving DecidableEq, Repr

namespace StartError

/-- The wording of a failed preparation. -/
def message : StartError → String
  | load path e => s!"failed to load {path}: {e.message}"
  | session e => "failed to create the recompiler" ++ (e.message?.map (": " ++ ·)).getD ""

end StartError

/-- A guest that runs in slices. -/
structure Execution where
  /-- The request. -/
  arguments : Arguments
  /-- The guest. -/
  session : Session FlatMemory
  /-- The number of slices that used up their cycles. -/
  slices : Nat

/-- What is left after a slice. -/
inductive Progress where
  /-- There are more slices to run. -/
  | goesOn (e : Execution)
  /-- The program ends, for the reason given. -/
  | ends (status : ExitStatus) (level : Level) (reason : String) (e : Execution)

namespace Execution

/-- A guest with a program in its memory. -/
def start (arguments : Arguments) (program : List UInt8) : Except StartError Execution := do
  let blank := FlatMemory.zeros arguments.base arguments.memorySize.toNat (Linkage.memoryBase 0)
  let memory ← (blank.load arguments.base program).mapError (.load arguments.binary)
  let session ← (Session.create memory arguments.options).mapError .session
  let pc := arguments.entry.getD arguments.base
  return ⟨arguments, session.setState (session.env.state.set Slot.pc pc), 0⟩

variable (e : Execution)

/-- The cycles of a slice as a state word. -/
def budget : UInt32 :=
  (e.arguments.cycles % UInt32.size).toNat.toUInt32

/-- The status that a core state ends the program with. -/
def statusOf (s : CoreState) : ExitStatus :=
  if s = .halted then .success else .stopped

/-- Runs a slice, in which control returns to the host less than `rounds` times. -/
def slice (rounds : Nat) : Option Progress :=
  let ⟨arguments, session, slices⟩ := e
  match session.run rounds e.budget with
  | none => none
  | some (.ok .downcountExpired, session) =>
    let e : Execution := ⟨arguments, session, slices + 1⟩
    if arguments.slices.any (· ≤ e.slices) then
      some (.ends .success .info
        s!"stopping after {e.slices} slices of {arguments.cycles} cycles" e)
    else some (.goesOn e)
  | some (.ok (.coreStateChanged s), session) =>
    some (.ends (statusOf s) .info s!"guest stopped: {s.name}" ⟨arguments, session, slices⟩)
  | some (.error error, session) =>
    some (.ends .failure .error (error.message?.getD "") ⟨arguments, session, slices⟩)

/-- Runs at most `limit` slices, in each of which control returns to the host less than `rounds`
times. -/
def run (rounds : Nat) : (limit : Nat) → Execution → Option (ExitStatus × Execution)
  | 0, _ => none
  | limit + 1, e =>
    match e.slice rounds with
    | none => none
    | some (.goesOn e) => run rounds limit e
    | some (.ends status _ _ e) => some (status, e)

/-- What the program prints in the end: the guest state and the number of blocks. -/
def summary : String :=
  e.session.env.state.listing ++ "\n" ++ s!"{e.session.table.size} blocks compiled\n"

end Execution

end Recompiler
