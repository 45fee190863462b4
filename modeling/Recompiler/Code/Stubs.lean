import Recompiler.Code.Assembly
import Recompiler.Host.Sequence

/-!
# Stubs

The code that every block leaves through. Blocks never return to the host on their own; they jump
to one of the stubs, which tells the host by its result why control came back.

* `ExitReason`: the reasons.
* `Stubs.generate`: the stubs, appended to an arena.
-/

namespace Recompiler

/-- Why generated code returned to the host. -/
inductive ExitReason where
  /-- Go on at the guest program counter. -/
  | dispatch
  /-- The core state may have changed, for instance through a system call. -/
  | coreState
  | downcountExpired
  /-- Execution reached an instruction that is refused on purpose. -/
  | hardFault
  deriving DecidableEq, Repr

namespace ExitReason

/-- The result that stands for a reason. -/
def toWord : ExitReason → UInt32
  | dispatch => 0
  | coreState => 1
  | downcountExpired => 2
  | hardFault => 3

/-- The reason that a result stands for. -/
def ofWord? (w : UInt32) : Option ExitReason :=
  [dispatch, coreState, downcountExpired, hardFault].find? (·.toWord == w)

/-- The name of a reason. -/
def name : ExitReason → String
  | dispatch => "Dispatch"
  | coreState => "CoreState"
  | downcountExpired => "DowncountExpired"
  | hardFault => "HardFault"

theorem ofWord?_toWord (r : ExitReason) : ofWord? r.toWord = some r := by
  cases r <;> rfl

end ExitReason

/-- The offsets of the stubs in an arena. -/
structure Stubs where
  /-- The way in. -/
  enter : Nat
  /-- The way out. -/
  exit : Nat
  /-- Goes on at the guest program counter, which is already written. -/
  dispatcher : Nat
  /-- The same, after a check of the core state. -/
  dispatcherCheckCoreState : Nat
  /-- The budget is spent. -/
  outerLoop : Nat
  hardFault : Nat
  deriving DecidableEq, Repr

namespace Stubs

/-- Stubs start at multiples of this. -/
def alignment : Nat := 16

/-- Returns to the host with a reason. -/
def returnWith (reason : ExitReason) (exit : Nat) (a : Arena) : Arena :=
  (a.writeAll (Sequence.moveImmediate .scratch reason.toWord)).jumpTo exit

/-- Appends the stubs. The owner of the arena checks it for overflow. -/
def generate (a : Arena) : Stubs × Arena :=
  let a := a.align alignment
  let exit := a.size
  let a := (a.writeAll Sequence.leave).align alignment
  let enter := a.size
  let a := (a.writeAll Sequence.enter).align alignment
  let dispatcherCheckCoreState := a.size
  let a := a.writeAll (Sequence.compareState (Slot.offset Slot.coreState) 0)
  let (coreExit, a) := a.jumpIf .notEqual
  let dispatcher := a.size
  let a := returnWith .dispatch exit a
  let a := returnWith .coreState exit (a.bind coreExit)
  let outerLoop := a.size
  let a := returnWith .downcountExpired exit a
  let hardFault := a.size
  let a := (returnWith .hardFault exit a).align alignment
  (⟨enter, exit, dispatcher, dispatcherCheckCoreState, outerLoop, hardFault⟩, a)

/-- The stubs on one line. -/
def describe (s : Stubs) : String :=
  "Stubs \x7b " ++ s!"enter: {s.enter}, exit: {s.exit}, dispatcher: {s.dispatcher}, " ++
    s!"dispatcher_check_core_state: {s.dispatcherCheckCoreState}, " ++
    s!"outer_loop: {s.outerLoop}, hard_fault: {s.hardFault}" ++ " \x7d"

end Stubs

end Recompiler
