import Recompiler.Event
import Recompiler.Host.Operation
import Recompiler.Memory.Bus

/-!
# The guest environment

The guest processor together with its memory: all that a guest instruction can see and change, and
the events reported on the way.

An access that fails is reported and has no further consequence: it reads zero, or writes nothing.

* `Environment.read`, `Environment.load`: reading guest memory.
* `Environment.write`: writing it.
* `Environment.syscall`: calling the handler of a system call.
-/

namespace Recompiler

/-- The guest with its memory. -/
structure Environment (β : Type) where
  /-- The guest processor. -/
  state : State
  /-- The memory, and everything else behind the bus. -/
  bus : β
  /-- The events so far, oldest first. -/
  events : Array Event

namespace Environment

/-- A guest that has not run yet. -/
def initial {β : Type} (bus : β) : Environment β :=
  ⟨.initial, bus, #[]⟩

variable {β : Type} (e : Environment β)

/-- The value of a register. -/
def register (r : Nat) : UInt32 :=
  e.state.get r

/-- The environment with a register written. -/
def setRegister (r : Nat) (value : UInt32) : Environment β :=
  { e with state := e.state.setRegister r value }

/-- The environment with a state word written. -/
def setWord (slot : Nat) (value : UInt32) : Environment β :=
  { e with state := e.state.set slot value }

/-- Reports an event. -/
def report (event : Event) : Environment β :=
  { e with events := e.events.push event }

variable [Bus β]

/-- Reads guest memory; a failed access reads zero. -/
def read (width : Width) (addr : UInt32) : UInt32 × Environment β :=
  let ⟨state, bus, events⟩ := e
  match Bus.read width addr bus with
  | (.ok value, bus) => (value, ⟨state, bus, events⟩)
  | (.error cause, bus) => (0, ⟨state, bus, events.push (.accessFailed cause)⟩)

/-- Reads guest memory and widens the value. -/
def load (kind : LoadKind) (addr : UInt32) : UInt32 × Environment β :=
  let (value, e) := e.read kind.width addr
  (kind.extend value, e)

/-- Writes the low part of a value to guest memory. -/
def write (width : Width) (addr value : UInt32) : Environment β :=
  let ⟨state, bus, events⟩ := e
  match Bus.write width addr (width.truncate value) bus with
  | (.ok (), bus) => ⟨state, bus, events⟩
  | (.error cause, bus) => ⟨state, bus, events.push (.accessFailed cause)⟩

/-- Runs the handler of a system call. Without one the guest is asked to stop. -/
def syscall (code : UInt32) : Environment β :=
  let ⟨state, bus, events⟩ := e
  match Bus.syscall code state bus with
  | (.handled state, bus) => ⟨state, bus, events⟩
  | (.unhandled, bus) =>
    ⟨state.setCoreState .stopping, bus, events.push (.unhandledSyscall code (state.pc - 4))⟩

end Environment

end Recompiler
