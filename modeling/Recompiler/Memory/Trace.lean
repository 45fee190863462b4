import Recompiler.Memory.Bus

/-!
# Traced buses

A bus that remembers every access and system call made through it, in order. Direct accesses to
host memory do not go through the bus and are not remembered.
-/

namespace Recompiler

/-- An operation asked of a bus. -/
inductive BusCall where
  | read (width : Width) (addr : UInt32)
  /-- A write; `value` is the part that is written. -/
  | write (width : Width) (addr value : UInt32)
  /-- A system call made with the program counter at `pc`. -/
  | syscall (code pc : UInt32)
  deriving DecidableEq, Repr

/-- A bus with the calls made to it so far. -/
structure Traced (β : Type) where
  /-- The bus. -/
  bus : β
  /-- The calls, oldest first. -/
  calls : Array BusCall

instance {β : Type} [Bus β] : Bus (Traced β) where
  read width addr t :=
    let ⟨bus, calls⟩ := t
    let (result, bus) := Bus.read width addr bus
    (result, ⟨bus, calls.push (.read width addr)⟩)
  write width addr value t :=
    let ⟨bus, calls⟩ := t
    let (result, bus) := Bus.write width addr value bus
    (result, ⟨bus, calls.push (.write width addr (width.truncate value))⟩)
  fastRegions t := Bus.fastRegions t.bus
  syscall code state t :=
    let ⟨bus, calls⟩ := t
    let (outcome, bus) := Bus.syscall code state bus
    (outcome, ⟨bus, calls.push (.syscall code state.pc)⟩)
  hostByte? t pointer := Bus.hostByte? t.bus pointer
  setHostByte t pointer value := { t with bus := Bus.setHostByte t.bus pointer value }

end Recompiler
