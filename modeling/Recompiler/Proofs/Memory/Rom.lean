import Recompiler.Memory.Bus

/-!
# Read-only memories

A bus that serves words from a function, as a source of small guest programs.

* `Rom`: the bus.
-/

namespace Recompiler

/-- A memory that cannot be written. -/
structure Rom where
  /-- The word at an address. -/
  word : UInt32 → UInt32

instance : Bus Rom where
  read _ addr m := (.ok (m.word addr), m)
  write _ addr _ m := (.error (.addressNotMapped addr), m)

end Recompiler
