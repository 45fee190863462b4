import Recompiler.CommandLine.Execution

/-!
# The command line program

Reads the program to run from a file, runs it, reports on the way to standard error, and prints the
guest state in the end.
-/

namespace Recompiler

namespace Execution

/-- Writes the events that are important enough to standard error, and forgets all. -/
def report (level : Level) (e : Execution) : IO Execution := do
  let ⟨arguments, ⟨⟨state, bus, events⟩, table, options, regions⟩, slices⟩ := e
  for event in events do
    if event.level.rank ≤ level.rank then
      IO.eprintln s!"[{event.level.name}] {event.text}"
  return ⟨arguments, ⟨⟨state, bus, #[]⟩, table, options, regions⟩, slices⟩

/-- Runs slices until the program ends. -/
partial def finish (e : Execution) (level : Level) : IO UInt32 := do
  let e ← report level e
  match e.slice 0x4000000000000000 with
  | none => return ExitStatus.failure.code.toUInt32
  | some (.goesOn e) => e.finish level
  | some (.ends status reasonLevel reason e) =>
    let e ← report level e
    IO.eprintln s!"[{reasonLevel.name}] {reason}"
    IO.print e.summary
    return status.code.toUInt32

end Execution

end Recompiler

open Recompiler

/-- Runs a program as the command line asks. -/
def main (args : List String) : IO UInt32 := do
  match Arguments.parse args with
  | .error .helpRequested =>
    IO.print Arguments.usage
    return ExitStatus.success.code.toUInt32
  | .error e =>
    IO.eprintln s!"error: {e.message}"
    return e.status.code.toUInt32
  | .ok arguments =>
    let program ←
      try IO.FS.readBinFile arguments.binary
      catch e =>
        IO.eprintln s!"failed to read {arguments.binary}: {e}"
        return ExitStatus.failure.code.toUInt32
    match Execution.start arguments program.toList with
    | .error e =>
      IO.eprintln e.message
      return ExitStatus.failure.code.toUInt32
    | .ok e => e.finish (if arguments.verbose ∨ arguments.dumpBlocks then .debug else .info)
