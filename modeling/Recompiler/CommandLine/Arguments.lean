import Recompiler.CommandLine.Number
import Recompiler.Options

/-!
# Command line arguments

What the program is asked to do, and reading it from the arguments of a command line.

A parameter is a flag or takes one value, and may be given once. A value stands in an argument of
its own, which must not look like a parameter, or is attached to the name of its parameter. Short
flags can share an argument. The value of a parameter is checked when the next parameter is read or
the arguments end, unless it is attached.

* `Arguments`: the request.
* `Arguments.parse`: reading it.
-/

namespace Recompiler

/-- What the program is asked to do. -/
structure Arguments where
  /-- The path of the program to run, which is loaded at the start of memory. -/
  binary : String
  /-- The guest address memory starts at. -/
  base : UInt32
  /-- The address to start at, if it is not the start of memory. -/
  entry : Option UInt32
  /-- The size of guest memory in bytes. -/
  memorySize : UInt32
  /-- The cycles to run between returns to the host. -/
  cycles : Int
  /-- The number of slices after which to give up. -/
  slices : Option Nat
  /-- Blocks always leave through the dispatcher. -/
  noLink : Bool
  /-- Accesses are masked into guest memory instead of being checked. -/
  fastMemory : Bool
  /-- The number of instructions after which a block is cut. -/
  maxBlockInstructions : Nat
  /-- Reports the guest and host code of every compiled block. -/
  dumpBlocks : Bool
  /-- Reports compilation and linking. -/
  verbose : Bool
  deriving DecidableEq, Repr

/-- Why arguments are not understood, or not to be acted on. -/
inductive ArgumentError where
  /-- The user asked for help. -/
  | helpRequested
  /-- An argument is neither a parameter nor the value of one. -/
  | unknownArgument (text : String)
  /-- A parameter lacks its value. -/
  | missingValue (name : String)
  /-- A value does not belong to the values of its parameter. -/
  | invalidValue (name value : String)
  /-- A value is attached to a flag. -/
  | unexpectedValue (name value : String)
  | repeated (name : String)
  /-- A parameter that cannot do without is missing. -/
  | missing (name : String)
  deriving DecidableEq, Repr

namespace ArgumentError

/-- The wording of a refusal. -/
def message : ArgumentError → String
  | helpRequested => "help requested"
  | unknownArgument text => s!"unexpected argument {Quoted.quote text}"
  | missingValue name => s!"a value is required for --{name}"
  | invalidValue name value => s!"invalid value {Quoted.quote value} for --{name}"
  | unexpectedValue name value => s!"unexpected value {Quoted.quote value} for --{name}"
  | repeated name => s!"--{name} cannot be used more than once"
  | missing name => s!"--{name} was not provided"

end ArgumentError

/-! ## Parameters -/

/-- A parameter that takes a value. -/
inductive Setting where
  | binary | base | entry | memorySize | cycles | slices | maxBlockInstructions
  deriving DecidableEq, Repr

/-- A parameter without a value. -/
inductive Flag where
  | noLink | fastMemory | dumpBlocks | verbose | help
  deriving DecidableEq, Repr

/-- A parameter. -/
inductive Parameter where
  | setting (s : Setting)
  | flag (f : Flag)
  deriving DecidableEq, Repr

namespace Parameter

/-- Every parameter. -/
def all : List Parameter :=
  [setting .binary, setting .base, setting .entry, setting .memorySize, setting .cycles,
   setting .slices, flag .noLink, flag .fastMemory, setting .maxBlockInstructions,
   flag .dumpBlocks, flag .verbose, flag .help]

/-- The long name of a parameter. -/
def name : Parameter → String
  | setting .binary => "binary"
  | setting .base => "base"
  | setting .entry => "entry"
  | setting .memorySize => "memory-size"
  | setting .cycles => "cycles"
  | setting .slices => "slices"
  | setting .maxBlockInstructions => "max-block-instructions"
  | flag .noLink => "no-link"
  | flag .fastMemory => "fast-memory"
  | flag .dumpBlocks => "dump-blocks"
  | flag .verbose => "verbose"
  | flag .help => "help"

/-- The letter of a parameter. -/
def letter? : Parameter → Option Char
  | setting .binary => some 'b'
  | setting .entry => some 'e'
  | setting .cycles => some 'c'
  | flag .dumpBlocks => some 'd'
  | flag .verbose => some 'v'
  | flag .help => some 'h'
  | _ => none

/-- What a parameter is for. -/
def purpose : Parameter → String
  | setting .binary => "the program, loaded at the start of memory"
  | setting .base => "the guest address memory starts at"
  | setting .entry => "the address to start at, if not the start of memory"
  | setting .memorySize => "the size of guest memory in bytes"
  | setting .cycles => "the cycles to run between returns to the host"
  | setting .slices => "give up after this many slices"
  | setting .maxBlockInstructions => "cut blocks after this many instructions"
  | flag .noLink => "always leave blocks through the dispatcher"
  | flag .fastMemory => "mask accesses into guest memory instead of checking them"
  | flag .dumpBlocks => "report the guest and host code of every compiled block"
  | flag .verbose => "report compilation and linking"
  | flag .help => "print this"

/-- The parameter with a long name. -/
def ofName? (s : String) : Option Parameter :=
  all.find? (·.name == s)

/-- The parameter with a letter. -/
def ofLetter? (c : Char) : Option Parameter :=
  all.find? (·.letter? == some c)

/-- The line on a parameter in a list of all. -/
def usage (p : Parameter) : String :=
  let letter := (p.letter?.map fun c => s!"-{c}, ").getD "    "
  s!"  {letter}--{p.name}".pushn ' ' (24 - p.name.length) ++ p.purpose

end Parameter

/-! ## Reading -/

/-- The parameters given so far. -/
structure Draft where
  binary : Option String
  base : Option UInt32
  entry : Option UInt32
  memorySize : Option UInt32
  cycles : Option Int
  slices : Option Nat
  maxBlockInstructions : Option Nat
  flags : List Flag
  deriving DecidableEq, Repr

namespace Draft

/-- Nothing is given. -/
def blank : Draft :=
  ⟨none, none, none, none, none, none, none, []⟩

variable (d : Draft)

/-- The setting is given. -/
def has : Setting → Bool
  | .binary => d.binary.isSome
  | .base => d.base.isSome
  | .entry => d.entry.isSome
  | .memorySize => d.memorySize.isSome
  | .cycles => d.cycles.isSome
  | .slices => d.slices.isSome
  | .maxBlockInstructions => d.maxBlockInstructions.isSome

/-- The draft with a setting, if the text is a value of it. -/
def assign? (s : Setting) (text : String) : Option Draft :=
  let number? := (Number.parse text).toOption
  let count? := (Numeral.natural 10 (UInt64.size - 1) text.toList).toOption
  match s with
  | .binary => some { d with binary := some text }
  | .base => number?.map fun n => { d with base := some n }
  | .entry => number?.map fun n => { d with entry := some n }
  | .memorySize => number?.map fun n => { d with memorySize := some n }
  | .cycles =>
    (Numeral.integer 10 0x80000000 0x7FFFFFFF text.toList).toOption.map fun n =>
      { d with cycles := some n }
  | .slices => count?.map fun n => { d with slices := some n }
  | .maxBlockInstructions => count?.map fun n => { d with maxBlockInstructions := some n }

/-- The draft with a setting. -/
def set (s : Setting) (text : String) : Except ArgumentError Draft :=
  let name := (Parameter.setting s).name
  if d.has s then .error (.repeated name)
  else
    match d.assign? s text with
    | some d => .ok d
    | none => .error (.invalidValue name text)

/-- The draft with a flag. -/
def raise (f : Flag) : Except ArgumentError Draft :=
  if f = .help then .error .helpRequested
  else if f ∈ d.flags then .error (.repeated (Parameter.flag f).name)
  else .ok { d with flags := f :: d.flags }

/-- The request, with what is not given at its usual value. -/
def finish : Except ArgumentError Arguments :=
  match d.binary with
  | none => .error (.missing (Parameter.setting .binary).name)
  | some binary => .ok {
    binary := binary
    base := d.base.getD 0
    entry := d.entry
    memorySize := d.memorySize.getD 0x100000
    cycles := d.cycles.getD 100000
    slices := d.slices
    noLink := .noLink ∈ d.flags
    fastMemory := .fastMemory ∈ d.flags
    maxBlockInstructions := d.maxBlockInstructions.getD Options.standard.maxBlockInstructions
    dumpBlocks := .dumpBlocks ∈ d.flags
    verbose := .verbose ∈ d.flags }

end Draft

/-- A command line read in part. -/
structure Scan where
  /-- What is settled. -/
  draft : Draft
  /-- The setting named last, with its value if that has been read. -/
  pending : Option (Setting × Option String)
  /-- A lone `--` ended the parameters. -/
  isTrailing : Bool

namespace Scan

/-- Nothing is read. -/
def start : Scan :=
  ⟨.blank, none, false⟩

variable (s : Scan)

/-- Settles the setting named last. -/
def settle : Except ArgumentError Scan :=
  match s.pending with
  | none => .ok s
  | some (setting, none) => .error (.missingValue (Parameter.setting setting).name)
  | some (setting, some text) => do
    return { s with draft := ← s.draft.set setting text, pending := none }

/-- Reads a flag. -/
def flag (f : Flag) : Except ArgumentError Scan := do
  let s ← s.settle
  return { s with draft := ← s.draft.raise f }

/-- Reads the name of a setting, with a value if one is attached. -/
def setting (name : Setting) (attached : Option String) : Except ArgumentError Scan := do
  let s ← s.settle
  match attached with
  | some text => return { s with draft := ← s.draft.set name text }
  | none => return { s with pending := some (name, none) }

/-- Reads letters that follow a single dash. What follows the letter of a setting is its value, an
equals sign between the two apart. -/
def letters (s : Scan) : List Char → Except ArgumentError Scan
  | [] => .ok s
  | c :: rest =>
    match Parameter.ofLetter? c with
    | none => .error (.unknownArgument s!"-{c}")
    | some (.flag f) => do letters (← s.flag f) rest
    | some (.setting name) =>
      match rest with
      | [] => s.setting name none
      | '=' :: text | text => s.setting name (some (String.ofList text))

/-- Reads a name that follows two dashes, with a value after an equals sign. -/
def long (body : List Char) : Except ArgumentError Scan :=
  let name := String.ofList (body.takeWhile (· != '='))
  let attached :=
    match body.dropWhile (· != '=') with
    | [] => none
    | _ :: text => some (String.ofList text)
  match Parameter.ofName? name, attached with
  | none, _ => .error (.unknownArgument s!"--{name}")
  | some (.flag f), none => s.flag f
  | some (.flag f), some text => .error (.unexpectedValue (Parameter.flag f).name text)
  | some (.setting setting), attached => s.setting setting attached

/-- Reads an argument that does not look like a parameter. -/
def bare (text : String) : Except ArgumentError Scan :=
  match s.isTrailing, s.pending with
  | false, some (setting, none) => .ok { s with pending := some (setting, some text) }
  | _, _ => .error (.unknownArgument text)

/-- Reads an argument. -/
def argument (s : Scan) (text : String) : Except ArgumentError Scan :=
  if s.isTrailing then s.bare text
  else
    match text.toList with
    | ['-', '-'] => .ok { s with isTrailing := true }
    | '-' :: '-' :: body => s.long body
    | '-' :: c :: body => s.letters (c :: body)
    | _ => s.bare text

end Scan

namespace Arguments

/-- Reads the arguments of a command line, the name of the program left out. -/
def parse (args : List String) : Except ArgumentError Arguments := do
  let s ← args.foldlM Scan.argument .start
  let s ← s.settle
  s.draft.finish

/-- The list of all parameters. -/
def usage : String :=
  "Runs a flat little endian program through the recompiler.\n\nOptions:\n" ++
    "\n".intercalate (Parameter.all.map Parameter.usage) ++ "\n"

variable (a : Arguments)

/-- The tuning that is asked for. -/
def options : Options :=
  { Options.standard with
    enableBlockLink := !a.noLink
    fastMemory := a.fastMemory
    maxBlockInstructions := a.maxBlockInstructions
    dumpBlocks := a.dumpBlocks }

/-- A value that may be missing, as it is shown. -/
def optionText (value? : Option Nat) : String :=
  match value? with
  | none => "None"
  | some n => s!"Some({n})"

/-- The request on one line. -/
def describe : String :=
  "CommandLineInterface \x7b " ++ s!"binary: {Quoted.quote a.binary}, base: {a.base}, " ++
    s!"entry: {optionText (a.entry.map (·.toNat))}, memory_size: {a.memorySize}, " ++
    s!"cycles: {a.cycles}, slices: {optionText a.slices}, no_link: {a.noLink}, " ++
    s!"fast_memory: {a.fastMemory}, max_block_instructions: {a.maxBlockInstructions}, " ++
    s!"dump_blocks: {a.dumpBlocks}, verbose: {a.verbose}" ++ " \x7d"

end Arguments

end Recompiler
