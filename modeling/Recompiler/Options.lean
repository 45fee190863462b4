import Recompiler.Memory.Region
import Recompiler.Text.Radix

/-!
# Options

How the recompiler is tuned, and which combinations make sense for the regions of a bus.

* `Options.standard`: the values used where nothing else is asked for.
* `Options.validate`: the combinations that are accepted.
-/

namespace Recompiler

/-- The tuning of a recompiler. -/
structure Options where
  /-- Exits of blocks jump straight into blocks that are compiled already. -/
  enableBlockLink : Bool
  /-- Addresses that are only known at run time are masked into the main region instead of being
  checked. Accesses outside it wrap around and reach neither the bus nor another region. -/
  fastMemory : Bool
  /-- The size of the code arena in bytes. -/
  codeSize : Nat
  /-- The number of blocks that can be kept. -/
  maxBlocks : Nat
  /-- The space that has to be free before a block is compiled. -/
  reservedCodeMargin : Nat
  /-- The number of instructions after which a block is cut. -/
  maxBlockInstructions : Nat
  /-- Reports the guest and host code of every compiled block. -/
  dumpBlocks : Bool
  deriving DecidableEq, Repr

/-- Why options are not accepted. -/
inductive ConfigError where
  | noBlocks
  | noInstructions
  | marginTooLarge (margin codeSize : Nat)
  | overlappingRegions (first second : UInt32)
  | noRegion
  /-- Masking needs a main region whose length is a power of two. -/
  | notPowerOfTwo (length : UInt32)
  deriving DecidableEq, Repr

namespace ConfigError

/-- The reason that a message gives. -/
def reason : ConfigError → String
  | noBlocks => "the block table needs at least one slot"
  | noInstructions => "blocks need room for at least one instruction"
  | marginTooLarge margin codeSize =>
    s!"reserved margin of {Radix.hex margin} bytes does not fit in a {Radix.hex codeSize} " ++
      "byte arena"
  | overlappingRegions first second =>
    s!"fast regions at {Radix.hexWord first} and {Radix.hexWord second} overlap"
  | noRegion => "masked memory access needs a fast region"
  | notPowerOfTwo length =>
    s!"masked memory access needs a power of two region, got {Radix.hex length.toNat} bytes"

/-- The wording of refused options. -/
def message (e : ConfigError) : String :=
  "invalid configuration: " ++ e.reason

end ConfigError

/-- The word has exactly one bit set. -/
def isPowerOfTwo (w : UInt32) : Bool :=
  w != 0 && w &&& (w - 1) == 0

namespace Options

/-- The values used where nothing else is asked for. -/
def standard : Options where
  enableBlockLink := true
  fastMemory := false
  codeSize := 16 * 1024 * 1024
  maxBlocks := 16384
  reservedCodeMargin := 0x10000
  maxBlockInstructions := 128
  dumpBlocks := false

/-- The first region that shares an address with one before it, and the first such. `before` holds
the regions already passed. -/
def firstOverlap (before : List FastRegion) : List FastRegion → Option (FastRegion × FastRegion)
  | [] => none
  | region :: rest =>
    match before.find? (·.overlaps region) with
    | some other => some (other, region)
    | none => firstOverlap (before ++ [region]) rest

/-- Accepts options that make sense for the regions of a bus. -/
def validate (o : Options) (regions : List FastRegion) : Except ConfigError Unit := do
  if o.maxBlocks = 0 then throw .noBlocks
  if o.maxBlockInstructions = 0 then throw .noInstructions
  if o.codeSize ≤ o.reservedCodeMargin then
    throw (.marginTooLarge o.reservedCodeMargin o.codeSize)
  if let some (first, second) := firstOverlap [] regions then
    throw (.overlappingRegions first.start second.start)
  if o.fastMemory then
    match regions with
    | [] => throw .noRegion
    | main :: _ => if !isPowerOfTwo main.length then throw (.notPowerOfTwo main.length)

/-- The options on one line. -/
def describe (o : Options) : String :=
  "JitOptions \x7b " ++ s!"enable_block_link: {o.enableBlockLink}, " ++
    s!"fast_memory: {o.fastMemory}, code_size: {o.codeSize}, max_blocks: {o.maxBlocks}, " ++
    s!"reserved_code_margin: {o.reservedCodeMargin}, " ++
    s!"max_block_instructions: {o.maxBlockInstructions}, dump_blocks: {o.dumpBlocks}" ++ " \x7d"

end Options

end Recompiler
