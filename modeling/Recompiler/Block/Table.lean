import Std.Data.HashMap
import Recompiler.Block.Error
import Recompiler.Code.Stubs
import Recompiler.Event

/-!
# The block table

The compiled blocks and the arena that holds their code. Blocks are known by their numbers, which
count up from zero, and by the guest addresses they start at.

An exit leads to the dispatcher at first. When blocks are linked, the exits to a guest address are
sent to the block that starts there as soon as both exist.

* `BlockTable.create`, `BlockTable.clear`: a table without blocks.
* `BlockTable.allocate`, `BlockTable.discard`, `BlockTable.finalize`: the life of a block.
* `BlockTable.number?`, `BlockTable.block?`: looking blocks up.
-/

namespace Recompiler

/-- A compiled block. -/
structure Block where
  /-- The guest address of the first instruction. -/
  start : UInt32
  /-- The number of guest instructions, delay slots included. -/
  instructions : UInt32
  /-- The number of bytes of host code. -/
  codeSize : Nat
  /-- The offset of the entry that checks the budget first. -/
  checkedEntry : Nat
  /-- The offset of the entry for blocks that have checked it. -/
  normalEntry : Nat
  /-- The exits to known guest addresses. -/
  exits : Array Exit
  deriving DecidableEq, Repr

/-- The compiled blocks with their code. -/
structure BlockTable where
  /-- The code. -/
  code : Arena
  /-- The blocks by number. -/
  blocks : Array Block
  /-- The number of the block that starts at a guest address. -/
  byStart : Std.HashMap UInt32 Nat
  /-- The numbers of the blocks with an exit to a guest address, in order of arrival. -/
  linksTo : Std.HashMap UInt32 (List Nat)
  /-- The code that blocks leave through. -/
  stubs : Stubs
  /-- The number of blocks that can be kept. -/
  maxBlocks : Nat

namespace BlockTable

variable (t : BlockTable)

/-- Forgets every block and writes the stubs again. -/
def clear : BlockTable :=
  let (stubs, code) := Stubs.generate t.code.reset
  { t with code := code, blocks := #[], byStart := ∅, linksTo := ∅, stubs := stubs }

/-- A table without blocks, on an arena with room for the stubs. -/
def create (code : Arena) (maxBlocks : Nat) : Except CompileError BlockTable :=
  let blank : BlockTable := ⟨code, #[], ∅, ∅, ⟨0, 0, 0, 0, 0, 0⟩, maxBlocks⟩
  let t := blank.clear
  let (overflowed, code) := t.code.takeOverflow
  if overflowed then .error .codeSpaceExhausted else .ok { t with code := code }

/-- The number of blocks. -/
def size : Nat :=
  t.blocks.size

/-- There are no blocks. -/
def isEmpty : Bool :=
  t.size == 0

/-- No more blocks can be kept. -/
def isFull : Bool :=
  t.maxBlocks ≤ t.size

/-- The space left for code. -/
def spaceLeft : Nat :=
  t.code.spaceLeft

/-- The block with a number. -/
def block? (n : Nat) : Option Block :=
  t.blocks[n]?

/-- The number of the block that starts at a guest address. -/
def number? (addr : UInt32) : Option Nat :=
  t.byStart[addr]?

/-- The block that starts at a guest address. -/
def blockAt? (addr : UInt32) : Option Block :=
  (t.number? addr).bind t.block?

/-- Takes up a block that begins at the end of the arena, and gives its number. The caller knows
that the table is not full. -/
def allocate (start : UInt32) : Except Breach (Nat × BlockTable) :=
  if t.isFull then .error .tableFull
  else
    let offset := t.code.size
    .ok (t.size,
      { t with
        code := (t.code.reserve t.code.spaceLeft).2
        blocks := t.blocks.push ⟨start, 0, 0, offset, offset, #[]⟩ })

/-- Drops the newest block and its code. The caller knows that `n` is its number. -/
def discard (n : Nat) : Except Breach BlockTable :=
  if (n + 1) % UInt64.size ≠ t.size then .error (.discardOutOfOrder ((n + 1) % UInt64.size) t.size)
  else
    match t.blocks.back? with
    | some block =>
      .ok { t with
        code := (t.code.truncate block.checkedEntry).takeOverflow.2
        blocks := t.blocks.pop }
    | none => .ok t

/-! ## Links -/

/-- Sends the exits that lead to `target` and are not linked to the offset `entry`. Gives the exits
afterwards, the code, whether an exit was linked, and the offsets of those that could not be. -/
def linkExitList (code : Arena) (target : UInt32) (entry : Nat) :
    List Exit → List Exit × Arena × Bool × List Nat
  | [] => ([], code, false, [])
  | exit :: rest =>
    if exit.target = target ∧ !exit.linked then
      let (written, code) := code.patchJump exit.offset entry
      let (exits, code, linked, failed) := linkExitList code target entry rest
      if written then ({ exit with linked := true } :: exits, code, true, failed)
      else (exit :: exits, code, linked, exit.offset :: failed)
    else
      let (exits, code, linked, failed) := linkExitList code target entry rest
      (exit :: exits, code, linked, failed)

/-- Sends the exits of block `source` that lead to `target` to block `n`. -/
def linkExits (source : Nat) (target : UInt32) (n : Nat) :
    Except Breach (BlockTable × List Event) := do
  let some destination := t.blocks[n]? | throw (.indexOutOfBounds t.size n)
  let some block := t.blocks[source]? | throw (.indexOutOfBounds t.size source)
  let (exits, code, linked, failed) :=
    linkExitList t.code target destination.normalEntry block.exits.toList
  let events := failed.map (.linkFailed source ·)
  let events := if linked then events ++ [.linked source target n] else events
  return ({ t with
    code := code
    blocks := t.blocks.modify source fun b => { b with exits := exits.toArray } }, events)

/-- Does the links of a list, each a source, a guest address and the number of the block there. -/
def linkAll (t : BlockTable) : List (Nat × UInt32 × Nat) → Except Breach (BlockTable × List Event)
  | [] => return (t, [])
  | (source, target, n) :: rest => do
    let (t, events) ← t.linkExits source target n
    let (t, more) ← linkAll t rest
    return (t, events ++ more)

/-- Notes that block `n` has an exit to `target`. -/
def noteLink (n : Nat) (target : UInt32) : BlockTable :=
  { t with
    linksTo := t.linksTo.alter target fun sources? =>
      let sources := sources?.getD []
      if n ∈ sources then some sources else some (sources ++ [n]) }

/-- Links the exits of block `n` to the blocks they lead to, as far as there are any. -/
def linkOut (n : Nat) (t : BlockTable) : List UInt32 → Except Breach (BlockTable × List Event)
  | [] => return (t, [])
  | target :: rest => do
    let t := t.noteLink n target
    let (t, events) ←
      match t.number? target with
      | some destination => t.linkExits n target destination
      | none => pure (t, [])
    let (t, more) ← linkOut n t rest
    return (t, events ++ more)

/-- Links the exits that wait for block `n`, which starts at `start`. -/
def linkIn (n : Nat) (start : UInt32) : Except Breach (BlockTable × List Event) :=
  t.linkAll ((t.linksTo.getD start []).map (·, start, n))

/-- Publishes a block whose code reaches to the end of the arena, and links it with the others if
`link` says so. A number without a block is passed over. -/
def finalize (n : Nat) (link : Bool) : Except Breach (BlockTable × List Event) := do
  let some block := t.blocks[n]? | return (t, [])
  let codeSize := (t.code.size.toUInt64 - block.checkedEntry.toUInt64).toNat
  let t := { t with
    blocks := t.blocks.modify n fun b => { b with codeSize := codeSize }
    byStart := t.byStart.insert block.start n }
  let (t, events) ←
    if link then do
      let (t, out) ← linkOut n t (block.exits.toList.map (·.target))
      let (t, back) ← t.linkIn n block.start
      pure (t, out ++ back)
    else pure (t, [])
  return (t, events ++ [.finalized n block.start block.instructions codeSize])

/-- Forgets all code because the guest code in a range changed: there is no account of which blocks
it belongs to. -/
def invalidate (addr length : UInt32) : BlockTable × List Event :=
  (t.clear, if t.isEmpty then [] else [.invalidated addr length])

/-- The table on one line. -/
def describe : String :=
  "BlockCache \x7b " ++ s!"blocks: {t.size}, space_left: {t.spaceLeft}, stubs: " ++
    t.stubs.describe ++ ", .. \x7d"

end BlockTable

end Recompiler
