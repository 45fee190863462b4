import Recompiler.Block.Branch
import Recompiler.Block.Table

/-!
# Compiling blocks

From the guest code at an address to a published block: lowering, assembly and linking.

* `Lower.block`: the lowering of a block.
* `BlockTable.compile`: the block in the table. A failure leaves the table as it was before, as far
  as its blocks go.
-/

namespace Recompiler

namespace Lower

variable {β : Type} [Bus β]

/-- Lowers up to `limit` more instructions. A block that is still open then goes on at the next
address. -/
def body (start : UInt32) : (limit : Nat) → Lower β Unit
  | 0 => do
    report (.instructionLimit start)
    flushAll
    writeExit (← currentPc)
  | limit + 1 => do
    instruction
    modify fun t => { t with pc := t.pc + 4 }
    if (← get).isOpen then body start limit

/-- Blocks end at multiples of this. -/
def blockAlignment : Nat := 16

/-- Lowers the block at an address. -/
def block (start : UInt32) : Lower β Unit := do
  report (.compiling start)
  writeEntry start
  body start (← read).options.maxBlockInstructions
  append [.align blockAlignment]

end Lower

/-- A lowering that has not begun. -/
def Lowering.initial {β : Type} (bus : β) (start : UInt32) : Lowering β where
  bus := bus
  registers := .fresh
  code := #[]
  events := #[]
  labels := 0
  pc := start
  cycles := 0
  instructions := 0
  isOpen := true
  cancelled := false

/-- What came of a compilation: the number of the block or the reason why there is none, and all
that changed on the way. -/
structure Compilation (β : Type) where
  /-- The number of the block. -/
  result : Except Failure Nat
  /-- The table afterwards. -/
  table : BlockTable
  /-- The bus that instructions were read from. -/
  bus : β
  /-- The events. -/
  events : Array Event

namespace BlockTable

variable {β : Type} [Bus β]

/-- The table with a block filled in from its assembly, and everything it emitted. -/
def install (t : BlockTable) (n : Nat) (instructions : UInt32) (items : Array Item) :
    BlockTable :=
  let ⟨code, blocks, byStart, linksTo, stubs, maxBlocks⟩ := t
  let s := code.assemble items
  let blocks := blocks.modify n fun b =>
    { b with instructions := instructions, normalEntry := s.entry, exits := s.exits }
  ⟨s.code, blocks, byStart, linksTo, stubs, maxBlocks⟩

/-- The entry of the block at a guest address, as block `n` sees it while it is lowered. -/
def entryAt (t : BlockTable) (n : Nat) (addr : UInt32) : Option Destination :=
  (t.number? addr).bind fun number =>
    if number = n then some .ownEntry
    else (t.block? number).map fun block => .offset block.normalEntry

/-- Compiles the block at a guest address. The caller knows that the table is not full. -/
def compile (t : BlockTable) (bus : β) (options : Options) (regions : List FastRegion)
    (start : UInt32) : Compilation β :=
  match t.allocate start with
  | .error b => ⟨.error (.breach b), t, bus, #[]⟩
  | .ok (n, t) =>
    let (outcome, r) :=
      ((Lower.block start).run ⟨options, regions, t.stubs, t.entryAt n⟩).run.run
        (.initial bus start)
    let t := t.install n r.instructions r.code
    let overflowed := t.code.overflowed
    let t := { t with code := t.code.takeOverflow.2 }
    match outcome, overflowed with
    | .ok (), false =>
      match t.finalize n options.enableBlockLink with
      | .ok (t, events) => ⟨.ok n, t, r.bus, r.events ++ events⟩
      | .error b => ⟨.error (.breach b), t, r.bus, r.events⟩
    | outcome, _ =>
      let failure :=
        match outcome with
        | .error f => f
        | .ok () => .compile .codeSpaceExhausted
      match t.discard n with
      | .ok t => ⟨.error failure, t, r.bus, r.events⟩
      | .error b => ⟨.error (.breach b), t, r.bus, r.events⟩

end BlockTable

end Recompiler
