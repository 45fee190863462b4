import Recompiler.Block.Lowering

/-!
# Lowering memory accesses

Loads and stores. An access inside a fast region reaches host memory directly, relative to
`HostRegister.memoryBase` for the main region; all others call a helper that asks the bus.

* `MemoryOp`: loads and stores of the guest.
* `Lower.constantAccess`: an access to an address known during lowering.
* `Lower.maskedAccess`, `Lower.guardedAccess`: accesses to the address in
  `HostRegister.scratch`, with every address wrapped into the main region, or with one check for
  each region.
-/

namespace Recompiler

/-- A guest load or store. -/
inductive MemoryOp where
  | load (kind : LoadKind)
  | store (width : Width)
  deriving DecidableEq, Repr

namespace MemoryOp

/-- The number of bytes. -/
def size : MemoryOp → Nat
  | load kind => kind.width.size
  | store width => width.size

/-- The helper that asks the bus. -/
def helper : MemoryOp → Helper
  | load kind => .load kind
  | store width => .store width

/-- The access of an instruction. -/
def ofMnemonic? : Mnemonic → Option MemoryOp
  | .lb => some (load .s8)
  | .lbu => some (load .u8)
  | .lh => some (load .s16)
  | .lhu => some (load .u16)
  | .lw => some (load .u32)
  | .sb => some (store .byte)
  | .sh => some (store .half)
  | .sw => some (store .word)
  | _ => none

/-- The direct access. `value` is the destination of a load or the source of a store. -/
def direct (op : MemoryOp) (value : HostRegister) (addr : FastAddress) :
    Except Breach (List HostInstruction) :=
  match op with
  | load kind => Sequence.loadHost kind value addr
  | store width => Sequence.storeHost width addr value

/-- The call of the helper with the guest address in the scratch register. -/
def slow (op : MemoryOp) (value : HostRegister) : Except Breach (List HostInstruction) :=
  match op with
  | load _ => do
    let call ← Sequence.call op.helper.address [.context, .register .scratch]
    return call ++ Sequence.move value .scratch
  | store _ =>
    Sequence.call op.helper.address [.context, .register .scratch, .register value]

end MemoryOp

/-- The first region that holds a whole access, its number, and the place of the access in it. -/
def findRegion (regions : List FastRegion) (addr : UInt32) (size : Nat) :
    Option (Nat × FastRegion × UInt32) :=
  regions.zipIdx.findSome? fun (region, n) =>
    (region.offset? addr size).map fun offset => (n, region, offset)

namespace Lower

variable {β : Type}

/-! ## Constant addresses -/

/-- Prepares the host address of a place in a region, which may use the scratch and pointer
registers. -/
def constantAddress (n : Nat) (region : FastRegion) (offset : UInt32) :
    Lower β FastAddress := do
  if n = 0 ∧ offset < 0x80000000 then return .fixed offset
  emit (Sequence.moveImmediate .scratch offset)
  if n = 0 then return .indexed .scratch
  emit (Sequence.movePointer .pointer region.pointer)
  return .based .pointer .scratch

/-- An access to a constant address. -/
def constantAccess (op : MemoryOp) (rt : GuestIndex) (addr : UInt32) : Lower β Unit := do
  match op, findRegion (← read).regions addr op.size with
  | .load _, some (n, region, offset) =>
    let dst ← map rt .write
    emitChecked (op.direct dst (← constantAddress n region offset))
  | .load _, none =>
    emit (Sequence.moveImmediate .scratch addr)
    emitChecked (Sequence.call op.helper.address [.context, .register .scratch])
    let dst ← map rt .write
    emit (Sequence.move dst .scratch)
  | .store _, some (n, region, offset) =>
    let src ← map rt .read
    emitChecked (op.direct src (← constantAddress n region offset))
  | .store _, none =>
    let src ← map rt .read
    emit (Sequence.moveImmediate .scratch addr)
    emitChecked (op.slow src)

/-! ## Addresses known at run time -/

/-- Wraps the address into the main region. It is aligned as well, so that the access cannot leave
the region. -/
def maskedAccess (op : MemoryOp) (value : HostRegister) (main : FastRegion) :
    Lower β Unit := do
  let scratch := HostRegister.scratch
  if main.length.toNat < op.size then
    emitChecked (op.slow value)
  else
    if main.start ≠ 0 then
      emit (Sequence.alu .sub scratch scratch (.immediate main.start))
    let mask := (main.length - 1) &&& ~~~(op.size.toUInt32 - 1)
    emit (Sequence.alu .and scratch scratch (.immediate mask))
    emitChecked (op.direct value (.indexed scratch))

/-- Tries region number `n`: a jump to `done` follows the direct access, and an address that misses
the region is left as it was. -/
def guardedRegion (op : MemoryOp) (value : HostRegister) (n : Nat) (region : FastRegion)
    (done : Nat) : Lower β Unit := do
  let scratch := HostRegister.scratch
  let last := region.length - op.size.toUInt32
  let miss ← freshLabel
  if region.start ≠ 0 then
    emit (Sequence.alu .sub scratch scratch (.immediate region.start))
  emit (Sequence.compare scratch (.immediate last))
  append [.jumpIf .above miss]
  if n = 0 then
    emitChecked (op.direct value (.indexed scratch))
  else
    emit (Sequence.movePointer .pointer region.pointer)
    emitChecked (op.direct value (.based .pointer scratch))
  append [.jump done, .bind miss]
  if region.start ≠ 0 then
    emit (Sequence.alu .add scratch scratch (.immediate region.start))

/-- Tries regions in order, each with its number, and gives the labels of the direct accesses. A
region that is smaller than the access is passed over. -/
def guardedRegions (op : MemoryOp) (value : HostRegister) :
    List (FastRegion × Nat) → Lower β (List Nat)
  | [] => return []
  | (region, n) :: rest => do
    if op.size ≤ region.length.toNat then
      let done ← freshLabel
      guardedRegion op value n region done
      return done :: (← guardedRegions op value rest)
    else guardedRegions op value rest

/-- Tries the regions in order, and asks the bus if the address misses all of them. -/
def guardedAccess (op : MemoryOp) (value : HostRegister) (regions : List FastRegion) :
    Lower β Unit := do
  let hits ← guardedRegions op value regions.zipIdx
  emitChecked (op.slow value)
  append (hits.map .bind)

/-- An access to the guest address in the scratch register. -/
def dynamicAccess (op : MemoryOp) (value : HostRegister) : Lower β Unit := do
  let s ← read
  match s.regions with
  | [] => emitChecked (op.slow value)
  | main :: _ =>
    if s.options.fastMemory then maskedAccess op value main
    else guardedAccess op value s.regions

/-! ## Instructions -/

/-- A load or store. A load of register zero does nothing at all. -/
def memoryAccess (i : Instruction) (op : MemoryOp) : Lower β Unit := do
  let rt ← registerOperand i.rt
  let base ← registerOperand i.base
  let offset ← checked i.offset
  match op with
  | .load _ =>
    if rt = zeroRegister then return
    match ← immediate? base with
    | some addr => constantAccess op rt (addr + offset)
    | none =>
      updateRegisters (·.lock base)
      updateRegisters (·.lock rt)
      let base ← map base .read
      -- The address is computed before the destination is written, which may be the base.
      let dst ← map rt .write
      emit (Sequence.loadAddress .scratch base offset)
      dynamicAccess op dst
  | .store _ =>
    match ← immediate? base with
    | some addr => constantAccess op rt (addr + offset)
    | none =>
      let (base, src) ← allocating (RegisterCache.mapSources base rt)
      emit (Sequence.loadAddress .scratch base offset)
      dynamicAccess op src

end Lower

end Recompiler
