import Std.Data.HashMap
import Recompiler.Memory.Bus

/-!
# Flat memory

A single block of little endian memory, exposed whole as a fast region. Bytes that were never
written are zero and take no space, so a block may be as large as the address space.

* `FlatMemory.offset`: where an access lies in the block, or why it fails.
* `FlatMemory.bytes`, `FlatMemory.load`: reading and writing runs of bytes.
* The instance of `Bus`: accesses of the three widths.
-/

namespace Recompiler

/-- A block of memory. -/
structure FlatMemory where
  /-- The first guest address. -/
  base : UInt32
  /-- The number of bytes. -/
  size : Nat
  /-- The host address of the first byte. -/
  pointer : UInt64
  /-- The bytes written so far, by their distance from the first. -/
  written : Std.HashMap Nat UInt8

namespace FlatMemory

/-- A block of zeros. -/
def zeros (base : UInt32) (size : Nat) (pointer : UInt64) : FlatMemory :=
  ⟨base, size, pointer, ∅⟩

variable (m : FlatMemory)

/-- The block has no bytes. -/
def isEmpty : Bool :=
  m.size == 0

/-- The byte at a distance from the first. -/
def byte (offset : Nat) : UInt8 :=
  m.written.getD offset 0

/-- The distance of `addr` from the first byte, if `length` bytes there lie in the block. The end
of the run is computed in 64 bits. -/
def offset (addr : UInt32) (length : Nat) : Except BusError Nat :=
  if addr < m.base then .error (.addressNotMapped addr)
  else
    let start := (addr - m.base).toNat
    if m.size ≤ start then .error (.addressNotMapped addr)
    else if m.size < (start + length) % UInt64.size then .error (.outOfRange addr length)
    else .ok start

/-- `count` bytes from `start` on. -/
def run (start count : Nat) : List UInt8 :=
  (List.range count).map fun i => m.byte (start + i)

/-- The bytes of a range. A length whose end passes 2^64 breaks the contract. -/
def bytes (addr : UInt32) (length : Nat) : Except BusError (Except Breach (List UInt8)) := do
  let start ← m.offset addr length
  if start + length < UInt64.size then return .ok (m.run start length)
  else return .error (.reversedSlice start ((start + length) % UInt64.size))

/-- The block with `bytes` written from `start` on. -/
def store (start : Nat) (bytes : List UInt8) : FlatMemory :=
  { m with written := (bytes.foldl (fun (w, i) b => (w.insert i b, i + 1)) (m.written, start)).1 }

/-- Copies bytes to a guest address. -/
def load (addr : UInt32) (bytes : List UInt8) : Except BusError FlatMemory := do
  let start ← m.offset addr bytes.length
  return m.store start bytes

/-- Copies words to a guest address. -/
def loadWords (addr : UInt32) (words : List UInt32) : Except BusError FlatMemory :=
  m.load addr (words.flatMap Word.bytes)

/-- The value at an address, widened with zeros. -/
def read (width : Width) (addr : UInt32) : Except BusError UInt32 := do
  let start ← m.offset addr width.size
  return Word.ofBytes (m.run start width.size)

/-- The block as a fast region, if its size is a word. -/
def region? : Option FastRegion :=
  if m.size < UInt32.size then some ⟨m.base, m.size.toUInt32, m.pointer⟩ else none

/-- The part of the block from `start` on as a fast region, if the whole block is one. -/
def window? (start length : UInt32) : Option FastRegion :=
  m.region?.map fun r => ⟨start, length, r.pointer + (start - r.start).toUInt64⟩

/-- The distance of a host address from the first byte, if it lies in the block. -/
def hostOffset? (pointer : UInt64) : Option Nat :=
  if m.pointer ≤ pointer ∧ (pointer - m.pointer).toNat < m.size then
    some (pointer - m.pointer).toNat
  else none

end FlatMemory

instance : Bus FlatMemory where
  read width addr m := (m.read width addr, m)
  write width addr value m :=
    match m.offset addr width.size with
    | .ok start => (.ok (), m.store start ((Word.bytes value).take width.size))
    | .error e => (.error e, m)
  fastRegions m := m.region?.toList
  hostByte? m pointer := (m.hostOffset? pointer).map m.byte
  setHostByte m pointer value :=
    match m.hostOffset? pointer with
    | some i => { m with written := m.written.insert i value }
    | none => m

end Recompiler
