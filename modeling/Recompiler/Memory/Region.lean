/-!
# Fast regions

Ranges of guest addresses that host memory backs directly, so that generated code reaches them
without asking the bus.

* `FastRegion.holds`: a whole access lies in the region.
* `FastRegion.overlaps`: the ranges of two regions cross, which they can do without sharing an address
  if one of them is empty.
-/

namespace Recompiler

/-- A range of guest addresses: address `start + n` lives in host memory at `pointer + n`, for
every `n` below `length`. -/
structure FastRegion where
  /-- The first guest address. -/
  start : UInt32
  /-- The number of bytes. -/
  length : UInt32
  /-- The host address of the first byte. -/
  pointer : UInt64
  deriving DecidableEq, Repr

namespace FastRegion

/-- The address after the last one, which may lie past the end of the address space. -/
def stop (r : FastRegion) : Nat :=
  r.start.toNat + r.length.toNat

/-- The ranges cross: each region starts before the other one stops. An empty region crosses those
that it lies inside of. -/
def overlaps (r q : FastRegion) : Bool :=
  r.start.toNat < q.stop && q.start.toNat < r.stop

/-- The place of an access of `size` bytes at `addr` inside the region, if it lies there whole. -/
def offset? (r : FastRegion) (addr : UInt32) (size : Nat) : Option UInt32 :=
  if r.start ≤ addr ∧ (addr - r.start).toNat + size ≤ r.length.toNat then some (addr - r.start)
  else none

/-- An access of `size` bytes at `addr` lies whole in the region. -/
def holds (r : FastRegion) (addr : UInt32) (size : Nat) : Bool :=
  (r.offset? addr size).isSome

theorem overlaps_comm (r q : FastRegion) : r.overlaps q = q.overlaps r := by
  simp [overlaps, Bool.and_comm]

end FastRegion

end Recompiler
