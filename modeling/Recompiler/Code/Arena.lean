/-!
# Code arenas

A fixed amount of space that machine code is appended to.

Bytes that do not fit under the current limit are dropped and remembered as an overflow, until the
owner takes note of it. Offsets and lengths are 64-bit numbers.

* `Arena.emit`: appends bytes, whole or not at all.
* `Arena.patch`: overwrites bytes that were written before.
* `Arena.reserve`, `Arena.truncate`, `Arena.reset`: moving the limit and the end.
* `Arena.bytes`: the written bytes of a range.
-/

namespace Recompiler

/-- Space for machine code. -/
structure Arena where
  /-- The size of the space. -/
  capacity : Nat
  /-- The written bytes. -/
  written : Array UInt8
  /-- The offset that no upcoming write may pass. -/
  limit : Nat
  /-- Some bytes were dropped. -/
  overflowed : Bool
  deriving DecidableEq, Repr

/-- Why there is no arena. -/
inductive ArenaError where
  /-- The host has no space of this size. -/
  | unavailable (size : Nat)
  /-- No space was asked for. -/
  | empty
  deriving DecidableEq, Repr

namespace ArenaError

/-- The wording of a failed allocation, where it does not depend on the host. -/
def message? : ArenaError → Option String
  | unavailable _ => none
  | empty => some "cannot allocate an empty code arena"

end ArenaError

namespace Arena

/-- The number of addresses in a host process. No arena is larger. -/
def addressSpace : Nat := 0x800000000000

/-- The number of free addresses in a row in a host process that maps little else: all below the place
of the program, at two thirds of the address space. -/
def usualRun : Nat := 0x555555554000

/-- An arena with nothing in it. -/
def blank (capacity : Nat) : Arena :=
  ⟨capacity, #[], capacity, false⟩

/-- Space for code, if the host has as many addresses `available` in a row. -/
def allocate (capacity : Nat) (available : Nat := usualRun) : Except ArenaError Arena :=
  if capacity = 0 then .error .empty
  else if min available addressSpace < capacity then .error (.unavailable capacity)
  else .ok (blank capacity)

variable (a : Arena)

/-- The offset of the next byte. -/
def size : Nat :=
  a.written.size

/-- Nothing is written. -/
def isEmpty : Bool :=
  a.size == 0

/-- The number of bytes between the end and the capacity. -/
def spaceLeft : Nat :=
  a.capacity - a.size

/-- Limits upcoming writes to the next `count` bytes; says whether the arena has as many. -/
def reserve (count : Nat) : Bool × Arena :=
  if a.size + count ≤ a.capacity then (true, { a with limit := a.size + count }) else (false, a)

/-- Appends bytes, or drops them all and remembers the overflow. -/
def emit (bytes : List UInt8) : Arena :=
  if a.overflowed ∨ a.limit < a.size + bytes.length then { a with overflowed := true }
  else { a with written := a.written ++ bytes }

/-- Replaces the bytes from `offset` on, as far as they are written. -/
def overwrite (written : Array UInt8) (offset : Nat) : List UInt8 → Array UInt8
  | [] => written
  | b :: rest => overwrite (written.setIfInBounds offset b) (offset + 1) rest

/-- Overwrites bytes; says whether the whole range was written before, and does nothing if not. -/
def patch (offset : Nat) (bytes : List UInt8) : Bool × Arena :=
  if offset + bytes.length ≤ a.size then
    (true, { a with written := overwrite a.written offset bytes })
  else (false, a)

/-- Whether bytes were dropped since the last time this was asked. -/
def takeOverflow : Bool × Arena :=
  (a.overflowed, { a with overflowed := false })

/-- Discards everything from `offset` on. -/
def truncate (offset : Nat) : Arena :=
  { a with written := a.written.shrink offset }

/-- Discards everything and lifts the limit. -/
def reset : Arena :=
  { a with written := #[], limit := a.capacity, overflowed := false }

/-- The written bytes among the `length` from `offset` on. The end of the range is computed in 64
bits. -/
def bytes (offset length : Nat) : List UInt8 :=
  let stop := min ((offset + length) % UInt64.size) a.size
  (a.written.extract offset stop).toList

/-- The written bytes among the `length` from `offset` on. -/
def window (offset length : Nat) : List UInt8 :=
  (a.written.extract offset (offset + length)).toList

@[simp] theorem size_emit_of_fits {bytes : List UInt8} (h : a.overflowed = false)
    (h' : a.size + bytes.length ≤ a.limit) : (a.emit bytes).size = a.size + bytes.length := by
  have : a.emit bytes = { a with written := a.written ++ bytes } := by
    simp [emit, h, Nat.not_lt.mpr h']
  rw [this, size, size, ← Array.length_toList]
  simp

@[simp] theorem size_overwrite (written : Array UInt8) (offset : Nat) (bytes : List UInt8) :
    (overwrite written offset bytes).size = written.size := by
  induction bytes generalizing written offset with
  | nil => rfl
  | cons b rest ih => simp [overwrite, ih]

@[simp] theorem size_patch (offset : Nat) (bytes : List UInt8) :
    (a.patch offset bytes).2.size = a.size := by
  unfold patch
  split
  · simp [size]
  · rfl

@[simp] theorem size_truncate (offset : Nat) : (a.truncate offset).size = min offset a.size := by
  simp [truncate, size]

end Arena

end Recompiler
