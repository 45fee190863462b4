import Recompiler.Breach
import Recompiler.Code.Arena
import Recompiler.Host.Instruction

/-!
# Assembly

Appending instructions to an arena, and the jumps whose distance depends on where they lie.

* `Arena.write`, `Arena.writeAll`: appending instructions.
* `Arena.jump`, `Arena.jumpIf`, `Arena.bind`: jumps forward to a place that is not known yet. A jump
  is known by the offset of its end; binding it overwrites the distance in its last four bytes.
* `Arena.jumpTo`, `Arena.jumpIfTo`: jumps to a known offset.
* `Arena.patchJump`: sending a jump of five bytes somewhere else.
* `Item`, `Arena.assemble`: code with symbolic labels, and its assembly.

Offsets are 64-bit numbers and distances keep their low 32 bits.
-/

namespace Recompiler

/-- The distance that a jump ending at `stop` covers to reach `target`. -/
def jumpDistance (target stop : Nat) : UInt32 :=
  (target.toUInt64 - stop.toUInt64).toUInt32

namespace Arena

variable (a : Arena)

/-- Appends an instruction, piece by piece. -/
def write (i : HostInstruction) : Arena :=
  i.pieces.foldl emit a

/-- Appends instructions. -/
def writeAll (is : List HostInstruction) : Arena :=
  is.foldl write a

/-- Appends a jump whose target is not known yet; gives the offset of its end. -/
def jump : Nat × Arena :=
  let a := a.emit (HostInstruction.jump 0).encode
  (a.size, a)

/-- Appends a conditional jump whose target is not known yet; gives the offset of its end. -/
def jumpIf (c : Condition) : Nat × Arena :=
  let a := a.emit (HostInstruction.jumpIf c 0).encode
  (a.size, a)

/-- Sends the jump that ends at `stop` to the current offset. -/
def bind (stop : Nat) : Arena :=
  (a.patch (stop.toUInt64 - 4).toNat (Word.bytes (jumpDistance a.size stop))).2

/-- Appends a jump to `target`. -/
def jumpTo (target : Nat) : Arena :=
  a.write (.jump (jumpDistance target (a.size + 5)))

/-- Appends a conditional jump to `target`. -/
def jumpIfTo (c : Condition) (target : Nat) : Arena :=
  a.write (.jumpIf c (jumpDistance target (a.size + 6)))

/-- Sends the jump of five bytes at offset `start` to `target`; says whether it was written. -/
def patchJump (start target : Nat) : Bool × Arena :=
  a.patch (start.toUInt64 + 1).toNat (Word.bytes (jumpDistance target (start + 5)))

/-- Where the jump of five bytes at offset `start` goes, if all of it is written. -/
def destination? (start : Nat) : Option Int :=
  if start + 5 ≤ a.size then
    some (start + 5 + Word.toInt (Word.ofBytes (a.bytes (start + 1) 4)))
  else none

/-- Appends up to `count` bytes of filler, stopping at the first that does not fit. -/
def fill : (count : Nat) → Arena → Arena
  | 0, a => a
  | count + 1, a =>
    let size := a.size
    let a := a.write .trap
    if a.size = size then a else fill count a

/-- Appends filler until the offset is a multiple of `alignment`, which is not zero. -/
def align (alignment : Nat) : Arena :=
  fill ((alignment - a.size % alignment) % alignment) a

/-- `align` for a caller that may ask for multiples of zero. -/
def checkedAlign (alignment : Nat) : Except Breach Arena :=
  if alignment = 0 then .error .zeroAlignment else .ok (a.align alignment)

end Arena

/-! ## Symbolic code -/

/-- Where the way out of a block leads. -/
inductive Destination where
  /-- A known offset. -/
  | offset (target : Nat)
  /-- The marked entry of the code that is being assembled. -/
  | ownEntry
  deriving DecidableEq, Repr

/-- A step of an assembly. Labels are numbers, each used by one jump. -/
inductive Item where
  | instruction (i : HostInstruction)
  /-- A jump to where `label` is bound. -/
  | jump (label : Nat)
  | jumpIf (c : Condition) (label : Nat)
  /-- Binds a label here. -/
  | bind (label : Nat)
  /-- A jump to a known offset. -/
  | jumpTo (target : Nat)
  | jumpIfTo (c : Condition) (target : Nat)
  /-- The way out to the guest address `target`: a jump to `destination`, which can be sent
  elsewhere later. `linked` says that the destination is the block at `target`. -/
  | leave (target : UInt32) (destination : Destination) (linked : Bool)
  /-- Marks the entry that other blocks jump to. -/
  | entry
  /-- Filler up to a multiple. -/
  | align (alignment : Nat)
  deriving DecidableEq, Repr

/-- A block exit that jumps to a statically known guest address. -/
structure Exit where
  /-- The guest address. -/
  target : UInt32
  /-- The offset of the jump. -/
  offset : Nat
  /-- The jump goes straight to the block at `target`, and not to the dispatcher. -/
  linked : Bool
  deriving DecidableEq, Repr

/-- An assembly in progress. -/
structure Assembly where
  /-- The code so far. -/
  code : Arena
  /-- The jumps to labels, with the offsets of their ends. -/
  pending : List (Nat × Nat)
  /-- The exits so far, oldest first. -/
  exits : Array Exit
  /-- The offset of the marked entry. -/
  entry : Nat

namespace Assembly

/-- An assembly that starts at the end of an arena. -/
def start (code : Arena) : Assembly :=
  ⟨code, [], #[], code.size⟩

/-- Does one step. -/
def step (s : Assembly) (item : Item) : Assembly :=
  let ⟨code, pending, exits, entry⟩ := s
  match item with
  | .instruction i => ⟨code.write i, pending, exits, entry⟩
  | .jump label =>
    let (stop, code) := code.jump
    ⟨code, (label, stop) :: pending, exits, entry⟩
  | .jumpIf c label =>
    let (stop, code) := code.jumpIf c
    ⟨code, (label, stop) :: pending, exits, entry⟩
  | .bind label =>
    match pending.lookup label with
    | some stop => ⟨code.bind stop, pending, exits, entry⟩
    | none => ⟨code, pending, exits, entry⟩
  | .jumpTo target => ⟨code.jumpTo target, pending, exits, entry⟩
  | .jumpIfTo c target => ⟨code.jumpIfTo c target, pending, exits, entry⟩
  | .leave target destination linked =>
    let offset := code.size
    let destination :=
      match destination with
      | .offset o => o
      | .ownEntry => entry
    ⟨code.jumpTo destination, pending, exits.push ⟨target, offset, linked⟩, entry⟩
  | .entry =>
    let offset := code.size
    ⟨code, pending, exits, offset⟩
  | .align alignment => ⟨code.align alignment, pending, exits, entry⟩

end Assembly

/-- Appends symbolic code. -/
def Arena.assemble (a : Arena) (items : Array Item) : Assembly :=
  items.foldl Assembly.step (.start a)

end Recompiler
