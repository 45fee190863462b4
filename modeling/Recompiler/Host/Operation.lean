import Recompiler.Memory.Bus

/-!
# Host operations

The operations that generated code is made of, apart from their encoding, each with its value on
32-bit words.

* `AluOp.fold`, `ShiftOp.fold`, `Condition.holds`: the values.
* `Condition.invert`: the opposite condition.
* `LoadKind`: a width together with the way a loaded value is widened.
-/

namespace Recompiler

/-- An arithmetic or logical operation. -/
inductive AluOp where
  | add | sub | and | or | xor
  /-- The complement of `or`. -/
  | nor
  deriving DecidableEq, Repr

namespace AluOp

/-- The value of the operation. -/
def fold (op : AluOp) (lhs rhs : UInt32) : UInt32 :=
  match op with
  | add => lhs + rhs
  | sub => lhs - rhs
  | and => lhs &&& rhs
  | or => lhs ||| rhs
  | xor => lhs ^^^ rhs
  | nor => ~~~(lhs ||| rhs)

/-- The operands may be exchanged. -/
def isCommutative : AluOp → Bool
  | sub => false
  | _ => true

theorem fold_comm {op : AluOp} (h : op.isCommutative = true) (lhs rhs : UInt32) :
    op.fold lhs rhs = op.fold rhs lhs := by
  cases op with
  | add => exact UInt32.add_comm lhs rhs
  | sub => exact absurd h (by decide)
  | and => exact UInt32.and_comm lhs rhs
  | or => exact UInt32.or_comm lhs rhs
  | xor => exact UInt32.xor_comm lhs rhs
  | nor => exact congrArg (~~~·) (UInt32.or_comm lhs rhs)

end AluOp

/-- A shift. -/
inductive ShiftOp where
  | left | right
  /-- To the right, copies of the sign moving in. -/
  | signedRight
  deriving DecidableEq, Repr

/-- The value of a shift; only the low five bits of the amount count. -/
def ShiftOp.fold (op : ShiftOp) (value amount : UInt32) : UInt32 :=
  match op with
  | left => value <<< (amount &&& 31)
  | right => value >>> (amount &&& 31)
  | signedRight => Word.shiftRightSigned value amount

/-- A condition on the outcome of a comparison. -/
inductive Condition where
  | equal | notEqual
  /-- Order as signed numbers. -/
  | less
  | lessEqual | greater | greaterEqual
  /-- Order as unsigned numbers. -/
  | below
  | belowEqual | above | aboveEqual
  deriving DecidableEq, Repr

namespace Condition

/-- The condition that holds exactly when this one does not. -/
def invert : Condition → Condition
  | equal => notEqual
  | notEqual => equal
  | less => greaterEqual
  | lessEqual => greater
  | greater => lessEqual
  | greaterEqual => less
  | below => aboveEqual
  | belowEqual => above
  | above => belowEqual
  | aboveEqual => below

/-- The condition holds when `lhs` was compared with `rhs`. -/
def holds (c : Condition) (lhs rhs : UInt32) : Bool :=
  match c with
  | equal => lhs == rhs
  | notEqual => lhs != rhs
  | less => Word.lessSigned lhs rhs
  | lessEqual => !Word.lessSigned rhs lhs
  | greater => Word.lessSigned rhs lhs
  | greaterEqual => !Word.lessSigned lhs rhs
  | below => lhs < rhs
  | belowEqual => !(rhs < lhs)
  | above => rhs < lhs
  | aboveEqual => !(lhs < rhs)

theorem holds_invert (c : Condition) (lhs rhs : UInt32) :
    c.invert.holds lhs rhs = !c.holds lhs rhs := by
  cases c <;> simp [invert, holds, bne]

end Condition

/-- A width of loads, and whether the value carries a sign. -/
inductive LoadKind where
  | u8 | s8 | u16 | s16 | u32
  deriving DecidableEq, Repr

namespace LoadKind

/-- The width of the access. -/
def width : LoadKind → Width
  | u8 | s8 => .byte
  | u16 | s16 => .half
  | u32 => .word

/-- The loaded value widened to a word. -/
def extend (k : LoadKind) (value : UInt32) : UInt32 :=
  match k with
  | s8 => Word.signExtend8 value
  | s16 => Word.signExtend16 value
  | _ => value

end LoadKind

end Recompiler
