/-!
# Breaches of contract

Operations of the library promise a result only to callers that keep their side: an index lies in
its table, a pattern has thirty-two bits, only the newest block is discarded. A `Breach` says which
promise was broken, and `Breach.message` words it.
-/

namespace Recompiler

/-- How a caller broke the contract of an operation. -/
inductive Breach where
  /-- A table of `size` entries was read or written at `index`. -/
  | indexOutOfBounds (size index : Nat)
  /-- A slice was asked for whose end lies before its start. -/
  | reversedSlice (start stop : Nat)
  /-- An offset was to be aligned to a multiple of zero. -/
  | zeroAlignment
  /-- A character names no operand field. -/
  | invalidOperand
  /-- An encoding pattern describes more than thirty-two bits. -/
  | patternTooLong
  /-- An encoding pattern describes fewer than thirty-two bits. -/
  | patternTooShort
  /-- An encoding pattern has more operand fields than an instruction can hold. -/
  | tooManyFields
  /-- The field called `what` was read of an instruction that has none. -/
  | missingOperand (what mnemonic : String)
  /-- A constant host offset does not fit a signed displacement. -/
  | displacementOutOfRange
  /-- A helper call has more arguments than argument registers. -/
  | tooManyArguments
  /-- A block was allocated in a table without a free slot. -/
  | tableFull
  /-- A block other than the newest of `count` was discarded. -/
  | discardOutOfOrder (following count : Nat)
  deriving DecidableEq, Repr

namespace Breach

/-- The wording of a breach. -/
def message : Breach → String
  | indexOutOfBounds size index =>
    s!"index out of bounds: the len is {size} but the index is {index}"
  | reversedSlice start stop => s!"slice index starts at {start} but ends at {stop}"
  | zeroAlignment => "attempt to calculate the remainder with a divisor of zero"
  | invalidOperand => "invalid operand"
  | patternTooLong => "pattern is longer than 32 bits"
  | patternTooShort => "pattern is shorter than 32 bits"
  | tooManyFields => "too many operand fields"
  | missingOperand what mnemonic => s!"failed to get {what} for instruction \"{mnemonic}\""
  | displacementOutOfRange => "displacement out of range"
  | tooManyArguments => "too many helper arguments"
  | tableFull => "block table is full"
  | discardOutOfOrder following count =>
    "assertion `left == right` failed: only the newest block can be discarded\n  left: " ++
      s!"{following}\n right: {count}"

end Breach

end Recompiler
