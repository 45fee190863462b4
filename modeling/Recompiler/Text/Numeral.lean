/-!
# Numerals

Reading whole numbers from their digits in a radix, with an optional sign in front.

* `Numeral.natural`: numbers without a minus, up to a limit.
* `Numeral.integer`: numbers with either sign, within limits.
-/

namespace Recompiler

/-- Why a text is no number. -/
inductive NumeralError where
  /-- There is nothing to read. -/
  | empty
  | invalidDigit
  | tooLarge
  | tooSmall
  deriving DecidableEq, Repr

namespace NumeralError

/-- The wording of a failed reading. -/
def message : NumeralError → String
  | empty => "cannot parse integer from empty string"
  | invalidDigit => "invalid digit found in string"
  | tooLarge => "number too large to fit in target type"
  | tooSmall => "number too small to fit in target type"

end NumeralError

namespace Numeral

/-- The value of a character as a digit, letters of either case counting from ten. -/
def digit? (radix : Nat) (c : Char) : Option Nat :=
  let value? :=
    if '0' ≤ c ∧ c ≤ '9' then some (c.toNat - '0'.toNat)
    else if 'a' ≤ c ∧ c ≤ 'z' then some (c.toNat - 'a'.toNat + 10)
    else if 'A' ≤ c ∧ c ≤ 'Z' then some (c.toNat - 'A'.toNat + 10)
    else none
  value?.filter (· < radix)

/-- The number that `value` and the digits after it spell. Of a wrong digit and a number above
`limit`, the one that shows first is reported. -/
def digits (radix limit : Nat) (overflow : NumeralError) (value : Nat) :
    List Char → Except NumeralError Nat
  | [] => .ok value
  | c :: rest =>
    match digit? radix c with
    | none => .error .invalidDigit
    | some d =>
      let value := value * radix + d
      if limit < value then .error overflow else digits radix limit overflow value rest

/-- Reads one digit or more. -/
def magnitude (radix limit : Nat) (overflow : NumeralError) :
    List Char → Except NumeralError Nat
  | [] => .error .invalidDigit
  | cs => digits radix limit overflow 0 cs

/-- Reads a number up to `limit`. A plus in front is allowed. -/
def natural (radix limit : Nat) : List Char → Except NumeralError Nat
  | [] => .error .empty
  | '+' :: rest => magnitude radix limit .tooLarge rest
  | cs => magnitude radix limit .tooLarge cs

/-- Reads a number between `-below` and `above`. A sign in front is allowed. -/
def integer (radix below above : Nat) : List Char → Except NumeralError Int
  | [] => .error .empty
  | '-' :: rest => (fun n : Nat => -(n : Int)) <$> magnitude radix below .tooSmall rest
  | '+' :: rest => (fun n : Nat => (n : Int)) <$> magnitude radix above .tooLarge rest
  | cs => (fun n : Nat => (n : Int)) <$> magnitude radix above .tooLarge cs

end Numeral

end Recompiler
