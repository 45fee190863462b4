import Recompiler.Text.Numeral
import Recompiler.Text.Quoted

/-!
# Numbers on the command line

Addresses and sizes as a user writes them: decimal, or hexadecimal after `0x`, with underscores
wherever they help.

* `Number.parse`: reading one.
-/

namespace Recompiler

/-- A text that is no address or size. -/
structure NumberError where
  /-- The text. -/
  text : String
  /-- What is wrong with it. -/
  cause : NumeralError
  deriving DecidableEq, Repr

namespace NumberError

/-- The wording of a failed reading. -/
def message (e : NumberError) : String :=
  s!"invalid number {Quoted.quote e.text}: {e.cause.message}"

end NumberError

namespace Number

/-- The radix that a text announces, and its digits. -/
def radix : List Char → Nat × List Char
  | '0' :: 'x' :: rest | '0' :: 'X' :: rest => (16, rest)
  | cs => (10, cs)

/-- Reads an address or a size. -/
def parse (text : String) : Except NumberError UInt32 :=
  let (base, digits) := radix text.toList
  match Numeral.natural base 0xFFFFFFFF (digits.filter (· != '_')) with
  | .ok n => .ok n.toUInt32
  | .error cause => .error ⟨text, cause⟩

end Number

end Recompiler
