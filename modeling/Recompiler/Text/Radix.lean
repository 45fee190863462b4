/-!
# Numbers in a radix

Hexadecimal and binary text of natural numbers, as it appears in messages and listings.

* `Radix.hex`: `0x` and the digits, no padding.
* `Radix.hexWord`: `0x` and eight digits, for a guest address or instruction word.
* `Radix.binaryWord`: `0b` and thirty-two digits.
* `Radix.hexAddress`: sixteen digits without a mark, for a host address.
-/

namespace Recompiler

namespace Radix

/-- The digits of `n` in `base`, most significant first, with zeros in front up to `width`. -/
def padded (base width n : Nat) : String :=
  let digits := Nat.toDigits base n
  String.ofList (List.replicate (width - digits.length) '0' ++ digits)

/-- Lower case hexadecimal with its mark: `0x1f`. -/
def hex (n : Nat) : String :=
  "0x" ++ padded 16 0 n

/-- Hexadecimal of a 32-bit word, always eight digits: `0x0000001f`. -/
def hexWord (w : UInt32) : String :=
  "0x" ++ padded 16 8 w.toNat

/-- Binary of a 32-bit word, always thirty-two digits. -/
def binaryWord (w : UInt32) : String :=
  "0b" ++ padded 2 32 w.toNat

/-- Hexadecimal of a 64-bit address, sixteen digits and no mark. -/
def hexAddress (a : UInt64) : String :=
  padded 16 16 a.toNat

end Radix

end Recompiler
