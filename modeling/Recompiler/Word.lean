/-!
# Words

Operations on 32-bit words that read them as signed numbers or as bytes. A word is a `UInt32`;
its sign, where it has one, is two's complement.

* `Word.signExtend8`, `Word.signExtend16`: widening a narrow value that carries a sign.
* `Word.lessSigned`: order as signed numbers.
* `Word.bytes`, `Word.ofBytes`: little endian bytes.
-/

namespace Recompiler

namespace Word

/-- The low byte of `w`, widened with its sign. -/
def signExtend8 (w : UInt32) : UInt32 :=
  w.toUInt8.toInt8.toInt32.toUInt32

/-- The low half of `w`, widened with its sign. -/
def signExtend16 (w : UInt32) : UInt32 :=
  w.toUInt16.toInt16.toInt32.toUInt32

/-- `a < b` as signed numbers. -/
def lessSigned (a b : UInt32) : Bool :=
  a.toInt32 < b.toInt32

/-- `w` shifted right by the low five bits of `n`, copies of the sign moving in. -/
def shiftRightSigned (w n : UInt32) : UInt32 :=
  (w.toInt32 >>> (n &&& 31).toInt32).toUInt32

/-- The value of `w` as a signed number. -/
def toInt (w : UInt32) : Int :=
  w.toInt32.toInt

/-- The number of zeros before the first one bit. -/
def leadingZeros (w : UInt32) : UInt32 :=
  if w = 0 then 32 else 31 - w.log2

/-- The four bytes of a word, least significant first. -/
def bytes (w : UInt32) : List UInt8 :=
  [w.toUInt8, (w >>> 8).toUInt8, (w >>> 16).toUInt8, (w >>> 24).toUInt8]

/-- The word with the given bytes, least significant first. Missing bytes count as zero. -/
def ofBytes : List UInt8 → UInt32
  | [] => 0
  | b :: rest => b.toUInt32 ||| (ofBytes rest <<< 8)

/-- The eight bytes of a double word, least significant first. -/
def bytes64 (w : UInt64) : List UInt8 :=
  bytes w.toUInt32 ++ bytes (w >>> 32).toUInt32

/-- The double word with the given bytes, least significant first. -/
def ofBytes64 : List UInt8 → UInt64
  | [] => 0
  | b :: rest => b.toUInt64 ||| (ofBytes64 rest <<< 8)

/-- `w` is the sign extension of its low byte. -/
def fitsByte (w : UInt32) : Bool :=
  w + 0x80 < 0x100

end Word

end Recompiler
