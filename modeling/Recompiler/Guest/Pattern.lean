import Recompiler.Breach

/-!
# Encoding patterns

How the thirty-two bits of a guest instruction divide into fixed bits and operand fields.

* `Piece`: a run of fixed bits, or a run of bits that belong to one operand. An encoding is a list
  of pieces, most significant first.
* `Pattern.ofPieces`: the mask, the fixed bits and the fields of an encoding.
* `Piece.parse`: encodings written as text, one character per bit. `0` and `1` are fixed bits, any
  other character names the operand its bit belongs to, and blanks separate nothing.
* `Pattern.accepts`, `Pattern.get?`: the words of an encoding and their operands.
-/

namespace Recompiler

/-- The operands that the fields of an instruction can hold. -/
inductive Operand where
  | source | target | destination | immediate | base | offset
  deriving DecidableEq, Repr

namespace Operand

/-- The character that stands for an operand in the text of an encoding. -/
def letter : Operand → Char
  | source => 's'
  | target => 't'
  | destination => 'd'
  | immediate => 'k'
  | base => 'b'
  | offset => 'f'

/-- Every operand. -/
def all : List Operand :=
  [source, target, destination, immediate, base, offset]

/-- The operand that a character stands for. -/
def ofLetter (c : Char) : Except Breach Operand :=
  match all.find? (·.letter == c) with
  | some op => .ok op
  | none => .error .invalidOperand

/-- The operand is the number of a general purpose register. -/
def isRegister : Operand → Bool
  | source | target | destination | base => true
  | immediate | offset => false

theorem ofLetter_letter (op : Operand) : ofLetter op.letter = .ok op := by
  cases op <;> rfl

end Operand

/-- A run of bits in an encoding. -/
inductive Piece where
  /-- `width` fixed bits that spell `value`. -/
  | fixed (width : Nat) (value : UInt32)
  /-- `width` bits of an operand. -/
  | field (operand : Operand) (width : Nat)
  deriving DecidableEq, Repr

namespace Piece

/-- The number of operand fields an encoding can have. -/
def maxFields : Nat := 6

/-- The pieces of an encoding with one more bit of `op` in front, which joins a run of that
operand. -/
def grow (op : Operand) : List Piece → List Piece
  | .field op' width :: rest =>
    if op' = op then .field op (width + 1) :: rest else .field op 1 :: .field op' width :: rest
  | pieces => .field op 1 :: pieces

/-- Reads the remaining `left` bits of an encoding. `fields` operand fields have been met, and
`previous` is the last character that was not a blank. Each byte of the text is one character. -/
def parseFrom (left fields : Nat) (previous : UInt8) : List UInt8 → Except Breach (List Piece)
  | [] => if left = 0 then .ok [] else .error .patternTooShort
  | c :: rest =>
    if c = 0x20 then parseFrom left fields previous rest
    else if left = 0 then .error .patternTooLong
    else if c = 0x30 then (.fixed 1 0 :: ·) <$> parseFrom (left - 1) fields c rest
    else if c = 0x31 then (.fixed 1 1 :: ·) <$> parseFrom (left - 1) fields c rest
    else if c ≠ previous ∧ maxFields ≤ fields then .error .tooManyFields
    else do
      let op ← Operand.ofLetter (Char.ofNat c.toNat)
      let fields := if c = previous then fields else fields + 1
      let pieces ← parseFrom (left - 1) fields c rest
      return grow op pieces

/-- The encoding that a text describes. -/
def parse (text : List UInt8) : Except Breach (List Piece) :=
  parseFrom 32 0 0x20 text

end Piece

/-- Where an operand lies in a word. -/
structure Field where
  /-- The operand. -/
  operand : Operand
  /-- The place of its least significant bit. -/
  shift : Nat
  /-- The number of its bits, between 1 and 32. -/
  width : Nat
  deriving DecidableEq, Repr

/-- The value of a field in a word. -/
def Field.extract (f : Field) (word : UInt32) : UInt32 :=
  (word >>> f.shift.toUInt32) &&& (0xFFFFFFFF >>> (32 - f.width).toUInt32)

/-- An encoding, ready to be matched against words. -/
structure Pattern where
  /-- The places of the fixed bits. -/
  mask : UInt32
  /-- The fixed bits at their places. -/
  bits : UInt32
  /-- The operand fields, most significant first. -/
  fields : List Field
  deriving DecidableEq, Repr

namespace Pattern

/-- The pattern of the pieces that fill the low `top` bits. -/
def ofPiecesFrom : (top : Nat) → List Piece → Pattern
  | _, [] => ⟨0, 0, []⟩
  | top, .fixed width value :: rest =>
    let p := ofPiecesFrom (top - width) rest
    let shift := (top - width).toUInt32
    let ones : UInt32 := 0xFFFFFFFF >>> (32 - width).toUInt32
    { p with mask := p.mask ||| (ones <<< shift), bits := p.bits ||| (value <<< shift) }
  | top, .field operand width :: rest =>
    let p := ofPiecesFrom (top - width) rest
    { p with fields := ⟨operand, top - width, width⟩ :: p.fields }

/-- The pattern of an encoding. -/
def ofPieces (pieces : List Piece) : Pattern :=
  ofPiecesFrom 32 pieces

/-- The word has the fixed bits of the pattern. -/
def accepts (p : Pattern) (word : UInt32) : Bool :=
  word &&& p.mask == p.bits

/-- The value of an operand in a word, read from the first field that holds it. -/
def get? (p : Pattern) (op : Operand) (word : UInt32) : Option UInt32 :=
  (p.fields.find? (·.operand == op)).map (·.extract word)

end Pattern

end Recompiler
