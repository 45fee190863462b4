import Recompiler.Host.Decoder
import Recompiler.Text.Radix

/-!
# Listings of machine code

The text of generated code, one instruction a line, destination first.

Numbers are hexadecimal with a trailing `h`, a leading zero where the first digit is a letter, and
plain when they have one decimal digit. Memory operands show their size only where no register
does. A line holds the address of its instruction.

* `HostInstruction.text`: the text of an instruction.
* `listing`: the lines of a run of code. Bytes that hold no instruction are shown as `(bad)`.
-/

namespace Recompiler

/-- A number in a listing, with zeros in front up to `width` digits. -/
def listedNumber (width n : Nat) : String :=
  if n < 10 then toString n
  else
    let digits := (Radix.padded 16 width n).map Char.toUpper
    let mark := if (digits.front?.map Char.isDigit).getD true then "" else "0"
    mark ++ digits ++ "h"

namespace OperandSize

/-- The name of a register at an operand size. -/
def registerName (size : OperandSize) (r : HostRegister) : String :=
  let n := r.number.toNat
  match size with
  | wide => r.name
  | word => (["eax", "ecx", "edx", "ebx", "esp", "ebp", "esi", "edi"][n]?).getD (r.name ++ "d")
  | half => (["ax", "cx", "dx", "bx", "sp", "bp", "si", "di"][n]?).getD (r.name ++ "w")
  | byte => (["al", "cl", "dl", "bl", "spl", "bpl", "sil", "dil"][n]?).getD (r.name ++ "b")

/-- What stands before a memory operand to give its size. -/
def memoryMark : OperandSize → String
  | wide => "qword ptr "
  | word => "dword ptr "
  | half => "word ptr "
  | byte => "byte ptr "

end OperandSize

/-- The text of a memory operand. -/
def HostAddress.text (a : HostAddress) : String :=
  let index := (a.index.map fun r => "+" ++ r.name).getD ""
  let displacement :=
    if a.displacement = 0 then ""
    else if a.displacement < 0x80000000 then "+" ++ listedNumber 0 a.displacement.toNat
    else "-" ++ listedNumber 0 (0 - a.displacement).toNat
  "[" ++ a.base.name ++ index ++ displacement ++ "]"

/-- The name of an operation of the two operand group. -/
def GroupOp.name : GroupOp → String
  | add => "add"
  | or => "or"
  | and => "and"
  | sub => "sub"
  | xor => "xor"
  | compare => "cmp"

/-- The name of a shift. -/
def ShiftOp.name : ShiftOp → String
  | left => "shl"
  | right => "shr"
  | signedRight => "sar"

/-- The letters that stand for a condition. -/
def Condition.letters : Condition → String
  | equal => "e"
  | notEqual => "ne"
  | less => "l"
  | lessEqual => "le"
  | greater => "g"
  | greaterEqual => "ge"
  | below => "b"
  | belowEqual => "be"
  | above => "a"
  | aboveEqual => "ae"

namespace HostInstruction

/-- The name of an instruction. -/
def name : HostInstruction → String
  | move .. | moveWide .. | moveImmediate .. | movePointer .. | store .. | storeImmediate ..
  | load .u32 .. => "mov"
  | load .u8 .. | load .u16 .. | widenLow .. => "movzx"
  | load .s8 .. | load .s16 .. => "movsx"
  | group op .. | groupImmediate op .. => op.name
  | negate .. => "neg"
  | complement .. => "not"
  | shift op .. | shiftByCount op .. => op.name
  | multiply true _ => "imul"
  | multiply false _ => "mul"
  | setLow c => "set" ++ c.letters
  | loadAddress .. => "lea"
  | call .. => "call"
  | jumpRegister .. | jump .. => "jmp"
  | push .. => "push"
  | pop .. => "pop"
  | growStack .. => "sub"
  | shrinkStack .. => "add"
  | ret => "ret"
  | jumpIf c _ => "j" ++ c.letters
  | trap => "int3"
  | nop => "nop"

/-- The text of a register of 32 bits. -/
private def word (r : HostRegister) : String :=
  OperandSize.word.registerName r

/-- The operands of an instruction that ends at `stop`. -/
def operandTexts (stop : UInt64) : HostInstruction → List String
  | move dst src | group _ dst src => [word dst, word src]
  | moveWide dst src => [dst.name, src.name]
  | moveImmediate dst value => [word dst, listedNumber 0 value.toNat]
  | movePointer dst value => [dst.name, listedNumber 0 value.toNat]
  | load .u32 dst src => [word dst, src.text]
  | load kind dst src => [word dst, kind.width.operandSize.memoryMark ++ src.text]
  | store width dst src => [dst.text, width.operandSize.registerName src]
  | storeImmediate dst value =>
    [OperandSize.word.memoryMark ++ dst.text, listedNumber 0 value.toNat]
  | groupImmediate _ (.register dst) value => [word dst, listedNumber 0 value.toNat]
  | groupImmediate _ (.memory dst) value =>
    [OperandSize.word.memoryMark ++ dst.text, listedNumber 0 value.toNat]
  | negate dst | complement dst => [word dst]
  | multiply _ factor => [word factor]
  | shift _ dst amount => [word dst, listedNumber 0 amount.toNat]
  | shiftByCount _ dst => [word dst, "cl"]
  | setLow _ => ["al"]
  | widenLow dst => [word dst, "al"]
  | loadAddress dst src => [word dst, src.text]
  | call r | jumpRegister r | push r | pop r => [r.name]
  | growStack bytes | shrinkStack bytes => ["rsp", listedNumber 0 bytes.toNat]
  | jump distance | jumpIf _ distance =>
    [listedNumber 16 (stop + distance.toInt32.toInt64.toUInt64).toNat]
  | ret | trap | nop => []

/-- The text of an instruction that ends at `stop`. -/
def text (stop : UInt64) (i : HostInstruction) : String :=
  match i.operandTexts stop with
  | [] => i.name
  | operands => i.name ++ " " ++ ",".intercalate operands

end HostInstruction

/-- How many bytes are skipped where no instruction can be read. A byte that starts none takes the
byte after it along; an instruction that is cut short takes what is there. -/
def skippedLength (bytes : List UInt8) : Nat :=
  match bytes with
  | 0x06 :: _ :: _ => 2
  | _ => bytes.length

/-- The lines of at most `fuel` instructions. -/
def listingFrom : (fuel : Nat) → List UInt8 → (ip : UInt64) → List (UInt64 × String)
  | 0, _, _ => []
  | _, [], _ => []
  | fuel + 1, bytes, ip =>
    match HostInstruction.decode? bytes with
    | some (i, rest) =>
      let stop := ip + (bytes.length - rest.length).toUInt64
      (ip, i.text stop) :: listingFrom fuel rest stop
    | none =>
      let length := skippedLength bytes
      (ip, "(bad)") :: listingFrom fuel (bytes.drop length) (ip + length.toUInt64)

/-- The instructions of a run of code that starts at `ip`, with their addresses. -/
def instructionTexts (code : List UInt8) (ip : UInt64) : List (UInt64 × String) :=
  listingFrom code.length code ip

/-- The lines of a run of code that starts at `ip`. -/
def listing (code : List UInt8) (ip : UInt64) : List String :=
  (instructionTexts code ip).map fun (ip, text) => Radix.hexAddress ip ++ " " ++ text

end Recompiler
