import Recompiler.Text.Printable
import Recompiler.Text.Radix

/-!
# Quoted text

Text between double quotes, with everything escaped that would not survive there: quotes and
backslashes, and characters that cannot be seen.

* `Quoted.escape`: one character.
* `Quoted.quote`: a whole text.
-/

namespace Recompiler

namespace Quoted

/-- How a character is written between quotes. -/
def escape (c : Char) : String :=
  match c with
  | '\x00' => "\\0"
  | '\t' => "\\t"
  | '\r' => "\\r"
  | '\n' => "\\n"
  | '\\' => "\\\\"
  | '"' => "\\\""
  | c =>
    if Printable.isShown c then c.toString
    else "\\u\x7b" ++ Radix.padded 16 0 c.toNat ++ "\x7d"

/-- The text between quotes. -/
def quote (s : String) : String :=
  "\"" ++ String.join (s.toList.map escape) ++ "\""

end Quoted

end Recompiler
