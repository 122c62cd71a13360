/-
Text between double quotes, with a backslash in front of what cannot stand
there as it is. A hidden character is written by its code point.
-/
import IntelAsm.Text.Hex
import IntelAsm.Text.Printable

namespace IntelAsm.Text

/-- A character inside of quotes. -/
def quotedChar (c : Char) : String :=
  match c with
  | '\x00' => "\\0"
  | '\t' => "\\t"
  | '\r' => "\\r"
  | '\n' => "\\n"
  | '\\' => "\\\\"
  | '"' => "\\\""
  | _ => if isPrintable c then c.toString else "\\u\x7b" ++ hex c.toNat ++ "\x7d"

/-- A text in quotes. -/
def quoted (s : String) : String := "\"" ++ String.join (s.toList.map quotedChar) ++ "\""

end IntelAsm.Text
