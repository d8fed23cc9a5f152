import SearchQuery.Text.Hex
import SearchQuery.Text.Printable

/-!
# Texts shown on one line

`literal` shows any text on one line and without ambiguity: in quotation marks, with short escapes
for a few characters, and with the number of the character in braces for everything that is not
printable. What is printable, also beyond the basic alphabet, is shown as it is.
-/

namespace SearchQuery.Text

/-- A character as it is shown within a literal. -/
def showChar (c : Char) : List Char :=
  match c with
  | '\x00' => ['\\', '0']
  | '\t' => ['\\', 't']
  | '\r' => ['\\', 'r']
  | '\n' => ['\\', 'n']
  | '"' => ['\\', '"']
  | '\\' => ['\\', '\\']
  | c => if isPrintable c then [c] else ['\\', 'u', '{'] ++ hexDigits c.toNat ++ ['}']

/-- A text in quotation marks, on one line. -/
def literal (text : List Char) : List Char := '"' :: (text.flatMap showChar ++ ['"'])

end SearchQuery.Text
