/-!
# Hexadecimal numbers

Characters are written by number in two directions: an escape in a query gives the hexadecimal
number of a character (`scalarOfHex`), and the escapes that the program writes itself need the
digits of one (`hexDigits`). A number that belongs to no character reads as the replacement
character U+FFFD, and so does a text that is no number at all.
-/

namespace SearchQuery.Text

/-- The value of a hexadecimal digit of either case. -/
def hexDigit? (c : Char) : Option Nat :=
  if '0' ≤ c ∧ c ≤ '9' then some (c.toNat - '0'.toNat)
  else if 'a' ≤ c ∧ c ≤ 'f' then some (c.toNat - 'a'.toNat + 10)
  else if 'A' ≤ c ∧ c ≤ 'F' then some (c.toNat - 'A'.toNat + 10)
  else none

/-- Is `c` a hexadecimal digit? -/
def isHexDigit (c : Char) : Bool := (hexDigit? c).isSome

/-- The number that some digits write, the first one being the most significant; `none` unless
there is at least one and all of them are hexadecimal. -/
def hexValue? (digits : List Char) : Option Nat :=
  if digits.isEmpty then none
  else digits.foldlM (fun n c => (hexDigit? c).map (16 * n + ·)) 0

/-- Stands for every character that a number fails to name. -/
def replacement : Char := '\ufffd'

/-- The character with a number, and the replacement character where there is none. -/
def scalar (n : Nat) : Char := if n.isValidChar then Char.ofNat n else replacement

/-- The character whose number is written in hexadecimal, where a plus sign may stand in front. -/
def scalarOfHex (text : List Char) : Char :=
  let digits := match text with
    | '+' :: digits => digits
    | digits => digits
  ((hexValue? digits).map scalar).getD replacement

/-- The hexadecimal digits of a number, in lower case and without leading zeros. -/
def hexDigits (n : Nat) : List Char := Nat.toDigits 16 n

example : scalarOfHex ['1', 'F', '6', '0', '0'] = '😀' := by decide
example : scalarOfHex ['+', '0', '0', '4', '1'] = 'A' := by decide
example : scalarOfHex ['d', '8', '0', '0'] = replacement := by decide
example : scalarOfHex [] = replacement := by decide

end SearchQuery.Text
