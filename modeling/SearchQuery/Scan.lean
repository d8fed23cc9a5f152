import SearchQuery.Fault
import SearchQuery.Nesting

/-!
# Scans

`Scan.of` reads the raw tokens of a text from a position on. Reading stops at the end of the text,
or outside all groups at an unmatched closing parenthesis or a character that starts no token. It
fails only where groups are nested more deeply than the limit, and names the first such group. A
number that is no position of the text has nothing to read there.
-/

namespace SearchQuery

open Text (width suffixAt?)

/-- The raw tokens of a stretch of text, and where the stretch starts and stops. -/
structure Scan where
  start : Nat
  stop : Nat
  tokens : List Token
deriving Repr

namespace Scan

/-- The raw tokens of the characters `cs`, which start at position `start`. -/
def ofChars (limit start : Nat) (cs : List Char) : Except Fault Scan :=
  let nested := Nested.ofLexemes (lexemes start cs)
  match overflowAll? limit nested.tokens with
  | some offset => .error (.tooDeep offset limit)
  | none => .ok ⟨start, nested.stop (start + width cs), nested.tokens⟩

/-- The raw tokens of a text from position `start` on. -/
def of (limit start : Nat) (text : String) : Except Fault Scan :=
  match suffixAt? start text.toList with
  | some cs => ofChars limit start cs
  | none => .ok ⟨start, start, []⟩

/-- The raw tokens of a whole text. -/
def ofText (limit : Nat) (text : String) : Except Fault Scan := of limit 0 text

/-- A whole text is read from its first character on. -/
theorem ofText_eq (limit : Nat) (text : String) :
    ofText limit text = ofChars limit 0 text.toList := by
  simp [ofText, of]

end Scan

end SearchQuery
