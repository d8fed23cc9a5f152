import SearchQuery.Text.Position

/-!
# Blank characters

Two tables list the characters that separate the parts of a query: the spaces of a line, and the
characters that end a line. A character of either table is blank. `BlankRun` is the stretch of
blank characters that starts at a position of a text; it is empty where the text goes on with
another character.
-/

namespace SearchQuery.Text

/-- Tab, vertical tab, space and the space separators of Unicode. -/
def spaceChars : List Char :=
  ['\x09', '\x0b', '\x20', '\u00a0', '\u1680', '\u2000', '\u2001', '\u2002', '\u2003', '\u2004',
    '\u2005', '\u2006', '\u2007', '\u2008', '\u2009', '\u200a', '\u202f', '\u205f', '\u3000']

/-- Line feed, form feed, carriage return, next line, line separator and paragraph separator. -/
def newlineChars : List Char :=
  ['\x0a', '\x0c', '\x0d', '\u0085', '\u2028', '\u2029']

example : spaceChars.length = 19 ∧ newlineChars.length = 6 := by decide

/-- Is `c` one of the spaces within a line? -/
def isSpace (c : Char) : Bool := spaceChars.contains c

/-- Does `c` end a line? -/
def isNewline (c : Char) : Bool := newlineChars.contains c

/-- A blank character is a space or ends a line. -/
def isBlank (c : Char) : Bool := isSpace c || isNewline c

/-- A stretch of blank characters and where it lies in its text. -/
structure BlankRun where
  start : Nat
  stop : Nat
  text : String
deriving DecidableEq, Repr

/-- The blank characters of `text` from `start` on; `none` where `start` is no position of it. -/
def blankRun? (text : String) (start : Nat) : Option BlankRun :=
  (suffixAt? start text.toList).map fun rest =>
    let run := rest.takeWhile isBlank
    ⟨start, start + width run, String.ofList run⟩

end SearchQuery.Text
