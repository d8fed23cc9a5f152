import SearchQuery.Text.Blank
import SearchQuery.Text.Quoted
import SearchQuery.Token.Basic

/-!
# Lexemes

The text of a query falls into lexemes, which `lexemes` lists from left to right and without regard
to nesting. Most of them are tokens. A parenthesis is a lexeme of its own, and so is a character
that starts no token, such as a dot that stands alone. `Piece.read` looks at the text from one
character on and says what stands there: always the longest piece that starts with the character.
Every character belongs to exactly one lexeme (`lexemes_width`).
-/

namespace SearchQuery

open Text (width isBlank QuotedBody)

/-- Words consist of letters and digits of the basic alphabet and of three signs. -/
def isWordChar (c : Char) : Bool := c.isAlphanum || c == '@' || c == '_' || c == '-'

/-- What a stretch of text is on its own. -/
inductive Piece where
  /-- A token of some kind. -/
  | token (kind : Kind Token)
  /-- An opening parenthesis. -/
  | opening
  /-- A closing parenthesis. -/
  | closing
  /-- A character that starts no token. -/
  | unreadable
deriving Repr

namespace Piece

/-- The piece of a comparator. -/
def compare (op : Comparator) : Piece := .token (.comparator op)

/-- The piece that starts with the character `c`, and how many of the characters `cs` behind `c`
belong to it. -/
def read (c : Char) (cs : List Char) : Piece × Nat :=
  if isBlank c then
    let run := cs.takeWhile isBlank
    (.token (.space (String.ofList (c :: run))), run.length)
  else if isWordChar c then
    let run := cs.takeWhile isWordChar
    (.token (.word (String.ofList (c :: run))), run.length)
  else
    match c, cs with
    | '"', cs =>
      let body := QuotedBody.read cs
      let text := String.ofList body.value
      (.token (if body.closed then .quoted text else .unclosedQuoted text), body.used)
    | '(', _ => (.opening, 0)
    | ')', _ => (.closing, 0)
    | '^', _ => (.token .pinMark, 0)
    | '>', '=' :: _ => (compare .atLeast, 1)
    | '>', _ => (compare .more, 0)
    | '<', '=' :: _ => (compare .atMost, 1)
    | '<', _ => (compare .less, 0)
    | '!', '~' :: _ => (compare .unlike, 1)
    | '!', _ => (compare .unequal, 0)
    | '=', _ => (compare .equal, 0)
    | '~', _ => (compare .like, 0)
    | '*', _ => (.token .wildcard, 0)
    | '?', _ => (.token .anyChar, 0)
    | ':', _ => (.token .colon, 0)
    | '.', '.' :: _ => (.token .dots, 1)
    | ',', _ => (.token .comma, 0)
    | _, _ => (.unreadable, 0)

end Piece

/-- A piece and where it lies in its text. -/
structure Lexeme where
  piece : Piece
  start : Nat
  stop : Nat
deriving Repr

/-- The lexemes of a stretch of text that starts at position `start`. -/
def lexemes (start : Nat) : List Char → List Lexeme
  | [] => []
  | c :: cs =>
    let (piece, n) := Piece.read c cs
    let stop := start + width (c :: cs.take n)
    ⟨piece, start, stop⟩ :: lexemes stop (cs.drop n)
termination_by cs => cs.length
decreasing_by simp only [List.length_drop, List.length_cons]; omega

/-! ## Every character belongs to a lexeme -/

@[simp] theorem lexemes_nil (start : Nat) : lexemes start [] = [] := by
  rw [lexemes]

/-- The first lexeme is the piece in front, the others are those of what it leaves. -/
theorem lexemes_cons (start : Nat) (c : Char) (cs : List Char) :
    lexemes start (c :: cs) =
      ⟨(Piece.read c cs).1, start, start + width (c :: cs.take (Piece.read c cs).2)⟩ ::
        lexemes (start + width (c :: cs.take (Piece.read c cs).2))
          (cs.drop (Piece.read c cs).2) := by
  rw [lexemes]

/-- The lexemes of a text end where it ends. -/
theorem lexemes_width (start : Nat) (cs : List Char) :
    ((lexemes start cs).getLast?.map Lexeme.stop).getD start = start + width cs := by
  fun_induction lexemes start cs with
  | case1 => simp
  | case2 start c cs piece n hread stop ih =>
    have hw : stop + width (cs.drop n) = start + width (c :: cs) := by
      have := Text.width_append (cs.take n) (cs.drop n)
      rw [List.take_append_drop] at this
      simp only [stop, Text.width_cons]
      omega
    rw [← hw, ← ih]
    cases h : lexemes stop (cs.drop n) with
    | nil => simp
    | cons l ls => simp [List.getLast?_cons]

end SearchQuery
