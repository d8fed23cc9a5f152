import SearchQuery.Lexeme

/-!
# Nesting

Parentheses turn the flat list of lexemes into tokens that hold other tokens. The list is folded up
from its right end. At every place it is known which tokens follow up to the next *stop*, a closing
parenthesis or an unreadable character, and which tokens follow each of the stops after that
(`Nested`). An opening parenthesis takes the tokens up to the next stop for its items and goes on
behind that stop:

* a closing parenthesis ends the group;
* an unreadable character leaves the group open, and is skipped;
* at the end of the text the group is left open too.

Outside all groups the first stop ends the reading (`Nested.stop`), so whatever is kept for later
there is never read. `Token.overflow?` finds the first group that is nested more deeply than is
allowed.
-/

namespace SearchQuery

/-- The tokens from some place of a text on: those up to the next stop, and then every stop with
the tokens that follow it. -/
structure Nested where
  tokens : List Token
  later : List (Lexeme × List Token)
deriving Repr

/-- The group that opens with a lexeme, holds some items and runs up to a stop. -/
def Token.ofGroup (opening : Lexeme) (items : List Token) (stop? : Option Lexeme) : Token :=
  match stop? with
  | some ⟨.closing, _, stop⟩ => Token.covering (.group items) opening.start stop
  | _ => ⟨.unclosedGroup items, some opening.start, ⟨some opening.start, none⟩, false⟩

namespace Nested

/-- There is nothing behind the end of a text. -/
def empty : Nested := ⟨[], []⟩

/-- One more lexeme in front. -/
def push (lexeme : Lexeme) (rest : Nested) : Nested :=
  match lexeme.piece with
  | .token kind => ⟨Token.covering kind lexeme.start lexeme.stop :: rest.tokens, rest.later⟩
  | .opening =>
    match rest.later with
    | [] => ⟨[Token.ofGroup lexeme rest.tokens none], []⟩
    | (stop, after) :: later => ⟨Token.ofGroup lexeme rest.tokens (some stop) :: after, later⟩
  | .closing | .unreadable => ⟨[], (lexeme, rest.tokens) :: rest.later⟩

/-- The tokens that a list of lexemes consists of. -/
def ofLexemes (lexemes : List Lexeme) : Nested := lexemes.foldr push empty

/-- Where reading stops outside all groups, in a text that ends at `stop`. -/
def stop (nested : Nested) (textStop : Nat) : Nat :=
  match nested.later with
  | [] => textStop
  | (lexeme, _) :: _ => lexeme.start

@[simp] theorem ofLexemes_nil : ofLexemes [] = empty := rfl

@[simp] theorem ofLexemes_cons (lexeme : Lexeme) (lexemes : List Lexeme) :
    ofLexemes (lexeme :: lexemes) = (ofLexemes lexemes).push lexeme := rfl

end Nested

/-! ## The limit on nesting -/

mutual

/-- The position of the first group in a token that goes deeper than there is room for. -/
def Token.overflow? (room : Nat) : Token → Option Nat
  | ⟨.group items, index, _, _⟩ | ⟨.unclosedGroup items, index, _, _⟩ =>
    match room with
    | 0 => some (index.getD 0)
    | room + 1 => overflowAll? room items
  | _ => none

/-- The position of the first group among some tokens that goes deeper than there is room for. -/
def overflowAll? (room : Nat) : List Token → Option Nat
  | [] => none
  | t :: ts => (t.overflow? room).or (overflowAll? room ts)

end

/-- `overflowAll?` in the natural per-element form. -/
theorem overflowAll?_eq_findSome? (room : Nat) (ts : List Token) :
    overflowAll? room ts = ts.findSome? (Token.overflow? room) := by
  induction ts with
  | nil => rfl
  | cons t ts ih => rw [overflowAll?, ih, List.findSome?_cons]; cases t.overflow? room <;> rfl

end SearchQuery
