import SearchQuery.Fault
import SearchQuery.Token.Basic

/-!
# Reading a sequence of tokens

Decoded tokens are read off the front of a sequence of raw ones. A `Reader` is given the tokens that
are left and either fails, or finds nothing to read there, or finds a token that stands for the
first ones of them (`Found`). What is found always takes up at least one token, so that reading the
units of a whole sequence (`sequence`) comes to an end. Runs of blanks between units are skipped.
-/

namespace SearchQuery

/-- A token read off the front of a sequence, and how many raw tokens it stands for besides the
first one. -/
structure Found where
  token : Token
  further : Nat
deriving Repr

/-- Reads what stands in front of a sequence of tokens, if anything does. -/
abbrev Reader := List Token → Except Fault (Option Found)

namespace Found

/-- How many raw tokens were taken up. -/
def used : Option Found → Nat
  | none => 0
  | some found => found.further + 1

/-- The token that was found. -/
def token? (found? : Option Found) : Option Token := found?.map Found.token

/-- Where the token that was found stops, as far as that is known. -/
def stop? (found? : Option Found) : Option Nat := found?.bind fun found => found.token.span.stop

@[simp] theorem used_none : used none = 0 := rfl

@[simp] theorem used_some (found : Found) : used (some found) = found.further + 1 := rfl

end Found

/-- The stretch of text from the start of one token to the end of the last one that follows it. -/
def Span.over (first : Token) (others : List Token) : Span :=
  ⟨first.span.start, (others.getLast?.getD first).span.stop⟩

/-- The units that a whole sequence of tokens consists of. -/
def sequence (unit : Reader) : List Token → Except Fault (List Token)
  | [] => .ok []
  | t :: ts =>
    if t.isSpace then sequence unit ts
    else do
      match ← unit (t :: ts) with
      | none => .error (.nothingToRead t.kind.name t.offset)
      | some found =>
        let others ← sequence unit (ts.drop found.further)
        .ok (found.token :: others)
termination_by ts => ts.length
decreasing_by all_goals simp only [List.length_drop, List.length_cons]; omega

end SearchQuery
