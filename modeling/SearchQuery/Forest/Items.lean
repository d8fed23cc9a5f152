import SearchQuery.Forest.Value

/-!
# Lists

A list consists of values with commas between them, where any of the values may be left out. It
ends at a run of blanks or with the sequence of tokens. Anything else behind a value ends the
reading with a fault: a list does not go over into another construct. A comma belongs to the list
also when nothing follows it.
-/

namespace SearchQuery

/-- Is the token a comma? -/
def Token.isComma (t : Token) : Bool :=
  match t.kind with
  | .comma => true
  | _ => false

/-- The values of a list, and how many raw tokens the list takes up. -/
structure Items where
  tokens : List Token
  used : Nat
deriving Repr

namespace Level

/-- Reads the values of a list. -/
def items (level : Level) : List Token → Except Fault Items
  | [] => .ok ⟨[], 0⟩
  | t :: ts => do
    let found? ← level.value (t :: ts)
    let values := (Found.token? found?).toList
    match h : (t :: ts).drop (Found.used found?) with
    | [] => .ok ⟨values, Found.used found?⟩
    | next :: rest =>
      if next.isSpace then .ok ⟨values, Found.used found?⟩
      else if next.isComma then do
        let others ← level.items rest
        .ok ⟨values ++ others.tokens, Found.used found? + 1 + others.used⟩
      else .error (.unterminatedList next.kind.name next.offset)
termination_by ts => ts.length
decreasing_by
  have := congrArg List.length h
  simp only [List.length_drop, List.length_cons] at this
  simp only [List.length_cons]
  omega

/-- Reads a list that starts with the token `t`, a comma or the first token of a value. -/
def list (level : Level) (t : Token) (ts : List Token) : Except Fault (Option Found) := do
  let items ← level.items (t :: ts)
  let further := items.used - 1
  .ok (some ⟨⟨.list items.tokens, t.index, Span.over t (ts.take further), false⟩, further⟩)

end Level

end SearchQuery
