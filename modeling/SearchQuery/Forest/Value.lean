import SearchQuery.Forest.Reading

/-!
# Values

A value is a word, a quoted string, a pattern, a null, a pin or a group; a comparison or a range
that has been read before counts as a value too. Fragments of a pattern that stand side by side
make up one pattern, as many of them as there are; a single fragment stands for itself. The items
of a group are read as units of their own, one level deeper than the group (`Level`), and the group
is refused where no deeper level is left.
-/

namespace SearchQuery

/-- A level of nesting: the limit that a fault names, and the reader of the units one level deeper,
which is missing at the deepest level. -/
structure Level where
  limit : Nat
  deeper? : Option Reader

/-- Is the token a fragment of a pattern? -/
def Token.isFragment (t : Token) : Bool :=
  match t.kind with
  | .word _ | .quoted _ | .unclosedQuoted _ | .wildcard | .anyChar => true
  | _ => false

/-- The longest run of fragments that a first one starts: the fragment itself, or a pattern. -/
def Found.ofFragments (first : Token) (rest : List Token) : Found :=
  match rest.takeWhile Token.isFragment with
  | [] => ⟨first, 0⟩
  | others =>
    ⟨⟨.pattern (first :: others), first.index, Span.over first others, false⟩, others.length⟩

namespace Level

/-- The reader of the units inside a token, which is refused where no deeper level is left. -/
def enter (level : Level) (t : Token) : Except Fault Reader :=
  match level.deeper? with
  | none => .error (.tooDeep t.offset level.limit)
  | some unit => .ok unit

/-- A group with its items read. -/
def readGroup (level : Level) (group : Token) (items : List Token)
    (kind : List Token → Kind Token) : Except Fault (Option Found) := do
  let unit ← level.enter group
  let forest ← sequence unit items
  .ok (some ⟨{ group with kind := kind forest }, 0⟩)

/-- Reads a value. -/
def value (level : Level) : Reader
  | [] => .ok none
  | t :: ts =>
    if t.isFragment then .ok (some (.ofFragments t ts))
    else
      match t.kind with
      | .null | .range _ _ | .comparison _ _ | .pin _ | .danglingPin => .ok (some ⟨t, 0⟩)
      | .group items => level.readGroup t items .group
      | .unclosedGroup items => level.readGroup t items .unclosedGroup
      | _ => .ok none

end Level

end SearchQuery
