/-!
# Comparators

The eight comparators of the language, each with the symbol that a query writes and the name that
output uses. `ofName?_eq_some_iff` says that the names tell the comparators apart.
-/

namespace SearchQuery

/-- A way to compare with a value; it stands directly in front of the value. -/
inductive Comparator where
  /-- At least the value. -/
  | atLeast
  /-- At most the value. -/
  | atMost
  /-- More than the value. -/
  | more
  /-- Less than the value. -/
  | less
  /-- The value itself. -/
  | equal
  /-- Anything but the value. -/
  | unequal
  /-- Something like the value. -/
  | like
  /-- Nothing like the value. -/
  | unlike
deriving DecidableEq, Repr

namespace Comparator

/-- All comparators, in the order in which they are listed. -/
def all : List Comparator := [atLeast, atMost, more, less, equal, unequal, like, unlike]

/-- The name of a comparator in output. -/
def name : Comparator → String
  | atLeast => "gte"
  | atMost => "lte"
  | more => "gt"
  | less => "lt"
  | equal => "eq"
  | unequal => "neq"
  | like => "fuzz"
  | unlike => "nfuzz"

/-- What a query writes for a comparator. -/
def symbol : Comparator → String
  | atLeast => ">="
  | atMost => "<="
  | more => ">"
  | less => "<"
  | equal => "="
  | unequal => "!"
  | like => "~"
  | unlike => "!~"

/-- The comparator with a name. -/
def ofName? (name : String) : Option Comparator := all.find? fun op => op.name = name

/-- A name belongs to the one comparator that has it. -/
theorem ofName?_eq_some_iff {name : String} {op : Comparator} :
    ofName? name = some op ↔ op.name = name := by
  constructor
  · intro h
    simpa using List.find?_some h
  · rintro rfl
    cases op <;> decide

end Comparator

end SearchQuery
