/-!
# Faults

A query that is merely unfinished is no fault: what is missing shows in its tokens. The three faults
below are the reasons to refuse a query altogether. Each knows the position of the token at which
reading had to stop, and `Fault.message` words it.
-/

namespace SearchQuery

/-- Why a query is refused. -/
inductive Fault where
  /-- A list is followed by a token of some kind that neither continues nor ends it. -/
  | unterminatedList (kind : String) (offset : Nat)
  /-- A token of some kind starts nothing that can be read. -/
  | nothingToRead (kind : String) (offset : Nat)
  /-- Groups and pairs are nested more deeply than the limit allows. -/
  | tooDeep (offset limit : Nat)
deriving DecidableEq, Repr

namespace Fault

/-- The position of the token that caused the fault. -/
def offset : Fault → Nat
  | unterminatedList _ offset | nothingToRead _ offset | tooDeep offset _ => offset

/-- The fault in words. -/
def message : Fault → String
  | unterminatedList kind offset =>
    "list must be terminated by space or end of input (got " ++ kind ++ " at offset "
      ++ offset.repr ++ ")"
  | nothingToRead kind offset =>
    "nothing to decode, but tokens are left (next token: " ++ kind ++ " at offset "
      ++ offset.repr ++ ")"
  | tooDeep offset limit =>
    "nesting at offset " ++ offset.repr ++ " exceeds the maximum depth of " ++ limit.repr

end Fault

end SearchQuery
