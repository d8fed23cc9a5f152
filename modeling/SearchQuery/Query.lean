import SearchQuery.Forest.Cursor
import SearchQuery.Keyword
import SearchQuery.Scan
import SearchQuery.Token.Preorder

/-!
# Queries

`Query.read` is all of reading a query: its raw tokens, what they mean, and the forest that they
stand for. A query need not have been read to its end, and its forest may hold tokens that ask for
a correction. It is complete when neither is the case.
-/

namespace SearchQuery

/-- The version of the query language. -/
def languageVersion : String := "2025.07.22"

/-- How deeply groups and pairs may be nested unless a caller says otherwise. -/
def defaultLimit : Nat := 256

/-- A query that has been read: its raw tokens, the forest they stand for, the stretch of text that
was read, and the length of the whole text. -/
structure Query where
  tokens : List Token
  forest : List Token
  start : Nat
  stop : Nat
  length : Nat
deriving Repr

namespace Query

/-- Reads a query, in which groups and pairs may be nested as deeply as the limit says. -/
def read (limit : Nat) (text : String) : Except Fault Query := do
  let scan ← Scan.ofText limit text
  let forest ← forestOf limit (promote scan.tokens)
  .ok ⟨scan.tokens, forest, scan.start, scan.stop, Text.width text.toList⟩

/-- Was the text read to its end? -/
def isFullyRead (query : Query) : Bool := decide (query.length ≤ query.stop)

/-- The tokens that ask for a correction, in the order of the text. -/
def problems (query : Query) : List Token := SearchQuery.problems query.forest

/-- Is there nothing left to read and nothing to correct? -/
def isComplete (query : Query) : Bool := query.isFullyRead && query.problems.isEmpty

end Query

end SearchQuery
