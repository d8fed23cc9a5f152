import SearchQuery.Query
import SearchQuery.Token.Wire

/-!
# Requests

A request hands in a query, possibly a missing one, and asks for one of two things: the tokens of
the query as JSON (`Request.render`), or a verdict on whether it is complete (`Request.check`). The
verdict on an incomplete query names every token that asks for a correction, and the rest of the
text where reading stopped early.
-/

namespace SearchQuery

/-- Why a request goes unanswered. -/
inductive Refusal where
  /-- The query is refused. -/
  | fault (cause : Fault)
  /-- There is no query. -/
  | noQuery
  /-- What should be the query is no text. -/
  | notText
deriving DecidableEq, Repr

/-- The refusal in words. -/
def Refusal.message : Refusal → String
  | fault cause => "Parse error: " ++ cause.message
  | noQuery => "No query provided. Pass it as an argument or pipe it to stdin."
  | notText => "IO error: stream did not contain valid UTF-8"

/-- What is asked about a query: how deeply it may be nested, and, where its tokens are asked for,
whether the raw ones are meant and whether their JSON is to be indented. -/
structure Request where
  query : Option String
  limit : Nat
  raw : Bool
  indented : Bool
deriving DecidableEq, Repr

/-- A token that asks for a correction, as it is reported. -/
structure Problem where
  kind : String
  offset : Option Nat
  flagged : Bool
deriving DecidableEq, Repr

namespace Problem

/-- What is reported of a token. -/
def ofToken (t : Token) : Problem := ⟨t.kind.name, t.index, t.flagged⟩

/-- The line that reports a problem. -/
def text (problem : Problem) : String :=
  (if problem.flagged then "malformed " else "incomplete ") ++ problem.kind ++
    match problem.offset with
    | some offset => " at offset " ++ offset.repr
    | none => ""

end Problem

/-- Whether a query is complete, and if not, what is the matter with it. -/
inductive Verdict where
  | complete
  | incomplete (problems : List Problem) (remainder : Option String)
deriving DecidableEq, Repr

namespace Request

/-- Reads the query of a request. -/
def read (request : Request) : Except Refusal Query :=
  match request.query with
  | none => .error .noQuery
  | some text => (Query.read request.limit text).mapError Refusal.fault

/-- The tokens of the query as JSON. -/
def render (request : Request) : Except Refusal String := do
  let query ← request.read
  let tokens := if request.raw then query.tokens else query.forest
  .ok (if request.indented then prettyText tokens else compactText tokens)

/-- The rest of a text from a position on. -/
def remainder (text : String) (start : Nat) : Option String :=
  (Text.suffixAt? start text.toList).map String.ofList

/-- The verdict on the query. -/
def check (request : Request) : Except Refusal Verdict := do
  let query ← request.read
  if query.isComplete then .ok .complete
  else
    let rest := if query.isFullyRead then none
      else request.query.bind fun text => remainder text query.stop
    .ok (.incomplete (query.problems.map Problem.ofToken) rest)

end Request

end SearchQuery
