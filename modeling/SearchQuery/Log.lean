import SearchQuery.Request

/-!
# The log

Reading a query leaves a trail of events: what the stages have come to, and where reading was given
up (`Query.events`). They are no part of an answer. Which of them a log shows, and whether it stamps
a time on them, is settled where the program is run, so a log is any function from events to the
text that it shows of them. `showWarnings` is one that shows no times.
-/

namespace SearchQuery

/-- How urgent an event is. -/
inductive Urgency where
  | trace
  | debug
  | warning
deriving DecidableEq, Repr

/-- Something that is noted while a query is read. -/
inductive Event where
  /-- The raw tokens of a text are read: how long the text is, how many tokens there are, and where
  reading has stopped. -/
  | scanned (length tokens stop : Nat)
  /-- The forest is read, and has some number of trees. -/
  | decoded (trees : Nat)
  /-- A group is nested more deeply than the limit allows. -/
  | groupTooDeep (offset limit : Nat)
  /-- Groups and pairs together are nested more deeply than the limit allows. -/
  | unitTooDeep (offset limit : Nat)
  /-- A token of some kind starts nothing that can be read. -/
  | noProgress (kind : String)
  /-- A list is followed by a token of some kind that neither continues nor ends it. -/
  | brokenList (kind : String)
deriving DecidableEq, Repr

namespace Event

/-- How urgent an event is. -/
def urgency : Event → Urgency
  | scanned .. | decoded _ => .debug
  | groupTooDeep .. | unitTooDeep .. => .warning
  | noProgress _ | brokenList _ => .trace

/-- The event in words. -/
def message : Event → String
  | scanned .. => "tokenized query"
  | decoded _ => "decoded query"
  | groupTooDeep .. => "group nesting too deep"
  | unitTooDeep .. => "decode nesting too deep"
  | noProgress _ => "decoder made no progress"
  | brokenList _ => "list element followed by junk"

/-- What is noted along with an event, each value under a name. -/
def fields : Event → List (String × String)
  | scanned length tokens stop =>
    [("input_len", length.repr), ("tokens", tokens.repr), ("consumed_end", stop.repr)]
  | decoded trees => [("decoded", trees.repr)]
  | groupTooDeep offset limit | unitTooDeep offset limit =>
    [("offset", offset.repr), ("max_depth", limit.repr)]
  | noProgress kind | brokenList kind => [("kind", kind)]

/-- The event with everything that is noted along with it. -/
def text (event : Event) : String :=
  event.message ++ String.join (event.fields.map fun (name, value) => " " ++ name ++ "=" ++ value)

end Event

/-- What is noted where a forest cannot be read. -/
def Fault.event : Fault → Event
  | unterminatedList kind _ => .brokenList kind
  | nothingToRead kind _ => .noProgress kind
  | tooDeep offset limit => .unitTooDeep offset limit

/-- The events that are noted while a query is read. -/
def Query.events (limit : Nat) (text : String) : List Event :=
  match Scan.ofText limit text with
  | .error fault => [.groupTooDeep fault.offset limit]
  | .ok scan =>
    let outcome := match forestOf limit (promote scan.tokens) with
      | .ok forest => .decoded forest.length
      | .error fault => fault.event
    [.scanned (Text.width text.toList) scan.tokens.length scan.stop, outcome]

/-- The events that are noted while the query of a request is read. -/
def Request.events (request : Request) : List Event :=
  match request.query with
  | none => []
  | some text => Query.events request.limit text

/-- What is shown of events where only warnings are, each on a line of its own. -/
def showWarnings (events : List Event) : String :=
  String.join ((events.filter fun e => e.urgency = .warning).map fun e => "WARN " ++ e.text ++ "\n")

end SearchQuery
