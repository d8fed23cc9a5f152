import SearchQuery.Log
import SearchQuery.Text.Literal

/-!
# Running the program

The command `parse` prints the tokens of a query and `check` the verdict on it. The query is an
argument or, without one, the whole standard input less the line ends behind it; from a terminal
no query is taken.

`Environment.run` is a run of the program as a function of its arguments and its standard input. How
arguments are spelled, and what the program says of itself when it is asked or misused, is up to the
reader of the arguments, and what is shown of the events that are noted is up to the log. Both are
found in the environment.
-/

namespace SearchQuery.CommandLine

/-- What a run leaves behind. -/
structure Outcome where
  code : Nat
  stdout : String
  stderr : String
deriving DecidableEq, Repr

/-- The commands that take a query. -/
inductive Verb where
  | parse
  | check
deriving DecidableEq, Repr

/-- How a command is written. -/
def Verb.name : Verb → String
  | parse => "parse"
  | check => "check"

/-- What the arguments ask for. -/
structure Command where
  verb : Verb
  request : Request
deriving DecidableEq, Repr

/-- What standard input is: a terminal, or something that is read to its end. -/
inductive Stdin where
  | terminal
  | piped (bytes : ByteArray)

/-- What the program finds around it. -/
structure Environment where
  /-- The command that some arguments ask for. Where they ask for none, but for help perhaps, it is
  what the run leaves behind. -/
  readArgs : List String → Except Outcome Command
  /-- What the log shows of events on standard error. What it is set to show, and the times that it
  stamps on them, are part of it. -/
  log : List Event → String

/-- A text without the line ends behind it. -/
def withoutLineEnds (text : String) : String :=
  String.ofList (text.toList.reverse.dropWhile fun c => c == '\r' || c == '\n').reverse

/-- A request whose query, if it is missing, is taken from the standard input. -/
def withInput (request : Request) (stdin : Stdin) : Except Refusal Request :=
  match request.query, stdin with
  | some _, _ | none, .terminal => .ok request
  | none, .piped bytes =>
    match String.fromUTF8? bytes with
    | none => .error .notText
    | some text => .ok { request with query := some (withoutLineEnds text) }

/-- A text as a line of output. -/
def line (text : String) : String := text ++ "\n"

/-- The lines that print a verdict. -/
def verdictLines : Verdict → List String
  | .complete => ["Query is complete"]
  | .incomplete problems remainder =>
    problems.map Problem.text ++
      remainder.toList.map fun rest =>
        "unread input: " ++ String.ofList (Text.literal rest.toList)

/-- The answer to a request: what is printed, and whether all is well. -/
def Verb.answer (verb : Verb) (request : Request) : Except Refusal (List String × Bool) :=
  match verb with
  | .parse => request.render.map fun text => ([text], true)
  | .check => request.check.map fun verdict => (verdictLines verdict, verdict = .complete)

/-- What a command leaves behind, given the log and the standard input. -/
def Command.run (log : List Event → String) (command : Command) (stdin : Stdin) : Outcome :=
  match withInput command.request stdin with
  | .error refusal => ⟨1, "", line refusal.message⟩
  | .ok request =>
    match command.verb.answer request with
    | .error refusal => ⟨1, "", log request.events ++ line refusal.message⟩
    | .ok (lines, well) =>
      ⟨if well then 0 else 1, String.join (lines.map line), log request.events⟩

/-- What a run leaves behind, given the arguments and the standard input. -/
def Environment.run (env : Environment) (args : List String) (stdin : Stdin) : Outcome :=
  match env.readArgs args with
  | .error outcome => outcome
  | .ok command => command.run env.log stdin

end SearchQuery.CommandLine
