import SearchQuery.CommandLine.Basic

/-!
# A reader of arguments

`readArgs` reads the arguments of the program. Options stand anywhere behind the command and before
an argument `--`, each at most once; behind it there are no options. An option of one letter stands
behind one dash, also together with others. Help and the version are given where they are asked for,
and what comes behind is not looked at.

What is proved of the program is proved for every reader that does with queries and options what
`ReadsArguments` says. This one is what the program is run with, and how it words help is its own
affair.
-/

namespace SearchQuery.CommandLine

/-- What is said instead of doing what a command does. -/
inductive Instead where
  | version
  | help
  | misuse
deriving DecidableEq, Repr

/-- How the program is used. -/
def usage : String :=
  String.intercalate "\n"
    ["usage: artemis parse [QUERY] [-p | --pretty] [--tokens] [--max-depth N]",
      "       artemis check [QUERY] [--max-depth N]",
      "       artemis --version | --help"]

/-- What a run leaves behind where no command is run. -/
def Instead.outcome : Instead → Outcome
  | version => ⟨0, line "artemis 0.1.0", ""⟩
  | help => ⟨0, line usage, ""⟩
  | misuse => ⟨2, "", line usage⟩

/-- What the arguments have said so far. -/
structure Draft where
  query : Option String
  limit : Option Nat
  indented : Bool
  raw : Bool
deriving DecidableEq, Repr

/-- The largest limit that can be given: the largest number of 64 bits. -/
def largestLimit : Nat := 0xffffffffffffffff

/-- How an argument starts that holds an option with the limit. -/
def limitOption : List Char := "--max-depth=".toList

/-- Limits are given in decimal digits, with or without a plus sign. -/
def limit? (text : List Char) : Option Nat :=
  let digits := match text with
    | '+' :: digits => digits
    | digits => digits
  if digits.isEmpty || !digits.all Char.isDigit then none
  else
    let n := digits.foldl (fun n c => 10 * n + (c.toNat - '0'.toNat)) 0
    if n ≤ largestLimit then some n else none

namespace Draft

/-- The arguments have said nothing yet. -/
def empty : Draft := ⟨none, none, false, false⟩

/-- Takes an argument for the query, of which there is one. -/
def withQuery (draft : Draft) (text : String) : Except Instead Draft :=
  if draft.query.isSome then .error .misuse else .ok { draft with query := some text }

/-- Takes a text for the limit, of which there is one. -/
def withLimit (draft : Draft) (text : List Char) : Except Instead Draft :=
  match draft.limit, limit? text with
  | none, some n => .ok { draft with limit := some n }
  | _, _ => .error .misuse

/-- Takes the wish for indented output, which is made once. -/
def withIndent (draft : Draft) : Except Instead Draft :=
  if draft.indented then .error .misuse else .ok { draft with indented := true }

/-- Takes the wish for raw tokens, which is made once. -/
def withRaw (draft : Draft) : Except Instead Draft :=
  if draft.raw then .error .misuse else .ok { draft with raw := true }

/-- Takes options of one letter that stand behind one dash. -/
def withLetters (verb : Verb) (draft : Draft) : List Char → Except Instead Draft
  | [] => .ok draft
  | c :: cs =>
    if c = 'h' then .error .help
    else if verb = .parse ∧ c = 'p' then
      draft.withIndent.bind fun draft => draft.withLetters verb cs
    else .error .misuse

/-- Takes an argument that stands on its own, an option or the query. -/
def withArgument (verb : Verb) (draft : Draft) (arg : String) : Except Instead Draft :=
  if arg = "--help" then .error .help
  else if verb = .parse ∧ arg = "--pretty" then draft.withIndent
  else if verb = .parse ∧ arg = "--tokens" then draft.withRaw
  else if limitOption.isPrefixOf arg.toList then
    draft.withLimit (arg.toList.drop limitOption.length)
  else
    match arg.toList with
    | '-' :: c :: cs => draft.withLetters verb (c :: cs)
    | _ => draft.withQuery arg

/-- Takes all arguments behind the command. -/
def read (verb : Verb) (draft : Draft) : List String → Except Instead Draft
  | [] => .ok draft
  | arg :: args =>
    if arg = "--" then args.foldlM withQuery draft
    else if arg = "--max-depth" then
      match args with
      | [] => .error .misuse
      | text :: args => (draft.withLimit text.toList).bind fun draft => read verb draft args
    else (draft.withArgument verb arg).bind fun draft => read verb draft args

/-- The request that the arguments make. -/
def toRequest (draft : Draft) : Request :=
  ⟨draft.query, draft.limit.getD defaultLimit, draft.raw, draft.indented⟩

end Draft

/-- The command that the arguments ask for. -/
def Command.ofArgs : List String → Except Instead Command
  | [] => .error .misuse
  | arg :: args =>
    match [Verb.parse, Verb.check].find? fun verb => verb.name = arg with
    | some verb => (Draft.empty.read verb args).map fun draft => ⟨verb, draft.toRequest⟩
    | none =>
      if arg = "--version" ∨ ['-', 'V'].isPrefixOf arg.toList then .error .version
      else if arg = "--help" ∨ ['-', 'h'].isPrefixOf arg.toList then .error .help
      else if arg = "help" ∧ (args = [] ∨ args = ["parse"] ∨ args = ["check"]) then .error .help
      else .error .misuse

/-- The command that the arguments ask for, or what a run leaves behind that they ask for. -/
def readArgs (args : List String) : Except Outcome Command :=
  (Command.ofArgs args).mapError Instead.outcome

end SearchQuery.CommandLine
