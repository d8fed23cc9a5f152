import Mathlib
import SearchQuery.Proofs.CommandLine.Arguments
import SearchQuery.Proofs.Remainder
import SearchQuery.Proofs.Text.Literal

/-!
# What a run of the program says of a query

A query gets into the program in two ways, as an argument or on standard input, where line ends
behind it are dropped, and either way the same command is run on it (`run_argument`, `run_stdin`).
What the run leaves behind is what reading the query gives: the tokens (`prints_run`), or whether
the query is complete, where the lines that are printed name its problems one by one
(`reports_run`). `run_agrees` puts all of this together.

The reader of arguments is any that does what the program relies on. The log is any as well. What it
shows depends on what it is set to show and on the time, and both are the same in the runs that are
said to leave the same behind. On the other streams nothing is seen of it (`run_log`).
-/

namespace SearchQuery.CommandLine

open Text (OneLine oneLine_toDigits oneLine_literal width)

variable {env : Environment} {log : List Event → String} {verb : Verb} {request : Request}
  {settings : List Setting} {q : String}

/-! ## The two ways in -/

/-- The line ends behind a text are dropped, and nothing else. -/
theorem withoutLineEnds_append {text ends : String}
    (htext : ∀ c ∈ text.toList.getLast?, c ≠ '\r' ∧ c ≠ '\n')
    (hends : ∀ c ∈ ends.toList, c = '\r' ∨ c = '\n') : withoutLineEnds (text ++ ends) = text := by
  have hdrop : ∀ c ∈ ends.toList.reverse, (c == '\r' || c == '\n') = true := by
    simpa using hends
  have hkeep : text.toList.reverse.dropWhile (fun c => c == '\r' || c == '\n') =
      text.toList.reverse := by
    cases hrev : text.toList.reverse with
    | nil => rfl
    | cons c cs =>
      have hlast : text.toList.getLast? = some c := by
        rw [← List.head?_reverse, hrev]
        rfl
      obtain ⟨hcr, hlf⟩ := htext c hlast
      exact List.dropWhile_cons_of_neg (by simp [hcr, hlf])
  rw [withoutLineEnds, String.toList_append, List.reverse_append,
    List.dropWhile_append_of_pos hdrop, hkeep, List.reverse_reverse, String.ofList_toList]

/-- A text that is written to standard input is read from there. -/
theorem fromUTF8?_toUTF8 (text : String) : String.fromUTF8? text.toUTF8 = some text := by
  rw [String.fromUTF8?, String.toUTF8_eq_toByteArray, dif_pos text.isValidUTF8]
  rfl

/-- A query that is there is not looked for. -/
theorem withInput_of_query (hquery : request.query = some q) (stdin : Stdin) :
    withInput request stdin = .ok request := by
  simp only [withInput, hquery]

/-- A command that takes its query from somewhere else does what it does on this query. -/
theorem run_of_withInput {request' : Request} {stdin : Stdin} (hquery : request'.query = some q)
    (hinput : withInput request stdin = .ok request') (stdin' : Stdin) :
    Command.run log ⟨verb, request⟩ stdin = Command.run log ⟨verb, request'⟩ stdin' := by
  simp only [Command.run, hinput, withInput_of_query hquery]

/-- With the query as an argument a command is run on it, whatever standard input is. -/
theorem run_argument (hargs : ReadsArguments env.readArgs) (hsettings : Admissible verb settings)
    (q : String) (stdin : Stdin) :
    env.run (argsOf verb settings ++ ["--", q]) stdin =
      Command.run env.log ⟨verb, requestOf settings (some q)⟩ .terminal := by
  rw [Environment.run, hargs.query q hsettings]
  exact run_of_withInput rfl rfl .terminal

/-- Without a query among the arguments a command is run on the text on standard input, less the
line ends behind it. -/
theorem run_stdin (hargs : ReadsArguments env.readArgs) (hsettings : Admissible verb settings)
    (text : String) :
    env.run (argsOf verb settings) (.piped text.toUTF8) =
      Command.run env.log ⟨verb, requestOf settings (some (withoutLineEnds text))⟩ .terminal := by
  have hinput : withInput (requestOf settings none) (.piped text.toUTF8) =
      .ok (requestOf settings (some (withoutLineEnds text))) := by
    simp only [withInput, requestOf, fromUTF8?_toUTF8]
  rw [Environment.run, hargs.noQuery hsettings]
  exact run_of_withInput rfl hinput .terminal

/-- Without a query among the arguments none is taken from a terminal, and the run says so. -/
theorem run_terminal (hargs : ReadsArguments env.readArgs) (hsettings : Admissible verb settings) :
    env.run (argsOf verb settings) .terminal =
      ⟨1, "", env.log [] ++ line Refusal.noQuery.message⟩ := by
  rw [Environment.run, hargs.noQuery hsettings]
  cases verb <;> rfl

/-! ## The log -/

/-- Two runs end in the same way and print the same, whatever stands on standard error. -/
structure Outcome.SameAnswer (outcome outcome' : Outcome) : Prop where
  code_eq : outcome.code = outcome'.code
  stdout_eq : outcome.stdout = outcome'.stdout

/-- Logs write on standard error only. -/
theorem run_log (env : Environment) (log : List Event → String) (args : List String)
    (stdin : Stdin) :
    (env.run args stdin).SameAnswer (Environment.run { env with log := log } args stdin) := by
  simp only [Environment.run]
  cases env.readArgs args with
  | error outcome => exact ⟨rfl, rfl⟩
  | ok command =>
    simp only [Command.run]
    cases withInput command.request stdin with
    | error refusal => exact ⟨rfl, rfl⟩
    | ok request =>
      dsimp only
      cases command.verb.answer request <;> exact ⟨rfl, rfl⟩

/-! ## Answers -/

/-- A query that is refused is refused whatever is asked about it. -/
theorem answer_of_fault (verb : Verb) {fault : Fault} (hquery : request.query = some q)
    (hread : Query.read request.limit q = .error fault) :
    verb.answer request = .error (.fault fault) := by
  have hrequest : request.read = .error (.fault fault) := by
    rw [Request.read_eq hquery, hread, Except.mapError]
  cases verb with
  | parse =>
    rw [Verb.answer, Request.render, hrequest]
    rfl
  | check =>
    rw [Verb.answer, Request.check, hrequest]
    rfl

/-- The tokens of a query that is read. -/
theorem render_eq {query : Query} (hquery : request.query = some q)
    (hread : Query.read request.limit q = .ok query) :
    request.render = .ok (
      let tokens := if request.raw then query.tokens else query.forest
      if request.indented then prettyText tokens else compactText tokens) := by
  rw [Request.render, Request.read_eq hquery, hread]
  rfl

/-- The line of a problem is one line if the kind it names is. -/
theorem oneLine_text {problem : Problem} (hkind : OneLine problem.kind.toList) :
    OneLine problem.text.toList := by
  obtain ⟨kind, offset, flagged⟩ := problem
  have hfront : OneLine (if flagged then "malformed " else "incomplete ").toList := by
    cases flagged <;> decide
  rw [Problem.text, String.toList_append, String.toList_append]
  refine (hfront.append hkind).append ?_
  cases offset with
  | none => exact (by decide : OneLine "".toList)
  | some n =>
    have hoffset : OneLine n.repr.toList := by
      rw [Nat.repr_eq_ofList_toDigits, String.toList_ofList]
      exact oneLine_toDigits (by decide) n
    dsimp only
    rw [String.toList_append]
    exact OneLine.append (by decide) hoffset

/-- The line that reports a token is one line. -/
theorem oneLine_ofToken (t : Token) : OneLine (Problem.ofToken t).text.toList := by
  refine oneLine_text ?_
  simp only [Problem.ofToken]
  cases t.kind <;> simp only [Kind.name] <;> decide

/-- The lines on an incomplete query name its problems one by one, and then what was left unread, if
anything was. -/
theorem exists_verdictLines {request : Request} {q : String} {query : Query}
    (hquery : request.query = some q) (hread : Query.read request.limit q = .ok query)
    (hincomplete : query.isComplete = false) :
    ∃ verdict rest, request.check = .ok verdict ∧ verdict ≠ .complete ∧
      verdictLines verdict = query.problems.map (fun t => (Problem.ofToken t).text) ++ rest ∧
      (∀ text ∈ rest, OneLine text.toList) ∧
      rest.length = if query.stop < width q.toList then 1 else 0 := by
  obtain ⟨front, left, hsplit, hstop, -⟩ := Query.read_remainder hread
  have hcheck := Request.check_eq hquery hread
  rw [hincomplete, if_neg Bool.false_ne_true, Request.remainder_eq hsplit hstop] at hcheck
  refine ⟨_, _, hcheck, nofun, by rw [verdictLines, List.map_map]; rfl, ?_, ?_⟩
  · intro text htext
    obtain ⟨r, -, rfl⟩ := List.mem_map.mp htext
    have hshown : OneLine (String.ofList (Text.literal r.toList)).toList := by
      rw [String.toList_ofList]
      exact oneLine_literal r.toList
    rw [String.toList_append]
    exact OneLine.append (by decide) hshown
  · have hfull : query.isFullyRead = decide (width q.toList ≤ query.stop) := by
      rw [Query.isFullyRead, Query.length_eq hread]
    by_cases hshort : query.stop < width q.toList
    · rw [hfull, decide_eq_false (Nat.not_le_of_lt hshort), if_pos hshort]
      rfl
    · rw [hfull, decide_eq_true (Nat.le_of_not_lt hshort), if_neg hshort]
      rfl

/-! ## What is left behind -/

/-- What a run on a query leaves behind agrees with what reading the query gives, whichever command
is run. -/
structure Outcome.Heeds (outcome : Outcome) (log : List Event → String) (limit : Nat)
    (q : String) : Prop where
  /-- On standard error stands what the log shows of the events that are noted while the query is
  read, and behind it, if the query is refused, why it is. -/
  stderr_eq : outcome.stderr = log (Query.events limit q) ++
    match Query.read limit q with
    | .ok _ => ""
    | .error fault => line (Refusal.fault fault).message
  /-- On a query that is refused nothing is printed. -/
  of_fault : ∀ fault, Query.read limit q = .error fault → outcome.code = 1 ∧ outcome.stdout = ""

/-- What a run leaves behind that checks a query agrees with what reading the query gives. -/
structure Outcome.Reports (outcome : Outcome) (log : List Event → String) (limit : Nat) (q : String)
    : Prop extends outcome.Heeds log limit q where
  /-- All is well just if the query is read and complete. -/
  code_eq_zero_iff : outcome.code = 0 ↔
    ∃ query, Query.read limit q = .ok query ∧ query.isComplete = true
  /-- A complete query is said to be complete. -/
  of_complete : ∀ query, Query.read limit q = .ok query → query.isComplete = true →
    outcome.stdout = line "Query is complete"
  /-- On an incomplete query there is one line for each problem, and one more just if reading has
  stopped early. None of them is broken. -/
  of_incomplete : ∀ query, Query.read limit q = .ok query → query.isComplete = false →
    outcome.code = 1 ∧
    ∃ lines rest, lines = query.problems.map (fun t => (Problem.ofToken t).text) ++ rest ∧
      outcome.stdout = String.join (lines.map line) ∧ (∀ text ∈ lines, OneLine text.toList) ∧
      rest.length = if query.stop < width q.toList then 1 else 0

/-- What a run leaves behind that is asked for the tokens of a query agrees with what reading the
query gives. -/
structure Outcome.Prints (outcome : Outcome) (log : List Event → String) (request : Request)
    (q : String) : Prop extends outcome.Heeds log request.limit q where
  /-- If the query is read, its tokens are printed, the raw ones if they are asked for, and indented
  if that is asked for. -/
  of_read : ∀ query, Query.read request.limit q = .ok query →
    outcome.code = 0 ∧ outcome.stdout = line (
      let tokens := if request.raw then query.tokens else query.forest
      if request.indented then prettyText tokens else compactText tokens)

/-- What a run of a command on a query leaves behind agrees with what reading the query gives. -/
def Outcome.Agrees (outcome : Outcome) (log : List Event → String) (verb : Verb) (request : Request)
    (q : String) : Prop :=
  match verb with
  | .parse => outcome.Prints log request q
  | .check => outcome.Reports log request.limit q

/-- What is left behind by a run that answers. -/
theorem run_of_answer {lines : List String} {well : Bool} (hquery : request.query = some q)
    (hanswer : verb.answer request = .ok (lines, well)) (stdin : Stdin) :
    Command.run log ⟨verb, request⟩ stdin =
      ⟨if well then 0 else 1, String.join (lines.map line),
        log (Query.events request.limit q)⟩ := by
  simp only [Command.run, withInput_of_query hquery, hanswer, Request.events, hquery]

/-- What is left behind by a run on a query that is refused. -/
theorem run_of_fault {fault : Fault} (hquery : request.query = some q)
    (hread : Query.read request.limit q = .error fault) (stdin : Stdin) :
    Command.run log ⟨verb, request⟩ stdin =
      ⟨1, "", log (Query.events request.limit q) ++ line (Refusal.fault fault).message⟩ := by
  simp only [Command.run, withInput_of_query hquery, answer_of_fault verb hquery hread,
    Request.events, hquery]

/-- Where the query is read, nothing but the log writes on standard error. -/
theorem heeds_of_read {limit : Nat} {query : Query} (hread : Query.read limit q = .ok query)
    (code : Nat) (stdout : String) :
    Outcome.Heeds ⟨code, stdout, log (Query.events limit q)⟩ log limit q := by
  refine ⟨by rw [hread, String.append_empty], fun fault hfault => ?_⟩
  cases hread.symm.trans hfault

/-- Where the query is refused, the reason stands behind what the log writes. -/
theorem heeds_of_fault {limit : Nat} {fault : Fault} (hread : Query.read limit q = .error fault) :
    Outcome.Heeds ⟨1, "", log (Query.events limit q) ++ line (Refusal.fault fault).message⟩ log
      limit q :=
  ⟨by rw [hread], fun _ _ => ⟨rfl, rfl⟩⟩

/-- A run that is asked for the tokens of a query prints them. -/
theorem prints_run (hquery : request.query = some q) (stdin : Stdin) :
    (Command.run log ⟨.parse, request⟩ stdin).Prints log request q := by
  cases hread : Query.read request.limit q with
  | error fault =>
    rw [run_of_fault hquery hread]
    refine ⟨heeds_of_fault hread, fun query hquery' => ?_⟩
    cases hread.symm.trans hquery'
  | ok query =>
    have hanswer : Verb.parse.answer request = .ok ([_], true) :=
      congrArg (Except.map _) (render_eq hquery hread)
    rw [run_of_answer hquery hanswer]
    refine ⟨heeds_of_read hread _ _, fun query' hquery' => ?_⟩
    obtain rfl := Except.ok.inj (hread.symm.trans hquery')
    exact ⟨rfl, String.empty_append⟩

/-- A run that checks a query reports what reading the query gives. -/
theorem reports_run (hquery : request.query = some q) (stdin : Stdin) :
    (Command.run log ⟨.check, request⟩ stdin).Reports log request.limit q := by
  cases hread : Query.read request.limit q with
  | error fault =>
    rw [run_of_fault hquery hread]
    have hnone : ∀ query, Query.read request.limit q ≠ .ok query := by
      intro query h
      cases hread.symm.trans h
    refine ⟨heeds_of_fault hread, iff_of_false (Nat.succ_ne_zero 0) ?_,
      fun query h => absurd h (hnone query), fun query h => absurd h (hnone query)⟩
    rintro ⟨query, h, -⟩
    exact hnone query h
  | ok query =>
    have honly : ∀ query', Query.read request.limit q = .ok query' → query = query' :=
      fun _ h => Except.ok.inj (hread.symm.trans h)
    cases hcomplete : query.isComplete with
    | true =>
      have hcheck := Request.check_eq hquery hread
      rw [hcomplete, if_pos rfl] at hcheck
      have hanswer : Verb.check.answer request = .ok (verdictLines .complete, true) :=
        congrArg (Except.map _) hcheck
      rw [run_of_answer hquery hanswer]
      refine ⟨heeds_of_read hread _ _, iff_of_true rfl ⟨query, hread, hcomplete⟩,
        fun _ _ _ => String.empty_append, fun query' hread' hincomplete => ?_⟩
      rw [← honly query' hread', hcomplete] at hincomplete
      cases hincomplete
    | false =>
      obtain ⟨verdict, rest, hcheck, hverdict, hlines, hrest, hlength⟩ :=
        exists_verdictLines hquery hread hcomplete
      have hanswer : Verb.check.answer request = .ok (verdictLines verdict, false) := by
        rw [Verb.answer, hcheck, Except.map, decide_eq_false hverdict]
      rw [run_of_answer hquery hanswer]
      have hnone : ∀ query', Query.read request.limit q = .ok query' →
          query'.isComplete ≠ true := by
        intro query' hread' hcomplete'
        rw [← honly query' hread', hcomplete] at hcomplete'
        cases hcomplete'
      refine ⟨heeds_of_read hread _ _, iff_of_false (Nat.succ_ne_zero 0) ?_,
        fun query' hread' h => absurd h (hnone query' hread'), fun query' hread' _ => ⟨rfl, ?_⟩⟩
      · rintro ⟨query', hread', hcomplete'⟩
        exact hnone query' hread' hcomplete'
      · rw [← honly query' hread']
        refine ⟨_, rest, rfl, by rw [← hlines], ?_, hlength⟩
        rw [List.forall_mem_append, List.forall_mem_map]
        exact ⟨fun t _ => oneLine_ofToken t, hrest⟩

/-! ## The program as a whole -/

/-- The program answers a query in the same way, whichever command and options it is run with,
whether the query is an argument or comes from standard input with line ends behind it that are not
its own. The answer is what reading the query gives. A log shows what is noted while the query is
read, in front of everything else on standard error, and nothing but that depends on the log. -/
theorem run_agrees (hargs : ReadsArguments env.readArgs) (hsettings : Admissible verb settings)
    (q : String) (stdin : Stdin) :
    (∀ ends : String, (∀ c ∈ q.toList.getLast?, c ≠ '\r' ∧ c ≠ '\n') →
      (∀ c ∈ ends.toList, c = '\r' ∨ c = '\n') →
      env.run (argsOf verb settings ++ ["--", q]) stdin =
        env.run (argsOf verb settings) (.piped (q ++ ends).toUTF8)) ∧
    (env.run (argsOf verb settings ++ ["--", q]) stdin).Agrees env.log verb
      (requestOf settings (some q)) q ∧
    ∀ log : List Event → String,
      (env.run (argsOf verb settings ++ ["--", q]) stdin).SameAnswer
        (Environment.run { env with log := log } (argsOf verb settings ++ ["--", q]) stdin) := by
  refine ⟨fun ends hq hends => ?_, ?_, fun log => run_log env log _ stdin⟩
  · rw [run_argument hargs hsettings, run_stdin hargs hsettings, withoutLineEnds_append hq hends]
  · rw [run_argument hargs hsettings]
    cases verb with
    | parse => exact prints_run rfl .terminal
    | check => exact reports_run rfl .terminal

/-- The law for two queries that start with a dash. One is checked and has a line end in the part
that is not read. The other is nested too deeply, which the log shows. -/
theorem run_agrees_dash :
    (standard.run ["check", "--max-depth=3", "--", "-a:.\nb"] .terminal =
      standard.run ["check", "--max-depth=3"] (.piped "-a:.\nb\n\r\n".toUTF8) ∧
    ∃ lines rest : List String, lines = ["incomplete incomplete:pair at offset 0"] ++ rest ∧
      (standard.run ["check", "--max-depth=3", "--", "-a:.\nb"] .terminal).stdout =
        String.join (lines.map line) ∧
      (∀ text ∈ lines, OneLine text.toList) ∧ rest.length = 1) ∧
    (standard.run ["parse", "-p", "--max-depth", "0", "--", "-("] .terminal).stderr =
      "WARN group nesting too deep offset=1 max_depth=0\n" ++
        "Parse error: nesting at offset 1 exceeds the maximum depth of 0\n" := by
  have hargs : ReadsArguments standard.readArgs := readArgs_readsArguments
  constructor
  · have hsettings : Admissible .check [.limit 3 true] := ⟨by decide, by decide⟩
    obtain ⟨hpaths, hreports, -⟩ := run_agrees hargs hsettings "-a:.\nb" .terminal
    have hread : Query.read 3 "-a:.\nb" = .ok ⟨
        [.covering (.word "-a") 0 2, .covering .colon 2 3],
        [⟨.unfinishedPair (some (.covering (.word "-a") 0 2)) none, some 0, ⟨some 0, none⟩, false⟩],
        0, 3, 6⟩ := by cbv
    exact ⟨hpaths "\n\r\n" (by simp) (by simp), (hreports.of_incomplete _ hread (by decide)).2⟩
  · have hsettings : Admissible .parse [.indented true, .limit 0 false] := ⟨by decide, by decide⟩
    obtain ⟨-, hprints, -⟩ := run_agrees hargs hsettings "-(" .terminal
    have hevents : Query.events 0 "-(" = [.groupTooDeep 1 0] := by cbv
    have hread : Query.read 0 "-(" = .error (.tooDeep 1 0) := by cbv
    have hlimit : (requestOf [.indented true, .limit 0 false] (some "-(")).limit = 0 := rfl
    have hstderr := hprints.stderr_eq
    rw [hlimit, hevents, hread] at hstderr
    exact hstderr.trans (by decide)

end SearchQuery.CommandLine
