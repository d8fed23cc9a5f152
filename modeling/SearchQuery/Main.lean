import SearchQuery.CommandLine

/-!
# The program

Standard input is read only where a command takes its query from it, and not from a terminal. The
log shows warnings, and no times. Everything else is decided in
`SearchQuery.CommandLine.Environment.run`.
-/

open SearchQuery SearchQuery.CommandLine in
/-- Runs the program on its arguments and its standard input. -/
def main (args : List String) : IO UInt32 := do
  let needsInput := (readArgs args).toOption.any fun command => command.request.query.isNone
  let input ← IO.getStdin
  let stdin ←
    if ← input.isTty then pure Stdin.terminal
    else if needsInput then Stdin.piped <$> input.readBinToEnd
    else pure (Stdin.piped ByteArray.empty)
  let outcome := standard.run args stdin
  IO.print outcome.stdout
  IO.eprint outcome.stderr
  return outcome.code.toUInt32
