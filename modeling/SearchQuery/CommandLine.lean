import SearchQuery.CommandLine.Arguments

/-!
# The command line

The program with the reader of arguments of this library, as it is run (`standard`), and
as it is run where standard input is no terminal and the log is switched off (`run`).
-/

namespace SearchQuery.CommandLine

/-- The environment in which the log shows warnings, and no times. -/
def standard : Environment := ⟨readArgs, showWarnings⟩

/-- What a run with the log switched off leaves behind, given the arguments and the bytes on
standard input. -/
def run (args : List String) (stdin : ByteArray) : Outcome :=
  Environment.run ⟨readArgs, fun _ => ""⟩ args (.piped stdin)

end SearchQuery.CommandLine
