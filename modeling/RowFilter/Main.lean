import RowFilter.CommandLine

/-! The command: reads the catalog file if one is named, and prints the outcome. -/

namespace RowFilter.CommandLine

/-- Why a file could not be read, in the words of the operating system. -/
def readFailure : IO.Error → String
  | .noFileOrDirectory _ _ _ => "No such file or directory (os error 2)"
  | .inappropriateType _ _ _ => "Is a directory (os error 21)"
  | .permissionDenied _ _ _ => "Permission denied (os error 13)"
  | .userError _ => "stream did not contain valid UTF-8"
  | error => toString error

/-- The text of the one file that the arguments name. -/
def namedFile (args : List String) : IO (String → Except String String) := do
  match (invocation? args).bind Invocation.catalog with
  | none => pure fun _ => .error "not asked for"
  | some file =>
    let text ← (IO.FS.readFile file).toBaseIO
    pure fun _ => text.mapError readFailure

end RowFilter.CommandLine

def main (args : List String) : IO UInt32 := do
  let contents ← RowFilter.CommandLine.namedFile args
  let outcome := RowFilter.CommandLine.run contents args
  IO.print outcome.output
  IO.eprint outcome.report
  pure outcome.exitCode.toUInt32
