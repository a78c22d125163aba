import Lemmata.Report.CommandLine

/-!
# The program

Reads the files that the command line asks for and prints the response.
-/

namespace Lemmata.CommandLine

/-- Why a file could not be opened, with the number the system gives for it. -/
def openFailure : IO.Error → String
  | .noFileOrDirectory .. => "No such file or directory (os error 2)"
  | .permissionDenied .. => "Permission denied (os error 13)"
  | .inappropriateType .. => "Is a directory (os error 21)"
  | e => toString e

/-- The text of a file, or why it cannot be opened. -/
def contents (path : String) : IO (Except String String) := do
  try return .ok (← IO.FS.readFile path)
  catch e => return .error (openFailure e)

end Lemmata.CommandLine

/-- Runs the command line. -/
def main (args : List String) : IO UInt32 := do
  let r ← Lemmata.CommandLine.run Lemmata.CommandLine.contents args
  if r.exitCode = 2 then IO.eprint Lemmata.CommandLine.usage
  IO.print r.output
  return r.exitCode.toUInt32
