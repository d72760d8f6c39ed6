import PolicyEval.Command

/-!
# The program

Reads the files that the command line names, asks for the output and prints it.  All decisions are
made by `commandLine`.
-/

namespace PolicyEval

/-- What the system says about a failure, with its number.  A failure to open carries the negative of
that number. -/
def failureReason (code : UInt32) (details : String) : String :=
  s!"{details.capitalize} (os error {min code (0 - code)})"

/-- Reads a path.  Only a directory can be opened and then not be read. -/
def readPath (path : String) : IO FileContent := do
  try
    let bytes ← IO.FS.readBinFile path
    match String.fromUTF8? bytes with
    | some s => return .text s
    | none => return .notText
  catch
    | .noFileOrDirectory .. => return .missing
    | .permissionDenied .. => return .denied
    | .inappropriateType none code details => return .failed (failureReason code details) true
    | .inappropriateType (some _) code details => return .failed (failureReason code details) false
    | .invalidArgument _ code details => return .failed (failureReason code details) false
    | e => return .failed (toString e) true

/-- Prints the output of a command line and gives its status. -/
def runCommandLine (argv : List String) : IO UInt32 := do
  let contents ← argv.mapM fun path => return (path, ← readPath path)
  let files := fun path => (contents.lookup path).getD .missing
  let output := commandLine ampleFuel files argv
  IO.print output.stdout
  IO.eprint output.stderr.print
  return UInt32.ofNat output.status

end PolicyEval

/-- The entry point of the program. -/
def main (argv : List String) : IO UInt32 := PolicyEval.runCommandLine argv
