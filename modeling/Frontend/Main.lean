import Frontend.Console

/-!
# The program

Reads a file, or lines from the standard input, and prints what `Frontend.Console` says. This module
only reads bytes and prints texts. It writes no log.
-/

namespace Frontend

/-- The failure that an error of the system is. -/
def ReadFailure.ofError : IO.Error → ReadFailure
  | .noFileOrDirectory .. => .missing
  | .inappropriateType .. => .directory
  | .permissionDenied .. => .system "Permission denied" 13
  | e => .system (toString e) 5

/-- The bytes of a file. -/
def readContents (name : String) : IO (Except ReadFailure (List UInt8)) := do
  try
    return .ok (← IO.FS.readBinFile name).toList
  catch e =>
    return .error (.ofError e)

/-- The terminal of the standard streams. -/
def Terminal.ofStreams (input output errors : IO.FS.Stream) : Terminal IO where
  next := return (← input.read 1).toList.head?
  print text := do
    output.putStr text
    output.flush
  warn := errors.putStr

/-- Runs the program, and yields the exit status. -/
def runProgram (args : List String) : IO UInt32 := do
  let output ← IO.getStdout
  let errors ← IO.getStderr
  match Invocation.ofArgs? args with
  | none =>
    errors.putStr "usage: [--tokens] [-v]... [FILE]\n"
    return 2
  | some inv =>
    match inv.file with
    | none =>
      let terminal := Terminal.ofStreams (← IO.getStdin) output errors
      return (← terminal.session inv.tokens).toUInt32
    | some name =>
      let o := Console.onFile inv.tokens name (← readContents name)
      output.putStr o.stdout
      errors.putStr o.stderr
      return o.status.toUInt32

end Frontend

/-- The command line. -/
def main (args : List String) : IO UInt32 := Frontend.runProgram args
