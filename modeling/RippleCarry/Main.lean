import RippleCarry.CommandLine.Run
/-!
The command: reads the arguments and the configuration file, and prints the outcome of the run.
-/

namespace RippleCarry.CommandLine

/-- The system's number of an error, which is given with either sign. -/
def systemCode (code : UInt32) : UInt32 := min code (0 - code)

/-- Reads a file whole. -/
def readWhole (path : String) : IO (Except ReadError ByteArray) := do
  try
    return .ok (← IO.FS.readBinFile path)
  catch
    | .noFileOrDirectory .. => return .error .notFound
    | .inappropriateType _ code _ =>
      return .error (if systemCode code = 20 then .notDirectory else .isDirectory)
    | .permissionDenied .. => return .error .permissionDenied
    | .invalidArgument _ code details =>
      return .error (if systemCode code = 36 then .nameTooLong else .other details)
    | e => return .error (.other (toString e))

/-- Runs the command and hands back its exit code. Only the configuration file is read. -/
def execute (args : List String) : IO UInt32 := do
  let file ← match (Options.ofArgs? args).bind (·.config) with
    | some path => readWhole path
    | none => pure (.error .notFound)
  let outcome := run args fun _ => file
  IO.print outcome.stdout
  IO.eprint outcome.stderr
  return outcome.exitCode

end RippleCarry.CommandLine

def main (args : List String) : IO UInt32 := RippleCarry.CommandLine.execute args
