import Stepwise.CommandLine.Run
/-!
# The program

Reads the streams, calls `CommandLine`, and writes what it answers.
-/

namespace Stepwise

/-- The content of a file, or why it cannot be had. -/
def readScript (path : String) : IO (Except StreamError ByteArray) := do
  try
    return .ok (← IO.FS.readBinFile path)
  catch e =>
    match e with
    | .noFileOrDirectory .. => return .error .missing
    | .inappropriateType .. => return .error .directory
    | other => return .error (.other (toString other))

/-- Answers the lines of standard input as they come. -/
partial def talk (session : Session) : IO UInt32 := do
  let line ← (← IO.getStdin).getLine
  if line.isEmpty then return 0
  let (answer, session) := CommandLine.reply session line
  let out ← IO.getStdout
  out.write answer.stdout
  out.flush
  IO.eprint answer.stderr
  match answer.control with
  | .leave => return 0
  | .proceed => talk session

/-- Writes the outcome of a run. -/
def conclude (outcome : CommandLine.Outcome) : IO UInt32 := do
  let out ← IO.getStdout
  out.write outcome.stdout
  out.flush
  IO.eprint outcome.stderr
  return outcome.status.toUInt32

end Stepwise

open Stepwise in
/-- Follows the command line. -/
def main (arguments : List String) : IO UInt32 := do
  match CommandLine.parse arguments with
  | .ok (.run settings .session) =>
    IO.print CommandLine.banner
    talk (.start settings)
  | .ok (.run _ (.script path)) =>
    let content ← readScript path
    conclude (CommandLine.execute arguments "" fun _ => content)
  | _ => conclude (CommandLine.execute arguments "" fun _ => .error .missing)
