import Stepwise.CommandLine.Arguments
import Stepwise.Session
import Stepwise.Text.Correction
/-!
# Running a command line

What each task writes to its two output streams, and the status it ends with. A session reports
errors and goes on; a single line or a script ends with its first error.
-/

namespace Stepwise.CommandLine

/-- The name and version of the program. -/
def versionText : String := "steplisp 0.1.0"

/-- The first lines of a session. -/
def banner : String :=
  versionText ++ "\nRun '(exit)' to exit, '(toggle-step)' to show reduction steps.\n"

/-- How the program is used. -/
def usageText : String :=
  "Usage: steplisp [--step-limit N] [--steps] [repl | eval SOURCE | run SCRIPT]"

/-- The end of a run: what it wrote, and its status. -/
structure Outcome where
  stdout : ByteArray
  stderr : String
  status : Nat

/-! ## Lines -/

/-- The lines of a text. The last line need not be ended. -/
def linesOf (text : String) : List String :=
  let pieces := text.splitOn "\n"
  if pieces.getLast? = some "" then pieces.dropLast else pieces

/-! ## Sessions -/

/-- What a session writes for one line. -/
structure Reply where
  stdout : ByteArray
  stderr : String
  control : Control

/-- Answers one line of a session. An error is reported and does not end it. -/
def reply (session : Session) (line : String) : Reply × Session :=
  match session.handleLine (corrected line) (.empty none) with
  | (.ok control, sink, session) => (⟨sink.written, "", control⟩, session)
  | (.error e, sink, session) => (⟨sink.written, e.report ++ "\n", .proceed⟩, session)

/-- Answers lines until one leaves the session. -/
def converse (session : Session) (stdout : ByteArray) (stderr : String) :
    List String → Outcome
  | [] => ⟨stdout, stderr, 0⟩
  | line :: rest =>
    let (answer, session) := reply session line
    let stdout := stdout ++ answer.stdout
    let stderr := stderr ++ answer.stderr
    match answer.control with
    | .leave => ⟨stdout, stderr, 0⟩
    | .proceed => converse session stdout stderr rest

/-! ## Scripts -/

/-- Whether a script's line, trimmed, is passed over: it is empty or a comment. -/
def isPassedOver (line : String) : Bool :=
  line = "" || line.toList.head? == some ';'

/-- Answers the lines of a script up to the first that leaves or fails. -/
def runLines (session : Session) (sink : Sink) : List String → Except Error Unit × Sink
  | [] => (.ok (), sink)
  | line :: rest =>
    if isPassedOver (trim line) then runLines session sink rest
    else
      match session.handleLine (trim line) sink with
      | (.ok .proceed, sink, session) => runLines session sink rest
      | (.ok .leave, sink, _) => (.ok (), sink)
      | (.error e, sink, _) => (.error e, sink)

/-- The text of a file. -/
def decodeScript (content : Except StreamError ByteArray) : Except Error String :=
  match content with
  | .error e => .error (.stream e)
  | .ok bytes =>
    match String.fromUTF8? bytes with
    | some text => .ok text
    | none => .error (.stream .notText)

/-- The end of a run that fails as a whole. -/
def Outcome.ofResult : Except Error Unit × Sink → Outcome
  | (.ok (), sink) => ⟨sink.written, "", 0⟩
  | (.error e, sink) => ⟨sink.written, e.report ++ "\n", 1⟩

/-! ## Command lines -/

/-- Performs a task. `input` is the text of standard input and `file` gives the content of
files. -/
def perform (settings : Settings) (input : String) (file : String → Except StreamError ByteArray) :
    Task → Outcome
  | .session => converse (.start settings) banner.toUTF8 "" (linesOf input)
  | .line source =>
    let (result, sink, _) := (Session.start settings).handleLine source (.empty none)
    .ofResult (result.map fun _ => (), sink)
  | .script path =>
    match decodeScript (file path) with
    | .error e => .ofResult (.error e, .empty none)
    | .ok text => .ofResult (runLines (.start settings) (.empty none) (linesOf text))

/-- Follows a command line. -/
def execute (arguments : List String) (input : String)
    (file : String → Except StreamError ByteArray) : Outcome :=
  match parse arguments with
  | .error e => ⟨.empty, "error: " ++ e.message ++ "\n" ++ usageText ++ "\n", 2⟩
  | .ok .version => ⟨(versionText ++ "\n").toUTF8, "", 0⟩
  | .ok .help => ⟨(usageText ++ "\n").toUTF8, "", 0⟩
  | .ok (.run settings task) => perform settings input file task

end Stepwise.CommandLine
