import Stepwise.Interpreter
import Stepwise.Output
/-!
# Sessions

A session answers lines one after the other. Two lines are commands to the session itself: one
leaves it, and one changes between showing the value of a line and showing every step on the way
to it. Any other line is read and reduced, and afterwards every scope that the global scope does
not reach is collected.
-/

namespace Stepwise

/-- Whether the session goes on after a line. -/
inductive Control where
  | proceed
  | leave
  deriving DecidableEq, Repr

/-- An interpreter, and whether its steps are shown. -/
structure Session where
  interpreter : Interpreter
  showSteps : Bool
  deriving Inhabited

namespace Session

/-- The line that leaves a session. -/
def leaveCommand : String := "(exit)"

/-- The line that changes whether steps are shown. -/
def toggleCommand : String := "(toggle-step)"

/-- A session in which nothing is defined yet. -/
def start (settings : Settings) : Session :=
  ⟨.start settings, settings.showSteps⟩

/-- Writes a line of output. -/
def emit (sink : Sink) (text : String) : Except Error Unit × Sink :=
  let (result, sink) := sink.writeLine text
  (result.mapError .stream, sink)

/-- States that are not shown: a tuple before its expansion, and `void`. -/
def isSilent : Expr → Bool
  | .void | .pending _ _ => true
  | _ => false

/-- Shows the states of a reduction, each on a line. A state that looks like the last one shown
is left out. -/
def showTrace (trace : Trace) (last : Option String) (sink : Sink) (store : Store) :
    Except Error Unit × Sink × Store :=
  match h : trace.next store with
  | (none, _, store) => (.ok (), sink, store)
  | (some (.error e), _, store) => (.error e, sink, store)
  | (some (.ok e), trace, store) =>
    have := Trace.remaining_next_lt h
    if isSilent e then showTrace trace last sink store
    else
      let text := e.text
      if last = some text then showTrace trace last sink store
      else
        match emit sink text with
        | (.ok (), sink) => showTrace trace (some text) sink store
        | (.error err, sink) => (.error err, sink, store)
termination_by trace.remaining

/-- Reduces an expression and shows its value, unless it is `void`. -/
def showValue (e : Expr) (sink : Sink) (it : Interpreter) :
    Except Error Unit × Sink × Interpreter :=
  match it.reduce e with
  | (.error err, it) => (.error err, sink, it)
  | (.ok .void, it) => (.ok (), sink, it)
  | (.ok v, it) =>
    let (result, sink) := emit sink v.text
    (result, sink, it)

/-- Reduces an expression and shows every step. -/
def showReduction (e : Expr) (sink : Sink) (it : Interpreter) :
    Except Error Unit × Sink × Interpreter :=
  let ⟨store, global, settings⟩ := it
  let (result, sink, store) := showTrace (.start settings.stepLimit e) none sink store
  (result, sink, ⟨store, global, settings⟩)

/-- Reads, reduces and shows a line. -/
def answer (showSteps : Bool) (source : String) (sink : Sink) (it : Interpreter) :
    Except Error Unit × Sink × Interpreter :=
  match it.read source with
  | (.error err, it) => (.error err, sink, it)
  | (.ok e, it) => if showSteps then showReduction e sink it else showValue e sink it

/-- Handles one line. -/
def handleLine (session : Session) (line : String) (sink : Sink) :
    Except Error Control × Sink × Session :=
  let source := trim line
  if source = "" then (.ok .proceed, sink, session)
  else if source = leaveCommand then (.ok .leave, sink, session)
  else if source = toggleCommand then
    (.ok .proceed, sink, { session with showSteps := !session.showSteps })
  else
    let ⟨it, showSteps⟩ := session
    let (result, sink, it) := answer showSteps source sink it
    (result.map fun _ => .proceed, sink, ⟨(it.collect []).2, showSteps⟩)

/-- Ends the session. The answer is the number of scopes that went with it. -/
def shutdown (session : Session) : Nat :=
  session.interpreter.shutdown

end Session

end Stepwise
