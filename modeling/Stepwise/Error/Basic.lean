import Stepwise.Error.Reading
import Stepwise.Procedure.Basic
/-!
# Errors

Everything that can stop a line: text that cannot be read, a reduction that goes wrong, and a
stream that does not do its part. Each error has a kind, which labels it, and a message.
-/

namespace Stepwise

/-- What a builtin asks of an operand. -/
inductive Requirement where
  | number
  | nonNegative
  deriving DecidableEq, Repr

/-- The wording of a requirement. -/
def Requirement.text : Requirement → String
  | .number => "number"
  | .nonNegative => "a non-negative number"

/-- What a special form finds wrong with its arguments. -/
inductive FormFault where
  | bodyNotSource
  | noProcedureName
  | parametersNotTuple
  | notParameter (name : String)
  | duplicateParameter (name : String)
  | cannotBind (target : String)
  deriving DecidableEq, Repr

/-- The wording of a fault. -/
def FormFault.text : FormFault → String
  | .bodyNotSource => "body must be unevaluated source"
  | .noProcedureName => "expected a procedure name"
  | .parametersNotTuple => "parameters must be a tuple"
  | .notParameter name => s!"`{name}` is not a parameter name"
  | .duplicateParameter name => s!"duplicate parameter `{name}`"
  | .cannotBind target => s!"cannot bind `{target}`"

/-- Why a reduction cannot go on. -/
inductive EvalError where
  /-- The head of a tuple is a value, but no procedure. -/
  | notProcedure (head : String)
  /-- A name that is bound nowhere. -/
  | undefinedName (name : String)
  /-- A tuple without members. -/
  | emptyApplication
  /-- A procedure or form got a number of arguments it does not accept. -/
  | arityMismatch (name : String) (expected : Arity) (found : Nat)
  /-- An operand does not meet the builtin's requirement. -/
  | typeMismatch (builtin : Builtin) (expected : Requirement) (found : String)
  /-- A divisor is zero. -/
  | divisionByZero (builtin : Builtin)
  /-- A special form cannot be made sense of. -/
  | invalidForm (form : Form) (fault : FormFault)
  /-- The steps allowed for one expression are used up. -/
  | stepLimit (limit : Nat)
  /-- A tuple names itself, so that its expansion has no end. -/
  | endlessExpansion
  deriving DecidableEq, Repr

/-- The wording of a reduction error. -/
def EvalError.message : EvalError → String
  | .notProcedure head => s!"cannot apply `{head}`: not a procedure"
  | .undefinedName name => s!"undefined symbol `{name}`"
  | .emptyApplication => "cannot apply an empty tuple"
  | .arityMismatch name expected found =>
    let wanted := expected.text
    s!"`{name}` expected {wanted} arguments but received {found}"
  | .typeMismatch builtin expected found =>
    let name := builtin.name
    let wanted := expected.text
    s!"`{name}` expected {wanted} but found {found}"
  | .divisionByZero builtin =>
    let name := builtin.name
    s!"`{name}`: division by zero"
  | .invalidForm form fault =>
    let name := form.name
    let reason := fault.text
    s!"malformed `{name}`: {reason}"
  | .stepLimit limit => s!"reduction did not finish within {limit} steps"
  | .endlessExpansion => "expansion does not finish"

/-- Why a stream could not be read or written. -/
inductive StreamError where
  | full
  | missing
  | directory
  | notText
  | other (reason : String)
  deriving DecidableEq, Repr

/-- The wording of a stream error. -/
def StreamError.message : StreamError → String
  | .full => "failed to write whole buffer"
  | .missing => "No such file or directory (os error 2)"
  | .directory => "Is a directory (os error 21)"
  | .notText => "stream did not contain valid UTF-8"
  | .other reason => reason

/-- Any error. -/
inductive Error where
  | reading (e : ReadError)
  | evaluation (e : EvalError)
  | stream (e : StreamError)
  deriving DecidableEq, Repr

/-- The wording of an error. -/
def Error.message : Error → String
  | .reading e => e.message
  | .evaluation e => e.message
  | .stream e => "I/O error: " ++ e.message

/-- The label of an error. -/
def Error.kind : Error → String
  | .reading _ => "syntax error"
  | .evaluation _ => "runtime error"
  | .stream _ => "i/o error"

/-- The line that reports an error. -/
def Error.report (e : Error) : String :=
  e.kind ++ ": " ++ e.message

end Stepwise
