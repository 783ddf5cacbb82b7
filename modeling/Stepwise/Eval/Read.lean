import Stepwise.Eval.Action
import Stepwise.Number.Literal
import Stepwise.Token.Members
/-!
# Reading a token in a scope

A token that opens a bracket becomes a pending tuple with a new scope of its own. Any other token
is looked up: a binding in sight comes first, then the builtins, then the special forms, and last
the literals.
-/

namespace Stepwise

/-- What a token stands for that no scope binds. A form remembers the scope it is named in. -/
def readUnbound (token : String) (scope : Handle) : Except ReadError Expr :=
  match Builtin.ofName? token, Form.ofName? token with
  | some b, _ => .ok (.procedure (.builtin b))
  | none, some f => .ok (.procedure (.form f scope))
  | none, none =>
    if token = "true" then .ok (.boolean true)
    else if token = "false" then .ok (.boolean false)
    else if looksNumeric token then (readNumber token).map .number
    else .error (.unrecognized token)

/-- What an atom stands for, seen from `scope`. -/
def Store.readAtom (s : Store) (token : String) (scope : Handle) : Except ReadError Expr :=
  match s.get? scope token with
  | some e => .ok e
  | none => readUnbound token scope

/-- Reads one token, with blanks around it, as seen from `scope`. -/
def read (text : String) (scope : Handle) : Action ReadError Expr :=
  let token := trim text
  if token = "" then throw .empty
  else if opensTuple token then
    match Token.members token with
    | .error e => throw e
    | .ok ms => return .pending ms (← Action.newScope scope)
  else do Action.ofExcept ((← get).readAtom token scope)

/-- Inside a tuple or a procedure, a name that stands for nothing is an error of the reduction and
not of the text. -/
def memberError : ReadError → Error
  | .unrecognized name => .evaluation (.undefinedName name)
  | e => .reading e

/-- Reads one token during a reduction. -/
def readMember (token : String) (scope : Handle) : Eval Expr :=
  ExceptT.adapt memberError (read token scope)

end Stepwise
