import Stepwise.Error.Basic
import Stepwise.Procedure.Apply
import Stepwise.Token.Members
/-!
# What a tuple does next

The next move of a tuple follows from its members alone. An ordinary tuple reduces its leftmost
member that is no value, and applies its head when there is none. A special form decides by itself
which of its arguments to reduce, and when it is complete.
-/

namespace Stepwise

/-- What happens to a tuple in one step. -/
inductive Move where
  /-- The member at this place takes a step. -/
  | advance (place : Nat)
  /-- The tuple becomes this expression. -/
  | become (e : Expr)
  /-- The tuple defines a name, in the scope around its own, and becomes `void`. -/
  | define (scope : Handle) (name : String) (value : Expr)
  /-- The tuple becomes the body of a procedure. -/
  | enter (c : Closure) (args : List Expr)

/-! ## Names and signatures -/

/-- Whether a token can be bound: it holds no bracket, does not begin with a digit, and is no
boolean. -/
def isSymbol (token : String) : Bool :=
  match token.toList with
  | [] => false
  | c :: rest =>
    !c.isDigit && !(c :: rest).any isBracket && token != "true" && token != "false"

/-- The first thing wrong with some parameters, given those before them. -/
def paramsFault (earlier : List String) : List String → Option FormFault
  | [] => none
  | p :: rest =>
    if !isSymbol p then some (.notParameter p)
    else if p ∈ earlier then some (.duplicateParameter p)
    else paramsFault (earlier ++ [p]) rest

namespace Expr

/-- The source of an argument that is written as a tuple. -/
def tupleSource? (e : Expr) : Option String :=
  e.source?.filter opensTuple

/-- The name of an argument that can be bound. -/
def symbol? : Expr → Option String
  | .deferred token _ => if isSymbol token then some token else none
  | _ => none

/-- A procedure without a name takes the one it is bound to. -/
def named (e : Expr) (name : String) : Expr :=
  match e with
  | .procedure (.closure ⟨none, params, body, scope⟩) =>
    .procedure (.closure ⟨some name, params, body, scope⟩)
  | e => e

/-- The place of the first member that is no value. -/
def firstUnreduced? (members : List Expr) : Option Nat :=
  members.findIdx? fun e => !e.isValue

end Expr

/-! ## Special forms -/

namespace Form

/-- The error of a form with a fault. -/
def fault (f : Form) (reason : FormFault) : Error :=
  .evaluation (.invalidForm f reason)

/-- The error of a form with the wrong count of arguments. -/
def miscount (f : Form) (expected found : Nat) : Error :=
  .evaluation (.arityMismatch f.name (.exactly expected) found)

/-- The source text of a procedure's body. -/
def body (f : Form) (e : Expr) : Except Error String :=
  match e.source? with
  | some text => .ok text
  | none => .error (f.fault .bodyNotSource)

/-- The members of a signature or a row of parameters. -/
def names (text : String) : Except Error (List String) :=
  (Token.members text).mapError .reading

/-- The parameters, if all are symbols and no two are the same. -/
def checkParams (f : Form) (params : List String) : Except Error (List String) :=
  match paramsFault [] params with
  | some reason => .error (f.fault reason)
  | none => .ok params

/-- The move of `(define (name param ...) body)`: all of it is source, so it is complete at once. -/
def defineProcedure (scope : Handle) (signature : String) (value : Expr) : Except Error Move := do
  let body ← Form.define.body value
  match ← names signature with
  | [] => .error (Form.define.fault .noProcedureName)
  | name :: params =>
    if isSymbol name then
      let params ← Form.define.checkParams params
      return .define scope name (.procedure (.closure ⟨some name, params, body, scope⟩))
    else .error (Form.define.fault .noProcedureName)

/-- The move of `(define name value)`: the value is reduced, then bound. -/
def defineName (scope : Handle) (target value : Expr) : Except Error Move :=
  match target.symbol? with
  | none => .error (Form.define.fault (.cannotBind target.text))
  | some name =>
    if value.isValue then .ok (.define scope name (value.named name)) else .ok (.advance 2)

/-- The move of `(lambda (param ...) body)`. -/
def makeClosure (scope : Handle) (params body : Expr) : Except Error Move :=
  match params.tupleSource? with
  | none => .error (Form.lambda.fault .parametersNotTuple)
  | some text => do
    let params ← Form.lambda.checkParams (← names text)
    let body ← Form.lambda.body body
    return .become (.procedure (.closure ⟨none, params, body, scope⟩))

/-- The move of `and` and `or`: the first argument is the answer when it settles the form, or
stands alone; otherwise the form goes on without it. -/
def connective (f : Form) (scope : Handle) (settles : Expr → Bool) (first : Expr)
    (rest : List Expr) : Move :=
  if !first.isValue then .advance 1
  else if settles first || rest.isEmpty then .become first
  else .become (.tuple (.procedure (.form f scope) :: rest))

/-- The next move of a form with these arguments. Places count the form itself as the first. -/
def move (f : Form) (scope : Handle) (args : List Expr) : Except Error Move :=
  match f, args with
  | .define, [target, value] =>
    match target.tupleSource? with
    | some signature => defineProcedure scope signature value
    | none => defineName scope target value
  | .define, args => .error (Form.define.miscount 2 args.length)
  | .lambda, [params, body] => makeClosure scope params body
  | .lambda, args => .error (Form.lambda.miscount 2 args.length)
  | .ifElse, [test, yes, no] =>
    if !test.isValue then .ok (.advance 1) else .ok (.become (if test.isFalse then no else yes))
  | .ifElse, args => .error (Form.ifElse.miscount 3 args.length)
  | .and, [] => .ok (.become (.boolean true))
  | .and, first :: rest => .ok (connective .and scope Expr.isFalse first rest)
  | .or, [] => .ok (.become (.boolean false))
  | .or, first :: rest => .ok (connective .or scope (fun e => !e.isFalse) first rest)

end Form

/-! ## Tuples -/

/-- The next move of a procedure that has all its arguments. -/
def Procedure.move (p : Procedure) (args : List Expr) : Except Error Move :=
  match p with
  | .builtin b => ((b.apply args).mapError .evaluation).map .become
  | .form f scope => f.move scope args
  | .closure c => .ok (.enter c args)

/-- The next move of a tuple. -/
def tupleMove : List Expr → Except Error Move
  | [] => .error (.evaluation .emptyApplication)
  | .procedure (.form f scope) :: args => f.move scope args
  | head :: args =>
    match Expr.firstUnreduced? (head :: args), head with
    | some place, _ => .ok (.advance place)
    | none, .procedure p => p.move args
    | none, head => .error (.evaluation (.notProcedure head.text))

end Stepwise
