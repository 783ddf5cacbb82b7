import Stepwise.Eval.Expand
import Stepwise.Eval.Move
/-!
# One step of reduction

A step expands a pending tuple, reads a deferred token, or makes the next move of a tuple. A value
stays as it is.
-/

namespace Stepwise

/-- Enters a procedure: its parameters are bound in a new scope inside the procedure's own, and
its body is read there. -/
def Closure.enter (c : Closure) (args : List Expr) : Eval Expr :=
  if args.length = c.params.length then do
    let frame ← Action.newScope c.scope
    modify fun s => (c.params.zip args).foldl (fun s (name, arg) => s.define frame name arg) s
    readMember c.body frame
  else
    throw (.evaluation
      (.arityMismatch (c.name.getD "lambda") (.exactly c.params.length) args.length))

/-- Binds a name in the scope around `scope`, or in `scope` itself if there is none around it. -/
def Store.defineAround (s : Store) (scope : Handle) (name : String) (value : Expr) : Store :=
  s.define ((s.parent? scope).getD scope) name value

mutual

/-- One step. -/
def step : Expr → Eval Expr
  | .pending tokens scope => expand tokens scope
  | .deferred token scope => readMember token scope
  | .tuple members =>
    match tupleMove members with
    | .error e => throw e
    | .ok (.advance place) => return .tuple (← stepAt place members)
    | .ok (.become e) => return e
    | .ok (.define scope name value) => do
      modify fun s => s.defineAround scope name value
      return .void
    | .ok (.enter c args) => c.enter args
  | .procedure p => return .procedure p
  | .number x => return .number x
  | .boolean b => return .boolean b
  | .void => return .void

/-- One step of the member at a place. -/
def stepAt : Nat → List Expr → Eval (List Expr)
  | _, [] => return []
  | 0, e :: rest => return (← step e) :: rest
  | place + 1, e :: rest => return e :: (← stepAt place rest)

end

/-- Applies a procedure to arguments as they are. A special form takes one step over them. -/
def Procedure.call (p : Procedure) (args : List Expr) : Eval Expr :=
  match p with
  | .builtin b => Action.ofExcept ((b.apply args).mapError .evaluation)
  | .form f scope => step (.tuple (.procedure (.form f scope) :: args))
  | .closure c => c.enter args

theorem step_of_isValue {e : Expr} (h : e.isValue = true) : step e = pure e := by
  cases e <;> simp_all [Expr.isValue, step]

end Stepwise
