import Stepwise.Expr.Basic
import Stepwise.Number.Decimal
/-!
# Text of expressions

How an expression is shown, and what is left of its source.
-/

namespace Stepwise

/-- How a procedure is shown. -/
def Procedure.text : Procedure → String
  | .builtin b => b.name
  | .form f _ => f.name
  | .closure ⟨some name, _, _, _⟩ => s!"#<procedure:{name}>"
  | .closure ⟨none, _, _, _⟩ => "#<procedure>"

mutual

/-- How an expression is shown. -/
def Expr.text : Expr → String
  | .pending tokens _ => "(" ++ " ".intercalate tokens ++ ")"
  | .tuple members => "(" ++ " ".intercalate (textAll members) ++ ")"
  | .procedure p => p.text
  | .number x => numberText x
  | .boolean true => "true"
  | .boolean false => "false"
  | .deferred token _ => token
  | .void => ""

/-- How each of some expressions is shown. -/
def textAll : List Expr → List String
  | [] => []
  | e :: rest => e.text :: textAll rest

end

@[simp]
theorem textAll_eq_map (es : List Expr) : textAll es = es.map Expr.text := by
  induction es with
  | nil => rfl
  | cons e rest ih => simp [textAll, ih]

/-- The source of an expression of which nothing has been reduced. -/
def Expr.source? : Expr → Option String
  | .deferred token _ => some token
  | .pending tokens scope => some (Expr.pending tokens scope).text
  | _ => none

end Stepwise
