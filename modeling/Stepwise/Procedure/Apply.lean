import Stepwise.Error.Basic
import Stepwise.Expr.Text
/-!
# Application of builtins

The count of the arguments is checked first, then that operands are numbers, from the left, and
only then their values: a zero divisor, or the sign under a root.
-/

namespace Stepwise

/-- Whether each two neighbours are related. -/
def chained (holds : Float → Float → Bool) : List Float → Bool
  | x :: y :: rest => holds x y && chained holds (y :: rest)
  | _ => true

/-- The smaller of two numbers, the second if they are equal; a NaN gives way. -/
def lesser (x y : Float) : Float :=
  if x.isNaN || y ≤ x then y else x

/-- The greater of two numbers, the second if they are equal; a NaN gives way. -/
def greater (x y : Float) : Float :=
  if x.isNaN || x ≤ y then y else x

/-- The remainder with the sign of the divisor. -/
def modulo (x y : Float) : Float :=
  let r := remainder x y
  if r != 0 && decide (r < 0) != decide (y < 0) then r + y else r

namespace Builtin

/-- The operands of `b` as numbers; the leftmost that is none is reported. -/
def operands (b : Builtin) : List Expr → Except EvalError (List Float)
  | [] => .ok []
  | .number x :: rest => (b.operands rest).map (x :: ·)
  | e :: _ => .error (.typeMismatch b .number e.typeName)

/-- Divides `x` by each of the divisors in turn. -/
def divideAll (x : Float) : List Float → Except EvalError Expr
  | [] => .ok (.number x)
  | y :: rest => if y == 0 then .error (.divisionByZero .div) else divideAll (x / y) rest

/-- Divides `x` by `y` in the manner of `quotient`, unless `y` is zero. -/
def divideBy (b : Builtin) (quotient : Float → Float → Float) (x y : Float) :
    Except EvalError Expr :=
  if y == 0 then .error (.divisionByZero b) else .ok (.number (quotient x y))

/-- The value of a numeric builtin. The sum of nothing is minus zero, which is neutral for every
sum, and a product starts from one. -/
def compute (b : Builtin) (xs : List Float) : Except EvalError Expr :=
  match b, xs with
  | .add, xs => .ok (.number (xs.foldl (· + ·) (-0.0)))
  | .sub, [x] => .ok (.number (-x))
  | .sub, x :: rest => .ok (.number (rest.foldl (· - ·) x))
  | .mul, xs => .ok (.number (xs.foldl (· * ·) 1))
  | .div, [x] => divideAll 1 [x]
  | .div, x :: rest => divideAll x rest
  | .eq, xs => .ok (.boolean (chained (· == ·) xs))
  | .lt, xs => .ok (.boolean (chained (· < ·) xs))
  | .gt, xs => .ok (.boolean (chained (· > ·) xs))
  | .le, xs => .ok (.boolean (chained (· ≤ ·) xs))
  | .ge, xs => .ok (.boolean (chained (· ≥ ·) xs))
  | .abs, [x] => .ok (.number x.abs)
  | .min, xs => .ok (.number (xs.foldl lesser (1 / 0)))
  | .max, xs => .ok (.number (xs.foldl greater (-1 / 0)))
  | .quotient, [x, y] => divideBy .quotient (fun x y => truncate (x / y)) x y
  | .remainder, [x, y] => divideBy .remainder Stepwise.remainder x y
  | .modulo, [x, y] => divideBy .modulo Stepwise.modulo x y
  | .expt, [x, y] => .ok (.number (x.pow y))
  | .sqrt, [x] =>
    if x < 0 then .error (.typeMismatch .sqrt .nonNegative (numberText x))
    else .ok (.number x.sqrt)
  | .isZero, [x] => .ok (.boolean (x == 0))
  | b, xs => .error (.arityMismatch b.name b.arity xs.length)

/-- Equality of values, which is false between values of different kinds. -/
def equalValues : Expr → Expr → Bool
  | .number x, .number y => x == y
  | .boolean a, .boolean b => a == b
  | .procedure p, .procedure q => p == q
  | .void, .void => true
  | _, _ => false

/-- The value of `b` at arguments of an accepted count. -/
def applyAccepted (b : Builtin) (args : List Expr) : Except EvalError Expr :=
  match b, args with
  | .not, [e] => .ok (.boolean e.isFalse)
  | .isNumber, [e] => .ok (.boolean (e matches .number _))
  | .isBoolean, [e] => .ok (.boolean (e matches .boolean _))
  | .isProcedure, [e] => .ok (.boolean (e matches .procedure _))
  | .isEqual, [e, f] => .ok (.boolean (equalValues e f))
  | b, args => b.operands args >>= b.compute

/-- The value of `b` at `args`. -/
def apply (b : Builtin) (args : List Expr) : Except EvalError Expr :=
  if b.arity.accepts args.length then b.applyAccepted args
  else .error (.arityMismatch b.name b.arity args.length)

end Builtin

end Stepwise
