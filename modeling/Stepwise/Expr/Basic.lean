import Stepwise.Procedure.Basic
/-!
# Expressions

Every state a reduction can be in is one expression. Tuples begin as `pending`, a row of source
tokens with the scope they are to be read in; reading shapes them into a `tuple` of expressions,
which is then reduced to a value. A value is a procedure, a number, a boolean or `void`.
-/

namespace Stepwise

/-- The address of a scope. A slot is used again after its scope is gone, under a new
generation, so that an old handle does not reach the new scope. -/
structure Handle where
  slot : Nat
  generation : UInt32
  deriving DecidableEq, Repr, Inhabited

/-- A procedure of the program. Its body stays source text, read afresh on every call in a new
scope inside `scope`. -/
structure Closure where
  name : Option String
  params : List String
  body : String
  scope : Handle
  deriving DecidableEq, Repr

/-- What can stand at the head of a tuple. A form remembers the scope it was named in. -/
inductive Procedure where
  | builtin (b : Builtin)
  | form (f : Form) (scope : Handle)
  | closure (c : Closure)
  deriving DecidableEq, Repr

/-- The states of a reduction. -/
inductive Expr where
  /-- A tuple whose members are still source tokens. -/
  | pending (tokens : List String) (scope : Handle)
  /-- An application under way. -/
  | tuple (members : List Expr)
  | procedure (p : Procedure)
  | number (x : Float)
  | boolean (b : Bool)
  /-- One source token, read when it is needed. -/
  | deferred (token : String) (scope : Handle)
  /-- What a definition leaves behind. -/
  | void
  deriving Inhabited

namespace Expr

/-- Whether the expression is fully reduced. -/
def isValue : Expr → Bool
  | .procedure _ | .number _ | .boolean _ | .void => true
  | .pending _ _ | .tuple _ | .deferred _ _ => false

/-- Whether the expression is a special form. -/
def isForm : Expr → Bool
  | .procedure (.form _ _) => true
  | _ => false

/-- Whether the expression is the boolean `false`, the one value that counts as false. -/
def isFalse : Expr → Bool
  | .boolean false => true
  | _ => false

/-- What kind of thing the expression is, for messages. -/
def typeName : Expr → String
  | .pending _ _ | .tuple _ => "tuple"
  | .procedure _ => "procedure"
  | .number _ => "number"
  | .boolean _ => "boolean"
  | .deferred _ _ => "symbol"
  | .void => "void"

end Expr

/-! ## Scopes held by an expression -/

/-- The scope that a procedure keeps. -/
def Procedure.captured : Procedure → List Handle
  | .builtin _ => []
  | .form _ scope => [scope]
  | .closure c => [c.scope]

mutual

/-- The scopes that the expression keeps, at any depth, from left to right. -/
def Expr.captured : Expr → List Handle
  | .pending _ scope | .deferred _ scope => [scope]
  | .procedure p => p.captured
  | .tuple members => capturedAll members
  | .number _ | .boolean _ | .void => []

/-- The scopes that some expressions keep, from left to right. -/
def capturedAll : List Expr → List Handle
  | [] => []
  | e :: rest => e.captured ++ capturedAll rest

end

theorem capturedAll_eq_flatMap (es : List Expr) : capturedAll es = es.flatMap Expr.captured := by
  induction es with
  | nil => rfl
  | cons e rest ih => simp [capturedAll, ih]

@[simp]
theorem mem_capturedAll {h : Handle} {es : List Expr} :
    h ∈ capturedAll es ↔ ∃ e ∈ es, h ∈ e.captured := by
  simp [capturedAll_eq_flatMap]

/-! ## Equality

Numbers are compared as numbers, so zeros of either sign are equal and a NaN equals nothing.
-/

mutual

/-- Structural equality. -/
def Expr.same : Expr → Expr → Bool
  | .pending ts s, .pending us t => ts == us && s == t
  | .tuple es, .tuple fs => sameAll es fs
  | .procedure p, .procedure q => p == q
  | .number x, .number y => x == y
  | .boolean a, .boolean b => a == b
  | .deferred t s, .deferred u r => t == u && s == r
  | .void, .void => true
  | _, _ => false

/-- Structural equality of each two members. -/
def sameAll : List Expr → List Expr → Bool
  | [], [] => true
  | e :: es, f :: fs => e.same f && sameAll es fs
  | _, _ => false

end

instance : BEq Expr := ⟨Expr.same⟩

end Stepwise
