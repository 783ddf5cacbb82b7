/-!
# Names that are always there

The builtin functions and the special forms: how they are called, and how many arguments a
builtin takes. Both lists are in the order in which the language presents them.
-/

namespace Stepwise

/-- How many arguments are accepted. -/
inductive Arity where
  | exactly (n : Nat)
  | atLeast (n : Nat)
  deriving DecidableEq, Repr

/-- Whether `count` arguments are accepted. -/
def Arity.accepts : Arity → Nat → Bool
  | .exactly n, count => count == n
  | .atLeast n, count => n ≤ count

/-- The wording of an arity in an error. -/
def Arity.text : Arity → String
  | .exactly n => toString n
  | .atLeast n => s!"at least {n}"

/-- The functions of the language itself. Their arguments arrive fully reduced. -/
inductive Builtin where
  | add | sub | mul | div
  | eq | lt | gt | le | ge
  | not | abs | min | max
  | quotient | remainder | modulo | expt | sqrt
  | isZero | isNumber | isBoolean | isProcedure | isEqual
  deriving DecidableEq, Repr

namespace Builtin

/-- All builtins, in presentation order. -/
def all : List Builtin :=
  [.add, .sub, .mul, .div, .eq, .lt, .gt, .le, .ge, .not, .abs, .min, .max, .quotient, .remainder,
    .modulo, .expt, .sqrt, .isZero, .isNumber, .isBoolean, .isProcedure, .isEqual]

/-- How source text calls the builtin. -/
def name : Builtin → String
  | .add => "+"
  | .sub => "-"
  | .mul => "*"
  | .div => "/"
  | .eq => "="
  | .lt => "<"
  | .gt => ">"
  | .le => "<="
  | .ge => ">="
  | .not => "not"
  | .abs => "abs"
  | .min => "min"
  | .max => "max"
  | .quotient => "quotient"
  | .remainder => "remainder"
  | .modulo => "modulo"
  | .expt => "expt"
  | .sqrt => "sqrt"
  | .isZero => "zero?"
  | .isNumber => "number?"
  | .isBoolean => "boolean?"
  | .isProcedure => "procedure?"
  | .isEqual => "equal?"

/-- How many arguments the builtin takes. -/
def arity : Builtin → Arity
  | .add | .mul => .atLeast 0
  | .sub | .div | .eq | .lt | .gt | .le | .ge | .min | .max => .atLeast 1
  | .not | .abs | .sqrt | .isZero | .isNumber | .isBoolean | .isProcedure => .exactly 1
  | .quotient | .remainder | .modulo | .expt | .isEqual => .exactly 2

/-- The builtin of a name. -/
def ofName? (name : String) : Option Builtin :=
  all.find? fun b => b.name == name

theorem mem_all (b : Builtin) : b ∈ all := by
  cases b <;> decide

@[simp]
theorem ofName?_name (b : Builtin) : ofName? b.name = some b := by
  cases b <;> decide +kernel

end Builtin

/-- The constructs whose arguments are handed over unreduced. -/
inductive Form where
  | define
  | lambda
  | ifElse
  | and
  | or
  deriving DecidableEq, Repr

namespace Form

/-- All special forms, in presentation order. -/
def all : List Form :=
  [.define, .lambda, .ifElse, .and, .or]

/-- How source text calls the form. -/
def name : Form → String
  | .define => "define"
  | .lambda => "lambda"
  | .ifElse => "if"
  | .and => "and"
  | .or => "or"

/-- The form of a name. -/
def ofName? (name : String) : Option Form :=
  all.find? fun f => f.name == name

theorem mem_all (f : Form) : f ∈ all := by
  cases f <;> decide

@[simp]
theorem ofName?_name (f : Form) : ofName? f.name = some f := by
  cases f <;> decide +kernel

end Form

end Stepwise
