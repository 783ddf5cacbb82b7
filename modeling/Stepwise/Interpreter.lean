import Stepwise.Eval.Reduce
import Stepwise.Store.Reclaim
/-!
# The interpreter

A store with its global scope, in which lines of source are read, and the settings of a run. After
each line the scopes that neither the global scope nor the line's value can reach are collected.
-/

namespace Stepwise

/-- The settings of a run. -/
structure Settings where
  /-- How many steps one expression may take. -/
  stepLimit : Nat := 1000000
  /-- Whether a session begins by showing every step. -/
  showSteps : Bool := false
  deriving DecidableEq, Repr, Inhabited

/-- The scopes of a program, and how it is run. -/
structure Interpreter where
  store : Store
  global : Handle
  settings : Settings
  deriving Inhabited

namespace Interpreter

/-- An interpreter in which nothing is defined yet. -/
def start (settings : Settings) : Interpreter :=
  let (global, store) := Store.empty.root
  ⟨store, global, settings⟩

/-- Reads a line in the global scope. -/
def read (it : Interpreter) (source : String) : Except Error Expr × Interpreter :=
  let ⟨store, global, settings⟩ := it
  let (result, store) := (Stepwise.read source global).runOn store
  (result.mapError .reading, ⟨store, global, settings⟩)

/-- Reduces an expression to a value. -/
def reduce (it : Interpreter) (e : Expr) : Except Error Expr × Interpreter :=
  let ⟨store, global, settings⟩ := it
  let (result, store) := Stepwise.reduce settings.stepLimit e store
  (result, ⟨store, global, settings⟩)

/-- Collects the scopes that neither the global scope nor the kept expressions can reach. -/
def collect (it : Interpreter) (kept : List Expr) : Nat × Interpreter :=
  let ⟨store, global, settings⟩ := it
  let (count, store) := store.collect [global] kept
  (count, ⟨store, global, settings⟩)

/-- Reads a line and reduces it to a value. -/
def readAndReduce (it : Interpreter) (source : String) : Except Error Expr × Interpreter :=
  match it.read source with
  | (.ok e, it) => it.reduce e
  | (.error e, it) => (.error e, it)

/-- The value of a line. Everything it does not need any more is collected, also when it fails. -/
def evaluate (it : Interpreter) (source : String) : Except Error Expr × Interpreter :=
  let (result, it) := it.readAndReduce source
  (result, (it.collect result.toOption.toList).2)

/-- Ends the program. The answer is the number of scopes that went with the global one. -/
def shutdown (it : Interpreter) : Nat :=
  (it.store.release it.global).1

end Interpreter

end Stepwise
