import Stepwise.Eval.Read
/-!
# Expansion of pending tuples

A pending tuple is expanded by reading its members from left to right, nested tuples included, so
that the result is shaped down to its atoms. Where the head is a special form, the other members
are left to the form as deferred tokens.

Nested text is shorter than the text around it, which bounds the depth of an expansion. A name may
also be bound to a pending tuple, which is then expanded in its place; such names cannot follow on
one another more often than there are bindings unless one of them leads back to itself.
-/

namespace Stepwise

/-- Shapes what a member was read as: a nested tuple is expanded by `nested`, and one that a name
was bound to by `chase`. -/
def shapeMember (nested chase : List String → Handle → Eval Expr) (token : String)
    (scope : Handle) : Eval Expr := do
  match ← readMember token scope with
  | .pending tokens inner =>
    if opensTuple (trim token) then nested tokens inner else chase tokens inner
  | e => return e

/-- Reads all members by `member`; behind a special form they are deferred. -/
def shapeTuple (member : String → Eval Expr) (scope : Handle) : List String → Eval Expr
  | [] => return .tuple []
  | first :: rest => do
    let head ← member first
    if head.isForm then return .tuple (head :: rest.map fun token => .deferred token scope)
    else return .tuple (head :: (← rest.mapM member))

/-- Expands tuples that are nested less than `depth` deep. -/
def expandNested (chase : List String → Handle → Eval Expr) :
    Nat → List String → Handle → Eval Expr
  | 0, _, _ => throw (.evaluation .endlessExpansion)
  | depth + 1, tokens, scope =>
    shapeTuple (fun token => shapeMember (expandNested chase depth) chase token scope) scope tokens

/-- A bound for the nesting of tuples within some tokens. -/
def nestingBound (tokens : List String) : Nat :=
  Token.totalLength (tokens.map String.toList) + 1

/-- Expands a tuple in which bound tuples follow on one another at most `n` times. -/
def expandBound : Nat → List String → Handle → Eval Expr
  | 0, _, _ => throw (.evaluation .endlessExpansion)
  | n + 1, tokens, scope => expandNested (expandBound n) (nestingBound tokens) tokens scope

/-- Expands a pending tuple. -/
def expand (tokens : List String) (scope : Handle) : Eval Expr :=
  let chase := fun tokens scope => do expandBound (← get).bindingCount tokens scope
  expandNested chase (nestingBound tokens) tokens scope

end Stepwise
