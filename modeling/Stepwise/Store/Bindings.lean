import Stepwise.Expr.Basic
/-!
# Bindings of a scope

The names bound in one scope, in the order in which they were first bound. Binding a name again
replaces its expression in place.
-/

namespace Stepwise

/-- Names with their expressions. -/
structure Bindings where
  entries : List (String × Expr)
  deriving Inhabited

namespace Bindings

/-- No name is bound. -/
def empty : Bindings := ⟨[]⟩

/-- The expression bound to `name`. -/
def get? (bs : Bindings) (name : String) : Option Expr :=
  bs.entries.lookup name

/-- The entries with `name` bound to `e`. -/
def insertEntry (name : String) (e : Expr) : List (String × Expr) → List (String × Expr)
  | [] => [(name, e)]
  | (n, f) :: rest => if n = name then (name, e) :: rest else (n, f) :: insertEntry name e rest

/-- Binds `name` to `e`, in place of what it was bound to. -/
def insert (bs : Bindings) (name : String) (e : Expr) : Bindings :=
  ⟨insertEntry name e bs.entries⟩

/-- All bound expressions. -/
def values (bs : Bindings) : List Expr :=
  bs.entries.map Prod.snd

/-- How many names are bound. -/
def size (bs : Bindings) : Nat :=
  bs.entries.length

/-! ## Look-up after binding -/

@[simp]
theorem get?_empty (name : String) : empty.get? name = none :=
  rfl

theorem lookup_insertEntry (name other : String) (e : Expr) (es : List (String × Expr)) :
    (insertEntry name e es).lookup other =
      if other = name then some e else es.lookup other := by
  induction es with
  | nil => grind [insertEntry]
  | cons p rest ih => grind [insertEntry]

theorem get?_insert (bs : Bindings) (name other : String) (e : Expr) :
    (bs.insert name e).get? other = if other = name then some e else bs.get? other :=
  lookup_insertEntry name other e bs.entries

@[simp]
theorem get?_insert_self (bs : Bindings) (name : String) (e : Expr) :
    (bs.insert name e).get? name = some e := by
  simp [get?_insert]

theorem get?_insert_of_ne {name other : String} (bs : Bindings) (e : Expr) (h : other ≠ name) :
    (bs.insert name e).get? other = bs.get? other := by
  simp [get?_insert, h]

end Bindings

end Stepwise
