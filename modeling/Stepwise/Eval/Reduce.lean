import Stepwise.Eval.Step
/-!
# Reduction to a value

An expression is reduced by single steps until it is a value, within a limit on their number. The
same reduction can be watched: a `Trace` yields the expression and then each state after it, and
takes a step only when the next state is asked for.
-/

namespace Stepwise

/-- Reduces `e` to a value when `left` of the `limit` steps may still be taken. -/
def reduceWithin (limit left : Nat) (e : Expr) (s : Store) : Except Error Expr × Store :=
  if e.isValue then (.ok e, s)
  else
    match left with
    | 0 => (.error (.evaluation (.stepLimit limit)), s)
    | left + 1 =>
      match (step e).runOn s with
      | (.ok next, s) => reduceWithin limit left next s
      | (.error err, s) => (.error err, s)

/-- Reduces `e` to a value in at most `limit` steps. -/
def reduce (limit : Nat) (e : Expr) (s : Store) : Except Error Expr × Store :=
  reduceWithin limit limit e s

/-! ## Watching a reduction -/

/-- How far a reduction has been watched. -/
inductive Progress where
  /-- Nothing has been shown yet. -/
  | fresh (e : Expr)
  /-- The state `e` was shown last, and `left` steps may still be taken. -/
  | shown (e : Expr) (left : Nat)
  /-- There is nothing more to show. -/
  | finished

/-- The states of a reduction, one at a time. -/
structure Trace where
  limit : Nat
  progress : Progress

namespace Trace

/-- The reduction of `e` from its start. -/
def start (limit : Nat) (e : Expr) : Trace :=
  ⟨limit, .fresh e⟩

/-- The next state, or the error that ends the reduction. After a value or an error there is
nothing more. -/
def next (t : Trace) (s : Store) : Option (Except Error Expr) × Trace × Store :=
  match t.progress with
  | .fresh e => (some (.ok e), ⟨t.limit, .shown e t.limit⟩, s)
  | .finished => (none, t, s)
  | .shown e left =>
    if e.isValue then (none, ⟨t.limit, .finished⟩, s)
    else
      match left with
      | 0 => (some (.error (.evaluation (.stepLimit t.limit))), ⟨t.limit, .finished⟩, s)
      | left + 1 =>
        match (step e).runOn s with
        | (.ok e, s) => (some (.ok e), ⟨t.limit, .shown e left⟩, s)
        | (.error err, s) => (some (.error err), ⟨t.limit, .finished⟩, s)

/-- A bound for the number of states still to come. -/
def remaining (t : Trace) : Nat :=
  match t.progress with
  | .fresh _ => t.limit + 2
  | .shown _ left => left + 1
  | .finished => 0

/-- Every state shown uses up some of what remains. -/
theorem remaining_next_lt {t u : Trace} {s r : Store} {item : Except Error Expr}
    (h : t.next s = (some item, u, r)) : u.remaining < t.remaining := by
  obtain ⟨limit, progress⟩ := t
  cases progress with
  | fresh e =>
    simp only [next, Prod.mk.injEq] at h
    obtain ⟨-, rfl, -⟩ := h
    simp [remaining]
  | finished => simp [next] at h
  | shown e left =>
    simp only [next] at h
    split at h
    · simp at h
    · split at h
      · simp only [Prod.mk.injEq] at h
        obtain ⟨-, rfl, -⟩ := h
        simp [remaining]
      · split at h <;>
        · simp only [Prod.mk.injEq] at h
          obtain ⟨-, rfl, -⟩ := h
          simp [remaining]

end Trace

end Stepwise
