import Stepwise.Error.Basic
import Stepwise.Store.Basic
/-!
# Actions on the store

Reading and reducing may fail, and whether they do or not they may have made scopes before. An
action therefore takes a store to a result or an error together with the store afterwards.
-/

namespace Stepwise

/-- A computation over the store that may fail with an `ε`. What it did to the store before it
failed stays done. -/
abbrev Action (ε α : Type) := ExceptT ε (StateM Store) α

/-- A computation of the reducer. -/
abbrev Eval (α : Type) := Action Error α

namespace Action

variable {ε δ α β : Type}

/-- The result of an action and the store it leaves. -/
def runOn (m : Action ε α) (s : Store) : Except ε α × Store :=
  m.run.run s

/-- Fails or succeeds without a look at the store. -/
def ofExcept (r : Except ε α) : Action ε α :=
  ExceptT.mk (pure r)

/-- Makes a scope inside `parent`. -/
def newScope (parent : Handle) : Action ε Handle :=
  modifyGet fun s => s.child parent

/-! ## What actions do -/

@[simp]
theorem runOn_pure (a : α) (s : Store) : runOn (pure a : Action ε α) s = (.ok a, s) :=
  rfl

@[simp]
theorem runOn_throw (e : ε) (s : Store) : runOn (throw e : Action ε α) s = (.error e, s) :=
  rfl

theorem runOn_bind (m : Action ε α) (f : α → Action ε β) (s : Store) :
    runOn (m >>= f) s =
      match m.runOn s with
      | (.ok a, t) => (f a).runOn t
      | (.error e, t) => (.error e, t) := by
  change (ExceptT.bindCont f (m.run.run s).1).run (m.run.run s).2 = _
  unfold runOn
  rcases m.run.run s with ⟨r, t⟩
  cases r <;> rfl

@[simp]
theorem runOn_ofExcept (r : Except ε α) (s : Store) : runOn (ofExcept r) s = (r, s) :=
  rfl

@[simp]
theorem runOn_newScope (parent : Handle) (s : Store) :
    runOn (newScope parent : Action ε Handle) s =
      (.ok (s.child parent).1, (s.child parent).2) :=
  rfl

@[simp]
theorem runOn_modify (f : Store → Store) (s : Store) :
    runOn (modify f : Action ε PUnit) s = (.ok (), f s) :=
  rfl

@[simp]
theorem runOn_get (s : Store) : runOn (get : Action ε Store) s = (.ok s, s) :=
  rfl

@[simp]
theorem runOn_adapt (f : ε → δ) (m : Action ε α) (s : Store) :
    runOn (ExceptT.adapt f m : Action δ α) s = ((m.runOn s).1.mapError f, (m.runOn s).2) := by
  rfl

end Action

end Stepwise
