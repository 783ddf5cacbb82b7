import Stepwise.Proofs.Confinement.Source
import Stepwise.Proofs.Store.Reachable
/-!
# What names are bound to

A property of names and the expressions they are bound to, in whichever scope, is kept by the
operations on a store: a new scope binds nothing, a definition adds one binding, and a collection
only takes bindings away.
-/

namespace Stepwise.Store

variable {P : String → Expr → Prop} {s : Store}

/-- Every name is bound to an expression as described. -/
def AllBound (P : String → Expr → Prop) (s : Store) : Prop :=
  ∀ h scope name e, s.scope? h = some scope → scope.bindings.get? name = some e → P name e

namespace AllBound

theorem get? (hs : s.AllBound P) {h : Handle} {name : String} {e : Expr}
    (he : s.get? h name = some e) : P name e := by
  obtain ⟨link, hl, hb⟩ := List.exists_of_findSome?_eq_some he
  exact hs link.1 link.2 name e (exists_of_chainFrom hl) hb

theorem child (hs : s.AllBound P) (hsound : s.Sound) (p : Handle) : (s.child p).2.AllBound P := by
  intro h scope name e hscope he
  rw [scope?_child hsound] at hscope
  split at hscope
  · cases hscope
    cases he
  · exact hs h scope name e hscope he

theorem define (hs : s.AllBound P) (h : Handle) {name : String} {e : Expr} (he : P name e) :
    (s.define h name e).AllBound P := by
  intro g scope n x hscope hx
  rw [scope?_define] at hscope
  split at hscope
  · obtain ⟨old, hold, rfl⟩ := Option.map_eq_some_iff.1 hscope
    rw [Bindings.get?_insert] at hx
    split at hx
    · rename_i hn
      cases hx
      rw [hn]
      exact he
    · exact hs h old n x hold hx
  · exact hs g scope n x hscope hx

theorem collect (hs : s.AllBound P) (roots : List Handle) (values : List Expr) :
    (s.collect roots values).2.AllBound P :=
  fun h scope name e hscope he => hs h scope name e (scope?_collect_iff.1 hscope).1 he

end AllBound

end Stepwise.Store
