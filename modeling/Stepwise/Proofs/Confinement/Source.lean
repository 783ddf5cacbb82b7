import Stepwise.Proofs.Eval.Move
import Stepwise.Proofs.Procedure.Answers
import Stepwise.Proofs.Store.Slots
/-!
# Source in which forms lead

In most source the name of a special form stands at the head of a tuple and nowhere else. Such
source is `Led`. Forms are then never passed around: no name is bound to one, and what a name is
bound to is a value that holds led source only (`Expr.IsLed`).
-/

namespace Stepwise

/-! ## Tokens -/

/-- The names of special forms occur in the token only as the first members of tuples. A tuple that
cannot be taken apart is not looked into, as nothing else ever is. -/
inductive Led : String → Prop
  | atom {token : String} : opensTuple (trim token) = false → Form.ofName? (trim token) = none →
      Led token
  | tuple {token : String} : opensTuple (trim token) = true →
      (∀ first rest, Token.members (trim token) = .ok (first :: rest) →
        opensTuple (trim first) = true → Led first) →
      (∀ first rest, Token.members (trim token) = .ok (first :: rest) → ∀ m ∈ rest, Led m) →
      Led token

/-- The members of a led tuple: the first one may be the name of a form. -/
def LedMembers : List String → Prop
  | [] => True
  | first :: rest => (opensTuple (trim first) = true → Led first) ∧ ∀ m ∈ rest, Led m

theorem Led.members {token : String} {ms : List String} (h : Led token)
    (ho : opensTuple (trim token) = true) (hm : Token.members (trim token) = .ok ms) :
    LedMembers ms := by
  cases h with
  | atom hn =>
    rw [ho] at hn
    cases hn
  | tuple _ hfirst hrest =>
    cases ms with
    | nil => trivial
    | cons first rest => exact ⟨hfirst first rest hm, hrest first rest hm⟩

theorem led_of_members {token : String} (ms : List String) (ho : opensTuple (trim token) = true)
    (hm : Token.members (trim token) = .ok ms) (hl : LedMembers ms) : Led token := by
  refine .tuple ho (fun first rest h => ?_) fun first rest h => ?_
  · rw [hm] at h
    cases h
    exact hl.1
  · rw [hm] at h
    cases h
    exact hl.2

theorem Led.not_form {token : String} (h : Led token) (ho : opensTuple (trim token) = false) :
    Form.ofName? (trim token) = none := by
  cases h with
  | atom _ hn => exact hn
  | tuple ho' =>
    rw [ho] at ho'
    cases ho'

theorem Led.trim {token : String} (h : Led token) : Led (trim token) := by
  cases h with
  | atom ho hn => exact .atom (by rw [trim_trim]; exact ho) (by rw [trim_trim]; exact hn)
  | tuple ho hfirst hrest =>
    rw [← trim_trim token] at ho hfirst hrest
    exact .tuple ho hfirst hrest

/-! ## Values -/

/-- The expression is a value, no special form, and the body of a closure is led. -/
def Expr.IsLed : Expr → Prop
  | .procedure (.builtin _) | .number _ | .boolean _ | .void => True
  | .procedure (.closure c) => Led c.body
  | .procedure (.form _ _) | .pending _ _ | .tuple _ | .deferred _ _ => False

theorem Expr.IsLed.named {e : Expr} (h : e.IsLed) (name : String) : (e.named name).IsLed := by
  cases e with
  | procedure p =>
    cases p with
    | closure c =>
      obtain ⟨n, params, body, scope⟩ := c
      cases n <;> exact h
    | builtin | form => exact h
  | _ => exact h

theorem Builtin.IsPlain.isLed {e : Expr} (h : Builtin.IsPlain e) : e.IsLed := by
  rcases h with ⟨x, rfl⟩ | ⟨c, rfl⟩
  · trivial
  · trivial

/-- What stands for itself is led, unless it names a form. -/
theorem isLed_readUnbound {token : String} {scope : Handle} {e : Expr}
    (h : readUnbound token scope = .ok e) :
    e.IsLed ∨ ∃ f, Form.ofName? token = some f ∧ e = .procedure (.form f scope) := by
  rcases readUnbound_cases h with hf | ⟨b, rfl⟩ | hp
  · exact .inr hf
  · exact .inl trivial
  · exact .inl hp.isLed

/-! ## Stores -/

namespace Store

variable {s : Store}

/-- All names are bound to led values. -/
def Led (s : Store) : Prop :=
  ∀ h scope name e, s.scope? h = some scope → scope.bindings.get? name = some e → e.IsLed

theorem exists_of_chainFrom {n : Nat} {h : Handle} {link : Handle × Scope}
    (hl : link ∈ s.chainFrom n h) : s.scope? link.1 = some link.2 := by
  induction n generalizing h with
  | zero => cases hl
  | succ n ih =>
    unfold chainFrom at hl
    split at hl
    · cases hl
    · rename_i scope hs
      rcases List.mem_cons.1 hl with rfl | hl
      · exact hs
      · split at hl
        · cases hl
        · exact ih hl

theorem Led.get? (hs : s.Led) {h : Handle} {name : String} {e : Expr}
    (he : s.get? h name = some e) : e.IsLed := by
  obtain ⟨link, hl, hb⟩ := List.exists_of_findSome?_eq_some he
  exact hs link.1 link.2 name e (exists_of_chainFrom hl) hb

theorem Led.readAtom (hs : s.Led) {token : String} {scope : Handle} {e : Expr}
    (h : s.readAtom token scope = .ok e) :
    e.IsLed ∨ ∃ f, Form.ofName? token = some f ∧ e = .procedure (.form f scope) := by
  unfold Store.readAtom at h
  split at h
  · rename_i he
    cases h
    exact .inl (hs.get? he)
  · exact isLed_readUnbound h

theorem Led.child (hs : s.Led) (hsound : s.Sound) (p : Handle) : (s.child p).2.Led := by
  intro h scope name e hscope he
  rw [scope?_child hsound] at hscope
  split at hscope
  · cases hscope
    cases he
  · exact hs h scope name e hscope he

theorem Led.define (hs : s.Led) (h : Handle) (name : String) {e : Expr} (he : e.IsLed) :
    (s.define h name e).Led := by
  intro g scope n x hscope hx
  rw [scope?_define] at hscope
  split at hscope
  · rename_i hg
    cases ho : s.scope? h with
    | none =>
      rw [ho] at hscope
      cases hscope
    | some old =>
      rw [ho] at hscope
      cases hscope
      rw [Bindings.get?_insert] at hx
      split at hx
      · cases hx
        exact he
      · exact hs h old n x ho hx
  · exact hs g scope n x hscope hx

end Store

end Stepwise
