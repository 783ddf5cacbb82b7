import Stepwise.Eval.Read
import Stepwise.Procedure.Apply
/-!
# What builtins answer and atoms stand for

A builtin answers with a number or a boolean, or it complains about the count of its arguments, the
type of an operand, or a zero divisor. There is no other outcome. An atom that nothing binds stands
for a form in the scope it is read in, for a builtin, or for a number or a boolean.
-/

namespace Stepwise

namespace Builtin

/-- The outcomes of a builtin. -/
inductive Answers : Except EvalError Expr → Prop
  | number (x : Float) : Answers (.ok (.number x))
  | boolean (c : Bool) : Answers (.ok (.boolean c))
  | arity (name : String) (expected : Arity) (found : Nat) :
      Answers (.error (.arityMismatch name expected found))
  | type (b : Builtin) (expected : Requirement) (found : String) :
      Answers (.error (.typeMismatch b expected found))
  | zero (b : Builtin) : Answers (.error (.divisionByZero b))

theorem answers_divideAll (x : Float) (ys : List Float) : Answers (divideAll x ys) := by
  induction ys generalizing x with
  | nil => exact .number x
  | cons y rest ih =>
    unfold divideAll
    split
    · exact .zero .div
    · exact ih _

theorem answers_divideBy (b : Builtin) (quotient : Float → Float → Float) (x y : Float) :
    Answers (b.divideBy quotient x y) := by
  unfold divideBy
  split
  · exact .zero b
  · exact .number _

theorem answers_compute (b : Builtin) (xs : List Float) : Answers (b.compute xs) := by
  fun_cases compute b xs with
  | case1 | case2 | case3 | case4 | case12 | case13 | case14 | case18 | case20 => exact .number _
  | case5 | case6 => exact answers_divideAll _ _
  | case7 | case8 | case9 | case10 | case11 | case21 => exact .boolean _
  | case15 | case16 | case17 => exact answers_divideBy _ _ _ _
  | case19 => exact .type _ _ _
  | case22 => exact .arity _ _ _

theorem answers_operands {b : Builtin} {args : List Expr} {err : EvalError}
    (h : b.operands args = .error err) : Answers (.error err) := by
  induction args with
  | nil => cases h
  | cons a rest ih =>
    cases a with
    | number x =>
      rw [operands] at h
      generalize b.operands rest = y at ih h
      cases y with
      | ok xs => cases h
      | error err' =>
        cases h
        exact ih rfl
    | _ =>
      cases h
      exact .type _ _ _

/-- Every outcome of a builtin is one of those listed. -/
theorem answers_apply (b : Builtin) (args : List Expr) : Answers (b.apply args) := by
  unfold apply
  split
  · fun_cases applyAccepted b args with
    | case1 | case2 | case3 | case4 | case5 => exact .boolean _
    | case6 =>
      cases ho : b.operands args with
      | error err => exact answers_operands ho
      | ok xs => exact answers_compute b xs
  · exact .arity _ _ _

/-- The value is a number or a boolean. -/
def IsPlain (e : Expr) : Prop :=
  (∃ x, e = .number x) ∨ ∃ c, e = .boolean c

theorem isPlain_apply {b : Builtin} {args : List Expr} {e : Expr} (h : b.apply args = .ok e) :
    IsPlain e := by
  have ha := answers_apply b args
  rw [h] at ha
  cases ha with
  | number x => exact .inl ⟨x, rfl⟩
  | boolean c => exact .inr ⟨c, rfl⟩

end Builtin

/-- What an atom that nothing binds stands for. -/
theorem readUnbound_cases {token : String} {scope : Handle} {e : Expr}
    (h : readUnbound token scope = .ok e) :
    (∃ f, Form.ofName? token = some f ∧ e = .procedure (.form f scope)) ∨
      (∃ b, e = .procedure (.builtin b)) ∨ Builtin.IsPlain e := by
  unfold readUnbound at h
  split at h
  · cases h
    exact .inr (.inl ⟨_, rfl⟩)
  · rename_i hf
    cases h
    exact .inl ⟨_, hf, rfl⟩
  · split at h
    · cases h
      exact .inr (.inr (.inr ⟨true, rfl⟩))
    · split at h
      · cases h
        exact .inr (.inr (.inr ⟨false, rfl⟩))
      · split at h
        · cases hn : readNumber token with
          | error err =>
            rw [hn] at h
            cases h
          | ok x =>
            rw [hn] at h
            cases h
            exact .inr (.inr (.inl ⟨x, rfl⟩))
        · cases h

end Stepwise
