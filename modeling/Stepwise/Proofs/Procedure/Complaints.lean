import Stepwise.Proofs.Eval.Yields
import Stepwise.Proofs.Procedure.Answers
/-!
# What builtins complain about

A builtin looks at the count of its arguments first, then for the leftmost operand that is no
number, then for a zero among its divisors, and last at the sign under a root. `Complains` says so
without regard to how a builtin computes. A builtin fails exactly with what it complains about, and
one that has nothing to complain about answers with a number or a boolean.
-/

namespace Stepwise

/-- Whether the expression is a number. -/
def Expr.isNumber : Expr → Bool
  | .number _ => true
  | _ => false

namespace Builtin

variable {b : Builtin} {args : List Expr} {xs ys : List Float} {x : Float} {err : EvalError}

/-- Whether the builtin takes arguments of every type. -/
def takesAny : Builtin → Bool
  | .not | .isNumber | .isBoolean | .isProcedure | .isEqual => true
  | _ => false

/-- The operands by which the builtin divides: all but the first, or a single one by itself. -/
def divisors (b : Builtin) (xs : List Float) : List Float :=
  match b, xs with
  | .div, [x] => [x]
  | .div, _ :: rest | .quotient, _ :: rest | .remainder, _ :: rest | .modulo, _ :: rest => rest
  | _, _ => []

/-- What the builtin complains about. No two of these apply to the same arguments: an operand is
only looked at when the count is right, and the values of operands only when all are numbers. -/
inductive Complains (b : Builtin) (args : List Expr) : EvalError → Prop
  | count : b.arity.accepts args.length = false →
      Complains b args (.arityMismatch b.name b.arity args.length)
  | operand {before after : List Expr} {e : Expr} : b.arity.accepts args.length = true →
      b.takesAny = false → args = before ++ e :: after → (∀ a ∈ before, a.isNumber = true) →
      e.isNumber = false → Complains b args (.typeMismatch b .number e.typeName)
  | divisor {xs : List Float} {y : Float} : b.arity.accepts args.length = true →
      args = xs.map .number → y ∈ b.divisors xs → (y == 0) = true →
      Complains b args (.divisionByZero b)
  | root {x : Float} : b = .sqrt → args = [.number x] → x < 0 →
      Complains b args (.typeMismatch .sqrt .nonNegative (numberText x))

/-! ## Counts -/

theorem eq_single {α : Type} {as : List α} (hb : b.arity = .exactly 1)
    (ha : b.arity.accepts as.length = true) : ∃ a, as = [a] := by
  rw [hb] at ha
  exact List.length_eq_one_iff.1 (beq_iff_eq.1 ha)

theorem eq_pair {α : Type} {as : List α} (hb : b.arity = .exactly 2)
    (ha : b.arity.accepts as.length = true) : ∃ a c, as = [a, c] := by
  rw [hb] at ha
  match as, beq_iff_eq.1 ha with
  | [a, c], _ => exact ⟨a, c, rfl⟩

theorem ne_nil_of_accepts {α : Type} {as : List α} (hb : b.arity = .atLeast 1)
    (ha : b.arity.accepts as.length = true) : as ≠ [] := by
  rintro rfl
  rw [hb] at ha
  cases ha

/-! ## Operands -/

theorem operands_map_number (b : Builtin) (xs : List Float) :
    b.operands (xs.map .number) = .ok xs := by
  induction xs with
  | nil => rfl
  | cons x rest ih =>
    rw [List.map_cons, operands, ih]
    rfl

theorem operands_of_leftmost {before after : List Expr} {e : Expr}
    (hb : ∀ a ∈ before, a.isNumber = true) (he : e.isNumber = false) :
    b.operands (before ++ e :: after) = .error (.typeMismatch b .number e.typeName) := by
  induction before with
  | nil =>
    cases e with
    | number x => cases he
    | _ => rfl
  | cons a rest ih =>
    have ha := hb a (by simp)
    cases a with
    | number x =>
      rw [List.cons_append, operands, ih fun y hy => hb y (by simp [hy])]
      rfl
    | _ => cases ha

/-- Either all arguments are numbers, or there is a leftmost one that is none. -/
theorem numbers_or_leftmost (args : List Expr) :
    (∃ xs : List Float, args = xs.map .number) ∨
      ∃ before e after, args = before ++ e :: after ∧ (∀ a ∈ before, a.isNumber = true) ∧
        e.isNumber = false := by
  induction args with
  | nil => exact .inl ⟨[], rfl⟩
  | cons a rest ih =>
    cases a with
    | number x =>
      rcases ih with ⟨xs, rfl⟩ | ⟨before, e, after, rfl, hb, he⟩
      · exact .inl ⟨x :: xs, rfl⟩
      · refine .inr ⟨.number x :: before, e, after, rfl, ?_, he⟩
        intro y hy
        rcases List.mem_cons.1 hy with rfl | hy
        · rfl
        · exact hb y hy
    | _ => exact .inr ⟨[], _, rest, rfl, by simp, rfl⟩

/-! ## Values of operands -/

theorem divideAll_eq (x : Float) (ys : List Float) :
    divideAll x ys =
      if ys.any (· == 0) then .error (.divisionByZero .div)
      else .ok (.number (ys.foldl (· / ·) x)) := by
  induction ys generalizing x with
  | nil => rfl
  | cons y rest ih =>
    unfold divideAll
    rw [ih, List.any_cons]
    cases y == 0 with
    | true => rfl
    | false => rfl

theorem exists_compute_div (hx : xs ≠ []) :
    ∃ x, compute .div xs = divideAll x (divisors .div xs) := by
  match xs, hx with
  | [x], _ => exact ⟨1, rfl⟩
  | x :: y :: rest, _ => exact ⟨x, rfl⟩

/-- Wherever a builtin divides, a zero divisor is reported and not divided by. -/
theorem compute_of_zero {y : Float} (ha : b.arity.accepts xs.length = true)
    (hy : y ∈ b.divisors xs) (hz : (y == 0) = true) :
    b.compute xs = .error (.divisionByZero b) := by
  cases b with
  | div =>
    obtain ⟨x, hx⟩ := exists_compute_div (ne_nil_of_accepts rfl ha)
    rw [hx, divideAll_eq, if_pos (List.any_eq_true.2 ⟨y, hy, hz⟩)]
  | quotient | remainder | modulo =>
    obtain ⟨x, z, rfl⟩ := eq_pair rfl ha
    rw [List.mem_singleton.1 hy] at hz
    simp only [compute, divideBy, hz, if_true]
  | _ => cases hy

theorem results_divideBy (quotient : Float → Float → Float) (x y : Float)
    (hy : y ∈ b.divisors [x, y]) (ha : b.arity.accepts 2 = true) :
    Results (b.Complains [.number x, .number y]) IsPlain (b.divideBy quotient x y) := by
  unfold divideBy
  split
  · rename_i hz
    have hcomplains : b.Complains ([x, y].map .number) (.divisionByZero b) := .divisor ha rfl hy hz
    exact .error hcomplains
  · exact .ok (.inl ⟨_, rfl⟩)

/-- Of numbers in an accepted count, a numeric builtin has a value unless it complains. -/
theorem results_compute (hn : b.takesAny = false) (ha : b.arity.accepts xs.length = true) :
    Results (b.Complains (xs.map .number)) IsPlain (b.compute xs) := by
  cases b with
  | add | mul | min | max => exact .ok (.inl ⟨_, rfl⟩)
  | eq | lt | gt | le | ge => exact .ok (.inr ⟨_, rfl⟩)
  | sub =>
    match xs, ne_nil_of_accepts rfl ha with
    | [x], _ => exact .ok (.inl ⟨_, rfl⟩)
    | x :: y :: rest, _ => exact .ok (.inl ⟨_, rfl⟩)
  | div =>
    obtain ⟨x, hx⟩ := exists_compute_div (ne_nil_of_accepts rfl ha)
    rw [hx, divideAll_eq]
    split
    · rename_i hzero
      obtain ⟨y, hy, hz⟩ := List.any_eq_true.1 hzero
      exact .error (.divisor (by simpa using ha) rfl hy hz)
    · exact .ok (.inl ⟨_, rfl⟩)
  | abs =>
    obtain ⟨x, rfl⟩ := eq_single rfl ha
    exact .ok (.inl ⟨_, rfl⟩)
  | isZero =>
    obtain ⟨x, rfl⟩ := eq_single rfl ha
    exact .ok (.inr ⟨_, rfl⟩)
  | expt =>
    obtain ⟨x, y, rfl⟩ := eq_pair rfl ha
    exact .ok (.inl ⟨_, rfl⟩)
  | quotient | remainder | modulo =>
    obtain ⟨x, y, rfl⟩ := eq_pair rfl ha
    unfold compute
    exact results_divideBy _ x y (List.mem_singleton_self y) rfl
  | sqrt =>
    obtain ⟨x, rfl⟩ := eq_single rfl ha
    have hroot : compute .sqrt [x] = if x < 0 then
        .error (.typeMismatch .sqrt .nonNegative (numberText x)) else .ok (.number x.sqrt) := rfl
    rw [hroot]
    split
    · rename_i hx
      exact .error (.root rfl rfl hx)
    · exact .ok (.inl ⟨_, rfl⟩)
  | not | isNumber | isBoolean | isProcedure | isEqual => cases hn

/-! ## Application -/

theorem applyAccepted_of_numeric (hn : b.takesAny = false) (args : List Expr) :
    b.applyAccepted args = b.operands args >>= b.compute := by
  cases b with
  | not | isNumber | isBoolean | isProcedure | isEqual => cases hn
  | _ => rfl

theorem results_applyAccepted (ha : b.arity.accepts args.length = true) :
    Results (b.Complains args) IsPlain (b.applyAccepted args) := by
  cases hn : b.takesAny with
  | true =>
    cases b with
    | not | isNumber | isBoolean | isProcedure =>
      obtain ⟨e, rfl⟩ := eq_single rfl ha
      exact .ok (.inr ⟨_, rfl⟩)
    | isEqual =>
      obtain ⟨e, f, rfl⟩ := eq_pair rfl ha
      exact .ok (.inr ⟨_, rfl⟩)
    | _ => cases hn
  | false =>
    rw [applyAccepted_of_numeric hn]
    rcases numbers_or_leftmost args with ⟨xs, rfl⟩ | ⟨before, e, after, rfl, hb, he⟩
    · rw [operands_map_number]
      exact results_compute hn (by simpa using ha)
    · rw [operands_of_leftmost hb he]
      exact .error (.operand ha hn rfl hb he)

/-- A builtin fails with what it complains about, or it answers. -/
theorem results_apply (b : Builtin) (args : List Expr) :
    Results (b.Complains args) IsPlain (b.apply args) := by
  unfold apply
  split
  · rename_i ha
    exact results_applyAccepted ha
  · rename_i ha
    exact .error (.count (by simpa using ha))

/-- What a builtin complains about is what it fails with. -/
theorem apply_of_complains (h : b.Complains args err) : b.apply args = .error err := by
  cases h with
  | count ha => rw [apply, if_neg (by simp [ha])]
  | operand ha hn hargs hb he =>
    rw [apply, if_pos ha, applyAccepted_of_numeric hn, hargs, operands_of_leftmost hb he]
    rfl
  | @divisor xs y ha hargs hy hz =>
    have hn : b.takesAny = false := by
      cases b with
      | not | isNumber | isBoolean | isProcedure | isEqual => cases hy
      | _ => rfl
    subst hargs
    rw [apply, if_pos ha, applyAccepted_of_numeric hn, operands_map_number]
    exact compute_of_zero (by simpa using ha) hy hz
  | root hb hargs hx =>
    subst hb hargs
    simp only [apply, arity, Arity.accepts, List.length_singleton, beq_self_eq_true, if_true,
      applyAccepted, operands]
    exact if_pos hx

/-- Arguments of an accepted count are enough for the builtin: none is missing when it computes. -/
theorem applyAccepted_ne_arityMismatch (ha : b.arity.accepts args.length = true) (name : String)
    (arity : Arity) (found : Nat) :
    b.applyAccepted args ≠ .error (.arityMismatch name arity found) := by
  intro hx
  have hresults := results_applyAccepted ha
  rw [hx] at hresults
  cases hresults.of_error with
  | count hn =>
    rw [ha] at hn
    cases hn

/-- No argument is missing when the count is accepted. A builtin fails with an error exactly when
that is what it complains about, and it answers with a number or a boolean, which holds on to no
scope, when it complains about nothing. -/
theorem apply_fails_as_it_complains (b : Builtin) (args : List Expr) :
    (b.arity.accepts args.length = true → ∀ name arity found,
      b.applyAccepted args ≠ .error (.arityMismatch name arity found)) ∧
    (∀ err, b.apply args = .error err ↔ b.Complains args err) ∧
    ((∀ err, ¬ b.Complains args err) →
      ∃ e, b.apply args = .ok e ∧ IsPlain e ∧ e.captured = []) := by
  have hresults := results_apply b args
  refine ⟨applyAccepted_ne_arityMismatch, fun err => ⟨fun h => ?_, apply_of_complains⟩,
    fun hnone => ?_⟩
  · rw [h] at hresults
    exact hresults.of_error
  · cases hx : b.apply args with
    | error err =>
      rw [hx] at hresults
      exact (hnone err hresults.of_error).elim
    | ok e =>
      rw [hx] at hresults
      have hplain := hresults.of_ok
      refine ⟨e, rfl, hplain, ?_⟩
      rcases hplain with ⟨x, rfl⟩ | ⟨c, rfl⟩
      · rfl
      · rfl

-- a wrong type behind a zero divisor is what counts
example : div.apply [.number 1, .number 0, .boolean true] =
    .error (.typeMismatch .div .number "boolean") :=
  rfl

end Builtin

end Stepwise
