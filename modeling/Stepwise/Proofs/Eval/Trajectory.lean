import Mathlib.Data.ENat.Lattice
import Stepwise.Eval.Reduce
import Stepwise.Proofs.Eval.Limit
/-!
# Reducing and watching are one iteration

Single steps take an expression through a sequence of states, up to a value or an error if there is
one. `reduce` and a `Trace` both follow that sequence as far as their limit allows: the one answers
with its end, the other shows its states one at a time and takes a step only when it is asked for
more. Here the sequence, its length and what each of the two makes of them are put side by side.
-/

namespace Stepwise

variable {e e' : Expr} {s t : Store} {err : Error} {i j k limit left : Nat}

/-! ## The sequence of states -/

/-- The state after `i` steps, with the store at that moment. Behind an error no step is taken. -/
def stateAfter (e : Expr) (s : Store) : Nat → Except Error Expr × Store
  | 0 => (.ok e, s)
  | i + 1 =>
    match stateAfter e s i with
    | (.ok e', t) => (step e').runOn t
    | (.error err, t) => (.error err, t)

/-- Whether there is nothing left to do: the state is a value or an error. -/
def isSettled : Except Error Expr × Store → Bool
  | (.ok e, _) => e.isValue
  | (.error _, _) => true

/-- How many steps there are up to a value or an error, which may never come. -/
noncomputable def stepCount (e : Expr) (s : Store) : ℕ∞ :=
  ⨅ i : Nat, ⨅ _ : isSettled (stateAfter e s i) = true, (i : ℕ∞)

theorem stateAfter_succ_of_ok (h : (step e).runOn s = (.ok e', t)) (i : Nat) :
    stateAfter e s (i + 1) = stateAfter e' t i := by
  induction i with
  | zero => exact h
  | succ i ih => rw [stateAfter, ih, stateAfter]

theorem stateAfter_succ_of_error (h : (step e).runOn s = (.error err, t)) (i : Nat) :
    stateAfter e s (i + 1) = (.error err, t) := by
  induction i with
  | zero => exact h
  | succ i ih => rw [stateAfter, ih]

theorem stateAfter_of_isValue (hv : e.isValue = true) (s : Store) (i : Nat) :
    stateAfter e s i = (.ok e, s) := by
  induction i with
  | zero => rfl
  | succ i ih =>
    rw [stateAfter, ih]
    simp only [step_of_isValue hv, Action.runOn_pure]

/-- A settled state does not change any more. -/
theorem stateAfter_of_settled (h : isSettled (stateAfter e s i) = true) (hij : i ≤ j) :
    stateAfter e s j = stateAfter e s i := by
  induction hij with
  | refl => rfl
  | step _ ih =>
    rw [stateAfter, ih]
    rcases hx : stateAfter e s i with ⟨err | v, t⟩
    · rfl
    · rw [hx] at h
      simp only [step_of_isValue (show v.isValue = true from h), Action.runOn_pure]

/-- Within `i` steps the end is reached exactly when the state after them is settled. -/
theorem stepCount_le_iff : stepCount e s ≤ i ↔ isSettled (stateAfter e s i) = true := by
  constructor
  · intro h
    obtain ⟨j, hj⟩ := iInf_lt_iff.1 (lt_of_le_of_lt h (ENat.natCast_lt_natCast.2 (Nat.lt_succ_self i)))
    obtain ⟨hs, hlt⟩ := iInf_lt_iff.1 hj
    have hji : j ≤ i := Nat.lt_succ_iff.1 (ENat.natCast_lt_natCast.1 hlt)
    rw [stateAfter_of_settled hs hji]
    exact hs
  · intro h
    exact iInf₂_le i h

theorem lt_stepCount_iff : i < stepCount e s ↔ isSettled (stateAfter e s i) = false := by
  rw [← not_le, stepCount_le_iff, Bool.not_eq_true]

theorem stepCount_of_isValue (hv : e.isValue = true) (s : Store) : stepCount e s = 0 := by
  apply nonpos_iff_eq_zero.1
  exact stepCount_le_iff.2 hv

/-- Numbers of steps with the same finite bounds are the same. -/
theorem eq_of_bounds {m n : ℕ∞} (h : ∀ i : Nat, m ≤ i ↔ n ≤ i) : m = n := by
  apply eq_of_forall_ge_iff
  intro c
  induction c using ENat.recTopCoe with
  | top => simp
  | coe i => exact h i

theorem stepCount_of_ok (hv : e.isValue = false) (h : (step e).runOn s = (.ok e', t)) :
    stepCount e s = stepCount e' t + 1 := by
  apply eq_of_bounds
  intro i
  rw [stepCount_le_iff]
  cases i with
  | zero => simp [stateAfter, isSettled, hv]
  | succ i =>
    rw [stateAfter_succ_of_ok h, ← stepCount_le_iff]
    push_cast
    exact (ENat.add_le_add_iff_right ENat.one_ne_top).symm

theorem stepCount_of_error (hv : e.isValue = false) (h : (step e).runOn s = (.error err, t)) :
    stepCount e s = 1 := by
  apply eq_of_bounds
  intro i
  rw [stepCount_le_iff]
  cases i with
  | zero => simp [stateAfter, isSettled, hv]
  | succ i => simp [stateAfter_succ_of_error h, isSettled]

/-! ## Reducing -/

/-- Where the end is reached within the steps left, it is the result. -/
theorem reduceWithin_of_settled (limit : Nat) (h : isSettled (stateAfter e s left) = true) :
    reduceWithin limit left e s = stateAfter e s left := by
  induction left generalizing e s with
  | zero =>
    unfold reduceWithin
    rw [if_pos (show e.isValue = true from h)]
    rfl
  | succ left ih =>
    unfold reduceWithin
    split
    · rename_i hv
      rw [stateAfter_of_isValue hv]
    · rcases hx : (step e).runOn s with ⟨err | e', t⟩
      · rw [stateAfter_succ_of_error hx]
      · rw [stateAfter_succ_of_ok hx] at h ⊢
        exact ih h

/-- Otherwise all steps left are taken before the limit is reported. -/
theorem reduceWithin_of_not_settled (limit : Nat) (h : isSettled (stateAfter e s left) = false) :
    reduceWithin limit left e s =
      (.error (.evaluation (.stepLimit limit)), (stateAfter e s left).2) := by
  induction left generalizing e s with
  | zero =>
    unfold reduceWithin
    rw [if_neg (Bool.not_eq_true _ ▸ (show e.isValue = false from h))]
    rfl
  | succ left ih =>
    unfold reduceWithin
    split
    · rename_i hv
      rw [stateAfter_of_isValue hv] at h
      rw [show isSettled (.ok e, s) = e.isValue from rfl, hv] at h
      cases h
    · rcases hx : (step e).runOn s with ⟨err | e', t⟩
      · rw [stateAfter_succ_of_error hx] at h
        cases h
      · rw [stateAfter_succ_of_ok hx] at h ⊢
        exact ih h

theorem reduce_of_stepCount (h : stepCount e s = i) (hi : i ≤ limit) :
    reduce limit e s = stateAfter e s i := by
  have hend : isSettled (stateAfter e s i) = true := stepCount_le_iff.1 h.le
  have hlimit := stateAfter_of_settled hend hi
  rw [reduce, reduceWithin_of_settled limit (hlimit ▸ hend), hlimit]

theorem reduce_of_lt_stepCount (h : limit < stepCount e s) :
    reduce limit e s = (.error (.evaluation (.stepLimit limit)), (stateAfter e s limit).2) :=
  reduceWithin_of_not_settled limit (lt_stepCount_iff.1 h)

theorem unlimited_stateAfter (e : Expr) (s : Store) (i : Nat) :
    Unlimited (stateAfter e s i).1 := by
  induction i with
  | zero => exact unlimited_ok e
  | succ i ih =>
    rw [stateAfter]
    rcases hx : stateAfter e s i with ⟨err | e', t⟩
    · rw [hx] at ih
      exact ih
    · exact neverLimits_step e' t

/-- Only an outcome that the limit brought about changes with a greater limit. -/
theorem reduce_of_le {limit' : Nat} (hle : limit ≤ limit') (h : Unlimited (reduce limit e s).1) :
    reduce limit' e s = reduce limit e s := by
  have hend : isSettled (stateAfter e s limit) = true := by
    rw [← stepCount_le_iff]
    by_contra hc
    rw [reduce_of_lt_stepCount (not_le.1 hc)] at h
    exact h limit rfl
  have hsame := stateAfter_of_settled hend hle
  rw [reduce, reduce, reduceWithin_of_settled limit hend,
    reduceWithin_of_settled limit' (hsame ▸ hend), hsame]

/-- Steps that are taken beforehand are steps less to take. -/
theorem reduceWithin_of_stateAfter (h : stateAfter e s i = (.ok e', t)) (hi : i ≤ left) :
    reduceWithin limit left e s = reduceWithin limit (left - i) e' t := by
  induction i generalizing e s left with
  | zero =>
    cases h
    rfl
  | succ i ih =>
    obtain ⟨left, rfl⟩ : ∃ l, left = l + 1 := ⟨left - 1, by omega⟩
    by_cases hv : e.isValue = true
    · -- a value stays as it is, whatever number of steps is left
      rw [stateAfter_of_isValue hv] at h
      cases h
      unfold reduceWithin
      rw [if_pos hv, if_pos hv]
    · rcases hx : (step e).runOn s with ⟨err | next, s'⟩
      · rw [stateAfter_succ_of_error hx] at h
        cases h
      · rw [stateAfter_succ_of_ok hx] at h
        rw [Nat.add_sub_add_right, ← ih h (by omega)]
        conv_lhs => unfold reduceWithin
        simp only [hv, Bool.false_eq_true, if_false, hx]

/-- The error without the number of steps that it quotes. -/
def Error.unnumbered : Error → Error
  | .evaluation (.stepLimit _) => .evaluation (.stepLimit 0)
  | err => err

/-- What a reduction comes to, but for the number of steps that an error may quote. -/
def unnumbered (x : Except Error Expr × Store) : Except Error Expr × Store :=
  (x.1.mapError Error.unnumbered, x.2)

/-- The limit itself is only quoted. -/
theorem unnumbered_reduceWithin (limit limit' left : Nat) (e : Expr) (s : Store) :
    unnumbered (reduceWithin limit left e s) = unnumbered (reduceWithin limit' left e s) := by
  cases h : isSettled (stateAfter e s left) with
  | true => rw [reduceWithin_of_settled limit h, reduceWithin_of_settled limit' h]
  | false =>
    rw [reduceWithin_of_not_settled limit h, reduceWithin_of_not_settled limit' h]
    rfl

end Stepwise
