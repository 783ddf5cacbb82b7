import Stepwise.Eval.Reduce
import Stepwise.Proofs.Eval.Limit
/-!
# Runs of single steps

`Runs e s n r t` says that single steps take `e` from the store `s` to the result `r` and the store
`t`, and that there are `n` of them, with a step that fails counted too. A limit on the steps
changes nothing else (`reduce_iff_runs`). Inside a tuple that advances one of its members a run of
the tuple is a run of the member and then one of the tuple around its value (`runs_in_iff`).
-/

namespace Stepwise

variable {e : Expr} {s t : Store} {n : Nat} {r : Except Error Expr}

/-- A reduction by `n` single steps. -/
inductive Runs : Expr → Store → Nat → Except Error Expr → Store → Prop
  | value {e : Expr} {s : Store} : e.isValue = true → Runs e s 0 (.ok e) s
  | step {e e' : Expr} {s s' t : Store} {n : Nat} {r : Except Error Expr} : e.isValue = false →
      (step e).runOn s = (.ok e', s') → Runs e' s' n r t → Runs e s (n + 1) r t
  | error {e : Expr} {s t : Store} {err : Error} : e.isValue = false →
      (step e).runOn s = (.error err, t) → Runs e s 1 (.error err) t

theorem Runs.isValue {v : Expr} (h : Runs e s n (.ok v) t) : v.isValue = true := by
  generalize hr : (Except.ok v : Except Error Expr) = r at h
  induction h with
  | value hv =>
    cases hr
    exact hv
  | step _ _ _ ih => exact ih hr
  | error => cases hr

/-! ## The limit -/

theorem reduceWithin_of_runs (limit : Nat) {left : Nat} (h : Runs e s n r t) (hn : n ≤ left) :
    reduceWithin limit left e s = (r, t) := by
  induction h generalizing left with
  | value hv =>
    unfold reduceWithin
    rw [if_pos hv]
  | step hv hs _ ih =>
    obtain ⟨left, rfl⟩ := Nat.exists_eq_add_of_le' (Nat.le_of_add_left_le hn)
    unfold reduceWithin
    simp only [hv, Bool.false_eq_true, if_false, hs]
    exact ih (by omega)
  | error hv hs =>
    obtain ⟨left, rfl⟩ := Nat.exists_eq_add_of_le' hn
    unfold reduceWithin
    simp only [hv, Bool.false_eq_true, if_false, hs]

theorem runs_of_reduceWithin {limit left : Nat} (h : reduceWithin limit left e s = (r, t))
    (hr : r ≠ .error (.evaluation (.stepLimit limit))) : ∃ n ≤ left, Runs e s n r t := by
  induction left generalizing e s with
  | zero =>
    unfold reduceWithin at h
    split at h
    · rename_i hv
      cases h
      exact ⟨0, Nat.le_refl 0, .value hv⟩
    · cases h
      exact (hr rfl).elim
  | succ left ih =>
    unfold reduceWithin at h
    split at h
    · rename_i hv
      cases h
      exact ⟨0, Nat.zero_le _, .value hv⟩
    · rename_i hv
      rcases hs : (step e).runOn s with ⟨err | e', s'⟩
      all_goals simp only [hs] at h
      · cases h
        exact ⟨1, by omega, .error (by simpa using hv) hs⟩
      · obtain ⟨n, hn, hrun⟩ := ih h
        exact ⟨n + 1, by omega, .step (by simpa using hv) hs hrun⟩

theorem isValue_of_reduceWithin {limit left : Nat} {v : Expr}
    (h : (reduceWithin limit left e s).1 = .ok v) : v.isValue = true := by
  rcases hx : reduceWithin limit left e s with ⟨r, t⟩
  rw [hx] at h
  cases h
  obtain ⟨n, -, hrun⟩ := runs_of_reduceWithin hx (by simp)
  exact hrun.isValue

theorem Runs.unlimited (h : Runs e s n r t) : Unlimited r := by
  induction h with
  | value => exact unlimited_ok _
  | step _ _ _ ih => exact ih
  | @error e s t err _ hs =>
    intro limit hr
    cases hr
    exact neverLimits_step e s limit (by rw [hs])

/-- A reduction that is not cut short is a run within the limit. -/
theorem reduce_iff_runs (limit : Nat) :
    reduce limit e s = (r, t) ∧ r ≠ .error (.evaluation (.stepLimit limit)) ↔
      ∃ n ≤ limit, Runs e s n r t := by
  constructor
  · rintro ⟨h, hr⟩
    exact runs_of_reduceWithin h hr
  · rintro ⟨n, hn, hrun⟩
    exact ⟨reduceWithin_of_runs limit hrun hn, hrun.unlimited limit⟩

/-! ## The first step -/

/-- What remains after one step that came to `x`: a run, unless the step failed. -/
inductive Resumes : Except Error Expr × Store → Nat → Except Error Expr → Store → Prop
  | ok {e : Expr} {s t : Store} {n : Nat} {r : Except Error Expr} :
      Runs e s n r t → Resumes (.ok e, s) (n + 1) r t
  | error {err : Error} {t : Store} : Resumes (.error err, t) 1 (.error err) t

theorem runs_iff_resumes (hv : e.isValue = false) :
    Runs e s n r t ↔ Resumes ((step e).runOn s) n r t := by
  constructor
  · intro h
    cases h with
    | value hv' =>
      rw [hv] at hv'
      cases hv'
    | step _ hs hrun =>
      rw [hs]
      exact .ok hrun
    | error _ hs =>
      rw [hs]
      exact .error
  · intro h
    generalize hs : (step e).runOn s = x at h
    cases h with
    | ok hrun => exact .step hv hs hrun
    | error => exact .error hv hs

/-! ## Runs inside a tuple -/

/-- Between `before` and `after`, a tuple advances whatever is no value. -/
def Advances (before after : List Expr) : Prop :=
  ∀ e : Expr, e.isValue = false →
    tupleMove (before ++ e :: after) = .ok (.advance before.length)

/-- A run of a tuple first runs the member it advances, to its value or its error. -/
theorem runs_in_iff {before after : List Expr} (ha : Advances before after) :
    Runs (.tuple (before ++ e :: after)) s n r t ↔
      (∃ m k v s', n = m + k ∧ Runs e s m (.ok v) s' ∧
        Runs (.tuple (before ++ v :: after)) s' k r t) ∨
      ∃ err, r = .error err ∧ Runs e s n (.error err) t := by
  constructor
  · intro h
    -- on the number of steps, as the member changes with each of them
    induction n generalizing e s with
    | zero =>
      cases h with
      | value hv => cases hv
    | succ n ih =>
      cases hv : e.isValue with
      | true => exact .inl ⟨0, n + 1, e, s, by omega, .value hv, h⟩
      | false =>
        rw [runs_iff_resumes rfl, runOn_step_advance (ha e hv)] at h
        rcases hs : (step e).runOn s with ⟨err | e', s'⟩
        all_goals rw [hs] at h
        · cases h
          exact .inr ⟨err, rfl, .error hv hs⟩
        · cases h with
          | ok hrun =>
            rcases ih hrun with ⟨m, k, v, s'', rfl, hm, hk⟩ | ⟨err, rfl, he⟩
            · exact .inl ⟨m + 1, k, v, s'', by omega, .step hv hs hm, hk⟩
            · exact .inr ⟨err, rfl, .step hv hs he⟩
  · rintro (⟨m, k, v, s', rfl, hm, hk⟩ | ⟨err, rfl, hrun⟩)
    · generalize hx : (Except.ok v : Except Error Expr) = x at hm
      induction hm with
      | value =>
        cases hx
        rw [Nat.zero_add]
        exact hk
      | step hv hs _ ih =>
        rw [Nat.add_right_comm]
        exact .step rfl (by rw [runOn_step_advance (ha _ hv), hs]; rfl) (ih hk hx)
      | error => cases hx
    · generalize hx : (Except.error err : Except Error Expr) = x at hrun
      induction hrun with
      | value => cases hx
      | step hv hs _ ih => exact .step rfl (by rw [runOn_step_advance (ha _ hv), hs]; rfl) (ih hx)
      | error hv hs =>
        cases hx
        exact .error rfl (by rw [runOn_step_advance (ha _ hv), hs]; rfl)

/-- The head is advanced first. -/
theorem advances_head (args : List Expr) : Advances [] args := by
  intro e hv
  rw [List.nil_append, tupleMove_of_not_form (e.isForm_of_not_value hv)]
  simp [Expr.firstUnreduced?, List.findIdx?_cons, hv]

/-- After a head that is no form, members are advanced from left to right. -/
theorem advances_argument {head : Expr} {before after : List Expr} (hf : head.isForm = false)
    (hv : ∀ e ∈ head :: before, e.isValue = true) : Advances (head :: before) after := by
  intro e he
  have hfirst : Expr.firstUnreduced? (head :: before ++ e :: after) =
      some (head :: before).length := by
    unfold Expr.firstUnreduced?
    rw [List.findIdx?_append, List.findIdx?_eq_none_iff.2 (by simpa using hv)]
    simp [List.findIdx?_cons, he]
  rw [List.cons_append, tupleMove_of_not_form hf, ← List.cons_append, hfirst]

theorem advances_test (scope : Handle) (yes no : Expr) :
    Advances [.procedure (.form .ifElse scope)] [yes, no] := by
  intro e hv
  simp [tupleMove, Form.move, hv]

theorem advances_first {f : Form} (hf : f = .and ∨ f = .or) (scope : Handle) (rest : List Expr) :
    Advances [.procedure (.form f scope)] rest := by
  intro e hv
  rcases hf with rfl | rfl
  · simp [tupleMove, Form.move, Form.connective, hv]
  · simp [tupleMove, Form.move, Form.connective, hv]

theorem advances_value {target : Expr} {name : String} (scope : Handle)
    (ht : target.tupleSource? = none) (hs : target.symbol? = some name) :
    Advances [.procedure (.form .define scope), target] [] := by
  intro e hv
  simp [tupleMove, Form.move, Form.defineName, ht, hs, hv]

end Stepwise
