import Stepwise.Interpreter
import Stepwise.Proofs.Eval.Runs
/-!
# Evaluation in one piece

`Evaluates` says what an expression comes to by recursion over the expression, with each part
evaluated to the end before the next one. The reducer starts over from the outermost tuple with
every single step. Both come to the same, in the same number of steps and with the same store
(`evaluates_iff_runs`).
-/

namespace Stepwise

/-- Applies a head to arguments that are all reduced. -/
def Expr.applyTo (head : Expr) (args : List Expr) : Eval Expr :=
  match head with
  | .procedure p => p.call args
  | head => throw (.evaluation (.notProcedure head.text))

/-- How many arguments a form insists on. -/
def Form.count? : Form → Option Nat
  | .define | .lambda => some 2
  | .ifElse => some 3
  | .and | .or => none

/-- The forms that take any number of arguments, by the values that settle them and by what they
are without arguments. -/
inductive Form.Connects : Form → (Expr → Bool) → Bool → Prop
  | and : Connects .and Expr.isFalse true
  | or : Connects .or (fun e => !e.isFalse) false

mutual

/-- `e` comes to `r` in `n` steps, from the store `s` to `t`. -/
inductive Evaluates : Expr → Store → Nat → Except Error Expr → Store → Prop
  | value {e : Expr} {s : Store} : e.isValue = true → Evaluates e s 0 (.ok e) s
  | pending {tokens : List String} {scope : Handle} {s t : Store} {n : Nat}
      {r : Except Error Expr} :
      Continues ((expand tokens scope).runOn s) n r t → Evaluates (.pending tokens scope) s n r t
  | deferred {token : String} {scope : Handle} {s t : Store} {n : Nat} {r : Except Error Expr} :
      Continues ((readMember token scope).runOn s) n r t → Evaluates (.deferred token scope) s n r t
  | empty {s : Store} : Evaluates (.tuple []) s 1 (.error (.evaluation .emptyApplication)) s
  | headFails {head : Expr} {args : List Expr} {s t : Store} {n : Nat} {err : Error} :
      Evaluates head s n (.error err) t → Evaluates (.tuple (head :: args)) s n (.error err) t
  | form {head : Expr} {args : List Expr} {f : Form} {scope : Handle} {s s' t : Store} {m n : Nat}
      {r : Except Error Expr} : Evaluates head s m (.ok (.procedure (.form f scope))) s' →
      EvaluatesForm f scope args s' n r t → Evaluates (.tuple (head :: args)) s (m + n) r t
  | argumentFails {head h : Expr} {args : List Expr} {s s' t : Store} {m n : Nat} {err : Error} :
      Evaluates head s m (.ok h) s' → h.isForm = false →
      EvaluatesAll args s' n (.error err) t → Evaluates (.tuple (head :: args)) s (m + n) (.error err) t
  | apply {head h : Expr} {args vs : List Expr} {s s' s'' t : Store} {m k n : Nat}
      {r : Except Error Expr} : Evaluates head s m (.ok h) s' → h.isForm = false →
      EvaluatesAll args s' k (.ok vs) s'' → Continues ((h.applyTo vs).runOn s'') n r t →
      Evaluates (.tuple (head :: args)) s (m + (k + n)) r t

/-- What one step came to is evaluated further, unless the step failed. -/
inductive Continues : Except Error Expr × Store → Nat → Except Error Expr → Store → Prop
  | ok {e : Expr} {s t : Store} {n : Nat} {r : Except Error Expr} :
      Evaluates e s n r t → Continues (.ok e, s) (n + 1) r t
  | error {err : Error} {t : Store} : Continues (.error err, t) 1 (.error err) t

/-- The expressions are evaluated from left to right, up to the first that fails. -/
inductive EvaluatesAll : List Expr → Store → Nat → Except Error (List Expr) → Store → Prop
  | nil {s : Store} : EvaluatesAll [] s 0 (.ok []) s
  | fails {e : Expr} {rest : List Expr} {s t : Store} {n : Nat} {err : Error} :
      Evaluates e s n (.error err) t → EvaluatesAll (e :: rest) s n (.error err) t
  | failsLater {e v : Expr} {rest : List Expr} {s s' t : Store} {m n : Nat} {err : Error} :
      Evaluates e s m (.ok v) s' → EvaluatesAll rest s' n (.error err) t →
      EvaluatesAll (e :: rest) s (m + n) (.error err) t
  | cons {e v : Expr} {rest vs : List Expr} {s s' t : Store} {m n : Nat} :
      Evaluates e s m (.ok v) s' → EvaluatesAll rest s' n (.ok vs) t →
      EvaluatesAll (e :: rest) s (m + n) (.ok (v :: vs)) t

/-- A special form named in `scope` is evaluated with its arguments as they stand. -/
inductive EvaluatesForm :
    Form → Handle → List Expr → Store → Nat → Except Error Expr → Store → Prop
  | miscount {f : Form} {scope : Handle} {args : List Expr} {s : Store} {k : Nat} :
      f.count? = some k → args.length ≠ k →
      EvaluatesForm f scope args s 1 (.error (f.miscount k args.length)) s
  | defineProcedure {scope g : Handle} {target value p : Expr} {signature name : String}
      {s : Store} : target.tupleSource? = some signature →
      Form.defineProcedure scope signature value = .ok (.define g name p) →
      EvaluatesForm .define scope [target, value] s 1 (.ok .void) (s.defineAround g name p)
  | badProcedure {scope : Handle} {target value : Expr} {signature : String} {s : Store}
      {err : Error} : target.tupleSource? = some signature →
      Form.defineProcedure scope signature value = .error err →
      EvaluatesForm .define scope [target, value] s 1 (.error err) s
  | defineName {scope : Handle} {target value v : Expr} {name : String} {s t : Store} {n : Nat} :
      target.tupleSource? = none → target.symbol? = some name → Evaluates value s n (.ok v) t →
      EvaluatesForm .define scope [target, value] s (n + 1) (.ok .void)
        (t.defineAround scope name (v.named name))
  | valueFails {scope : Handle} {target value : Expr} {name : String} {s t : Store} {n : Nat}
      {err : Error} : target.tupleSource? = none → target.symbol? = some name →
      Evaluates value s n (.error err) t →
      EvaluatesForm .define scope [target, value] s n (.error err) t
  | badName {scope : Handle} {target value : Expr} {s : Store} :
      target.tupleSource? = none → target.symbol? = none →
      EvaluatesForm .define scope [target, value] s 1
        (.error (Form.define.fault (.cannotBind target.text))) s
  | lambda {scope : Handle} {params body p : Expr} {s : Store} :
      Form.makeClosure scope params body = .ok (.become p) →
      EvaluatesForm .lambda scope [params, body] s 1 (.ok p) s
  | badLambda {scope : Handle} {params body : Expr} {s : Store} {err : Error} :
      Form.makeClosure scope params body = .error err →
      EvaluatesForm .lambda scope [params, body] s 1 (.error err) s
  | branch {scope : Handle} {test yes no v : Expr} {s s' t : Store} {m n : Nat}
      {r : Except Error Expr} : Evaluates test s m (.ok v) s' →
      Evaluates (if v.isFalse then no else yes) s' n r t →
      EvaluatesForm .ifElse scope [test, yes, no] s (m + (n + 1)) r t
  | testFails {scope : Handle} {test yes no : Expr} {s t : Store} {n : Nat} {err : Error} :
      Evaluates test s n (.error err) t →
      EvaluatesForm .ifElse scope [test, yes, no] s n (.error err) t
  | nothing {f : Form} {settles : Expr → Bool} {b : Bool} {scope : Handle} {s : Store} :
      f.Connects settles b → EvaluatesForm f scope [] s 1 (.ok (.boolean b)) s
  | settle {f : Form} {settles : Expr → Bool} {b : Bool} {scope : Handle} {first v : Expr}
      {rest : List Expr} {s t : Store} {n : Nat} : f.Connects settles b →
      Evaluates first s n (.ok v) t → settles v = true ∨ rest = [] →
      EvaluatesForm f scope (first :: rest) s (n + 1) (.ok v) t
  | drop {f : Form} {settles : Expr → Bool} {b : Bool} {scope : Handle} {first v : Expr}
      {rest : List Expr} {s s' t : Store} {m n : Nat} {r : Except Error Expr} :
      f.Connects settles b → Evaluates first s m (.ok v) s' → settles v = false → rest ≠ [] →
      EvaluatesForm f scope rest s' n r t →
      EvaluatesForm f scope (first :: rest) s (m + (n + 1)) r t
  | firstFails {f : Form} {settles : Expr → Bool} {b : Bool} {scope : Handle} {first : Expr}
      {rest : List Expr} {s t : Store} {n : Nat} {err : Error} : f.Connects settles b →
      Evaluates first s n (.error err) t →
      EvaluatesForm f scope (first :: rest) s n (.error err) t

end

variable {e : Expr} {s t : Store} {n : Nat} {r : Except Error Expr}

/-! ## Complete tuples -/

/-- A tuple of values whose head is no form applies its head. -/
theorem runOn_step_apply {head : Expr} {args : List Expr} (hf : head.isForm = false)
    (hv : ∀ e ∈ head :: args, e.isValue = true) (s : Store) :
    (step (.tuple (head :: args))).runOn s = (head.applyTo args).runOn s := by
  have hmove : tupleMove (head :: args) = _ := tupleMove_of_not_form hf
  rw [firstUnreduced?_eq_none.2 hv] at hmove
  rw [step, hmove]
  cases head with
  | procedure p =>
    cases p with
    | form f scope => cases hf
    | closure c => rfl
    | builtin b =>
      simp only [Expr.headMove, Procedure.move, Expr.applyTo, Procedure.call]
      cases b.apply args <;> rfl
  | _ => rfl

theorem Form.move_of_miscount {f : Form} {k : Nat} {args : List Expr} (hk : f.count? = some k)
    (ha : args.length ≠ k) (scope : Handle) :
    f.move scope args = .error (f.miscount k args.length) := by
  fun_cases Form.move f scope args with
  | case1 | case2 | case4 | case6 | case7 =>
    cases hk
    exact (ha rfl).elim
  | case3 | case5 | case8 =>
    cases hk
    rfl
  | case9 | case10 | case11 | case12 => cases hk

theorem Form.Connects.eq {f : Form} {settles : Expr → Bool} {b : Bool} (hc : f.Connects settles b) :
    f = .and ∨ f = .or := by
  cases hc with
  | and => exact .inl rfl
  | or => exact .inr rfl

theorem Form.Connects.move_nil {f : Form} {settles : Expr → Bool} {b : Bool}
    (hc : f.Connects settles b) (scope : Handle) : f.move scope [] = .ok (.become (.boolean b)) := by
  cases hc <;> rfl

theorem Form.Connects.move_cons {f : Form} {settles : Expr → Bool} {b : Bool}
    (hc : f.Connects settles b) (scope : Handle) (first : Expr) (rest : List Expr) :
    f.move scope (first :: rest) = .ok (Form.connective f scope settles first rest) := by
  cases hc <;> rfl

/-! ## From an evaluation to its run -/

section

variable {f : Form} {scope : Handle} {args : List Expr}

theorem runs_of_become (hm : f.move scope args = .ok (.become e)) (h : Runs e s n r t) :
    Runs (.tuple (.procedure (.form f scope) :: args)) s (n + 1) r t := by
  have hmove : tupleMove (.procedure (.form f scope) :: args) = .ok (.become e) := hm
  refine (runs_iff_resumes rfl).2 ?_
  rw [runOn_step_become hmove]
  exact .ok h

theorem runs_of_define {g : Handle} {name : String} (hm : f.move scope args = .ok (.define g name e))
    (s : Store) : Runs (.tuple (.procedure (.form f scope) :: args)) s 1 (.ok .void)
      (s.defineAround g name e) := by
  have hmove : tupleMove (.procedure (.form f scope) :: args) = .ok (.define g name e) := hm
  exact .step rfl (runOn_step_define hmove s) (.value rfl)

theorem runs_of_error {err : Error} (hm : f.move scope args = .error err) (s : Store) :
    Runs (.tuple (.procedure (.form f scope) :: args)) s 1 (.error err) s := by
  have hmove : tupleMove (.procedure (.form f scope) :: args) = .error err := hm
  exact .error rfl (runOn_step_error hmove s)

end

theorem isValue_makeClosure {scope : Handle} {params body p : Expr}
    (h : Form.makeClosure scope params body = .ok (.become p)) : p.isValue = true := by
  obtain ⟨_, _, _, hp, -⟩ := Form.makeClosure_eq_ok h
  cases hp
  rfl

/-- All members are values, and the first is no form. -/
def Ready (before : List Expr) : Prop :=
  ∃ head rest, before = head :: rest ∧ head.isForm = false ∧ ∀ e ∈ before, e.isValue = true

theorem Ready.advances {before : List Expr} (hb : Ready before) (after : List Expr) :
    Advances before after := by
  obtain ⟨head, rest, rfl, hf, hv⟩ := hb
  exact advances_argument hf hv

theorem Ready.snoc {before : List Expr} (hb : Ready before) {v : Expr} (hv : v.isValue = true) :
    Ready (before ++ [v]) := by
  obtain ⟨head, rest, rfl, hf, hall⟩ := hb
  refine ⟨head, rest ++ [v], rfl, hf, fun e he => ?_⟩
  rcases List.mem_append.1 he with he | he
  · exact hall e he
  · rw [List.mem_singleton.1 he]
    exact hv

theorem runs_apply_iff {head : Expr} {args : List Expr} (hr : Ready (head :: args)) :
    Runs (.tuple (head :: args)) s n r t ↔ Resumes ((head.applyTo args).runOn s) n r t := by
  obtain ⟨head', rest, he, hf, hv⟩ := hr
  cases he
  rw [runs_iff_resumes rfl, runOn_step_apply hf hv]

/-- A run of the tuple begins with runs of all of `args`, which come to `x`. -/
def RunsThrough (before args : List Expr) (s : Store) (k : Nat) (s' : Store) :
    Except Error (List Expr) → Prop
  | .ok vs => Ready (before ++ vs) ∧ ∀ n r t, Runs (.tuple (before ++ vs)) s' n r t →
      Runs (.tuple (before ++ args)) s (k + n) r t
  | .error err => Runs (.tuple (before ++ args)) s k (.error err) s'

theorem runsThrough_cons {before rest : List Expr} {v : Expr} {s' : Store} {m : Nat}
    {x : Except Error (List Expr)} (hb : Ready before) (h : Runs e s m (.ok v) s')
    (hr : RunsThrough (before ++ [v]) rest s' n t x) :
    RunsThrough before (e :: rest) s (m + n) t (x.map (v :: ·)) := by
  cases x with
  | error err =>
    refine (runs_in_iff (hb.advances rest)).2 (.inl ⟨m, n, v, s', rfl, h, ?_⟩)
    simpa [RunsThrough] using hr
  | ok vs =>
    obtain ⟨hready, hrest⟩ := hr
    refine ⟨by simpa using hready, fun k r t' hk => ?_⟩
    refine (runs_in_iff (hb.advances rest)).2 (.inl ⟨m, n + k, v, s', by omega, h, ?_⟩)
    simpa using hrest k r t' (by simpa using hk)

theorem runs_branch {scope : Handle} {test yes no v : Expr} {s' : Store} {m : Nat}
    (ht : Runs test s m (.ok v) s') (h : Runs (if v.isFalse then no else yes) s' n r t) :
    Runs (.tuple [.procedure (.form .ifElse scope), test, yes, no]) s (m + (n + 1)) r t := by
  refine (runs_in_iff (advances_test scope yes no)).2 (.inl ⟨m, n + 1, v, s', rfl, ht, ?_⟩)
  refine runs_of_become ?_ h
  simp [Form.move, ht.isValue]

theorem runs_defineName {scope : Handle} {target value v : Expr} {name : String}
    (ht : target.tupleSource? = none) (hs : target.symbol? = some name)
    (hv : Runs value s n (.ok v) t) :
    Runs (.tuple [.procedure (.form .define scope), target, value]) s (n + 1) (.ok .void)
      (t.defineAround scope name (v.named name)) := by
  refine (runs_in_iff (advances_value scope ht hs)).2 (.inl ⟨n, 1, v, t, rfl, hv, ?_⟩)
  refine runs_of_define ?_ t
  simp [Form.move, Form.defineName, ht, hs, hv.isValue]

section

variable {f : Form} {settles : Expr → Bool} {b : Bool} {scope : Handle} {first v : Expr}
  {rest : List Expr} {s' : Store} {m : Nat}

theorem runs_settle (hc : f.Connects settles b) (h : Runs first s n (.ok v) t)
    (hs : settles v = true ∨ rest = []) :
    Runs (.tuple (.procedure (.form f scope) :: first :: rest)) s (n + 1) (.ok v) t := by
  refine (runs_in_iff (advances_first hc.eq scope rest)).2 (.inl ⟨n, 1, v, t, rfl, h, ?_⟩)
  refine runs_of_become ((hc.move_cons scope v rest).trans ?_) (.value h.isValue)
  rcases hs with hs | rfl
  · simp [Form.connective, h.isValue, hs]
  · simp [Form.connective, h.isValue]

theorem runs_drop (hc : f.Connects settles b) (h : Runs first s m (.ok v) s')
    (hs : settles v = false) (hr : rest ≠ [])
    (hrun : Runs (.tuple (.procedure (.form f scope) :: rest)) s' n r t) :
    Runs (.tuple (.procedure (.form f scope) :: first :: rest)) s (m + (n + 1)) r t := by
  refine (runs_in_iff (advances_first hc.eq scope rest)).2 (.inl ⟨m, n + 1, v, s', rfl, h, ?_⟩)
  refine runs_of_become ((hc.move_cons scope v rest).trans ?_) hrun
  simp [Form.connective, h.isValue, hs, hr]

end

mutual

theorem Evaluates.runs {e : Expr} {s t : Store} {n : Nat} {r : Except Error Expr} :
    Evaluates e s n r t → Runs e s n r t
  | .value hv => .value hv
  | .pending h => (runs_iff_resumes rfl).2 h.resumes
  | .deferred h => (runs_iff_resumes rfl).2 h.resumes
  | .empty => .error rfl (runOn_step_error rfl _)
  | .headFails h => (runs_in_iff (advances_head _)).2 (.inr ⟨_, rfl, h.runs⟩)
  | .form h hf => (runs_in_iff (advances_head _)).2 (.inl ⟨_, _, _, _, rfl, h.runs, hf.runs⟩)
  | .argumentFails h hf ha =>
    (runs_in_iff (advances_head _)).2 (.inl ⟨_, _, _, _, rfl, h.runs,
      ha.runs ⟨_, [], rfl, hf, by simpa using h.runs.isValue⟩⟩)
  | .apply h hf ha hc => by
    obtain ⟨hready, hrun⟩ := ha.runs ⟨_, [], rfl, hf, by simpa using h.runs.isValue⟩
    exact (runs_in_iff (advances_head _)).2 (.inl ⟨_, _, _, _, rfl, h.runs,
      hrun _ _ _ ((runs_apply_iff hready).2 hc.resumes)⟩)

theorem Continues.resumes {x : Except Error Expr × Store} {n : Nat} {r : Except Error Expr}
    {t : Store} : Continues x n r t → Resumes x n r t
  | .ok h => .ok h.runs
  | .error => .error

theorem EvaluatesAll.runs {before args : List Expr} {s t : Store} {n : Nat}
    {x : Except Error (List Expr)} (hb : Ready before) :
    EvaluatesAll args s n x t → RunsThrough before args s n t x
  | .nil => ⟨by simpa using hb, fun k r t hk => by simpa using hk⟩
  | .fails h => (runs_in_iff (hb.advances _)).2 (.inr ⟨_, rfl, h.runs⟩)
  | .failsLater h ha => runsThrough_cons hb h.runs (ha.runs (hb.snoc h.runs.isValue))
  | .cons h ha => runsThrough_cons hb h.runs (ha.runs (hb.snoc h.runs.isValue))

theorem EvaluatesForm.runs {f : Form} {scope : Handle} {args : List Expr} {s t : Store} {n : Nat}
    {r : Except Error Expr} :
    EvaluatesForm f scope args s n r t → Runs (.tuple (.procedure (.form f scope) :: args)) s n r t
  | .miscount hk ha => runs_of_error (Form.move_of_miscount hk ha scope) _
  | .defineProcedure ht hp => runs_of_define (by simp only [Form.move, ht, hp]) _
  | .badProcedure ht hp => runs_of_error (by simp only [Form.move, ht, hp]) _
  | .defineName ht hs hv => runs_defineName ht hs hv.runs
  | .valueFails ht hs hv => (runs_in_iff (advances_value scope ht hs)).2 (.inr ⟨_, rfl, hv.runs⟩)
  | .badName ht hs => runs_of_error (by simp only [Form.move, Form.defineName, ht, hs]) _
  | @EvaluatesForm.lambda _ params body _ _ hp =>
    runs_of_become (show Form.lambda.move scope [params, body] = _ from hp)
      (.value (isValue_makeClosure hp))
  | @EvaluatesForm.badLambda _ params body _ _ hp =>
    runs_of_error (show Form.lambda.move scope [params, body] = _ from hp) _
  | .branch ht h => runs_branch ht.runs h.runs
  | .testFails ht => (runs_in_iff (advances_test scope _ _)).2 (.inr ⟨_, rfl, ht.runs⟩)
  | .nothing hc => runs_of_become (hc.move_nil scope) (.value rfl)
  | .settle hc h hs => runs_settle hc h.runs hs
  | .drop hc h hs hr hrest => runs_drop hc h.runs hs hr hrest.runs
  | .firstFails hc h => (runs_in_iff (advances_first hc.eq scope _)).2 (.inr ⟨_, rfl, h.runs⟩)

end

/-! ## From a run to its evaluation -/

/-- Runs of fewer than `n` steps are evaluations, and so are runs of the parts in `n` steps. -/
def Covered (n : Nat) (parts : List Expr) : Prop :=
  ∀ m e s r t, m < n ∨ m ≤ n ∧ e ∈ parts → Runs e s m r t → Evaluates e s m r t

theorem Covered.mono {m n : Nat} {parts parts' : List Expr} (hc : Covered n parts) (hm : m ≤ n)
    (hp : ∀ e ∈ parts', e ∈ parts) : Covered m parts' := by
  intro k e s r t hk
  refine hc k e s r t ?_
  rcases hk with hk | ⟨hk, he⟩
  · exact .inl (by omega)
  · exact .inr ⟨by omega, hp e he⟩

theorem Covered.part {m n : Nat} {parts : List Expr} (hc : Covered n parts) (he : e ∈ parts)
    (hm : m ≤ n) (h : Runs e s m r t) : Evaluates e s m r t :=
  hc m e s r t (.inr ⟨hm, he⟩) h

theorem continues_of_resumes {x : Except Error Expr × Store} {parts : List Expr}
    (hc : Covered n parts) (h : Resumes x n r t) : Continues x n r t := by
  cases h with
  | ok hrun => exact .ok (hc _ _ _ _ _ (.inl (by omega)) hrun)
  | error => exact .error

theorem evaluatesAll_of_runs {before args : List Expr} (hb : Ready before) (hc : Covered n args)
    (h : Runs (.tuple (before ++ args)) s n r t) :
    (∃ k l vs s', n = k + l ∧ EvaluatesAll args s k (.ok vs) s' ∧ Ready (before ++ vs) ∧
      Runs (.tuple (before ++ vs)) s' l r t) ∨
    ∃ err, r = .error err ∧ EvaluatesAll args s n (.error err) t := by
  induction args generalizing before s n with
  | nil => exact .inl ⟨0, n, [], s, by omega, .nil, by simpa using hb, h⟩
  | cons e rest ih =>
    rcases (runs_in_iff (hb.advances rest)).1 h with ⟨m, k, v, s', rfl, hm, hk⟩ | ⟨err, rfl, he⟩
    · have hev : Evaluates e s m (.ok v) s' := hc.part (by simp) (by omega) hm
      have hcov : Covered k rest := hc.mono (by omega) fun x hx => List.mem_cons_of_mem e hx
      have hrest := ih (hb.snoc hm.isValue) hcov (by simpa using hk)
      rcases hrest with ⟨k', l, vs, s'', rfl, ha, hready, hrun⟩ | ⟨err, rfl, ha⟩
      · exact .inl ⟨m + k', l, v :: vs, s'', by omega, .cons hev ha, by simpa using hready,
          by simpa using hrun⟩
      · exact .inr ⟨err, rfl, .failsLater hev ha⟩
    · exact .inr ⟨err, rfl, .fails (hc.part (by simp) (Nat.le_refl n) he)⟩

section

variable {f : Form} {scope : Handle} {args : List Expr}

theorem eq_of_runs_error {err : Error} (hm : f.move scope args = .error err)
    (h : Runs (.tuple (.procedure (.form f scope) :: args)) s n r t) :
    n = 1 ∧ r = .error err ∧ t = s := by
  have hmove : tupleMove (.procedure (.form f scope) :: args) = .error err := hm
  rw [runs_iff_resumes rfl, runOn_step_error hmove] at h
  cases h
  exact ⟨rfl, rfl, rfl⟩

theorem exists_of_runs_become (hm : f.move scope args = .ok (.become e))
    (h : Runs (.tuple (.procedure (.form f scope) :: args)) s n r t) :
    ∃ m, n = m + 1 ∧ Runs e s m r t := by
  have hmove : tupleMove (.procedure (.form f scope) :: args) = .ok (.become e) := hm
  rw [runs_iff_resumes rfl, runOn_step_become hmove] at h
  cases h with
  | ok hrun => exact ⟨_, rfl, hrun⟩

theorem Runs.eq_of_isValue (hv : e.isValue = true) (h : Runs e s n r t) :
    n = 0 ∧ r = .ok e ∧ t = s := by
  cases h with
  | value => exact ⟨rfl, rfl, rfl⟩
  | step hn =>
    rw [hv] at hn
    cases hn
  | error hn =>
    rw [hv] at hn
    cases hn

theorem eq_of_runs_define {g : Handle} {name : String}
    (hm : f.move scope args = .ok (.define g name e))
    (h : Runs (.tuple (.procedure (.form f scope) :: args)) s n r t) :
    n = 1 ∧ r = .ok .void ∧ t = s.defineAround g name e := by
  have hmove : tupleMove (.procedure (.form f scope) :: args) = .ok (.define g name e) := hm
  rw [runs_iff_resumes rfl, runOn_step_define hmove] at h
  cases h with
  | ok hrun =>
    obtain ⟨rfl, rfl, rfl⟩ := hrun.eq_of_isValue rfl
    exact ⟨rfl, rfl, rfl⟩

theorem evaluatesForm_connective {settles : Expr → Bool} {b : Bool} (hf : f.Connects settles b)
    (hc : Covered n args) (h : Runs (.tuple (.procedure (.form f scope) :: args)) s n r t) :
    EvaluatesForm f scope args s n r t := by
  induction args generalizing s n with
  | nil =>
    obtain ⟨m, rfl, hrun⟩ := exists_of_runs_become (hf.move_nil scope) h
    obtain ⟨rfl, rfl, rfl⟩ := hrun.eq_of_isValue rfl
    exact .nothing hf
  | cons first rest ih =>
    rcases (runs_in_iff (advances_first hf.eq scope rest)).1 h with
      ⟨m, k, v, s', rfl, hm, hk⟩ | ⟨err, rfl, he⟩
    · have hfirst : Evaluates first s m (.ok v) s' := hc.part (by simp) (by omega) hm
      have hmove := hf.move_cons scope v rest
      by_cases hs : settles v = true ∨ rest = []
      · -- the argument is the answer
        have hbecome : Form.connective f scope settles v rest = .become v := by
          simp [Form.connective, hm.isValue, hs]
        rw [hbecome] at hmove
        obtain ⟨l, rfl, hrun⟩ := exists_of_runs_become hmove hk
        obtain ⟨rfl, rfl, rfl⟩ := hrun.eq_of_isValue hm.isValue
        exact .settle hf hfirst hs
      · -- the form goes on without the argument
        obtain ⟨hs, hr⟩ := not_or.1 hs
        have hbecome : Form.connective f scope settles v rest =
            .become (.tuple (.procedure (.form f scope) :: rest)) := by
          simp [Form.connective, hm.isValue, hs, hr]
        rw [hbecome] at hmove
        obtain ⟨l, rfl, hrun⟩ := exists_of_runs_become hmove hk
        have hcov : Covered l rest := hc.mono (by omega) fun x hx => List.mem_cons_of_mem first hx
        exact .drop hf hfirst (by simpa using hs) hr (ih hcov hrun)
    · exact .firstFails hf (hc.part (by simp) (Nat.le_refl n) he)

end

variable {scope : Handle} {args : List Expr}

theorem evaluatesForm_miscount {f : Form} {k : Nat} (hk : f.count? = some k) (ha : args.length ≠ k)
    (h : Runs (.tuple (.procedure (.form f scope) :: args)) s n r t) :
    EvaluatesForm f scope args s n r t := by
  obtain ⟨rfl, rfl, rfl⟩ := eq_of_runs_error (Form.move_of_miscount hk ha scope) h
  exact .miscount hk ha

theorem evaluatesForm_define {target value : Expr} (hc : Covered n [target, value])
    (h : Runs (.tuple [.procedure (.form .define scope), target, value]) s n r t) :
    EvaluatesForm .define scope [target, value] s n r t := by
  cases ht : target.tupleSource? with
  | some signature =>
    have hmove : Form.define.move scope [target, value] =
        Form.defineProcedure scope signature value := by
      simp only [Form.move, ht]
    cases hp : Form.defineProcedure scope signature value with
    | error err =>
      obtain ⟨rfl, rfl, rfl⟩ := eq_of_runs_error (hmove.trans hp) h
      exact .badProcedure ht hp
    | ok m =>
      obtain ⟨name, params, body, rfl, -⟩ := Form.defineProcedure_eq_ok hp
      obtain ⟨rfl, rfl, rfl⟩ := eq_of_runs_define (hmove.trans hp) h
      exact .defineProcedure ht hp
  | none =>
    have hmove : ∀ v, Form.define.move scope [target, v] = Form.defineName scope target v := by
      intro v
      simp only [Form.move, ht]
    cases hs : target.symbol? with
    | none =>
      have hbad : Form.define.move scope [target, value] =
          .error (Form.define.fault (.cannotBind target.text)) := by
        simp only [hmove, Form.defineName, hs]
      obtain ⟨rfl, rfl, rfl⟩ := eq_of_runs_error hbad h
      exact .badName ht hs
    | some name =>
      rcases (runs_in_iff (advances_value scope ht hs)).1 h with
        ⟨m, k, v, s', rfl, hm, hk⟩ | ⟨err, rfl, he⟩
      · have hdefine : Form.define.move scope [target, v] =
            .ok (.define scope name (v.named name)) := by
          simp only [hmove, Form.defineName, hs, hm.isValue, if_true]
        obtain ⟨rfl, rfl, rfl⟩ := eq_of_runs_define hdefine hk
        exact .defineName ht hs (hc.part (by simp) (by omega) hm)
      · exact .valueFails ht hs (hc.part (by simp) (Nat.le_refl n) he)

theorem evaluatesForm_lambda {params body : Expr}
    (h : Runs (.tuple [.procedure (.form .lambda scope), params, body]) s n r t) :
    EvaluatesForm .lambda scope [params, body] s n r t := by
  have hmove : Form.lambda.move scope [params, body] = Form.makeClosure scope params body := rfl
  cases hp : Form.makeClosure scope params body with
  | error err =>
    obtain ⟨rfl, rfl, rfl⟩ := eq_of_runs_error (hmove.trans hp) h
    exact .badLambda hp
  | ok m =>
    obtain ⟨_, _, _, rfl, -⟩ := Form.makeClosure_eq_ok hp
    obtain ⟨m, rfl, hrun⟩ := exists_of_runs_become (hmove.trans hp) h
    obtain ⟨rfl, rfl, rfl⟩ := hrun.eq_of_isValue rfl
    exact .lambda hp

theorem evaluatesForm_if {test yes no : Expr} (hc : Covered n [test, yes, no])
    (h : Runs (.tuple [.procedure (.form .ifElse scope), test, yes, no]) s n r t) :
    EvaluatesForm .ifElse scope [test, yes, no] s n r t := by
  rcases (runs_in_iff (advances_test scope yes no)).1 h with
    ⟨m, k, v, s', rfl, hm, hk⟩ | ⟨err, rfl, he⟩
  · have hmove : Form.ifElse.move scope [v, yes, no] =
        .ok (.become (if v.isFalse then no else yes)) := by
      simp [Form.move, hm.isValue]
    obtain ⟨l, rfl, hrun⟩ := exists_of_runs_become hmove hk
    exact .branch (hc.part (by simp) (by omega) hm) (hc _ _ _ _ _ (.inl (by omega)) hrun)
  · exact .testFails (hc.part (by simp) (Nat.le_refl n) he)

theorem evaluatesForm_of_runs {f : Form} (hc : Covered n args)
    (h : Runs (.tuple (.procedure (.form f scope) :: args)) s n r t) :
    EvaluatesForm f scope args s n r t := by
  cases f with
  | define =>
    rcases args with _ | ⟨target, _ | ⟨value, _ | ⟨x, rest⟩⟩⟩
    · exact evaluatesForm_miscount rfl (by simp) h
    · exact evaluatesForm_miscount rfl (by simp) h
    · exact evaluatesForm_define hc h
    · exact evaluatesForm_miscount rfl (by simp) h
  | lambda =>
    rcases args with _ | ⟨params, _ | ⟨body, _ | ⟨x, rest⟩⟩⟩
    · exact evaluatesForm_miscount rfl (by simp) h
    · exact evaluatesForm_miscount rfl (by simp) h
    · exact evaluatesForm_lambda h
    · exact evaluatesForm_miscount rfl (by simp) h
  | ifElse =>
    rcases args with _ | ⟨test, _ | ⟨yes, _ | ⟨no, _ | ⟨x, rest⟩⟩⟩⟩
    · exact evaluatesForm_miscount rfl (by simp) h
    · exact evaluatesForm_miscount rfl (by simp) h
    · exact evaluatesForm_miscount rfl (by simp) h
    · exact evaluatesForm_if hc h
    · exact evaluatesForm_miscount rfl (by simp) h
  | and => exact evaluatesForm_connective .and hc h
  | or => exact evaluatesForm_connective .or hc h

theorem evaluates_tuple {head : Expr} (hc : Covered n (head :: args))
    (h : Runs (.tuple (head :: args)) s n r t) : Evaluates (.tuple (head :: args)) s n r t := by
  rcases (runs_in_iff (advances_head args)).1 h with ⟨m, k, v, s', rfl, hm, hk⟩ | ⟨err, rfl, he⟩
  · have hhead : Evaluates head s m (.ok v) s' := hc.part (by simp) (by omega) hm
    have hcov : Covered k args := hc.mono (by omega) fun x hx => List.mem_cons_of_mem head hx
    cases hf : v.isForm with
    | true =>
      obtain ⟨f, scope, rfl⟩ := Expr.eq_form_of_isForm hf
      exact .form hhead (evaluatesForm_of_runs hcov hk)
    | false =>
      have hready : Ready [v] := ⟨v, [], rfl, hf, by simpa using hm.isValue⟩
      rcases evaluatesAll_of_runs hready hcov hk with
        ⟨l, j, vs, s'', rfl, ha, hready', hrun⟩ | ⟨err, rfl, ha⟩
      · have hcov' : Covered j [] := hcov.mono (by omega) (by simp)
        exact .apply hhead hf ha (continues_of_resumes hcov' ((runs_apply_iff hready').1 hrun))
      · exact .argumentFails hhead hf ha
  · exact .headFails (hc.part (by simp) (Nat.le_refl n) he)

theorem Runs.evaluates (h : Runs e s n r t) : Evaluates e s n r t := by
  -- on the number of steps, and for one number on the size of the expression
  induction n using Nat.strongRecOn generalizing e s r t with
  | ind n hfewer =>
    induction hsize : sizeOf e using Nat.strongRecOn generalizing e s r t with
    | ind size hsmaller =>
      have hcov : Covered n [] := by
        rintro m e s r t (hm | ⟨-, he⟩) h
        · exact hfewer m hm h
        · cases he
      cases e with
      | pending tokens scope =>
        exact .pending (continues_of_resumes hcov ((runs_iff_resumes rfl).1 h))
      | deferred token scope =>
        exact .deferred (continues_of_resumes hcov ((runs_iff_resumes rfl).1 h))
      | tuple members =>
        cases members with
        | nil =>
          rw [runs_iff_resumes rfl, runOn_step_error rfl] at h
          cases h
          exact .empty
        | cons head args =>
          refine evaluates_tuple (fun m e s r t hm hrun => ?_) h
          rcases hm with hm | ⟨hm, he⟩
          · exact hfewer m hm hrun
          · have hlt := List.sizeOf_lt_of_mem he
            rcases Nat.lt_or_eq_of_le hm with hm | rfl
            · exact hfewer m hm hrun
            · refine hsmaller (sizeOf e) ?_ hrun rfl
              simp only [Expr.tuple.sizeOf_spec] at hsize
              omega
      | procedure | number | boolean | void =>
        obtain ⟨rfl, rfl, rfl⟩ := h.eq_of_isValue rfl
        exact .value rfl

theorem evaluates_iff_runs : Evaluates e s n r t ↔ Runs e s n r t :=
  ⟨Evaluates.runs, Runs.evaluates⟩

/-- Single steps come to what evaluation in one piece comes to, whenever that takes no more steps
than the limit allows, and are cut short otherwise. -/
theorem reduce_iff_evaluates (it : Interpreter) (e : Expr) (r : Except Error Expr) (t : Store) :
    (it.reduce e = (r, ⟨t, it.global, it.settings⟩) ∧
      r ≠ .error (.evaluation (.stepLimit it.settings.stepLimit))) ↔
      ∃ n ≤ it.settings.stepLimit, Evaluates e it.store n r t := by
  have hreduce : it.reduce e = (r, ⟨t, it.global, it.settings⟩) ↔
      reduce it.settings.stepLimit e it.store = (r, t) := by
    simp only [Interpreter.reduce, Prod.ext_iff, Interpreter.mk.injEq, and_true]
  simp only [hreduce, reduce_iff_runs, evaluates_iff_runs]

end Stepwise
