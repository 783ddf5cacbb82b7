import Stepwise.Proofs.Eval.Move
import Stepwise.Proofs.Procedure.Answers
/-!
# Steps do not know the limit

Only the reducer counts steps. No single step fails with the error that says they are used up
(`neverLimits_step`), so that this error always comes from the count.
-/

namespace Stepwise

variable {α β : Type}

/-- The error, if there is one, does not say that the steps are used up. -/
def Unlimited (x : Except Error α) : Prop :=
  ∀ limit, x ≠ .error (.evaluation (.stepLimit limit))

theorem unlimited_ok (a : α) : Unlimited (.ok a) := by
  intro limit h
  cases h

theorem Unlimited.bind {x : Except Error α} {k : α → Except Error β} (hx : Unlimited x)
    (hk : ∀ a, Unlimited (k a)) : Unlimited (x >>= k) := by
  cases x with
  | ok a => exact hk a
  | error err =>
    intro limit h
    cases h
    exact hx limit rfl

theorem Unlimited.map {x : Except Error α} (hx : Unlimited x) (f : α → β) :
    Unlimited (x.map f) := by
  cases x with
  | ok a => exact unlimited_ok _
  | error err =>
    intro limit h
    cases h
    exact hx limit rfl

/-! ## Moves -/

namespace Form

theorem unlimited_names (text : String) : Unlimited (names text) := by
  unfold names
  cases Token.members text with
  | ok ms => exact unlimited_ok ms
  | error err => exact fun limit h => by cases h

theorem unlimited_checkParams (f : Form) (params : List String) :
    Unlimited (f.checkParams params) := by
  unfold checkParams
  split
  · exact fun limit h => by cases h
  · exact unlimited_ok _

theorem unlimited_body (f : Form) (e : Expr) : Unlimited (f.body e) := by
  unfold body
  split
  · exact unlimited_ok _
  · exact fun limit h => by cases h

theorem unlimited_defineProcedure (scope : Handle) (signature : String) (value : Expr) :
    Unlimited (defineProcedure scope signature value) := by
  refine (unlimited_body _ _).bind fun body => (unlimited_names _).bind fun names => ?_
  cases names with
  | nil => exact fun limit h => by cases h
  | cons name params =>
    simp only
    split
    · exact (unlimited_checkParams _ _).bind fun params => unlimited_ok _
    · exact fun limit h => by cases h

theorem unlimited_defineName (scope : Handle) (target value : Expr) :
    Unlimited (defineName scope target value) := by
  unfold defineName
  split
  · exact fun limit h => by cases h
  · split
    · exact unlimited_ok _
    · exact unlimited_ok _

theorem unlimited_makeClosure (scope : Handle) (params body : Expr) :
    Unlimited (makeClosure scope params body) := by
  unfold makeClosure
  split
  · exact fun limit h => by cases h
  · refine (unlimited_names _).bind fun names => (unlimited_checkParams _ _).bind fun params => ?_
    exact (unlimited_body _ _).bind fun body => unlimited_ok _

theorem unlimited_move (f : Form) (scope : Handle) (args : List Expr) :
    Unlimited (f.move scope args) := by
  fun_cases move f scope args
  case case1 => exact unlimited_defineProcedure _ _ _
  case case2 => exact unlimited_defineName _ _ _
  case case4 => exact unlimited_makeClosure _ _ _
  all_goals exact fun limit h => by cases h

end Form

theorem unlimited_headMove (head : Expr) (args : List Expr) : Unlimited (head.headMove args) := by
  cases head with
  | procedure p =>
    cases p with
    | form f scope => exact f.unlimited_move scope args
    | closure c => exact unlimited_ok _
    | builtin b =>
      have ha := b.answers_apply args
      simp only [Expr.headMove, Procedure.move]
      generalize b.apply args = x at ha
      cases ha <;> exact fun limit h => by cases h
  | _ => exact fun limit h => by cases h

theorem unlimited_tupleMove (members : List Expr) : Unlimited (tupleMove members) := by
  cases members with
  | nil => exact fun limit h => by cases h
  | cons head args =>
    cases hf : head.isForm with
    | true =>
      obtain ⟨f, scope, rfl⟩ := Expr.eq_form_of_isForm hf
      exact f.unlimited_move scope args
    | false =>
      rw [tupleMove_of_not_form hf]
      split
      · exact unlimited_ok _
      · exact unlimited_headMove head args

/-! ## Actions -/

namespace Action

/-- Whatever the store, the action does not say that the steps are used up. -/
def NeverLimits (m : Eval α) : Prop :=
  ∀ s, Unlimited (m.runOn s).1

theorem NeverLimits.bind {m : Eval α} {k : α → Eval β} (hm : NeverLimits m)
    (hk : ∀ a, NeverLimits (k a)) : NeverLimits (m >>= k) := by
  intro s
  have hs := hm s
  rw [Action.runOn_bind]
  generalize m.runOn s = x at hs
  obtain ⟨err | a, s'⟩ := x
  · intro limit h
    cases h
    exact hs limit rfl
  · exact hk a s'

theorem NeverLimits.mapM {f : α → Eval β} (hf : ∀ a, NeverLimits (f a)) (as : List α) :
    NeverLimits (as.mapM f) := by
  induction as with
  | nil => exact fun s => unlimited_ok _
  | cons a rest ih =>
    rw [List.mapM_cons]
    exact (hf a).bind fun b => ih.bind fun bs s => unlimited_ok _

end Action

theorem neverLimits_readMember (token : String) (scope : Handle) :
    Action.NeverLimits (readMember token scope) := by
  intro s
  unfold readMember
  rw [Action.runOn_adapt]
  cases ((read token scope).runOn s).1 with
  | ok e => exact unlimited_ok e
  | error err => cases err <;> exact fun limit h => by cases h

theorem neverLimits_expandNested {chase : List String → Handle → Eval Expr}
    (hc : ∀ tokens scope, Action.NeverLimits (chase tokens scope)) (depth : Nat) (tokens : List String)
    (scope : Handle) : Action.NeverLimits (expandNested chase depth tokens scope) := by
  induction depth generalizing tokens scope with
  | zero => exact fun s limit h => by cases h
  | succ depth ih =>
    have hmember : ∀ token,
        Action.NeverLimits (shapeMember (expandNested chase depth) chase token scope) := by
      intro token
      refine (neverLimits_readMember token scope).bind fun e => ?_
      cases e with
      | pending inner innerScope =>
        simp only
        split
        · exact ih inner innerScope
        · exact hc inner innerScope
      | _ => exact fun s => unlimited_ok _
    unfold expandNested
    cases tokens with
    | nil => exact fun s => unlimited_ok _
    | cons first rest =>
      refine (hmember first).bind fun head => ?_
      split
      · exact fun s => unlimited_ok _
      · exact (Action.NeverLimits.mapM hmember rest).bind fun es s => unlimited_ok _

theorem neverLimits_expandBound (n : Nat) (tokens : List String) (scope : Handle) :
    Action.NeverLimits (expandBound n tokens scope) := by
  induction n generalizing tokens scope with
  | zero => exact fun s limit h => by cases h
  | succ n ih => exact neverLimits_expandNested ih _ tokens scope

theorem neverLimits_expand (tokens : List String) (scope : Handle) :
    Action.NeverLimits (expand tokens scope) := by
  refine neverLimits_expandNested (fun inner innerScope s => ?_) _ tokens scope
  rw [Action.runOn_bind, Action.runOn_get]
  exact neverLimits_expandBound _ inner innerScope s

theorem neverLimits_enter (c : Closure) (args : List Expr) : Action.NeverLimits (c.enter args) := by
  unfold Closure.enter
  split
  · intro s
    simp only [Action.runOn_bind, Action.runOn_newScope, Action.runOn_modify]
    exact neverLimits_readMember _ _ _
  · exact fun s limit h => by cases h

/-- A step never says that the steps are used up. -/
theorem neverLimits_step (e : Expr) : Action.NeverLimits (step e) := by
  intro s
  induction e using step_induction with
  | advance before e after hmove ih =>
    rw [runOn_step_advance hmove]
    exact ih.map _
  | base e hbase =>
    cases e with
    | pending tokens scope => exact neverLimits_expand tokens scope s
    | deferred token scope => exact neverLimits_readMember token scope s
    | tuple members =>
      have hmove := unlimited_tupleMove members
      cases hm : tupleMove members with
      | error err =>
        rw [runOn_step_error hm]
        intro limit h
        cases h
        exact hmove limit hm
      | ok m =>
        cases m with
        | advance place => exact (hbase members place rfl hm).elim
        | become e =>
          rw [runOn_step_become hm]
          exact unlimited_ok _
        | define scope name value =>
          rw [runOn_step_define hm]
          exact unlimited_ok _
        | enter c args =>
          rw [runOn_step_enter hm]
          exact neverLimits_enter c args s
    | procedure p => exact unlimited_ok _
    | number x => exact unlimited_ok _
    | boolean b => exact unlimited_ok _
    | void => exact unlimited_ok _

end Stepwise
