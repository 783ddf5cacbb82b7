import Stepwise.Eval.Step
/-!
# The moves there are

`Moves members m` lists every way in which a tuple can make a move that is no error, with what the
move presupposes. Statements about a step are case analyses over it, so that none of them looks
into the forms again.
-/

namespace Stepwise

/-- A tuple of `members` makes the move `m`. -/
inductive Moves : List Expr → Move → Prop
  | advance {head : Expr} {args : List Expr} {place : Nat} : head.isForm = false →
      Expr.firstUnreduced? (head :: args) = some place → Moves (head :: args) (.advance place)
  | advanceValue {scope : Handle} {target value : Expr} {name : String} :
      target.tupleSource? = none → target.symbol? = some name → value.isValue = false →
      Moves [.procedure (.form .define scope), target, value] (.advance 2)
  | advanceTest {scope : Handle} {test yes no : Expr} : test.isValue = false →
      Moves [.procedure (.form .ifElse scope), test, yes, no] (.advance 1)
  | advanceFirst {f : Form} {scope : Handle} {first : Expr} {rest : List Expr} :
      f = .and ∨ f = .or → first.isValue = false →
      Moves (.procedure (.form f scope) :: first :: rest) (.advance 1)
  | builtin {b : Builtin} {args : List Expr} {e : Expr} : b.apply args = .ok e →
      Moves (.procedure (.builtin b) :: args) (.become e)
  | enter {c : Closure} {args : List Expr} : (∀ a ∈ args, a.isValue = true) →
      Moves (.procedure (.closure c) :: args) (.enter c args)
  | defineProcedure {scope : Handle} {target value : Expr} {signature name body : String}
      {params : List String} :
      target.tupleSource? = some signature → value.source? = some body →
      Token.members signature = .ok (name :: params) →
      Moves [.procedure (.form .define scope), target, value]
        (.define scope name (.procedure (.closure ⟨some name, params, body, scope⟩)))
  | defineName {scope : Handle} {target value : Expr} {name : String} :
      target.symbol? = some name → value.isValue = true →
      Moves [.procedure (.form .define scope), target, value]
        (.define scope name (value.named name))
  | lambda {scope : Handle} {target value : Expr} {signature body : String} {params : List String} :
      target.tupleSource? = some signature → value.source? = some body →
      Token.members signature = .ok params →
      Moves [.procedure (.form .lambda scope), target, value]
        (.become (.procedure (.closure ⟨none, params, body, scope⟩)))
  | branch {scope : Handle} {test yes no : Expr} : test.isValue = true →
      Moves [.procedure (.form .ifElse scope), test, yes, no]
        (.become (if test.isFalse then no else yes))
  | nothing {f : Form} {scope : Handle} {b : Bool} : Moves [.procedure (.form f scope)] (.become (.boolean b))
  | settle {f : Form} {scope : Handle} {first : Expr} {rest : List Expr} : first.isValue = true →
      Moves (.procedure (.form f scope) :: first :: rest) (.become first)
  | drop {f : Form} {scope : Handle} {first : Expr} {rest : List Expr} : f = .and ∨ f = .or →
      Moves (.procedure (.form f scope) :: first :: rest)
        (.become (.tuple (.procedure (.form f scope) :: rest)))

/-! ## Ordinary tuples -/

theorem firstUnreduced?_eq_some {members : List Expr} {place : Nat}
    (h : Expr.firstUnreduced? members = some place) :
    ∃ before e after, members = before ++ e :: after ∧ before.length = place ∧ e.isValue = false := by
  unfold Expr.firstUnreduced? at h
  obtain ⟨hlt, he, -⟩ := List.findIdx?_eq_some_iff_getElem.1 h
  refine ⟨members.take place, members[place], members.drop (place + 1), ?_, ?_, ?_⟩
  · rw [List.getElem_cons_drop, List.take_append_drop]
  · rw [List.length_take]
    omega
  · simpa using he

theorem firstUnreduced?_eq_none {members : List Expr} :
    Expr.firstUnreduced? members = none ↔ ∀ e ∈ members, e.isValue = true := by
  simp [Expr.firstUnreduced?, List.findIdx?_eq_none_iff]

/-- The move of a head whose arguments are all reduced. -/
def Expr.headMove (head : Expr) (args : List Expr) : Except Error Move :=
  match head with
  | .procedure p => p.move args
  | head => .error (.evaluation (.notProcedure head.text))

/-- The move of a tuple whose head is no special form. -/
theorem tupleMove_of_not_form {head : Expr} {args : List Expr} (hf : head.isForm = false) :
    tupleMove (head :: args) =
      match Expr.firstUnreduced? (head :: args) with
      | some place => .ok (.advance place)
      | none => head.headMove args := by
  cases hu : Expr.firstUnreduced? (head :: args) with
  | some place =>
    cases head with
    | procedure p =>
      cases p with
      | form f scope => cases hf
      | _ => simp only [tupleMove, hu]
    | _ => simp only [tupleMove, hu]
  | none =>
    cases head with
    | procedure p =>
      cases p with
      | form f scope => cases hf
      | _ => simp only [tupleMove, hu, Expr.headMove]
    | _ => simp only [tupleMove, hu, Expr.headMove]

/-! ## Special forms -/

namespace Form

theorem body_eq_ok {f : Form} {e : Expr} {text : String} (h : f.body e = .ok text) :
    e.source? = some text := by
  unfold body at h
  split at h
  · rename_i hs
    cases h
    exact hs
  · cases h

theorem names_eq_ok {text : String} {ms : List String} (h : names text = .ok ms) :
    Token.members text = .ok ms := by
  unfold names at h
  cases hm : Token.members text with
  | error err =>
    rw [hm] at h
    cases h
  | ok ns =>
    rw [hm] at h
    cases h
    rfl

theorem checkParams_eq_ok {f : Form} {params ps : List String} (h : f.checkParams params = .ok ps) :
    params = ps := by
  unfold checkParams at h
  split at h
  · cases h
  · cases h
    rfl

theorem defineProcedure_eq_ok {scope : Handle} {value : Expr} {signature : String} {m : Move}
    (h : defineProcedure scope signature value = .ok m) :
    ∃ name params body, m = .define scope name (.procedure (.closure ⟨some name, params, body, scope⟩)) ∧
      value.source? = some body ∧ Token.members signature = .ok (name :: params) := by
  unfold defineProcedure at h
  cases hb : Form.define.body value with
  | error err =>
    rw [hb] at h
    cases h
  | ok body =>
    cases hn : names signature with
    | error err =>
      rw [hb, hn] at h
      cases h
    | ok ms =>
      rw [hb, hn] at h
      cases ms with
      | nil => cases h
      | cons name params =>
        simp only [bind, Except.bind] at h
        split at h
        · cases hp : Form.define.checkParams params with
          | error err =>
            rw [hp] at h
            cases h
          | ok ps =>
            rw [hp] at h
            obtain rfl := checkParams_eq_ok hp
            cases h
            exact ⟨name, params, body, rfl, body_eq_ok hb, names_eq_ok hn⟩
        · cases h

theorem makeClosure_eq_ok {scope : Handle} {target value : Expr} {m : Move}
    (h : makeClosure scope target value = .ok m) :
    ∃ signature params body, m = .become (.procedure (.closure ⟨none, params, body, scope⟩)) ∧
      target.tupleSource? = some signature ∧ value.source? = some body ∧
      Token.members signature = .ok params := by
  unfold makeClosure at h
  cases ht : target.tupleSource? with
  | none =>
    rw [ht] at h
    cases h
  | some signature =>
    rw [ht] at h
    simp only [bind, Except.bind] at h
    cases hn : names signature with
    | error err =>
      rw [hn] at h
      cases h
    | ok ms =>
      rw [hn] at h
      simp only at h
      cases hp : Form.lambda.checkParams ms with
      | error err =>
        rw [hp] at h
        cases h
      | ok ps =>
        rw [hp] at h
        simp only at h
        obtain rfl := checkParams_eq_ok hp
        cases hb : Form.lambda.body value with
        | error err =>
          rw [hb] at h
          cases h
        | ok body =>
          rw [hb] at h
          cases h
          exact ⟨signature, ms, body, rfl, rfl, body_eq_ok hb, names_eq_ok hn⟩

theorem moves_defineName {scope : Handle} {target value : Expr} {m : Move}
    (ht : target.tupleSource? = none) (h : defineName scope target value = .ok m) :
    Moves [.procedure (.form .define scope), target, value] m := by
  unfold defineName at h
  cases hs : target.symbol? with
  | none =>
    rw [hs] at h
    cases h
  | some name =>
    rw [hs] at h
    simp only at h
    split at h
    · rename_i hv
      cases h
      exact .defineName hs hv
    · rename_i hv
      cases h
      exact .advanceValue ht hs (by simpa using hv)

theorem moves_connective {f : Form} {scope : Handle} {settles : Expr → Bool} {first : Expr}
    {rest : List Expr} (hf : f = .and ∨ f = .or) :
    Moves (.procedure (.form f scope) :: first :: rest) (connective f scope settles first rest) := by
  unfold connective
  split
  · rename_i hv
    exact .advanceFirst hf (by simpa using hv)
  · rename_i hv
    split
    · exact .settle (by simpa using hv)
    · exact .drop hf

theorem moves_of_move {f : Form} {scope : Handle} {args : List Expr} {m : Move}
    (h : f.move scope args = .ok m) : Moves (.procedure (.form f scope) :: args) m := by
  revert h
  fun_cases move f scope args with
  | case1 target value signature ht =>
    intro h
    obtain ⟨name, params, body, rfl, hb, hn⟩ := defineProcedure_eq_ok h
    exact .defineProcedure ht hb hn
  | case2 target value ht =>
    intro h
    exact moves_defineName ht h
  | case4 target value =>
    intro h
    obtain ⟨signature, params, body, rfl, ht, hb, hn⟩ := makeClosure_eq_ok h
    exact .lambda ht hb hn
  | case6 test yes no hv =>
    intro h
    cases h
    exact .advanceTest (by simpa using hv)
  | case7 test yes no hv =>
    intro h
    cases h
    exact .branch (by simpa using hv)
  | case9 | case11 =>
    intro h
    cases h
    exact .nothing
  | case10 first rest =>
    intro h
    cases h
    exact moves_connective (.inl rfl)
  | case12 first rest =>
    intro h
    cases h
    exact moves_connective (.inr rfl)
  | case3 | case5 | case8 =>
    intro h
    cases h

end Form

theorem Expr.eq_form_of_isForm {e : Expr} (h : e.isForm = true) :
    ∃ f scope, e = .procedure (.form f scope) := by
  unfold isForm at h
  split at h
  · exact ⟨_, _, rfl⟩
  · cases h

theorem Expr.isForm_of_not_value {e : Expr} (hv : e.isValue = false) : e.isForm = false := by
  cases e with
  | procedure p => cases hv
  | _ => rfl

theorem moves_of_headMove {head : Expr} {args : List Expr} {m : Move} (hf : head.isForm = false)
    (hv : ∀ a ∈ args, a.isValue = true) (h : head.headMove args = .ok m) : Moves (head :: args) m := by
  cases head with
  | procedure p =>
    cases p with
    | form f scope => cases hf
    | builtin b =>
      simp only [Expr.headMove, Procedure.move] at h
      cases hb : b.apply args with
      | error err =>
        rw [hb] at h
        cases h
      | ok e =>
        rw [hb] at h
        cases h
        exact .builtin hb
    | closure c =>
      cases h
      exact .enter hv
  | _ => cases h

/-- Every move of a tuple is one of those listed. -/
theorem moves_of_tupleMove {members : List Expr} {m : Move} (h : tupleMove members = .ok m) :
    Moves members m := by
  cases members with
  | nil => cases h
  | cons head args =>
    cases hf : head.isForm with
    | true =>
      obtain ⟨f, scope, rfl⟩ := Expr.eq_form_of_isForm hf
      exact Form.moves_of_move h
    | false =>
      rw [tupleMove_of_not_form hf] at h
      cases hu : Expr.firstUnreduced? (head :: args) with
      | some place =>
        rw [hu] at h
        cases h
        exact .advance hf hu
      | none =>
        rw [hu] at h
        exact moves_of_headMove hf (fun a ha => firstUnreduced?_eq_none.1 hu a (by simp [ha])) h

/-- The member that takes a step is no value. -/
theorem Moves.advance_split {members : List Expr} {place : Nat}
    (h : Moves members (.advance place)) :
    ∃ before e after, members = before ++ e :: after ∧ before.length = place ∧ e.isValue = false := by
  cases h with
  | advance _ hu => exact firstUnreduced?_eq_some hu
  | advanceValue _ _ hv => exact ⟨[_, _], _, [], rfl, rfl, hv⟩
  | advanceTest hv => exact ⟨[_], _, [_, _], rfl, rfl, hv⟩
  | advanceFirst _ hv => exact ⟨[_], _, _, rfl, rfl, hv⟩

/-! ## A step by its move -/

theorem runOn_stepAt (before after : List Expr) (e : Expr) (s : Store) :
    (stepAt before.length (before ++ e :: after)).runOn s =
      (((step e).runOn s).1.map fun e' => before ++ e' :: after, ((step e).runOn s).2) := by
  induction before with
  | nil =>
    simp only [List.length_nil, List.nil_append, stepAt, Action.runOn_bind, Action.runOn_pure]
    rcases (step e).runOn s with ⟨r | r, t⟩ <;> rfl
  | cons b rest ih =>
    simp only [List.length_cons, List.cons_append, stepAt, Action.runOn_bind, Action.runOn_pure, ih]
    rcases (step e).runOn s with ⟨r | r, t⟩ <;> rfl

/-- A tuple that advances a member steps as the member does. -/
theorem runOn_step_advance {before after : List Expr} {e : Expr}
    (h : tupleMove (before ++ e :: after) = .ok (.advance before.length)) (s : Store) :
    (step (.tuple (before ++ e :: after))).runOn s =
      (((step e).runOn s).1.map fun e' => .tuple (before ++ e' :: after), ((step e).runOn s).2) := by
  rw [step, h]
  simp only [Action.runOn_bind, Action.runOn_pure, runOn_stepAt]
  rcases (step e).runOn s with ⟨r | r, t⟩ <;> rfl

theorem runOn_step_error {members : List Expr} {err : Error} (h : tupleMove members = .error err)
    (s : Store) : (step (.tuple members)).runOn s = (.error err, s) := by
  rw [step, h]
  rfl

theorem runOn_step_become {members : List Expr} {e : Expr} (h : tupleMove members = .ok (.become e))
    (s : Store) : (step (.tuple members)).runOn s = (.ok e, s) := by
  rw [step, h]
  rfl

theorem runOn_step_define {members : List Expr} {scope : Handle} {name : String} {value : Expr}
    (h : tupleMove members = .ok (.define scope name value)) (s : Store) :
    (step (.tuple members)).runOn s = (.ok .void, s.defineAround scope name value) := by
  rw [step, h]
  rfl

theorem runOn_step_enter {members : List Expr} {c : Closure} {args : List Expr}
    (h : tupleMove members = .ok (.enter c args)) (s : Store) :
    (step (.tuple members)).runOn s = (c.enter args).runOn s := by
  rw [step, h]

/-- What holds of every expression that does not step inside a tuple, and of a tuple when it holds
of the member that takes the step, holds of all. -/
theorem step_induction {motive : Expr → Prop}
    (base : ∀ e, (∀ members place, e = .tuple members → tupleMove members ≠ .ok (.advance place)) →
      motive e)
    (advance : ∀ before e after, tupleMove (before ++ e :: after) = .ok (.advance before.length) →
      motive e → motive (.tuple (before ++ e :: after)))
    (e : Expr) : motive e := by
  by_cases h : ∃ members place, e = .tuple members ∧ tupleMove members = .ok (.advance place)
  · obtain ⟨members, place, rfl, hm⟩ := h
    obtain ⟨before, e, after, rfl, rfl, -⟩ := (moves_of_tupleMove hm).advance_split
    exact advance before e after hm (step_induction base advance e)
  · exact base e fun members place he hm => h ⟨members, place, he, hm⟩
termination_by sizeOf e
decreasing_by
  subst_vars
  have hlt := List.sizeOf_lt_of_mem (List.mem_append_right before (List.mem_cons_self (a := e) (l := after)))
  simp only [Expr.tuple.sizeOf_spec]
  omega

end Stepwise
