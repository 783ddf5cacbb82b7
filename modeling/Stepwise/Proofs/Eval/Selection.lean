import Stepwise.Proofs.Eval.BigStep
import Stepwise.Proofs.Eval.Expansion
import Stepwise.Proofs.Session.Liveness
import Stepwise.Proofs.Substitution.Text
/-!
# Arguments that a form does not select

`if` reduces its test and becomes one of its branches; `and` and `or` stop at the first argument
that settles them. Until then the other arguments are carried along as source, from state to state,
and nothing is read or made on their account. So a line comes to the same answer or error, and
leaves the same store, with any other source in their places
(`Interpreter.evaluate_ignores_unselected`).
-/

namespace Stepwise

variable {e v : Expr} {s t : Store} {g home : Handle} {n limit left : Nat} {f : Form}

/-! ## What stands behind the member that is reduced -/

theorem Runs.unique {n' : Nat} {r r' : Except Error Expr} {t' : Store} (h : Runs e s n r t)
    (h' : Runs e s n' r' t') : n = n' ∧ r = r' ∧ t = t' := by
  induction h generalizing n' with
  | value hv =>
    cases h' with
    | value => exact ⟨rfl, rfl, rfl⟩
    | step hv' | error hv' =>
      rw [hv] at hv'
      cases hv'
  | step hv hs _ ih =>
    rw [runs_iff_resumes hv, hs] at h'
    cases h' with
    | ok hrest =>
      obtain ⟨rfl, hr, ht⟩ := ih hrest
      exact ⟨rfl, hr, ht⟩
  | error hv hs =>
    rw [runs_iff_resumes hv, hs] at h'
    cases h'
    exact ⟨rfl, rfl, rfl⟩

theorem exists_runs_of_reduce (limit : Nat) (e : Expr) (s : Store) {p : Expr → Bool}
    (h : (reduce limit e s).1.toOption.any p = true) :
    ∃ n v, Runs e s n (.ok v) (reduce limit e s).2 ∧ p v = true := by
  rcases hx : reduce limit e s with ⟨err | v, t⟩
  all_goals rw [hx] at h
  · cases h
  · obtain ⟨n, -, hrun⟩ := runs_of_reduceWithin hx (by simp)
    exact ⟨n, v, hrun, h⟩

theorem reduceWithin_zero_of_not_value (hv : e.isValue = false) (limit : Nat) (s : Store) :
    reduceWithin limit 0 e s = (.error (.evaluation (.stepLimit limit)), s) := by
  unfold reduceWithin
  simp only [hv, Bool.false_eq_true, if_false]

theorem reduceWithin_succ_of_not_value (hv : e.isValue = false) (limit left : Nat) (s : Store) :
    reduceWithin limit (left + 1) e s =
      match (step e).runOn s with
      | (.ok next, s) => reduceWithin limit left next s
      | (.error err, s) => (.error err, s) := by
  rcases hx : (step e).runOn s with ⟨err | next, t⟩
  · conv_lhs => unfold reduceWithin
    simp only [hv, Bool.false_eq_true, if_false, hx]
  · conv_lhs => unfold reduceWithin
    simp only [hv, Bool.false_eq_true, if_false, hx]

/-- Two tuples that advance the same member come to the same, if they do so around every value that
the member comes to while there are steps left. -/
theorem reduceWithin_tuple_congr {before after after' : List Expr} (ha : Advances before after)
    (ha' : Advances before after')
    (h : ∀ n v t, Runs e s n (.ok v) t → n < left →
      reduceWithin limit (left - n) (.tuple (before ++ v :: after)) t =
        reduceWithin limit (left - n) (.tuple (before ++ v :: after')) t) :
    reduceWithin limit left (.tuple (before ++ e :: after)) s =
      reduceWithin limit left (.tuple (before ++ e :: after')) s := by
  induction left generalizing e s with
  | zero =>
    rw [reduceWithin_zero_of_not_value rfl, reduceWithin_zero_of_not_value rfl]
  | succ left ih =>
    cases hv : e.isValue with
    | true => exact h 0 e s (.value hv) (Nat.succ_pos left)
    | false =>
      rw [reduceWithin_succ_of_not_value rfl, reduceWithin_succ_of_not_value rfl,
        runOn_step_advance (ha e hv), runOn_step_advance (ha' e hv)]
      rcases hs : (step e).runOn s with ⟨err | e', s'⟩
      · rfl
      · refine ih fun n v t hrun hn => ?_
        have hlater := h (n + 1) v t (.step hv hs hrun) (by omega)
        rw [Nat.add_sub_add_right] at hlater
        exact hlater

theorem reduceWithin_of_become {members : List Expr} (h : tupleMove members = .ok (.become e))
    (limit left : Nat) (s : Store) :
    reduceWithin limit (left + 1) (.tuple members) s = reduceWithin limit left e s := by
  rw [reduceWithin_succ_of_not_value rfl, runOn_step_become h]

theorem reduceWithin_become_congr {members members' : List Expr}
    (h : tupleMove members = .ok (.become e)) (h' : tupleMove members' = .ok (.become e)) :
    reduceWithin limit left (.tuple members) s = reduceWithin limit left (.tuple members') s := by
  cases left with
  | zero => rw [reduceWithin_zero_of_not_value rfl, reduceWithin_zero_of_not_value rfl]
  | succ left => rw [reduceWithin_of_become h, reduceWithin_of_become h']

/-! ## The branches of a test -/

theorem Expr.isFalse_iff : v.isFalse = true ↔ v = .boolean false := by
  unfold isFalse
  split
  · simp
  · rename_i hne
    simpa using hne

theorem tupleMove_branch (hv : v.isValue = true) (home : Handle) (yes no : Expr) :
    tupleMove [.procedure (.form .ifElse home), v, yes, no] =
      .ok (.become (if v.isFalse then no else yes)) := by
  simp [tupleMove, Form.move, hv]

/-- Tuples with the same test come to the same, if they have the same branch for every value that the
test comes to while there are steps left. -/
theorem reduceWithin_branch_congr {test yes yes' no no' : Expr}
    (h : ∀ n v t, Runs test s n (.ok v) t → n < left →
      (if v.isFalse then no else yes) = if v.isFalse then no' else yes') :
    reduceWithin limit left (.tuple [.procedure (.form .ifElse home), test, yes, no]) s =
      reduceWithin limit left (.tuple [.procedure (.form .ifElse home), test, yes', no']) s := by
  refine reduceWithin_tuple_congr (advances_test home yes no) (advances_test home yes' no')
    fun n v t hrun hn => ?_
  refine reduceWithin_become_congr (tupleMove_branch hrun.isValue home yes no) ?_
  rw [h n v t hrun hn]
  exact tupleMove_branch hrun.isValue home yes' no'

/-! ## The arguments of a connective -/

/-- A form that goes through its arguments from left to right, with `left` steps to take, stops at
one of these tokens: at a value that settles the form, at an error, or because there are not enough
steps to get past the token. -/
inductive StopsAmong (settles : Expr → Bool) (g : Handle) : Nat → List String → Store → Prop
  | settled {token : String} {rest : List String} {v : Expr} {s t : Store} {n left : Nat} :
      Runs (.deferred token g) s n (.ok v) t → settles v = true →
      StopsAmong settles g left (token :: rest) s
  | failed {token : String} {rest : List String} {err : Error} {s t : Store} {n left : Nat} :
      Runs (.deferred token g) s n (.error err) t → StopsAmong settles g left (token :: rest) s
  | exhausted {token : String} {rest : List String} {s : Store} {left : Nat} :
      (∀ n r t, Runs (.deferred token g) s n r t → left ≤ n) →
      StopsAmong settles g left (token :: rest) s
  | later {token : String} {rest : List String} {v : Expr} {s t : Store} {n left : Nat} :
      Runs (.deferred token g) s n (.ok v) t → StopsAmong settles g (left - (n + 1)) rest t →
      StopsAmong settles g left (token :: rest) s

section

variable {settles : Expr → Bool} {b : Bool} {rest rest' : List Expr}

theorem Form.Connects.tupleMove_of_settles (hc : f.Connects settles b) (hv : v.isValue = true)
    (hs : settles v = true) (home : Handle) (rest : List Expr) :
    tupleMove (.procedure (.form f home) :: v :: rest) = .ok (.become v) := by
  refine (hc.move_cons home v rest).trans ?_
  simp [Form.connective, hv, hs]

theorem Form.Connects.tupleMove_of_not_settles (hc : f.Connects settles b) (hv : v.isValue = true)
    (hs : settles v = false) (home : Handle) (next : Expr) (rest : List Expr) :
    tupleMove (.procedure (.form f home) :: v :: next :: rest) =
      .ok (.become (.tuple (.procedure (.form f home) :: next :: rest))) := by
  refine (hc.move_cons home v (next :: rest)).trans ?_
  simp [Form.connective, hv, hs]

/-- Behind a first argument that comes to nothing but settling values in time, nothing is looked
at. -/
theorem reduceWithin_behind_first {first : Expr} (hc : f.Connects settles b)
    (h : ∀ n v t, Runs first s n (.ok v) t → settles v = true ∨ left ≤ n) :
    reduceWithin limit left (.tuple (.procedure (.form f home) :: first :: rest)) s =
      reduceWithin limit left (.tuple (.procedure (.form f home) :: first :: rest')) s := by
  refine reduceWithin_tuple_congr (advances_first hc.eq home rest) (advances_first hc.eq home rest')
    fun n v t hrun hn => ?_
  rcases h n v t hrun with hs | hle
  · exact reduceWithin_become_congr (hc.tupleMove_of_settles hrun.isValue hs home rest)
      (hc.tupleMove_of_settles hrun.isValue hs home rest')
  · omega

/-- Behind the arguments among which the form stops, nothing is looked at. -/
theorem reduceWithin_of_stopsAmong {tokens : List String} (hc : f.Connects settles b)
    (h : StopsAmong settles g left tokens s) (rest rest' : List Expr) :
    reduceWithin limit left
        (.tuple (.procedure (.form f home) :: (tokens.map (.deferred · g) ++ rest))) s =
      reduceWithin limit left
        (.tuple (.procedure (.form f home) :: (tokens.map (.deferred · g) ++ rest'))) s := by
  induction h with
  | settled hrun hs =>
    refine reduceWithin_behind_first hc fun n' v' t' hrun' => .inl ?_
    obtain ⟨-, hv, -⟩ := hrun.unique hrun'
    cases hv
    exact hs
  | failed hrun =>
    refine reduceWithin_behind_first hc fun n' v' t' hrun' => ?_
    obtain ⟨-, hv, -⟩ := hrun.unique hrun'
    cases hv
  | exhausted hlong =>
    exact reduceWithin_behind_first hc fun n' v' t' hrun' => .inr (hlong n' _ t' hrun')
  | @later token tokens v s t n left hrun hstop ih =>
    refine reduceWithin_tuple_congr (advances_first hc.eq home _) (advances_first hc.eq home _)
      fun n' v' t' hrun' hn => ?_
    obtain ⟨rfl, hv, rfl⟩ := hrun.unique hrun'
    cases hv
    obtain ⟨next, tokens, rfl⟩ : ∃ next more, tokens = next :: more := by
      cases hstop <;> exact ⟨_, _, rfl⟩
    cases hs : settles v with
    | true =>
      exact reduceWithin_become_congr (hc.tupleMove_of_settles hrun.isValue hs home _)
        (hc.tupleMove_of_settles hrun.isValue hs home _)
    | false =>
      -- the form goes on without its first argument, which takes one step more
      obtain ⟨k, hk⟩ : ∃ k, left - n = k + 1 := ⟨left - n - 1, by omega⟩
      rw [show left - (n + 1) = k by omega] at ih
      have hdrop := hc.tupleMove_of_not_settles hrun.isValue hs home (.deferred next g)
      rw [hk]
      exact (reduceWithin_of_become (hdrop _) limit k t).trans
        (ih.trans (reduceWithin_of_become (hdrop _) limit k t).symm)

end

/-! ## Lines -/

/-- The form that a token stands for, seen from `g`. -/
def Store.formNamed? (s : Store) (g : Handle) (token : String) : Option Form :=
  match ((readMember token g).runOn s).1 with
  | .ok (.procedure (.form f _)) => some f
  | _ => none

theorem Store.exists_of_formNamed? {token : String} (h : s.formNamed? g token = some f) :
    ∃ home, ((readMember token g).runOn s).1 = .ok (.procedure (.form f home)) := by
  unfold formNamed? at h
  split at h
  · rename_i f' home hread
    cases h
    exact ⟨home, hread⟩
  · cases h

/-- The members of two tuples in the scope `g`. The same form leads both, and only arguments that it
does not select are different. One step of the limit goes to the shaping of the tuple, and a branch
is chosen by one step after the test. -/
inductive DifferUnselected (limit : Nat) (g : Handle) (s : Store) : List String → List String → Prop
  | second {head test yes no no' : String} : s.formNamed? g head = some .ifElse →
      (∀ n t, Runs (.deferred test g) s n (.ok (.boolean false)) t → limit ≤ n + 1) →
      DifferUnselected limit g s [head, test, yes, no] [head, test, yes, no']
  | first {head test yes yes' no : String} : s.formNamed? g head = some .ifElse →
      (∀ n v t, Runs (.deferred test g) s n (.ok v) t → v = .boolean false ∨ limit ≤ n + 1) →
      DifferUnselected limit g s [head, test, yes, no] [head, test, yes', no]
  | later {f : Form} {settles : Expr → Bool} {b : Bool} {head : String}
      (tokens rest rest' : List String) : f.Connects settles b → s.formNamed? g head = some f →
      StopsAmong settles g (limit - 1) tokens s →
      DifferUnselected limit g s (head :: (tokens ++ rest)) (head :: (tokens ++ rest'))

/-- A token that stands for a form is an atom, and reading it leaves the store as it is. -/
theorem runOn_expand_of_form {head : String}
    (h : ((readMember head g).runOn s).1 = .ok (.procedure (.form f home))) (args : List String) :
    (expand (head :: args) g).runOn s =
      (.ok (.tuple (.procedure (.form f home) :: args.map (.deferred · g))), s) := by
  have hread : (readMember head g).runOn s = (.ok (.procedure (.form f home)), s) := by
    rw [runOn_readMember] at h ⊢
    rcases runOn_read_cases head g s with ⟨err, hr⟩ | ⟨ms, -, -, hr⟩ | ⟨-, hr⟩
    all_goals rw [hr] at h ⊢
    · cases h
    · cases h
    · exact Prod.ext h rfl
  have hmember : (expandMember head g).runOn s = (.ok (.procedure (.form f home)), s) := by
    rw [expandMember, shapeMember, Action.runOn_bind, hread]
    rfl
  rw [expand_eq_shapeTuple, shapeTuple, Action.runOn_bind, hmember]
  rfl

theorem reduce_pending_congr {head : String} {args args' : List String}
    (hhead : ((readMember head g).runOn s).1 = .ok (.procedure (.form f home)))
    (h : reduceWithin limit (limit - 1)
          (.tuple (.procedure (.form f home) :: args.map (.deferred · g))) s =
        reduceWithin limit (limit - 1)
          (.tuple (.procedure (.form f home) :: args'.map (.deferred · g))) s) :
    reduce limit (.pending (head :: args) g) s = reduce limit (.pending (head :: args') g) s := by
  unfold reduce
  cases limit with
  | zero => rw [reduceWithin_zero_of_not_value rfl, reduceWithin_zero_of_not_value rfl]
  | succ limit =>
    rw [reduceWithin_succ_of_not_value rfl, reduceWithin_succ_of_not_value rfl, step, step,
      runOn_expand_of_form hhead, runOn_expand_of_form hhead]
    exact h

theorem reduce_of_differUnselected {ms ns : List String} (h : DifferUnselected limit g s ms ns) :
    reduce limit (.pending ms g) s = reduce limit (.pending ns g) s := by
  cases h with
  | second hhead htest =>
    obtain ⟨home, hhead⟩ := Store.exists_of_formNamed? hhead
    refine reduce_pending_congr hhead (reduceWithin_branch_congr fun n v t hrun hn => ?_)
    have htrue : ¬ v.isFalse = true := by
      intro hf
      rw [Expr.isFalse_iff.1 hf] at hrun
      have hle := htest n t hrun
      omega
    rw [if_neg htrue, if_neg htrue]
  | first hhead htest =>
    obtain ⟨home, hhead⟩ := Store.exists_of_formNamed? hhead
    refine reduce_pending_congr hhead (reduceWithin_branch_congr fun n v t hrun hn => ?_)
    have hfalse : v.isFalse = true := by
      rcases htest n v t hrun with hv | hle
      · exact Expr.isFalse_iff.2 hv
      · omega
    rw [if_pos hfalse, if_pos hfalse]
  | later tokens rest rest' hc hhead hstop =>
    obtain ⟨home, hhead⟩ := Store.exists_of_formNamed? hhead
    refine reduce_pending_congr hhead ?_
    rw [List.map_append, List.map_append]
    exact reduceWithin_of_stopsAmong hc hstop _ _

namespace Interpreter

/-- The members of a line are read in a new scope inside the global one. -/
theorem readAndReduce_of_members {source : String} {ms : List String}
    (h : Token.members source = .ok ms) (it : Interpreter) :
    it.readAndReduce source =
      (⟨(it.store.child it.global).2, it.global, it.settings⟩ : Interpreter).reduce
        (.pending ms (it.store.child it.global).1) := by
  obtain ⟨store, global, settings⟩ := it
  have hread := runOn_read_tuple (opensTuple_of_members h)
    ((Token.members_trim source).trans h) global store
  simp only [readAndReduce, read_of_ok settings hread]

/-- What a form does not select has no influence: not on the value or the error of a line, not on
the store that the line leaves, and not on what is left of it when the scopes that are out of reach
have been collected. -/
theorem evaluate_ignores_unselected (it : Interpreter) {x y : String} {ms ns : List String}
    (hx : Token.members x = .ok ms) (hy : Token.members y = .ok ns)
    (h : DifferUnselected it.settings.stepLimit (it.store.child it.global).1
      (it.store.child it.global).2 ms ns) :
    it.readAndReduce x = it.readAndReduce y ∧ it.evaluate x = it.evaluate y := by
  have hsame : it.readAndReduce x = it.readAndReduce y := by
    rw [readAndReduce_of_members hx, readAndReduce_of_members hy, reduce, reduce]
    simp only [reduce_of_differUnselected h]
  refine ⟨hsame, ?_⟩
  rw [evaluate, evaluate, hsame]

/-- Behind `false` there may stand more arguments, or such as cannot even be read. -/
theorem and_ignores_what_follows_false :
    let it := (start ⟨50, false⟩).after ["(define both and)", "(define (same x) x)"]
    let x := "(both (same 1) (same false) (/ 1 0))"
    let y := "(both (same 1) (same false) 1.2.3 [nowhere (define both or)])"
    ∃ ms ns, Token.members x = .ok ms ∧ Token.members y = .ok ns ∧
      DifferUnselected it.settings.stepLimit (it.store.child it.global).1
        (it.store.child it.global).2 ms ns ∧
      it.readAndReduce x = it.readAndReduce y ∧ it.evaluate x = it.evaluate y := by
  intro it x y
  obtain ⟨n, v, hfirst, -⟩ := exists_runs_of_reduce 50
    (.deferred "(same 1)" (it.store.child it.global).1) (it.store.child it.global).2
    (p := fun _ => true) (by decide +kernel)
  obtain ⟨m, w, hsecond, hfalse⟩ := exists_runs_of_reduce 50
    (.deferred "(same false)" (it.store.child it.global).1)
    (Stepwise.reduce 50 (.deferred "(same 1)" (it.store.child it.global).1)
      (it.store.child it.global).2).2
    (p := Expr.isFalse) (by decide +kernel)
  have hx : Token.members x = .ok ["both", "(same 1)", "(same false)", "(/ 1 0)"] := by
    decide +kernel
  have hy : Token.members y =
      .ok ["both", "(same 1)", "(same false)", "1.2.3", "[nowhere (define both or)]"] := by
    decide +kernel
  have hdiffer : DifferUnselected it.settings.stepLimit (it.store.child it.global).1
      (it.store.child it.global).2 ["both", "(same 1)", "(same false)", "(/ 1 0)"]
      ["both", "(same 1)", "(same false)", "1.2.3", "[nowhere (define both or)]"] :=
    .later ["(same 1)", "(same false)"] _ _ .and (by decide +kernel)
      (.later hfirst (.settled hsecond hfalse))
  exact ⟨_, _, hx, hy, hdiffer, evaluate_ignores_unselected it hx hy hdiffer⟩

end Interpreter

end Stepwise
