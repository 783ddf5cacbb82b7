import Stepwise.Proofs.Eval.Yields
import Stepwise.Proofs.Renaming.Expr
import Stepwise.Proofs.Token.Tree
/-!
# Well-formed expressions and their moves

The source text that an expression keeps is well formed when each piece of it is a token: those
of a pending tuple, a deferred token, and the body of a procedure. The parameters of a procedure
are then different symbols. A tuple of well-formed members makes a well-formed move, or fails for
another reason than the structure of its text (`regular_tupleMove`).
-/

namespace Stepwise

variable {α : Type} {allowed : String → Prop}

/-! ## Expressions -/

/-- The parameters are different symbols, and the body is a token with allowed atoms. -/
structure Closure.WellFormed (allowed : String → Prop) (c : Closure) : Prop where
  params : ∀ p ∈ c.params, isSymbol p = true
  nodup : c.params.Nodup
  body : Token.WellFormed allowed c.body

/-- What the procedure is named by is allowed, and so is its source. -/
def Procedure.WellFormed (allowed : String → Prop) : Procedure → Prop
  | .builtin b => allowed b.name
  | .form f _ => allowed f.name
  | .closure c => c.WellFormed allowed

/-- All source text in the expression consists of tokens with allowed atoms. -/
inductive Expr.WellFormed (allowed : String → Prop) : Expr → Prop
  | pending {tokens : List String} {g : Handle} : (∀ m ∈ tokens, Token.WellFormed allowed m) →
      WellFormed allowed (.pending tokens g)
  | deferred {token : String} {g : Handle} : Token.WellFormed allowed token →
      WellFormed allowed (.deferred token g)
  | tuple {members : List Expr} : (∀ e ∈ members, WellFormed allowed e) →
      WellFormed allowed (.tuple members)
  | procedure {p : Procedure} : p.WellFormed allowed → WellFormed allowed (.procedure p)
  | number (x : Float) : WellFormed allowed (.number x)
  | boolean (b : Bool) : WellFormed allowed (.boolean b)
  | void : WellFormed allowed .void

/-- A value that a name may be bound to. -/
def Expr.IsBindable (allowed : String → Prop) (e : Expr) : Prop :=
  e.isValue = true ∧ e.WellFormed allowed

namespace Expr.WellFormed

variable {e : Expr} {g : Handle}

theorem members {es : List Expr} (h : (Expr.tuple es).WellFormed allowed) :
    ∀ e ∈ es, e.WellFormed allowed := by
  cases h with
  | tuple h => exact h

theorem tokens {ms : List String} (h : (Expr.pending ms g).WellFormed allowed) :
    ∀ m ∈ ms, Token.WellFormed allowed m := by
  cases h with
  | pending h => exact h

theorem of_procedure {p : Procedure} (h : (Expr.procedure p).WellFormed allowed) :
    p.WellFormed allowed := by
  cases h with
  | procedure h => exact h

theorem of_isPlain (h : Builtin.IsPlain e) : e.WellFormed allowed := by
  rcases h with ⟨x, rfl⟩ | ⟨b, rfl⟩
  · exact .number x
  · exact .boolean b

/-- What is left of an expression's source is a token. -/
theorem source {text : String} (h : e.WellFormed allowed) (hs : e.source? = some text) :
    Token.WellFormed allowed text := by
  cases h with
  | pending ht =>
    cases hs
    exact Token.WellFormed.enclose .round ht
  | deferred ht =>
    cases hs
    exact ht
  | _ => cases hs

theorem tupleSource {text : String} (h : e.WellFormed allowed) (hs : e.tupleSource? = some text) :
    Token.WellFormed allowed text ∧ opensTuple text = true := by
  obtain ⟨hs, ho⟩ := Option.filter_eq_some_iff.1 hs
  exact ⟨h.source hs, ho⟩

theorem named (h : e.WellFormed allowed) (name : String) : (e.named name).WellFormed allowed := by
  cases e with
  | procedure p =>
    cases p with
    | closure c =>
      obtain ⟨n, params, body, scope⟩ := c
      have hc := h.of_procedure
      cases n with
      | none => exact .procedure ⟨hc.params, hc.nodup, hc.body⟩
      | some n => exact h
    | builtin | form => exact h
  | _ => exact h

end Expr.WellFormed

/-! ## Errors -/

/-- The errors in the structure of source text. A number that cannot be read is none of them. -/
def Error.IsStructural : Error → Prop
  | .reading (.malformedNumber _) => False
  | .reading _ => True
  | .evaluation _ | .stream _ => False

/-- A result as described, or an error that is not one of structure. -/
abbrev Regular (Q : α → Prop) : Except Error α → Prop :=
  Results (fun err => ¬ err.IsStructural) Q

theorem regular_evaluation {Q : α → Prop} (err : EvalError) :
    Regular Q (.error (.evaluation err)) :=
  .error id

/-! ## Special forms -/

/-- What a move leads to is well formed. -/
def Move.WellFormed (allowed : String → Prop) : Move → Prop
  | .advance _ => True
  | .become e => e.WellFormed allowed
  | .define _ name value => isSymbol name = true ∧ value.IsBindable allowed
  | .enter c args => c.WellFormed allowed ∧ ∀ a ∈ args, a.IsBindable allowed

theorem paramsFault_eq_none {earlier params : List String} (h : paramsFault earlier params = none) :
    (∀ p ∈ params, isSymbol p = true) ∧ (earlier.Nodup → (earlier ++ params).Nodup) := by
  induction params generalizing earlier with
  | nil => simp
  | cons p rest ih =>
    unfold paramsFault at h
    split at h
    · cases h
    · rename_i hsymbol
      split at h
      · cases h
      · rename_i hfresh
        obtain ⟨hrest, hnodup⟩ := ih h
        refine ⟨fun q hq => ?_, fun hn => ?_⟩
        · rcases List.mem_cons.1 hq with rfl | hq
          · simpa using hsymbol
          · exact hrest q hq
        · have hearlier : (earlier ++ [p]).Nodup := by
            simpa [List.nodup_append, hn] using fun q hq => (ne_of_mem_of_not_mem hq hfresh)
          rw [List.append_cons]
          exact hnodup hearlier

namespace Form

theorem regular_body {f : Form} {e : Expr} (h : e.WellFormed allowed) :
    Regular (Token.WellFormed allowed) (f.body e) := by
  unfold body
  split
  · rename_i hs
    exact .ok (h.source hs)
  · exact regular_evaluation _

theorem regular_names {text : String} (h : Token.WellFormed allowed text)
    (ho : opensTuple text = true) :
    Regular (fun ns => ∀ n ∈ ns, Token.WellFormed allowed n) (names text) := by
  obtain ⟨ms, hm, hms⟩ := h.members ho
  unfold names
  rw [hm]
  exact .ok hms

theorem regular_checkParams (f : Form) (params : List String) :
    Regular (fun ps => (∀ p ∈ ps, isSymbol p = true) ∧ ps.Nodup) (f.checkParams params) := by
  unfold checkParams
  split
  · exact regular_evaluation _
  · rename_i h
    obtain ⟨hs, hn⟩ := paramsFault_eq_none h
    exact .ok ⟨hs, hn List.nodup_nil⟩

variable {scope : Handle} {target value : Expr}

theorem regular_defineProcedure {signature : String} (hs : Token.WellFormed allowed signature)
    (ho : opensTuple signature = true) (hv : value.WellFormed allowed) :
    Regular (Move.WellFormed allowed) (defineProcedure scope signature value) := by
  refine (regular_body hv).bind fun body hbody => (regular_names hs ho).bind fun ns _ => ?_
  cases ns with
  | nil => exact regular_evaluation _
  | cons name params =>
    simp only
    split
    · rename_i hname
      refine (regular_checkParams _ params).bind fun ps hps => ?_
      exact .ok ⟨hname, rfl, .procedure ⟨hps.1, hps.2, hbody⟩⟩
    · exact regular_evaluation _

theorem regular_defineName (hv : value.WellFormed allowed) :
    Regular (Move.WellFormed allowed) (defineName scope target value) := by
  unfold defineName
  split
  · exact regular_evaluation _
  · rename_i name hname
    have hsymbol : isSymbol name = true := by
      unfold Expr.symbol? at hname
      split at hname
      · split at hname
        · cases hname
          assumption
        · cases hname
      · cases hname
    split
    · rename_i hvalue
      refine .ok ⟨hsymbol, ?_, hv.named name⟩
      rw [Expr.isValue_named, hvalue]
    · exact .ok trivial

theorem regular_makeClosure (ht : target.WellFormed allowed) (hv : value.WellFormed allowed) :
    Regular (Move.WellFormed allowed) (makeClosure scope target value) := by
  unfold makeClosure
  split
  · exact regular_evaluation _
  · rename_i hs
    obtain ⟨htext, ho⟩ := ht.tupleSource hs
    refine (regular_names htext ho).bind fun ns _ => ?_
    refine (regular_checkParams _ ns).bind fun ps hps => ?_
    refine (regular_body hv).bind fun body hbody => ?_
    exact .ok (.procedure ⟨hps.1, hps.2, hbody⟩)

theorem wellFormed_connective {f : Form} {settles : Expr → Bool} {first : Expr} {rest : List Expr}
    (hf : allowed f.name) (h : ∀ e ∈ first :: rest, e.WellFormed allowed) :
    (connective f scope settles first rest).WellFormed allowed := by
  unfold connective
  split
  · trivial
  · split
    · exact h first (by simp)
    · refine .tuple fun e he => ?_
      rcases List.mem_cons.1 he with rfl | he
      · exact .procedure hf
      · exact h e (by simp [he])

theorem regular_move {f : Form} {args : List Expr} (hf : allowed f.name)
    (h : ∀ e ∈ args, e.WellFormed allowed) :
    Regular (Move.WellFormed allowed) (f.move scope args) := by
  fun_cases move f scope args with
  | case1 target value signature hs =>
    obtain ⟨htext, ho⟩ := (h target (by simp)).tupleSource hs
    exact regular_defineProcedure htext ho (h value (by simp))
  | case2 target value => exact regular_defineName (h value (by simp))
  | case4 target value => exact regular_makeClosure (h target (by simp)) (h value (by simp))
  | case6 => exact .ok trivial
  | case7 test yes no =>
    refine .ok ?_
    simp only [Move.WellFormed]
    split
    · exact h no (by simp)
    · exact h yes (by simp)
  | case9 | case11 => exact .ok (.boolean _)
  | case10 | case12 => exact .ok (wellFormed_connective hf h)
  | case3 | case5 | case8 => exact regular_evaluation _

end Form

/-! ## Tuples -/

theorem regular_headMove {head : Expr} {args : List Expr} (hh : head.WellFormed allowed)
    (ha : ∀ a ∈ args, a.IsBindable allowed) :
    Regular (Move.WellFormed allowed) (head.headMove args) := by
  cases head with
  | procedure p =>
    cases p with
    | form f scope => exact Form.regular_move hh.of_procedure fun a h => (ha a h).2
    | closure c => exact .ok ⟨hh.of_procedure, ha⟩
    | builtin b =>
      simp only [Expr.headMove, Procedure.move]
      cases hb : b.apply args with
      | error err => exact regular_evaluation err
      | ok e => exact .ok (.of_isPlain (Builtin.isPlain_apply hb))
  | _ => exact regular_evaluation _

/-- The move of a tuple of well-formed members is well formed. -/
theorem regular_tupleMove {members : List Expr} (h : ∀ e ∈ members, e.WellFormed allowed) :
    Regular (Move.WellFormed allowed) (tupleMove members) := by
  cases members with
  | nil => exact regular_evaluation _
  | cons head args =>
    have hhead := h head (by simp)
    by_cases hf : head.isForm = true
    · obtain ⟨f, scope, rfl⟩ := Expr.eq_form_of_isForm hf
      exact Form.regular_move hhead.of_procedure fun e he => h e (by simp [he])
    · rw [tupleMove_of_not_form (by simpa using hf)]
      split
      · exact .ok trivial
      · rename_i hu
        refine regular_headMove hhead fun a ha => ⟨?_, h a (by simp [ha])⟩
        exact firstUnreduced?_eq_none.1 hu a (by simp [ha])

end Stepwise
