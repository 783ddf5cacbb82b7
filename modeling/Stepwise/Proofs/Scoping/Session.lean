import Stepwise.Proofs.Scoping.Forms
/-!
# Where definitions and procedures go

A definition binds its name around the scope in which its form was named, and a procedure keeps the
scope in which the form `lambda` was named. That is the scope of the tuple itself, unless the form
has been passed: bound to a name, and led the tuple by that name (`forms_act_where_named`).
-/

namespace Stepwise

variable {passed : Handle → Prop} {s : Store} {h : Handle} {e : Expr} {members : List Expr}
  {it : Interpreter} {source : String} {current : Option Expr}

/-! ## The tuple that moves -/

/-- The tuple that makes the move when the expression takes a step. -/
inductive Redex : Expr → List Expr → Prop
  | here {members : List Expr} : (∀ place, tupleMove members ≠ .ok (.advance place)) →
      Redex (.tuple members) members
  | inside {before after members : List Expr} {e : Expr} :
      tupleMove (before ++ e :: after) = .ok (.advance before.length) → Redex e members →
      Redex (.tuple (before ++ e :: after)) members

theorem Seated.redex (he : Seated passed e) (hr : Redex e members) :
    Seated passed (.tuple members) := by
  induction hr with
  | here => exact he
  | inside _ _ ih => exact ih (he.members _ (by simp))

theorem store_of_redex {name : String} {value : Expr} (hr : Redex e members)
    (hm : tupleMove members = .ok (.define h name value)) (s : Store) :
    ((step e).runOn s).2 = s.define ((s.parent? h).getD h) name value := by
  induction hr with
  | here =>
    rw [runOn_step_define hm]
    rfl
  | inside hmove _ ih =>
    rw [runOn_step_advance hmove]
    exact ih hm

/-! ## Moves of forms -/

/-- The next step defines around the scope of its form, or makes a procedure in it. This is also the
scope of the tuple, in which its arguments wait, unless the form has been passed. -/
structure ActsWhereNamed (passed : Handle → Prop) (s : Store) (e : Expr) (members : List Expr) :
    Prop where
  define : ∀ h name value, tupleMove members = .ok (.define h name value) →
    ((step e).runOn s).2 = s.define ((s.parent? h).getD h) name value ∧
    ∃ token g last, members = [.procedure (.form .define h), .deferred token g, last] ∧
      (h = g ∨ passed h)
  lambda : ∀ h args value, members = .procedure (.form .lambda h) :: args →
    tupleMove members = .ok (.become value) →
    ∃ params body token g, value = .procedure (.closure ⟨none, params, body, h⟩) ∧
      args = [.deferred token g, .deferred body g] ∧ (h = g ∨ passed h)

theorem source?_of_tupleSource? {text : String} (hs : e.tupleSource? = some text) :
    e.source? = some text :=
  (Option.filter_eq_some_iff.1 hs).1

theorem source?_of_symbol? {name : String} (hs : e.symbol? = some name) :
    e.source? = some name := by
  cases e with
  | deferred token g =>
    simp only [Expr.symbol?] at hs
    split at hs
    · exact hs
    · cases hs
  | _ => cases hs

theorem actsWhereNamed_of_seated (he : Seated passed e) (hr : Redex e members) :
    ActsWhereNamed passed s e members := by
  have hseated := he.redex hr
  refine ⟨fun h name value hm => ⟨store_of_redex hr hm s, ?_⟩, fun h args value hform hm => ?_⟩
  · -- what is defined is source, whether it is a name or a signature
    have hsource : ∃ target last text, members = [.procedure (.form .define h), target, last] ∧
        target.source? = some text := by
      cases moves_of_tupleMove hm with
      | defineProcedure ht => exact ⟨_, _, _, rfl, source?_of_tupleSource? ht⟩
      | defineName ht => exact ⟨_, _, _, rfl, source?_of_symbol? ht⟩
    obtain ⟨target, last, text, rfl, hs⟩ := hsource
    obtain ⟨g, hg, hq⟩ := hseated.leads
    rw [hq target (by simp [Form.quotes]) text hs]
    exact ⟨text, g, last, rfl, hg⟩
  · subst hform
    rcases args with _ | ⟨target, _ | ⟨last, _ | ⟨third, rest⟩⟩⟩
    · cases hm
    · cases hm
    · obtain ⟨signature, params, body, hvalue, ht, hb, -⟩ := Form.makeClosure_eq_ok hm
      obtain ⟨g, hg, hq⟩ := hseated.leads
      rw [hq target (by simp [Form.quotes]) _ (source?_of_tupleSource? ht),
        hq last (by simp [Form.quotes]) _ hb]
      cases hvalue
      exact ⟨params, body, signature, g, rfl, rfl, hg⟩
    · cases hm

/-! ## From the start -/

/-- At some boundary of the line a name is bound to a form that was named in the scope of `h`. -/
def Interpreter.PassesForm (it : Interpreter) (source : String) (h : Handle) : Prop :=
  ∃ current s, it.Visits source current s ∧ s.BindsForm h

theorem passes_of_visits (hs : it.store.WellFormed fun _ => True)
    (hv : it.Visits source current s) : s.Passes (it.PassesForm source) := by
  refine ⟨(wellFormed_of_visits hs (lineOf_any source) hv).1, ?_⟩
  rintro g scope name - hscope hbound f h rfl
  exact ⟨current, s, hv, g, scope, name, f, hscope, hbound⟩

theorem seated_of_visits (hs : it.store.WellFormed fun _ => True)
    (hv : it.Visits source current s) :
    ∀ e ∈ current, Seated (it.PassesForm source) e := by
  induction hv with
  | start => simp
  | read hx =>
    intro e he
    have hread := congrArg Prod.fst hx
    rw [eq_ok_of_mem_toOption he] at hread
    exact seated_read hs hread
  | step hv hx ih =>
    intro e he
    have hwell := (wellFormed_of_visits hs (lineOf_any source) hv).2 _ rfl
    have hstep := congrArg Prod.fst hx
    rw [eq_ok_of_mem_toOption he] at hstep
    exact seated_step (passes_of_visits hs hv) hwell (ih _ rfl) hstep

/-- Every tuple has a scope of its own, in which its arguments wait behind a form. From a fresh
start, definitions and procedures go where their form was named, which is where their tuple stands
unless the line passes the form. -/
theorem forms_act_where_named (settings : Settings) :
    (∀ s : Store, s.Sound → s.OpensTuples) ∧
    (∀ (before : List String) (source : String) (e : Expr) (s : Store) (members : List Expr),
      let it := (Interpreter.start settings).after before
      it.Visits source (some e) s → Redex e members →
        ActsWhereNamed (it.PassesForm source) s e members) ∧
    ∀ (before : List (String × Sink)) (line : String) (e : Expr) (s : Store) (members : List Expr),
      let it := ((Session.start settings).after before).interpreter
      it.Visits (trim line) (some e) s → Redex e members →
        ActsWhereNamed (it.PassesForm (trim line)) s e members := by
  refine ⟨fun s hs => opensTuples_of_sound hs, fun before source e s members => ?_,
    fun before line e s members => ?_⟩
  · intro it hv hr
    have hstart := wellFormed_after_start settings before
    exact actsWhereNamed_of_seated (seated_of_visits hstart hv e rfl) hr
  · intro it hv hr
    have hstart := Session.wellFormed_after_start settings before
    exact actsWhereNamed_of_seated (seated_of_visits hstart hv e rfl) hr

/-- It is not so that a definition always binds its name in the scope around its own tuple: here the
form was named outside of the procedure whose parameter `d` it is. -/
theorem passed_define_elsewhere :
    ¬ ∀ (settings : Settings) (before : List String) (source : String) (e : Expr) (s : Store)
      (h g p : Handle) (token name : String) (last value : Expr),
      ((Interpreter.start settings).after before).Visits source (some e) s →
      Redex e [.procedure (.form .define h), .deferred token g, last] →
      tupleMove [.procedure (.form .define h), .deferred token g, last] =
        .ok (.define h name value) →
      s.parent? g = some p →
      (((step e).runOn s).2.scope? p).bind (·.bindings.get? name) = some value := by
  intro hall
  -- the scopes 0 to 4: the global one, and those of the line, of `lambda`, of the call, of its body
  have hread : (Interpreter.start {}).Visits "((lambda (d) (d (f) d)) define)"
      (some (.pending ["(lambda (d) (d (f) d))", "define"] ⟨1, 0⟩))
      (Store.empty.root.2.child ⟨0, 0⟩).2 :=
    .read (x := .ok _) (by rfl)
  have hexpand : (Interpreter.start {}).Visits "((lambda (d) (d (f) d)) define)"
      (some (.tuple [.tuple [.procedure (.form .lambda ⟨2, 0⟩), .deferred "(d)" ⟨2, 0⟩,
        .deferred "(d (f) d)" ⟨2, 0⟩], .procedure (.form .define ⟨1, 0⟩)]))
      ((Store.empty.root.2.child ⟨0, 0⟩).2.child ⟨1, 0⟩).2 :=
    .step (x := .ok _) hread (by rfl)
  have hlambda : (Interpreter.start {}).Visits "((lambda (d) (d (f) d)) define)"
      (some (.tuple [.procedure (.closure ⟨none, ["d"], "(d (f) d)", ⟨2, 0⟩⟩),
        .procedure (.form .define ⟨1, 0⟩)]))
      ((Store.empty.root.2.child ⟨0, 0⟩).2.child ⟨1, 0⟩).2 :=
    .step (x := .ok _) hexpand (by rfl)
  have henter : (Interpreter.start {}).Visits "((lambda (d) (d (f) d)) define)"
      (some (.pending ["d", "(f)", "d"] ⟨4, 0⟩))
      (((((Store.empty.root.2.child ⟨0, 0⟩).2.child ⟨1, 0⟩).2.child ⟨2, 0⟩).2.define ⟨3, 0⟩ "d"
        (.procedure (.form .define ⟨1, 0⟩))).child ⟨3, 0⟩).2 :=
    .step (x := .ok _) hlambda (by rfl)
  have hbody : (Interpreter.start {}).Visits "((lambda (d) (d (f) d)) define)"
      (some (.tuple [.procedure (.form .define ⟨1, 0⟩), .deferred "(f)" ⟨4, 0⟩,
        .deferred "d" ⟨4, 0⟩]))
      (((((Store.empty.root.2.child ⟨0, 0⟩).2.child ⟨1, 0⟩).2.child ⟨2, 0⟩).2.define ⟨3, 0⟩ "d"
        (.procedure (.form .define ⟨1, 0⟩))).child ⟨3, 0⟩).2 :=
    .step (x := .ok _) henter (by rfl)
  have hmove : tupleMove [.procedure (.form .define ⟨1, 0⟩), .deferred "(f)" ⟨4, 0⟩,
      .deferred "d" ⟨4, 0⟩] = .ok (.define ⟨1, 0⟩ "f"
        (.procedure (.closure ⟨some "f", [], "d", ⟨1, 0⟩⟩))) := by
    rfl
  have hredex : Redex _ _ := .here fun place hplace => by
    rw [hmove] at hplace
    cases hplace
  have hbound := hall {} [] _ _ _ _ _ ⟨3, 0⟩ _ _ _ _ hbody hredex hmove (by rfl)
  rw [store_of_redex hredex hmove] at hbound
  cases hbound

end Stepwise
