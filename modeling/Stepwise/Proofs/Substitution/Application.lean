import Stepwise.Proofs.Eval.Runs
import Stepwise.Proofs.Session.Schedule
import Stepwise.Proofs.Substitution.Step
/-!
# Binding a parameter and replacing it

There are two ways to put a number in the place of a name: to apply a procedure, which binds its
parameter in a frame, and to replace the name in the text. Where the body binds nothing itself they
agree. The application takes three steps to enter the body; from there on, the frame with its one
binding stands against the global scope of an interpreter that reads the replaced text, and every
step on the one side is a step on the other (`runs_image`).
-/

namespace Stepwise

variable {σ : Substitution} {r : Renaming} {s t : Store} {h k : Handle} {body : String}

/-! ## Runs -/

/-- The same value in two stores: only the scope in which a form was named is a handle of one
store or of the other. -/
inductive Expr.SameValue : Expr → Expr → Prop
  | refl (v : Expr) : SameValue v v
  | form (f : Form) (g g' : Handle) : SameValue (.procedure (.form f g)) (.procedure (.form f g'))

theorem Expr.BindsNothing.sameValue_rename {v : Expr} (h : v.BindsNothing) (hv : v.isValue = true)
    (f : Handle → Handle) : SameValue v (v.rename f) := by
  cases h with
  | pending | deferred | tuple => cases hv
  | builtin | number | boolean => exact .refl _
  | form => exact .form _ _ _

theorem Runs.result_unique {e : Expr} {n n' : Nat} {x x' : Except Error Expr} {u u' : Store}
    (hrun : Runs e s n x u) (hrun' : Runs e s n' x' u') : x = x' := by
  have hx := reduceWithin_of_runs 0 hrun (Nat.le_max_left n n')
  have hx' := reduceWithin_of_runs 0 hrun' (Nat.le_max_right n n')
  rw [hx] at hx'
  cases hx'
  rfl

/-- What follows the first step of a run. -/
theorem runs_after_step {e e' : Expr} {n : Nat} {x : Except Error Expr} {u : Store}
    (hrun : Runs e s n x u) (hv : e.isValue = false) (hstep : (step e).runOn s = (.ok e', t)) :
    ∃ m, Runs e' t m x u := by
  rw [runs_iff_resumes hv, hstep] at hrun
  cases hrun with
  | ok hrest => exact ⟨_, hrest⟩

/-- An expression that binds nothing and its image take equally many steps to the same value or the
same error. -/
theorem runs_image {e e' : Expr} {n : Nat} {x : Except Error Expr} {u : Store}
    (hrun : Runs e s n x u) (hs : Supplied σ r s t) (he : σ.Relates r e e') :
    ∃ y u', Runs e' t n y u' ∧ Corresponds Expr.SameValue x y := by
  have hvalue : e'.isValue = e.isValue := by
    rw [he.eq, Substitution.image, Expr.isValue_rename, Expr.isValue_replaced]
  -- on the run of `e`; each of its steps may add scopes to the renaming and to both stores
  induction hrun generalizing r t e' with
  | value hv =>
    refine ⟨_, _, .value (hvalue.trans hv), .ok ?_⟩
    rw [he.eq, Substitution.image_of_isValue hv]
    exact he.bindsNothing.sameValue_rename hv r.map
  | step hv hstep _ ih =>
    obtain ⟨r', -, hs', hc⟩ := inStep_step hs he
    rw [hstep] at hs' hc
    rcases hx : (step e').runOn t with ⟨err | e'', t'⟩
    all_goals rw [hx] at hs' hc
    · cases hc
    · cases hc with
      | ok he' =>
        obtain ⟨y, u', hrest, hsame⟩ := ih hs' he'
          (by rw [he'.eq, Substitution.image, Expr.isValue_rename, Expr.isValue_replaced])
        exact ⟨y, u', .step (hvalue.trans hv) hx hrest, hsame⟩
  | error hv hstep =>
    obtain ⟨r', -, hs', hc⟩ := inStep_step hs he
    rw [hstep] at hs' hc
    rcases hx : (step e').runOn t with ⟨err | e'', t'⟩
    all_goals rw [hx] at hs' hc
    · cases hc
      exact ⟨_, _, .error (hvalue.trans hv) hx, .error _⟩
    · cases hc

/-! ## Scopes from which nothing is seen -/

/-- No name is bound, seen from `h`. -/
structure Store.SeesNothing (s : Store) (h : Handle) : Prop where
  sound : s.Sound
  rooted : ∃ root, s.Rooted root h
  get? : ∀ name, s.get? h name = none

namespace Store.SeesNothing

theorem child (hs : s.SeesNothing h) : (s.child h).2.SeesNothing (s.child h).1 := by
  obtain ⟨root, hr⟩ := hs.rooted
  refine ⟨sound_child hs.sound h, ⟨root, rooted_child_self hs.sound hr⟩, fun name => ?_⟩
  rw [get?_child_self hs.sound hr, hs.get?]

theorem beside (hs : s.SeesNothing h) (p : Handle) : (s.child p).2.SeesNothing h := by
  obtain ⟨root, hr⟩ := hs.rooted
  refine ⟨sound_child hs.sound p, ⟨root, hr.child hs.sound p⟩, fun name => ?_⟩
  rw [get?_child hs.sound hr, hs.get?]

theorem readAtom (hs : s.SeesNothing h) (token : String) :
    s.readAtom token h = readUnbound token h := by
  rw [Store.readAtom, hs.get?]

end Store.SeesNothing

theorem seesNothing_root : Store.empty.root.2.SeesNothing Store.empty.root.1 := by
  have hself : Store.empty.root.2.scope? Store.empty.root.1 = some ⟨none, .empty⟩ :=
    Store.scope?_root_iff.2 ⟨rfl, rfl⟩
  have hr := Store.Rooted.root hself rfl
  refine ⟨Store.sound_allocate Store.sound_empty none, ⟨_, hr⟩, fun name => ?_⟩
  rw [Store.get?_of_rooted hr hself]
  rfl

/-- A frame that binds the key, and a scope from which nothing is seen. -/
theorem supplied_frame (hs : s.SeesNothing h) (ht : t.SeesNothing k) :
    Supplied σ ⟨fun _ => k, fun g => g = (s.child h).1⟩
      ((s.child h).2.define (s.child h).1 σ.key (.number σ.value)) t := by
  have hframe := hs.child
  obtain ⟨root, hr⟩ := hframe.rooted
  refine ⟨Store.sound_define hframe.sound _ _ _, ht.sound, ?_, ?_, ?_, ?_, ?_⟩
  · rintro g g' rfl rfl _
    rfl
  · rintro g rfl
    exact ⟨root, hr.define _ _ _⟩
  · rintro g rfl
    exact ht.rooted
  · rintro g name rfl
    by_cases hname : name = σ.key
    · rw [if_pos hname, hname, Store.get?_define_self hr]
    · rw [if_neg hname, Store.get?_define_of_ne hr _ _ hname, hframe.get?]
  · rintro g name rfl
    exact ht.get? name

/-! ## The text of an application -/

namespace Substitution

/-- The row of parameters that holds the key alone. -/
def parameters (σ : Substitution) : String :=
  Bracket.round.enclose (" ".intercalate [σ.key])

/-- The procedure whose parameter is the key. -/
def abstraction (σ : Substitution) (body : String) : String :=
  Bracket.round.enclose (" ".intercalate ["lambda", σ.parameters, body])

/-- The procedure whose parameter is the key, applied to the literal. -/
def application (σ : Substitution) (body : String) : String :=
  Bracket.round.enclose (" ".intercalate [σ.abstraction body, σ.literal])

theorem application_eq (σ : Substitution) (body : String) :
    σ.application body = s!"((lambda ({σ.key}) {body}) {σ.literal})" := by
  apply String.toList_inj.1
  simp [application, abstraction, parameters, Bracket.enclose, Bracket.opener, Bracket.closer,
    toString]

theorem isToken_parameters (σ : Substitution) : Token.IsToken σ.parameters.toList := by
  apply Token.isToken_enclose
  simpa using Token.IsToken.atom σ.isAtom_key

theorem members_parameters (σ : Substitution) : Token.members σ.parameters = .ok [σ.key] := by
  apply Token.members_enclose
  simpa using Token.IsToken.atom σ.isAtom_key

/-- The pieces of an abstraction are tokens, up to the blanks around the body. -/
theorem isToken_pieces (σ : Substitution) (ht : Token.IsToken (trim body).toList) :
    ∀ m ∈ ["lambda", σ.parameters, body], Token.IsToken (trim m).toList := by
  have hlambda : Token.IsToken "lambda".toList := .atom (by decide +kernel)
  intro m hm
  rcases List.mem_cons.1 hm with rfl | hm
  · rw [Token.trim_of_isToken hlambda]
    exact hlambda
  · rcases List.mem_cons.1 hm with rfl | hm
    · rw [Token.trim_of_isToken σ.isToken_parameters]
      exact σ.isToken_parameters
    · rw [List.mem_singleton.1 hm]
      exact ht

theorem isToken_abstraction (σ : Substitution) (ht : Token.IsToken (trim body).toList) :
    Token.IsToken (σ.abstraction body).toList :=
  Token.isToken_enclose_padded .round (σ.isToken_pieces ht)

theorem members_abstraction (σ : Substitution) (ht : Token.IsToken (trim body).toList) :
    Token.members (σ.abstraction body) = .ok ["lambda", σ.parameters, trim body] := by
  have hlambda : trim "lambda" = "lambda" := by decide +kernel
  rw [abstraction, Token.members_enclose_padded .round (σ.isToken_pieces ht)]
  simp only [List.map_cons, List.map_nil, hlambda, Token.trim_of_isToken σ.isToken_parameters]

theorem isToken_operands (σ : Substitution) (ht : Token.IsToken (trim body).toList) :
    ∀ m ∈ [σ.abstraction body, σ.literal], Token.IsToken m.toList := by
  simpa using And.intro (σ.isToken_abstraction ht) (Token.IsToken.atom σ.isAtom_literal)

theorem members_application (σ : Substitution) (ht : Token.IsToken (trim body).toList) :
    Token.members (σ.application body) = .ok [σ.abstraction body, σ.literal] :=
  Token.members_enclose .round (σ.isToken_operands ht)

/-! ## The steps of an application -/

/-- The tuple that the abstraction becomes. -/
def abstractionTuple (σ : Substitution) (body : String) (h : Handle) : Expr :=
  .tuple [.procedure (.form .lambda h), .deferred σ.parameters h, .deferred body h]

/-- The procedure that the abstraction makes. -/
def closure (σ : Substitution) (body : String) (h : Handle) : Closure :=
  ⟨none, [σ.key], body, h⟩

theorem runOn_read_application (σ : Substitution) (ht : Token.IsToken (trim body).toList)
    (h : Handle) (s : Store) : (read (σ.application body) h).runOn s =
      (.ok (.pending [σ.abstraction body, σ.literal] (s.child h).1), (s.child h).2) := by
  have htrim : trim (σ.application body) = σ.application body :=
    Token.trim_of_isToken (Token.isToken_enclose .round (σ.isToken_operands ht))
  have hm := σ.members_application ht
  apply runOn_read_tuple
  · exact opensTuple_of_members hm
  · rw [htrim, hm]

/-- First, both members are shaped. -/
theorem runOn_step_operands (σ : Substitution) (ht : Token.IsToken (trim body).toList)
    (hs : s.SeesNothing h) :
    (step (.pending [σ.abstraction body, σ.literal] h)).runOn s =
      (.ok (.tuple [σ.abstractionTuple (trim body) (s.child h).1, .number σ.value]),
        (s.child h).2) := by
  have hm := σ.members_abstraction ht
  have htrim := Token.trim_of_isToken (σ.isToken_abstraction ht)
  have hlambda : (s.child h).2.readAtom "lambda" (s.child h).1 =
      .ok (.procedure (.form .lambda (s.child h).1)) := by
    rw [hs.child.readAtom]
    rfl
  have hhead : (expandMember (σ.abstraction body) h).runOn s =
      (.ok (σ.abstractionTuple (trim body) (s.child h).1), (s.child h).2) := by
    rw [runOn_expandMember_tuple (opensTuple_of_members hm) (by rw [htrim, hm]),
      runOn_expand_form (by decide +kernel) hlambda]
    rfl
  have hliteral : (expandMember σ.literal h).runOn (s.child h).2 =
      (.ok (.number σ.value), (s.child h).2) := by
    refine runOn_expandMember_of_isAtom σ.isAtom_literal ?_ rfl
    rw [(hs.beside h).readAtom, σ.readUnbound_literal]
  have hform : (σ.abstractionTuple (trim body) (s.child h).1).isForm = false := rfl
  simp only [step, expand_eq_shapeTuple, shapeTuple, Action.runOn_bind, hhead, hform,
    Bool.false_eq_true, if_false, List.mapM_cons, hliteral]
  rfl

/-- Second, the abstraction becomes a procedure. -/
theorem runOn_step_abstraction (σ : Substitution) (body : String) (h : Handle) (s : Store) :
    (step (.tuple [σ.abstractionTuple body h, .number σ.value])).runOn s =
      (.ok (.tuple [.procedure (.closure (σ.closure body h)), .number σ.value]), s) := by
  have ho : opensTuple σ.parameters = true := by
    have hopen := opensTuple_of_members σ.members_parameters
    rwa [Token.trim_of_isToken σ.isToken_parameters] at hopen
  have hmove : tupleMove [.procedure (.form .lambda h), .deferred σ.parameters h,
      .deferred body h] = .ok (.become (.procedure (.closure (σ.closure body h)))) := by
    have hnames : Form.names σ.parameters = .ok [σ.key] := by
      rw [Form.names, σ.members_parameters]
      rfl
    have hcheck : Form.lambda.checkParams [σ.key] = .ok [σ.key] := by
      simp [Form.checkParams, paramsFault, σ.isSymbol_key]
    simp only [tupleMove, Form.move, Form.makeClosure, Expr.tupleSource?, Expr.source?,
      Option.filter, ho, if_true, hnames, bind, Except.bind, hcheck]
    rfl
  have hadvance : tupleMove ([] ++ σ.abstractionTuple body h :: [.number σ.value]) =
      .ok (.advance 0) := rfl
  change (step (.tuple ([] ++ σ.abstractionTuple body h :: [.number σ.value]))).runOn s = _
  rw [runOn_step_advance hadvance, abstractionTuple, runOn_step_become hmove]
  rfl

/-- Third, the body is read in a frame that binds the key. -/
theorem runOn_step_closure (σ : Substitution) (body : String) (h : Handle) (s : Store) :
    (step (.tuple [.procedure (.closure (σ.closure body h)), .number σ.value])).runOn s =
      (readMember body (s.child h).1).runOn
        ((s.child h).2.define (s.child h).1 σ.key (.number σ.value)) := by
  have hmove : tupleMove [.procedure (.closure (σ.closure body h)), .number σ.value] =
      .ok (.enter (σ.closure body h) [.number σ.value]) := rfl
  rw [runOn_step_enter hmove, runOn_enter rfl]
  rfl

end Substitution

/-! ## Both ways -/

/-- The body is read in the frame, and its image in a scope from which nothing is seen. -/
theorem exists_read_in_frame (σ : Substitution) (ht : Token.BindsNothing body)
    (ho : opensTuple body = true) (hs : s.SeesNothing h) (hk : t.SeesNothing k) :
    ∃ r e e' s' t', (readMember body (s.child h).1).runOn
        ((s.child h).2.define (s.child h).1 σ.key (.number σ.value)) = (.ok e, s') ∧
      (read (σ.token body) k).runOn t = (.ok e', t') ∧ Supplied σ r s' t' ∧ σ.Relates r e e' := by
  obtain ⟨ms, hm, -⟩ := ht.members ho
  have htrim : trim (σ.token body) = σ.token body := Substitution.trim_token ht.1
  have hread : (read (σ.token body) k).runOn t =
      (.ok (.pending (ms.map σ.token) (t.child k).1), (t.child k).2) := by
    apply runOn_read_tuple
    · rw [htrim, Substitution.opensTuple_token ht.1, ho]
    · rw [htrim, Substitution.members_token ht.1 ho hm]
  obtain ⟨r, -, hsupplied, hc⟩ := inStep_readMember (supplied_frame hs hk) rfl ht
  rw [runOn_readMember (σ.token body), hread] at hsupplied hc
  rcases hx : (readMember body (s.child h).1).runOn
      ((s.child h).2.define (s.child h).1 σ.key (.number σ.value)) with ⟨err | e, s'⟩
  all_goals rw [hx] at hsupplied hc
  · cases hc
  · cases hc with
    | ok he => exact ⟨r, e, _, s', _, rfl, hread, hsupplied, he.1⟩

/-- From the first step of the application on, every run of it is matched by a run of the replaced
body. -/
theorem runs_of_application (σ : Substitution) (ht : Token.BindsNothing (trim body))
    (ho : opensTuple (trim body) = true) (hs : s.SeesNothing h) (hk : t.SeesNothing k) :
    ∃ e t', (read (σ.token (trim body)) k).runOn t = (.ok e, t') ∧
      ∀ n x u, Runs (.pending [σ.abstraction body, σ.literal] h) s n x u →
        ∃ m y u', Runs e t' m y u' ∧ Corresponds Expr.SameValue x y := by
  obtain ⟨r, e, e', s', t', hbody, hread, hsupplied, he⟩ :=
    exists_read_in_frame σ ht ho hs.child hk
  refine ⟨e', t', hread, fun n x u hrun => ?_⟩
  -- the replaced body starts where the application stands after three steps
  obtain ⟨_, hrun⟩ := runs_after_step hrun rfl (σ.runOn_step_operands ht.1 hs)
  obtain ⟨_, hrun⟩ := runs_after_step hrun rfl (σ.runOn_step_abstraction _ _ _)
  obtain ⟨m, hrun⟩ := runs_after_step hrun rfl ((σ.runOn_step_closure _ _ _).trans hbody)
  exact ⟨m, runs_image hrun hsupplied he⟩

/-- What a line comes to when the steps allowed suffice. -/
theorem Interpreter.runs_of_evaluate {source : String} {e : Expr} (settings : Settings)
    (hread : (Stepwise.read source h).runOn s = (.ok e, t))
    (hlimit : ((⟨s, h, settings⟩ : Interpreter).evaluate source).1 ≠
      .error (.evaluation (.stepLimit settings.stepLimit))) :
    ∃ n u, Runs e t n ((⟨s, h, settings⟩ : Interpreter).evaluate source).1 u := by
  have heq : ((⟨s, h, settings⟩ : Interpreter).evaluate source).1 =
      (Stepwise.reduce settings.stepLimit e t).1 := by
    simp only [evaluate, readAndReduce, read_of_ok settings hread]
    rfl
  rw [heq] at hlimit ⊢
  obtain ⟨n, -, hrun⟩ := (reduce_iff_runs settings.stepLimit).1 ⟨rfl, hlimit⟩
  exact ⟨n, _, hrun⟩

/-- Where the body of a procedure binds nothing, an application to a number comes to what the body
comes to with the number's literal in the place of the parameter: the same value or the same error,
unless one of them takes more steps than it may. -/
theorem evaluate_application_and_substitute (settings settings' : Settings)
    (key literal body : String) (value : Float) (hkey : Token.IsAtom key.toList)
    (hsymbol : isSymbol key = true) (hlooks : looksNumeric literal = true)
    (hvalue : readNumber literal = .ok value) (hbody : Token.BindsNothing (trim body))
    (hopen : opensTuple (trim body) = true) :
    ∃ text, Token.substitute key literal body = .ok text ∧
      let applied := ((Interpreter.start settings).evaluate
        s!"((lambda ({key}) {body}) {literal})").1
      let replaced := ((Interpreter.start settings').evaluate text).1
      applied ≠ .error (.evaluation (.stepLimit settings.stepLimit)) →
        replaced ≠ .error (.evaluation (.stepLimit settings'.stepLimit)) →
          Corresponds Expr.SameValue applied replaced := by
  let σ : Substitution := ⟨key, literal, value, hkey, hsymbol, hlooks, hvalue⟩
  have htoken := hbody.1
  refine ⟨σ.token (trim body), Token.substitute_of_trim σ.opensTuple_key literal htoken hopen, ?_⟩
  intro applied replaced happlied hreplaced
  have hs := seesNothing_root
  have hread := σ.runOn_read_application htoken Store.empty.root.1 Store.empty.root.2
  rw [σ.application_eq] at hread
  obtain ⟨e, t, hread', hmatch⟩ := runs_of_application σ hbody hopen hs.child hs
  obtain ⟨n, u, hrun⟩ := Interpreter.runs_of_evaluate settings hread happlied
  obtain ⟨n', u', hrun'⟩ := Interpreter.runs_of_evaluate settings' hread' hreplaced
  obtain ⟨m, y, v, hrun'', hsame⟩ := hmatch n _ u hrun
  -- a run has one result, so the run that matches ends as the replaced body was seen to end
  rw [hrun''.result_unique hrun'] at hsame
  exact hsame

/-- A parameter that is used twice, next to a name that is bound nowhere and never read. -/
theorem evaluate_application_of_if :
    Token.substitute "x" "1" " (if (number? x) x y)" = .ok "(if (number? 1) 1 y)" ∧
      Corresponds Expr.SameValue
        ((Interpreter.start ⟨20, false⟩).evaluate "((lambda (x)  (if (number? x) x y)) 1)").1
        ((Interpreter.start ⟨9, true⟩).evaluate "(if (number? 1) 1 y)").1 := by
  have hif : Token.BindsNothing "if" := .of_isAtom (by decide +kernel) (by decide +kernel)
  have hnumber : Token.BindsNothing "number?" := .of_isAtom (by decide +kernel) (by decide +kernel)
  have hx : Token.BindsNothing "x" := .of_isAtom (by decide +kernel) (by decide +kernel)
  have hy : Token.BindsNothing "y" := .of_isAtom (by decide +kernel) (by decide +kernel)
  have htest : Token.BindsNothing (Bracket.round.enclose (" ".intercalate ["number?", "x"])) :=
    Token.WellFormed.enclose .round (by simpa using ⟨hnumber, hx⟩)
  have htrim : trim " (if (number? x) x y)" =
      Bracket.round.enclose (" ".intercalate
        ["if", Bracket.round.enclose (" ".intercalate ["number?", "x"]), "x", "y"]) := by
    decide +kernel
  have hbody : Token.BindsNothing (trim " (if (number? x) x y)") := by
    rw [htrim]
    exact Token.WellFormed.enclose .round (by simpa using ⟨hif, htest, hx, hy⟩)
  obtain ⟨value, hvalue⟩ : ∃ value, readNumber "1" = .ok value :=
    exists_ok_of_isOk (by decide +kernel)
  obtain ⟨text, htext, hsame⟩ := evaluate_application_and_substitute ⟨20, false⟩ ⟨9, true⟩ "x" "1"
    " (if (number? x) x y)" value (by decide +kernel) (by decide +kernel) (by decide +kernel) hvalue
    hbody (by decide +kernel)
  have hreplaced : (Token.substitute "x" "1" " (if (number? x) x y)").toOption =
      some "(if (number? 1) 1 y)" := by
    decide +kernel
  rw [htext] at hreplaced
  cases hreplaced
  refine ⟨htext, hsame ?_ ?_⟩
  · exact ne_error_of_isOk (by decide +kernel)
  · exact ne_error_of_isOk (by decide +kernel)

end Stepwise
