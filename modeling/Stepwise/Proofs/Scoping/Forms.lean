import Stepwise.Proofs.Confinement.Step
import Stepwise.Proofs.WellFormed.Session
/-!
# Forms and the tuples they lead

Every tuple is read into a scope of its own (`Store.OpensTuples`). A form remembers the scope it was
named in, and the arguments it takes as source remember the scope of their tuple. The two are the
same scope, unless the form came to the head of the tuple by way of a name that is bound to it.
`Seated` says this of every tuple in an expression, and every step keeps it (`seated_step`).
-/

namespace Stepwise

variable {passed : Handle → Prop} {s t : Store} {g h : Handle} {e : Expr}

/-! ## The scope of a tuple -/

/-- A tuple is shaped to one with a form at its head and the other tokens behind it, or to one that
no form leads. -/
theorem shapeTuple_cases {member : String → Eval Expr} {tokens : List String}
    (hx : (shapeTuple member g tokens).runOn s = (.ok e, t)) :
    (∃ head first rest, tokens = first :: rest ∧ (member first).runOn s = (.ok head, t) ∧
      e = .tuple (head :: rest.map (.deferred · g))) ∨
    ∃ members, e = .tuple members ∧ ∀ head ∈ members.head?, head.isForm = false := by
  cases tokens with
  | nil =>
    cases hx
    exact .inr ⟨[], rfl, by simp⟩
  | cons first rest =>
    rw [shapeTuple, Action.runOn_bind] at hx
    rcases hr : (member first).runOn s with ⟨err | head, u⟩
    all_goals rw [hr] at hx
    · cases hx
    · simp only at hx
      split at hx
      · cases hx
        exact .inl ⟨head, first, rest, rfl, hr, rfl⟩
      · rename_i hf
        rw [Action.runOn_bind] at hx
        rcases hm : (rest.mapM member).runOn u with ⟨err | es, u'⟩
        all_goals rw [hm] at hx
        · cases hx
        · cases hx
          exact .inr ⟨head :: es, rfl, by simpa using hf⟩

theorem exists_tuple_of_expandNested {chase : List String → Handle → Eval Expr} {depth : Nat}
    {tokens : List String} (hx : (expandNested chase depth tokens g).runOn s = (.ok e, t)) :
    ∃ members, e = .tuple members := by
  cases depth with
  | zero => cases hx
  | succ depth =>
    rcases shapeTuple_cases hx with ⟨_, _, _, _, _, he⟩ | ⟨_, he, _⟩
    · exact ⟨_, he⟩
    · exact ⟨_, he⟩

theorem exists_tuple_of_chaseBound {tokens : List String}
    (hx : (chaseBound tokens g).runOn s = (.ok e, t)) : ∃ members, e = .tuple members := by
  rw [chaseBound, Action.runOn_bind, Action.runOn_get] at hx
  simp only at hx
  generalize s.bindingCount = n at hx
  cases n with
  | zero => cases hx
  | succ n => exact exists_tuple_of_expandNested hx

/-- A member is a procedure only if it is an atom that stands for one. -/
theorem readAtom_of_expandMember {token : String} {p : Procedure}
    (hx : (expandMember token g).runOn s = (.ok (.procedure p), t)) :
    s.readAtom (trim token) g = .ok (.procedure p) := by
  rw [expandMember, shapeMember, Action.runOn_bind, runOn_readMember] at hx
  rcases runOn_read_cases token g s with ⟨err, hr⟩ | ⟨ms, ho, -, hr⟩ | ⟨ho, hr⟩
  all_goals rw [hr] at hx
  · cases hx
  · simp only [Except.mapError, ho, if_true] at hx
    obtain ⟨members, he⟩ := exists_tuple_of_expandNested hx
    cases he
  · cases ha : s.readAtom (trim token) g with
    | error err =>
      rw [ha] at hx
      cases hx
    | ok e =>
      rw [ha] at hx
      cases e with
      | pending ms inner =>
        simp only [Except.mapError, ho, Bool.false_eq_true, if_false] at hx
        obtain ⟨members, he⟩ := exists_tuple_of_chaseBound hx
        cases he
      | procedure q =>
        cases hx
        rfl
      | _ => cases hx

/-- A form is named where it is read, or its name is bound to it. -/
theorem named_or_bound {token : String} {f : Form}
    (hx : s.readAtom token g = .ok (.procedure (.form f h))) :
    h = g ∨ s.get? g token = some (.procedure (.form f h)) := by
  unfold Store.readAtom at hx
  split at hx
  · rename_i he
    cases hx
    exact .inr he
  · rcases readUnbound_cases hx with ⟨f', -, he⟩ | ⟨b, he⟩ | ⟨x, he⟩ | ⟨b, he⟩
    · cases he
      exact .inl rfl
    all_goals cases he

/-- A tuple is read into a new scope of its own, inside the scope it is read in. When it is expanded
and a form leads it, the arguments wait in its scope, and the form was named there too, unless the
token at the head is bound to the form. -/
structure Store.OpensTuples (s : Store) : Prop where
  read : ∀ text p ms, opensTuple (trim text) = true → Token.members (trim text) = .ok ms →
    ∃ g t, (Stepwise.read text p).runOn s = (.ok (.pending ms g), t) ∧ s.isLive g = false ∧
      t.parent? g = some p
  expand : ∀ tokens g f h args t,
    (Stepwise.expand tokens g).runOn s = (.ok (.tuple (.procedure (.form f h) :: args)), t) →
    ∃ head rest, tokens = head :: rest ∧ args = rest.map (.deferred · g) ∧
      (h = g ∨ s.get? g (trim head) = some (.procedure (.form f h)))

theorem opensTuples_of_sound (hs : s.Sound) : s.OpensTuples := by
  refine ⟨fun text p ms ho hm => ?_, fun tokens g f h args t hx => ?_⟩
  · refine ⟨_, _, runOn_read_tuple ho hm p s, ?_, ?_⟩
    · by_contra hl
      exact Store.ne_child hs (eq_true_of_ne_false hl) rfl
    · rw [Store.parent?, Store.scope?_child_self hs]
      rfl
  · rw [expand_eq_shapeTuple] at hx
    rcases shapeTuple_cases hx with ⟨e, head, rest, rfl, hr, he⟩ | ⟨members, he, hf⟩
    · cases he
      exact ⟨head, rest, rfl, rfl, named_or_bound (readAtom_of_expandMember hr)⟩
    · cases he
      cases hf _ rfl

/-! ## Seated expressions -/

/-- The arguments that a form does not reduce but takes as source. A definition does so with what
it defines. -/
def Form.quotes : Form → List Expr → List Expr
  | .define, args => args.take 1
  | .lambda, args => args
  | .ifElse, _ | .and, _ | .or, _ => []

/-- The quoted arguments that are still source wait in one scope. It is the scope of the form
itself, unless the form has been passed. -/
def Form.Leads (passed : Handle → Prop) (f : Form) (h : Handle) (args : List Expr) : Prop :=
  ∃ g, (h = g ∨ passed h) ∧
    ∀ a ∈ f.quotes args, ∀ text, a.source? = some text → a = .deferred text g

/-- In every tuple of the expression, at any depth, the form at the head leads its arguments. When
the head is still to be reduced, the other members have been shaped, and none is source. -/
inductive Seated (passed : Handle → Prop) : Expr → Prop
  | value {e : Expr} : e.isValue = true → Seated passed e
  | pending (tokens : List String) (g : Handle) : Seated passed (.pending tokens g)
  | deferred (token : String) (g : Handle) : Seated passed (.deferred token g)
  | form {f : Form} {h : Handle} {args : List Expr} : (∀ a ∈ args, Seated passed a) →
      f.Leads passed h args → Seated passed (.tuple (.procedure (.form f h) :: args))
  | tuple {members : List Expr} : (∀ e ∈ members, Seated passed e) →
      (∀ head ∈ members.head?, head.isForm = false) →
      (∀ head ∈ members.head?, head.isValue = false → ∀ a ∈ members.tail, a.source? = none) →
      Seated passed (.tuple members)

theorem Form.mem_of_mem_quotes {f : Form} {args : List Expr} {a : Expr} (ha : a ∈ f.quotes args) :
    a ∈ args := by
  cases f with
  | define => exact List.mem_of_mem_take ha
  | lambda => exact ha
  | _ => cases ha

theorem Form.leads_of_shaped {f : Form} {args : List Expr} (ha : ∀ a ∈ args, a.source? = none) :
    f.Leads passed h args := by
  refine ⟨h, .inl rfl, fun a hmem text hs => ?_⟩
  rw [ha a (mem_of_mem_quotes hmem)] at hs
  cases hs

namespace Seated

variable {args : List Expr} {f : Form}

theorem members {members : List Expr} (hm : Seated passed (.tuple members)) :
    ∀ e ∈ members, Seated passed e := by
  cases hm with
  | value hv => cases hv
  | tuple ha => exact ha
  | form ha =>
    intro e he
    rcases List.mem_cons.1 he with rfl | he
    · exact .value rfl
    · exact ha e he

theorem leads (hm : Seated passed (.tuple (.procedure (.form f h) :: args))) :
    f.Leads passed h args := by
  cases hm with
  | value hv => cases hv
  | form _ hl => exact hl
  | tuple _ hf => cases hf _ rfl

/-- A shaped head may become anything; if it becomes a form, there is nothing for it to quote. -/
theorem replace_head {e' : Expr} (hm : Seated passed (.tuple (e :: args))) (hv : e.isValue = false)
    (he' : Seated passed e') : Seated passed (.tuple (e' :: args)) := by
  cases hm with
  | value hv => cases hv
  | form => cases hv
  | tuple ha _ hs =>
    have hshaped := hs e rfl hv
    by_cases hf : e'.isForm = true
    · obtain ⟨f, h, rfl⟩ := Expr.eq_form_of_isForm hf
      exact .form (fun a hmem => ha a (by simp [hmem])) (Form.leads_of_shaped hshaped)
    · refine .tuple (fun x hx => ?_) ?_ fun _ _ _ => hshaped
      · rcases List.mem_cons.1 hx with rfl | hx
        · exact he'
        · exact ha x (by simp [hx])
      · simpa using hf

/-- An argument that is advanced is none that the form quotes. -/
theorem replace_argument {head e' : Expr} {before after : List Expr}
    (hm : Seated passed (.tuple (head :: (before ++ e :: after))))
    (hmove : tupleMove (head :: (before ++ e :: after)) = .ok (.advance (before.length + 1)))
    (he' : Seated passed e') : Seated passed (.tuple (head :: (before ++ e' :: after))) := by
  have hargs : ∀ x ∈ before ++ e' :: after, Seated passed x := by
    intro x hx
    rcases eq_or_mem_of_mem_replaced hx with rfl | hx
    · exact he'
    · exact hm.members x (List.mem_cons_of_mem head hx)
  by_cases hf : head.isForm = true
  · obtain ⟨f, h, rfl⟩ := Expr.eq_form_of_isForm hf
    obtain ⟨hlambda, hdefine⟩ := form_of_advance (moves_of_tupleMove hmove)
    obtain ⟨g, hg, hq⟩ := hm.leads
    refine .form hargs ⟨g, hg, ?_⟩
    cases f with
    | lambda => exact (hlambda rfl).elim
    | define =>
      obtain ⟨target, rfl⟩ := List.length_eq_one_iff.1 (Nat.succ.inj (hdefine rfl).1)
      exact hq
    | _ => simp [Form.quotes]
  · have hf : head.isForm = false := by simpa using hf
    have hv : head.isValue = true := by
      -- the first member that is no value comes later
      by_contra hv
      have hfirst : Expr.firstUnreduced? (head :: (before ++ e :: after)) = some 0 := by
        simp [Expr.firstUnreduced?, List.findIdx?_cons, hv]
      rw [tupleMove_of_not_form hf, hfirst] at hmove
      cases hmove
    refine .tuple (fun x hx => ?_) (by simpa using hf) (by simp [hv])
    rcases List.mem_cons.1 hx with rfl | hx
    · exact .value hv
    · exact hargs x hx

theorem replace {e' : Expr} {before after : List Expr}
    (hm : Seated passed (.tuple (before ++ e :: after)))
    (hmove : tupleMove (before ++ e :: after) = .ok (.advance before.length))
    (he' : Seated passed e') : Seated passed (.tuple (before ++ e' :: after)) := by
  cases before with
  | nil =>
    have hv : e.isValue = false := @isValue_of_advance [] after e hmove
    exact hm.replace_head hv he'
  | cons head before => exact hm.replace_argument hmove he'

/-- What a seated tuple becomes is seated. -/
theorem become {members : List Expr} (hm : Seated passed (.tuple members))
    (hmove : Moves members (.become e)) : Seated passed e := by
  cases hmove with
  | builtin hb =>
    rcases Builtin.isPlain_apply hb with ⟨x, rfl⟩ | ⟨b, rfl⟩
    · exact .value rfl
    · exact .value rfl
  | lambda | nothing => exact .value rfl
  | settle hv => exact .value hv
  | branch =>
    split
    · exact hm.members _ (by simp)
    · exact hm.members _ (by simp)
  | drop hf =>
    refine .form (fun a ha => hm.members a (by simp [ha])) ⟨_, .inl rfl, fun a ha => ?_⟩
    rcases hf with rfl | rfl
    · cases ha
    · cases ha

end Seated

/-! ## Reading and expanding -/

/-- A name of the store is bound to a form that was named in the scope of `h`. -/
def Store.BindsForm (s : Store) (h : Handle) : Prop :=
  ∃ g scope name f, s.scope? g = some scope ∧
    scope.bindings.get? name = some (.procedure (.form f h))

/-- The store is well formed, and all forms in it count as passed. -/
structure Store.Passes (s : Store) (passed : Handle → Prop) : Prop where
  well : s.WellFormed fun _ => True
  forms : s.AllBound fun _ e => ∀ f h, e = .procedure (.form f h) → passed h

theorem Store.Passes.child (hs : s.Passes passed) (p : Handle) : (s.child p).2.Passes passed :=
  ⟨hs.well.child p, hs.forms.child hs.well.sound p⟩

theorem isValue_readAtom {token : String} (hs : s.WellFormed fun _ => True)
    (hx : s.readAtom token g = .ok e) : e.isValue = true := by
  have hread : Results _ _ (s.readAtom token g) := results_readAtom hs trivial g
  rw [hx] at hread
  exact hread.of_ok.1

/-- What is read is a value or source. -/
theorem seated_read {text : String} (hs : s.WellFormed fun _ => True)
    (hx : ((read text g).runOn s).1 = .ok e) : Seated passed e := by
  rcases runOn_read_cases text g s with ⟨err, hr⟩ | ⟨ms, -, -, hr⟩ | ⟨-, hr⟩
  all_goals rw [hr] at hx
  · cases hx
  · cases hx
    exact .pending _ _
  · exact .value (isValue_readAtom hs hx)

theorem seated_readMember {token : String} (hs : s.WellFormed fun _ => True)
    (hx : ((readMember token g).runOn s).1 = .ok e) : Seated passed e := by
  rw [runOn_readMember] at hx
  cases hr : ((read token g).runOn s).1 with
  | error err =>
    rw [hr] at hx
    cases hx
  | ok v =>
    rw [hr] at hx
    cases hx
    exact seated_read hs hr

/-- A form is named where it is read, or it has been passed. -/
theorem named_or_passed {token : String} {f : Form} (hs : s.Passes passed)
    (hx : s.readAtom token g = .ok (.procedure (.form f h))) : h = g ∨ passed h := by
  rcases named_or_bound hx with rfl | hbound
  · exact .inl rfl
  · exact .inr (hs.forms.get? hbound f h rfl)

/-- What can stand in a tuple that has just been shaped: nothing in it is source any more. -/
structure Shaped (passed : Handle → Prop) (g : Handle) (e : Expr) : Prop where
  seated : Seated passed e
  shaped : e.source? = none
  form : ∀ f h, e = .procedure (.form f h) → h = g ∨ passed h

theorem source?_of_isValue (hv : e.isValue = true) : e.source? = none := by
  cases e with
  | pending | tuple | deferred => cases hv
  | _ => rfl

theorem yields_readMember (hs : s.Passes passed) (token : String) (g : Handle) :
    Yields (Store.Passes · passed) (fun _ => True)
      (fun e => Shaped passed g e ∨ ∃ ms inner, e = .pending ms inner ∧
        opensTuple (trim token) = true ∧ Token.members (trim token) = .ok ms)
      ((readMember token g).runOn s) := by
  rw [runOn_readMember]
  rcases runOn_read_cases token g s with ⟨err, hr⟩ | ⟨ms, ho, hm, hr⟩ | ⟨-, hr⟩
  all_goals rw [hr]
  · exact ⟨hs, .error trivial⟩
  · exact ⟨hs.child g, .ok (.inr ⟨ms, _, rfl, ho, hm⟩)⟩
  · cases ha : s.readAtom (trim token) g with
    | error err => exact ⟨hs, .error trivial⟩
    | ok e =>
      have hv := isValue_readAtom hs.well ha
      refine ⟨hs, .ok (.inl ⟨.value hv, source?_of_isValue hv, fun f h he => ?_⟩)⟩
      rw [he] at ha
      exact named_or_passed hs ha

/-- An expanded tuple is seated. -/
theorem yields_expand (tokens : List String) (hs : s.Passes passed) (g : Handle) :
    Yields (Store.Passes · passed) (fun _ => True)
      (fun e => Seated passed e ∧ ∃ members, e = .tuple members) ((expand tokens g).runOn s) := by
  induction tokens using tokens_induction generalizing s g with
  | h tokens ih =>
    rw [expand_eq_shapeTuple]
    refine yields_shapeTuple (Q := Shaped passed g) hs (fun token htoken t ht => ?_)
      (fun head first rest _ hhead hf => ⟨?_, _, rfl⟩) fun es hes hf => ⟨?_, _, rfl⟩
    · refine yields_expandMember (yields_readMember ht token g) (fun ms inner u hp hu => ?_)
        fun e he hne => ?_
      · rcases hp with hp | ⟨ns, inner', he, ho, hm⟩
        · cases hp.shaped
        · cases he
          refine ⟨ho, (ih token htoken ms hm hu inner).weaken fun e he => ?_⟩
          obtain ⟨hseated, members, rfl⟩ := he
          exact ⟨hseated, rfl, fun f h hform => by cases hform⟩
      · rcases he with he | ⟨ms, inner, rfl, -⟩
        · exact he
        · exact (hne ms inner rfl).elim
    · obtain ⟨f, h, rfl⟩ := Expr.eq_form_of_isForm hf
      refine .form (fun a ha => ?_) ⟨g, hhead.form f h rfl, fun a ha text hs => ?_⟩
      · obtain ⟨token, -, rfl⟩ := List.mem_map.1 ha
        exact .deferred token g
      · obtain ⟨token, -, rfl⟩ := List.mem_map.1 (Form.mem_of_mem_quotes ha)
        cases hs
        rfl
    · refine .tuple (fun e he => (hes e he).seated) hf fun _ _ _ a ha => ?_
      exact (hes a (List.mem_of_mem_tail ha)).shaped

/-! ## Steps -/

theorem seated_step (hs : s.Passes passed) (hw : e.WellFormed fun _ => True)
    (he : Seated passed e) {e' : Expr} (hx : ((step e).runOn s).1 = .ok e') :
    Seated passed e' := by
  induction e using step_induction generalizing e' with
  | advance before e after hmove ih =>
    rw [runOn_step_advance hmove] at hx
    cases hr : ((step e).runOn s).1 with
    | error err =>
      rw [hr] at hx
      cases hx
    | ok x =>
      rw [hr] at hx
      cases hx
      exact he.replace hmove (ih (hw.members e (by simp)) (he.members e (by simp)) hr)
  | base e hbase =>
    cases e with
    | pending tokens g =>
      have hexpand := (yields_expand tokens hs g).result
      rw [step] at hx
      rw [hx] at hexpand
      exact hexpand.of_ok.1
    | deferred token g => exact seated_readMember hs.well hx
    | tuple members =>
      cases hm : tupleMove members with
      | error err =>
        rw [runOn_step_error hm] at hx
        cases hx
      | ok m =>
        have hmoves := moves_of_tupleMove hm
        cases m with
        | advance place => exact (hbase members place rfl hm).elim
        | become x =>
          rw [runOn_step_become hm] at hx
          cases hx
          exact he.become hmoves
        | define g name value =>
          rw [runOn_step_define hm] at hx
          cases hx
          exact .value rfl
        | enter c args =>
          have hmove := regular_tupleMove hw.members
          rw [hm] at hmove
          obtain ⟨hc, hargs⟩ := hmove.of_ok
          rw [runOn_step_enter hm] at hx
          by_cases hlength : args.length = c.params.length
          · rw [runOn_enter hlength] at hx
            exact seated_readMember (wellFormed_frame hs.well hc hargs) hx
          · rw [runOn_enter_error hlength] at hx
            cases hx
    | procedure | number | boolean | void =>
      cases hx
      exact he

end Stepwise
