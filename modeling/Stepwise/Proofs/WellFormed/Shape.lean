import Stepwise.Proofs.Scoping.Forms
import Stepwise.Proofs.WellFormed.Session
/-!
# Expansions come to an end

To expand a tuple is to read its members, and to expand in turn those that are read as tuples.
`Expands` is this recursion with no bound on its depth, so that there is a derivation exactly where
it ends. A name that is bound to a tuple of itself would keep it going for ever
(`Expands.not_self`). As names are bound to values only, it ends, and with a tuple in which nothing
is pending any more (`expands_expand`, `yields_isShaped`).
-/

namespace Stepwise

variable {s t : Store} {g : Handle} {e : Expr} {token : String} {tokens : List String}

/-! ## What occurs in an expression -/

/-- `x` is the expression itself or stands in one of its tuples, at any depth. -/
inductive Expr.OccursIn (x : Expr) : Expr → Prop
  | self : OccursIn x x
  | member {e : Expr} {members : List Expr} : e ∈ members → OccursIn x e →
      OccursIn x (.tuple members)

namespace Expr

theorem OccursIn.eq_of_isValue {x : Expr} (h : x.OccursIn e) (hv : e.isValue = true) : x = e := by
  cases h with
  | self => rfl
  | member => cases hv

/-- The procedures in a well-formed expression are well formed. -/
theorem OccursIn.wellFormed {allowed : String → Prop} {c : Closure}
    (h : (Expr.procedure (.closure c)).OccursIn e) (hw : e.WellFormed allowed) :
    c.WellFormed allowed := by
  induction h with
  | self => exact hw.of_procedure
  | member hmem _ ih => exact ih (hw.members _ hmem)

/-- Nothing in the expression is pending, and where a token is deferred there is a form at the head
of the tuple it stands in. -/
structure IsShaped (e : Expr) : Prop where
  pending : ∀ tokens g, ¬ (Expr.pending tokens g).OccursIn e
  deferred : ∀ members, (Expr.tuple members).OccursIn e → ∀ token g, .deferred token g ∈ members →
    ∃ head args, members = head :: args ∧ head.isForm = true

theorem isShaped_of_isValue (hv : e.isValue = true) : e.IsShaped := by
  refine ⟨fun tokens g h => ?_, fun members h => ?_⟩
  · rw [← h.eq_of_isValue hv] at hv
    cases hv
  · rw [← h.eq_of_isValue hv] at hv
    cases hv

theorem isShaped_tuple {members : List Expr}
    (hm : ∀ e ∈ members, e.IsShaped ∨ ∃ token g, e = .deferred token g)
    (hd : ∀ token g, .deferred token g ∈ members →
      ∃ head args, members = head :: args ∧ head.isForm = true) : (Expr.tuple members).IsShaped := by
  refine ⟨fun tokens g h => ?_, fun inner h => ?_⟩
  · cases h with
    | member hmem hin =>
      rcases hm _ hmem with hs | ⟨token, g', rfl⟩
      · exact hs.pending tokens g hin
      · cases hin
  · cases h with
    | self => exact hd
    | member hmem hin =>
      rcases hm _ hmem with hs | ⟨token, g', rfl⟩
      · exact hs.deferred inner hin
      · cases hin

end Expr

/-! ## The recursion -/

mutual

/-- The expansion of a tuple comes to `x`. -/
inductive Expands : List String → Handle → Store → Except Error Expr × Store → Prop
  | empty {g : Handle} {s : Store} : Expands [] g s (.ok (.tuple []), s)
  | headFails {first : String} {rest : List String} {g : Handle} {s t : Store} {err : Error} :
      ExpandsMember first g s (.error err, t) → Expands (first :: rest) g s (.error err, t)
  | form {first : String} {rest : List String} {g : Handle} {s t : Store} {head : Expr} :
      ExpandsMember first g s (.ok head, t) → head.isForm = true →
      Expands (first :: rest) g s (.ok (.tuple (head :: rest.map (.deferred · g))), t)
  | memberFails {first : String} {rest : List String} {g : Handle} {s t u : Store} {head : Expr}
      {err : Error} : ExpandsMember first g s (.ok head, t) → head.isForm = false →
      ExpandsAll rest g t (.error err, u) → Expands (first :: rest) g s (.error err, u)
  | tuple {first : String} {rest : List String} {g : Handle} {s t u : Store} {head : Expr}
      {es : List Expr} : ExpandsMember first g s (.ok head, t) → head.isForm = false →
      ExpandsAll rest g t (.ok es, u) → Expands (first :: rest) g s (.ok (.tuple (head :: es)), u)

/-- A member is read; if it is a tuple then, or a name that is bound to one, it is expanded. -/
inductive ExpandsMember : String → Handle → Store → Except Error Expr × Store → Prop
  | fails {token : String} {g : Handle} {s t : Store} {err : Error} :
      (readMember token g).runOn s = (.error err, t) → ExpandsMember token g s (.error err, t)
  | shaped {token : String} {g : Handle} {s t : Store} {e : Expr} :
      (readMember token g).runOn s = (.ok e, t) → (∀ ms inner, e ≠ .pending ms inner) →
      ExpandsMember token g s (.ok e, t)
  | nested {token : String} {ms : List String} {g inner : Handle} {s t : Store}
      {x : Except Error Expr × Store} :
      (readMember token g).runOn s = (.ok (.pending ms inner), t) → Expands ms inner t x →
      ExpandsMember token g s x

/-- The members are expanded from left to right, up to the first that fails. -/
inductive ExpandsAll : List String → Handle → Store → Except Error (List Expr) × Store → Prop
  | nil {g : Handle} {s : Store} : ExpandsAll [] g s (.ok [], s)
  | fails {token : String} {rest : List String} {g : Handle} {s t : Store} {err : Error} :
      ExpandsMember token g s (.error err, t) → ExpandsAll (token :: rest) g s (.error err, t)
  | failsLater {token : String} {rest : List String} {g : Handle} {s t u : Store} {e : Expr}
      {err : Error} : ExpandsMember token g s (.ok e, t) → ExpandsAll rest g t (.error err, u) →
      ExpandsAll (token :: rest) g s (.error err, u)
  | cons {token : String} {rest : List String} {g : Handle} {s t u : Store} {e : Expr}
      {es : List Expr} : ExpandsMember token g s (.ok e, t) → ExpandsAll rest g t (.ok es, u) →
      ExpandsAll (token :: rest) g s (.ok (e :: es), u)

end

/-- What is read as a tuple of itself, in the same scope and with the same store. -/
def ReadsItself (name : String) (g : Handle) (s : Store) : Prop :=
  (readMember name g).runOn s = (.ok (.pending [name] g), s)

theorem ReadsItself.of_nested {name : String} {ms : List String} {inner : Handle}
    (h : ReadsItself name g s) (hr : (readMember name g).runOn s = (.ok (.pending ms inner), t)) :
    ms = [name] ∧ ReadsItself name inner t := by
  rw [h] at hr
  cases hr
  exact ⟨rfl, h⟩

mutual

/-- There is no end where a name is bound to a tuple of itself. -/
theorem Expands.not_self {name : String} {tokens : List String} {g : Handle} {s : Store}
    {x : Except Error Expr × Store} :
    Expands tokens g s x → tokens = [name] → ReadsItself name g s → False
  | .empty, hn, _ => by cases hn
  | .headFails hm, hn, hread => hm.not_self (List.cons.inj hn).1 hread
  | .form hm _, hn, hread => hm.not_self (List.cons.inj hn).1 hread
  | .memberFails hm _ _, hn, hread => hm.not_self (List.cons.inj hn).1 hread
  | .tuple hm _ _, hn, hread => hm.not_self (List.cons.inj hn).1 hread

theorem ExpandsMember.not_self {name token : String} {g : Handle} {s : Store}
    {x : Except Error Expr × Store} :
    ExpandsMember token g s x → token = name → ReadsItself name g s → False
  | .fails hr, hn, hread => by
    rw [hn, hread] at hr
    cases hr
  | .shaped hr hne, hn, hread => by
    rw [hn, hread] at hr
    cases hr
    exact hne _ _ rfl
  | .nested hr hnested, hn, hread =>
    have hself := hread.of_nested (hn ▸ hr)
    hnested.not_self hself.1 hself.2

end

theorem expandsAll_mapM (hs : s.WellFormed fun _ => True)
    (hstore : ∀ token t, t.WellFormed (fun _ => True) →
      ((expandMember token g).runOn t).2.WellFormed fun _ => True)
    (hm : ∀ token ∈ tokens, ∀ t, t.WellFormed (fun _ => True) →
      ExpandsMember token g t ((expandMember token g).runOn t)) :
    ExpandsAll tokens g s ((tokens.mapM (expandMember · g)).runOn s) := by
  induction tokens generalizing s with
  | nil => exact .nil
  | cons token rest ih =>
    have hfirst := hm token (by simp) s hs
    have hwell := hstore token s hs
    rw [List.mapM_cons, Action.runOn_bind]
    rcases hx : (expandMember token g).runOn s with ⟨err | e, t⟩
    all_goals rw [hx] at hfirst hwell
    · exact .fails hfirst
    · have hrest := ih hwell fun token' hmem => hm token' (by simp [hmem])
      simp only [Action.runOn_bind]
      rcases hy : (rest.mapM (expandMember · g)).runOn t with ⟨err | es, u⟩
      all_goals rw [hy] at hrest
      · exact .failsLater hfirst hrest
      · exact .cons hfirst hrest

theorem expands_shapeTuple (hs : s.WellFormed fun _ => True)
    (hstore : ∀ token t, t.WellFormed (fun _ => True) →
      ((expandMember token g).runOn t).2.WellFormed fun _ => True)
    (hm : ∀ token ∈ tokens, ∀ t, t.WellFormed (fun _ => True) →
      ExpandsMember token g t ((expandMember token g).runOn t)) :
    Expands tokens g s ((shapeTuple (expandMember · g) g tokens).runOn s) := by
  cases tokens with
  | nil => exact .empty
  | cons first rest =>
    have hfirst := hm first (by simp) s hs
    have hwell := hstore first s hs
    rw [shapeTuple, Action.runOn_bind]
    rcases hx : (expandMember first g).runOn s with ⟨err | head, t⟩
    all_goals rw [hx] at hfirst hwell
    · exact .headFails hfirst
    · simp only
      split
      · rename_i hf
        exact .form hfirst hf
      · rename_i hf
        have hf : head.isForm = false := by simpa using hf
        have hrest : ExpandsAll rest g t _ :=
          expandsAll_mapM hwell hstore fun token hmem => hm token (by simp [hmem])
        rw [Action.runOn_bind]
        rcases hy : (rest.mapM (expandMember · g)).runOn t with ⟨err | es, u⟩
        all_goals rw [hy] at hrest
        · exact .memberFails hfirst hf hrest
        · exact .tuple hfirst hf hrest

/-! ## Where names are bound to values -/

/-- A token is read as a value, or as a tuple of its own members. -/
theorem readMember_cases (hs : s.WellFormed fun _ => True) (token : String) (g : Handle) :
    (∃ err, (readMember token g).runOn s = (.error err, s)) ∨
    (∃ v, v.isValue = true ∧ (readMember token g).runOn s = (.ok v, s)) ∨
    ∃ ms, opensTuple (trim token) = true ∧ Token.members (trim token) = .ok ms ∧
      (readMember token g).runOn s = (.ok (.pending ms (s.child g).1), (s.child g).2) := by
  rw [runOn_readMember]
  rcases runOn_read_cases token g s with ⟨err, hr⟩ | ⟨ms, ho, hm, hr⟩ | ⟨-, hr⟩
  all_goals rw [hr]
  · exact .inl ⟨_, rfl⟩
  · exact .inr (.inr ⟨ms, ho, hm, rfl⟩)
  · cases ha : s.readAtom (trim token) g with
    | error err => exact .inl ⟨_, rfl⟩
    | ok v => exact .inr (.inl ⟨v, isValue_readAtom hs ha, rfl⟩)

theorem yields_shapedMember (hs : s.WellFormed fun _ => True)
    (hnested : ∀ ms, Token.members (trim token) = .ok ms → ∀ t inner, t.WellFormed (fun _ => True) →
      Yields (Store.WellFormed fun _ => True) (fun _ => True)
        (fun e => e.IsShaped ∧ ∃ members, e = .tuple members) ((expand ms inner).runOn t))
    (g : Handle) :
    Yields (Store.WellFormed fun _ => True) (fun _ => True)
      (fun e => e.IsShaped ∧ ∀ token g, e ≠ .deferred token g) ((expandMember token g).runOn s) := by
  refine yields_expandMember (P := fun e => e.isValue = true ∨ ∃ ms inner, e = .pending ms inner ∧
    opensTuple (trim token) = true ∧ Token.members (trim token) = .ok ms) ?_
    (fun ms inner t hp ht => ?_) fun e he hne => ?_
  · rcases readMember_cases hs token g with ⟨err, hr⟩ | ⟨v, hv, hr⟩ | ⟨ms, ho, hm, hr⟩
    all_goals rw [hr]
    · exact ⟨hs, .error trivial⟩
    · exact ⟨hs, .ok (.inl hv)⟩
    · exact ⟨hs.child g, .ok (.inr ⟨ms, _, rfl, ho, hm⟩)⟩
  · rcases hp with hv | ⟨ns, inner', he, ho, hm⟩
    · cases hv
    · cases he
      refine ⟨ho, (hnested ms hm t inner ht).weaken fun e he => ⟨he.1, ?_⟩⟩
      obtain ⟨-, members, rfl⟩ := he
      simp
  · rcases he with hv | ⟨ms, inner, rfl, -⟩
    · refine ⟨Expr.isShaped_of_isValue hv, fun token g he => ?_⟩
      rw [he] at hv
      cases hv
    · exact (hne ms inner rfl).elim

/-- An expansion leaves nothing pending. -/
theorem yields_isShaped (tokens : List String) (hs : s.WellFormed fun _ => True) (g : Handle) :
    Yields (Store.WellFormed fun _ => True) (fun _ => True)
      (fun e => e.IsShaped ∧ ∃ members, e = .tuple members) ((expand tokens g).runOn s) := by
  induction tokens using tokens_induction generalizing s g with
  | h tokens ih =>
    rw [expand_eq_shapeTuple]
    refine yields_shapeTuple (Q := fun e => e.IsShaped ∧ ∀ token g, e ≠ .deferred token g) hs
      (fun token hmem t ht => ?_) (fun head first rest _ hhead hf => ⟨?_, _, rfl⟩)
      fun es hes _ => ⟨?_, _, rfl⟩
    · exact yields_shapedMember ht (fun ms hm u inner hu => ih token hmem ms hm hu inner) g
    · refine Expr.isShaped_tuple (fun e he => ?_) fun _ _ _ => ⟨head, _, rfl, hf⟩
      rcases List.mem_cons.1 he with rfl | he
      · exact .inl hhead.1
      · obtain ⟨token, -, rfl⟩ := List.mem_map.1 he
        exact .inr ⟨token, g, rfl⟩
    · refine Expr.isShaped_tuple (fun e he => .inl (hes e he).1) fun token g' he => ?_
      exact ((hes _ he).2 token g' rfl).elim

/-- Every expansion ends. -/
theorem expands_expand (tokens : List String) (hs : s.WellFormed fun _ => True) (g : Handle) :
    Expands tokens g s ((expand tokens g).runOn s) := by
  induction tokens using tokens_induction generalizing s g with
  | h tokens ih =>
    rw [expand_eq_shapeTuple]
    refine expands_shapeTuple hs (fun token t ht => ?_) fun token hmem t ht => ?_
    · exact (yields_shapedMember ht (fun ms _ u inner hu => yields_isShaped ms hu inner) g).store
    · rcases readMember_cases ht token g with ⟨err, hr⟩ | ⟨v, hv, hr⟩ | ⟨ms, ho, hm, hr⟩
      · rw [expandMember, shapeMember, Action.runOn_bind, hr]
        exact .fails hr
      · rw [expandMember, shapeMember, Action.runOn_bind, hr]
        cases v with
        | pending => cases hv
        | _ => exact .shaped hr (by simp)
      · rw [runOn_expandMember_tuple ho hm]
        exact .nested hr (ih token hmem ms hm (ht.child g) _)

/-! ## From the start -/

/-- What holds between any two steps. Names are bound to values; wherever a procedure occurs, its
parameters are different symbols and its body is a token; and the expansion of a pending tuple ends,
with a tuple that is shaped throughout if it does not fail. -/
structure Store.Expandable (s : Store) (current : Option Expr) : Prop where
  values : s.AllBound fun _ e => e.isValue = true
  bound : s.AllBound fun _ e => ∀ c, (Expr.procedure (.closure c)).OccursIn e →
    c.WellFormed fun _ => True
  procedures : ∀ e ∈ current, ∀ c, (Expr.procedure (.closure c)).OccursIn e →
    c.WellFormed fun _ => True
  expands : ∀ e ∈ current, ∀ tokens g, (Expr.pending tokens g).OccursIn e →
    Expands tokens g s ((expand tokens g).runOn s)
  shaped : ∀ e ∈ current, ∀ tokens g, (Expr.pending tokens g).OccursIn e →
    ∀ e', ((expand tokens g).runOn s).1 = .ok e' → (∃ members, e' = .tuple members) ∧ e'.IsShaped

theorem expandable_of_wellFormed {current : Option Expr} (hs : s.WellFormed fun _ => True)
    (he : ∀ e ∈ current, e.WellFormed fun _ => True) : s.Expandable current where
  values h scope name e hscope hbound := (hs.bound h scope name e hscope hbound).2.1
  bound h scope name e hscope hbound _ hc :=
    hc.wellFormed (hs.bound h scope name e hscope hbound).2.2
  procedures e hcurrent _ hc := hc.wellFormed (he e hcurrent)
  expands _ _ tokens g _ := expands_expand tokens hs g
  shaped _ _ tokens g _ e' hx := by
    have hresult := (yields_isShaped tokens hs g).result
    rw [hx] at hresult
    exact hresult.of_ok.symm

/-- From a fresh start, whatever a line comes to, in however many steps: only values are ever bound,
and so there is an end to every expansion. -/
theorem expandable_of_visits (settings : Settings) :
    (∀ (before : List String) (source : String) (current : Option Expr) (s : Store),
      ((Interpreter.start settings).after before).Visits source current s → s.Expandable current) ∧
    ∀ (before : List (String × Sink)) (line : String) (current : Option Expr) (s : Store),
      ((Session.start settings).after before).interpreter.Visits (trim line) current s →
        s.Expandable current := by
  refine ⟨fun before source current s hv => ?_, fun before line current s hv => ?_⟩
  · have hstart := wellFormed_after_start settings before
    obtain ⟨hs, he⟩ := wellFormed_of_visits hstart (lineOf_any source) hv
    exact expandable_of_wellFormed hs he
  · have hstart := Session.wellFormed_after_start settings before
    obtain ⟨hs, he⟩ := wellFormed_of_visits hstart (lineOf_any (trim line)) hv
    exact expandable_of_wellFormed hs he

/-- The tuple inside is led by a form, which keeps the rest of it as source. -/
theorem nested_form_expanded :
    let it := (Interpreter.start {}).after ["(define (twice x) (+ x x))"]
    let g := (it.store.child it.global).1
    let s := (it.store.child it.global).2
    it.Visits "(twice [if true 1 2])" (some (.pending ["twice", "[if true 1 2]"] g)) s ∧
      Expands ["twice", "[if true 1 2]"] g s ((expand ["twice", "[if true 1 2]"] g).runOn s) ∧
      ∃ e, ((expand ["twice", "[if true 1 2]"] g).runOn s).1 = .ok e ∧ e.IsShaped := by
  intro it g s
  have hread : (read "(twice [if true 1 2])" it.global).runOn it.store =
      (.ok (.pending ["twice", "[if true 1 2]"] g), s) :=
    runOn_read_tuple (by decide +kernel) (by decide +kernel) _ _
  have hvisits : it.Visits "(twice [if true 1 2])" (some (.pending ["twice", "[if true 1 2]"] g)) s :=
    .read (x := .ok (.pending ["twice", "[if true 1 2]"] g)) hread
  have hexpandable := (expandable_of_visits {}).1 _ _ _ _ hvisits
  have hexpands := hexpandable.expands _ rfl _ _ .self
  obtain ⟨e, he⟩ := exists_ok_of_isOk
    (show ((expand ["twice", "[if true 1 2]"] g).runOn s).1.isOk = true by decide +kernel)
  exact ⟨hvisits, hexpands, e, he, (hexpandable.shaped _ rfl _ _ .self e he).2⟩

end Stepwise
