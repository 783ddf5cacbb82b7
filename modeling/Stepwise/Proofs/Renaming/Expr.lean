import Stepwise.Proofs.Eval.Move
import Stepwise.Proofs.Procedure.Answers
/-!
# Renaming handles

An expression keeps handles of scopes. Nothing that can be seen of it depends on which handles
these are: its text, its kind, the source left in it, and the next move of a tuple are the same
after a renaming, as long as different handles stay different (`tupleMove_rename`).
-/

namespace Stepwise

variable {f k : Handle → Handle}

/-! ## Renamed expressions -/

/-- The closure with its scope renamed. -/
def Closure.rename (f : Handle → Handle) (c : Closure) : Closure :=
  { c with scope := f c.scope }

/-- The procedure with its scope renamed. -/
def Procedure.rename (f : Handle → Handle) : Procedure → Procedure
  | .builtin b => .builtin b
  | .form g scope => .form g (f scope)
  | .closure c => .closure (c.rename f)

mutual

/-- The expression with all its scopes renamed. -/
def Expr.rename (f : Handle → Handle) : Expr → Expr
  | .pending tokens scope => .pending tokens (f scope)
  | .tuple members => .tuple (renameAll f members)
  | .procedure p => .procedure (p.rename f)
  | .number x => .number x
  | .boolean b => .boolean b
  | .deferred token scope => .deferred token (f scope)
  | .void => .void

/-- Each expression with all its scopes renamed. -/
def renameAll (f : Handle → Handle) : List Expr → List Expr
  | [] => []
  | e :: rest => e.rename f :: renameAll f rest

end

@[simp]
theorem renameAll_eq_map (es : List Expr) : renameAll f es = es.map (Expr.rename f) := by
  induction es with
  | nil => rfl
  | cons e rest ih => simp [renameAll, ih]

namespace Expr

@[simp]
theorem isValue_rename (e : Expr) : (e.rename f).isValue = e.isValue := by
  cases e <;> rfl

@[simp]
theorem isForm_rename (e : Expr) : (e.rename f).isForm = e.isForm := by
  cases e with
  | procedure p => cases p <;> rfl
  | _ => rfl

@[simp]
theorem isFalse_rename (e : Expr) : (e.rename f).isFalse = e.isFalse := by
  cases e <;> rfl

end Expr

@[simp]
theorem Procedure.text_rename (p : Procedure) : (p.rename f).text = p.text := by
  cases p with
  | closure c => obtain ⟨name, params, body, scope⟩ := c; cases name <;> rfl
  | _ => rfl

mutual

theorem Expr.text_rename (e : Expr) : (e.rename f).text = e.text := by
  cases e with
  | tuple members => simp only [Expr.rename, Expr.text, textAll_rename members]
  | procedure p => exact p.text_rename
  | _ => rfl

theorem textAll_rename (es : List Expr) : textAll (renameAll f es) = textAll es := by
  cases es with
  | nil => rfl
  | cons e rest => simp only [renameAll, textAll, Expr.text_rename e, textAll_rename rest]

end

attribute [simp] Expr.text_rename

mutual

theorem Expr.captured_rename (e : Expr) : (e.rename f).captured = e.captured.map f := by
  cases e with
  | tuple members => exact capturedAll_rename members
  | procedure p => cases p <;> rfl
  | _ => rfl

theorem capturedAll_rename (es : List Expr) :
    capturedAll (renameAll f es) = (capturedAll es).map f := by
  cases es with
  | nil => rfl
  | cons e rest =>
    simp only [renameAll, capturedAll, List.map_append, Expr.captured_rename e,
      capturedAll_rename rest]

end

mutual

/-- Only the handles that the expression keeps matter. -/
theorem Expr.rename_congr (e : Expr) (h : ∀ g ∈ e.captured, f g = k g) :
    e.rename f = e.rename k := by
  cases e with
  | pending tokens scope => simp only [Expr.rename, h scope (by simp [Expr.captured])]
  | deferred token scope => simp only [Expr.rename, h scope (by simp [Expr.captured])]
  | tuple members => rw [Expr.rename, Expr.rename, renameAll_congr members h]
  | procedure p =>
    cases p with
    | builtin b => rfl
    | form g scope =>
      simp only [Expr.rename, Procedure.rename, h scope (by simp [Expr.captured, Procedure.captured])]
    | closure c =>
      simp only [Expr.rename, Procedure.rename, Closure.rename,
        h c.scope (by simp [Expr.captured, Procedure.captured])]
  | _ => rfl

theorem renameAll_congr (es : List Expr) (h : ∀ g ∈ capturedAll es, f g = k g) :
    renameAll f es = renameAll k es := by
  cases es with
  | nil => rfl
  | cons e rest =>
    rw [renameAll, renameAll, Expr.rename_congr e fun g hg => h g (List.mem_append_left _ hg),
      renameAll_congr rest fun g hg => h g (List.mem_append_right _ hg)]

end

mutual

theorem Expr.rename_id (e : Expr) : e.rename id = e := by
  cases e with
  | tuple members => rw [Expr.rename, renameAll_id members]
  | procedure p => cases p <;> rfl
  | _ => rfl

theorem renameAll_id (es : List Expr) : renameAll id es = es := by
  cases es with
  | nil => rfl
  | cons e rest => rw [renameAll, Expr.rename_id e, renameAll_id rest]

end

/-! ## Builtins -/

/-- Different handles among `hs` stay different. -/
def Separates (f : Handle → Handle) (hs : List Handle) : Prop :=
  ∀ g ∈ hs, ∀ h ∈ hs, f g = f h → g = h

theorem Separates.mono {hs more : List Handle} (h : Separates f more) (hm : ∀ g ∈ hs, g ∈ more) :
    Separates f hs :=
  fun g hg k hk => h g (hm g hg) k (hm k hk)

theorem Procedure.rename_inj {p q : Procedure} (h : Separates f (p.captured ++ q.captured)) :
    p.rename f = q.rename f ↔ p = q := by
  refine ⟨fun he => ?_, fun he => he ▸ rfl⟩
  cases p <;> cases q <;>
    simp only [Procedure.rename, Procedure.closure.injEq, Procedure.form.injEq, reduceCtorEq] at he
  · exact he
  · obtain ⟨rfl, he⟩ := he
    rw [h _ (by simp [Procedure.captured]) _ (by simp [Procedure.captured]) he]
  · rename_i c d
    have hs : c.scope = d.scope :=
      h _ (by simp [Procedure.captured]) _ (by simp [Procedure.captured])
        (congrArg Closure.scope he)
    obtain ⟨name, params, body, scope⟩ := c
    obtain ⟨name', params', body', scope'⟩ := d
    simp only [Closure.rename, Closure.mk.injEq] at he hs ⊢
    obtain ⟨rfl, rfl, rfl, -⟩ := he
    rw [hs]

namespace Builtin

theorem equalValues_rename {x y : Expr} (h : Separates f (x.captured ++ y.captured)) :
    equalValues (x.rename f) (y.rename f) = equalValues x y := by
  cases x <;> cases y <;> try rfl
  rename_i p q
  change (p.rename f == q.rename f) = (p == q)
  rw [Bool.eq_iff_iff, beq_iff_eq, beq_iff_eq]
  exact Procedure.rename_inj h

theorem operands_rename (b : Builtin) (args : List Expr) :
    b.operands (args.map (Expr.rename f)) = b.operands args := by
  induction args with
  | nil => rfl
  | cons e rest ih => cases e <;> simp [Expr.rename, operands, ih, Expr.typeName]

theorem applyAccepted_rename (b : Builtin) {args : List Expr} (h : Separates f (capturedAll args)) :
    b.applyAccepted (args.map (Expr.rename f)) = b.applyAccepted args := by
  have hop := fun b => congrArg (· >>= compute b) (operands_rename (f := f) b args)
  cases b with
  | not | isNumber | isBoolean | isProcedure =>
    rcases args with _ | ⟨e, _ | ⟨e', rest⟩⟩
    · exact hop _
    · cases e <;> rfl
    · exact hop _
  | isEqual =>
    rcases args with _ | ⟨e, _ | ⟨e', _ | ⟨e'', rest⟩⟩⟩
    · exact hop _
    · exact hop _
    · have hee : Separates f (e.captured ++ e'.captured) := by simpa [capturedAll] using h
      simp only [List.map_cons, List.map_nil, applyAccepted, equalValues_rename hee]
    · exact hop _
  | _ => exact hop _

/-- A builtin does not tell handles from one another beyond their equality. -/
theorem apply_rename (b : Builtin) {args : List Expr} (h : Separates f (capturedAll args)) :
    b.apply (args.map (Expr.rename f)) = b.apply args := by
  unfold apply
  rw [List.length_map, applyAccepted_rename b h]

theorem IsPlain.rename {e : Expr} (h : IsPlain e) : e.rename f = e := by
  rcases h with ⟨x, rfl⟩ | ⟨c, rfl⟩ <;> rfl

theorem IsPlain.captured {e : Expr} (h : IsPlain e) : e.captured = [] := by
  rcases h with ⟨x, rfl⟩ | ⟨c, rfl⟩ <;> rfl

end Builtin

/-! ## Moves -/

namespace Expr

@[simp]
theorem source?_rename (e : Expr) : (e.rename f).source? = e.source? := by
  cases e <;> rfl

@[simp]
theorem tupleSource?_rename (e : Expr) : (e.rename f).tupleSource? = e.tupleSource? := by
  simp [tupleSource?]

@[simp]
theorem symbol?_rename (e : Expr) : (e.rename f).symbol? = e.symbol? := by
  cases e <;> rfl

theorem named_rename (e : Expr) (name : String) : (e.rename f).named name = (e.named name).rename f := by
  cases e with
  | procedure p =>
    cases p with
    | closure c => obtain ⟨n, params, body, scope⟩ := c; cases n <;> rfl
    | _ => rfl
  | _ => rfl

/-- Naming changes the name of a closure at most. -/
theorem named_eq (e : Expr) (name : String) :
    e.named name = e ∨ ∃ c : Closure, e = .procedure (.closure c) ∧
      e.named name = .procedure (.closure { c with name := some name }) := by
  cases e with
  | procedure p =>
    cases p with
    | closure c =>
      obtain ⟨n, params, body, scope⟩ := c
      cases n with
      | none => exact .inr ⟨_, rfl, rfl⟩
      | some n => exact .inl rfl
    | _ => exact .inl rfl
  | _ => exact .inl rfl

theorem captured_named (e : Expr) (name : String) : (e.named name).captured = e.captured := by
  rcases named_eq e name with h | ⟨c, rfl, h⟩
  · rw [h]
  · rw [h]
    rfl

theorem isValue_named (e : Expr) (name : String) : (e.named name).isValue = e.isValue := by
  rcases named_eq e name with h | ⟨c, rfl, h⟩
  · rw [h]
  · rw [h]
    rfl

@[simp]
theorem firstUnreduced?_rename (members : List Expr) :
    firstUnreduced? (members.map (Expr.rename f)) = firstUnreduced? members := by
  simp only [firstUnreduced?, List.findIdx?_map, Function.comp_def, isValue_rename]

end Expr

/-- The move with all its scopes renamed. -/
def Move.rename (f : Handle → Handle) : Move → Move
  | .advance place => .advance place
  | .become e => .become (e.rename f)
  | .define scope name value => .define (f scope) name (value.rename f)
  | .enter c args => .enter (c.rename f) (args.map (Expr.rename f))

namespace Form

@[simp]
theorem body_rename (g : Form) (e : Expr) : g.body (e.rename f) = g.body e := by
  simp [body]

theorem defineProcedure_rename (scope : Handle) (signature : String) (value : Expr) :
    defineProcedure (f scope) signature (value.rename f) =
      (defineProcedure scope signature value).map (Move.rename f) := by
  unfold defineProcedure
  rw [body_rename]
  cases Form.define.body value with
  | error err => rfl
  | ok body =>
    cases names signature with
    | error err => rfl
    | ok ms =>
      cases ms with
      | nil => rfl
      | cons name params =>
        simp only [bind, Except.bind]
        split
        · cases Form.define.checkParams params <;> rfl
        · rfl

theorem defineName_rename (scope : Handle) (target value : Expr) :
    defineName (f scope) (target.rename f) (value.rename f) =
      (defineName scope target value).map (Move.rename f) := by
  unfold defineName
  rw [Expr.symbol?_rename, Expr.text_rename, Expr.isValue_rename]
  cases target.symbol? with
  | none => rfl
  | some name =>
    simp only
    split
    · rw [Expr.named_rename]
      rfl
    · rfl

theorem makeClosure_rename (scope : Handle) (params body : Expr) :
    makeClosure (f scope) (params.rename f) (body.rename f) =
      (makeClosure scope params body).map (Move.rename f) := by
  unfold makeClosure
  rw [Expr.tupleSource?_rename, body_rename]
  cases params.tupleSource? with
  | none => rfl
  | some text =>
    simp only [bind, Except.bind]
    cases names text with
    | error err => rfl
    | ok ms =>
      simp only
      cases Form.lambda.checkParams ms with
      | error err => rfl
      | ok ps => cases Form.lambda.body body <;> rfl

theorem connective_rename (g : Form) (scope : Handle) {settles : Expr → Bool}
    (hs : ∀ e : Expr, settles (e.rename f) = settles e) (first : Expr) (rest : List Expr) :
    connective g (f scope) settles (first.rename f) (rest.map (Expr.rename f)) =
      (connective g scope settles first rest).rename f := by
  unfold connective
  rw [Expr.isValue_rename, hs, List.isEmpty_map]
  split
  · rfl
  · split
    · rfl
    · simp [Move.rename, Expr.rename, Procedure.rename]

theorem move_rename (g : Form) (scope : Handle) (args : List Expr) :
    g.move (f scope) (args.map (Expr.rename f)) = (g.move scope args).map (Move.rename f) := by
  cases g with
  | define =>
    rcases args with _ | ⟨target, _ | ⟨value, _ | ⟨_, rest⟩⟩⟩
    · rfl
    · rfl
    · simp only [List.map_cons, List.map_nil, move, Expr.tupleSource?_rename]
      cases target.tupleSource? with
      | none => exact defineName_rename scope target value
      | some signature => exact defineProcedure_rename scope signature value
    · simp [move, Except.map, Form.miscount]
  | lambda =>
    rcases args with _ | ⟨params, _ | ⟨body, _ | ⟨_, rest⟩⟩⟩
    · rfl
    · rfl
    · exact makeClosure_rename scope params body
    · simp [move, Except.map, Form.miscount]
  | ifElse =>
    rcases args with _ | ⟨test, _ | ⟨yes, _ | ⟨no, _ | ⟨_, rest⟩⟩⟩⟩
    · rfl
    · rfl
    · rfl
    · simp only [List.map_cons, List.map_nil, move, Expr.isValue_rename, Expr.isFalse_rename]
      split
      · rfl
      · split <;> rfl
    · simp [move, Except.map, Form.miscount]
  | and =>
    cases args with
    | nil => rfl
    | cons first rest =>
      exact congrArg Except.ok (connective_rename .and scope Expr.isFalse_rename first rest)
  | or =>
    cases args with
    | nil => rfl
    | cons first rest =>
      exact congrArg Except.ok (connective_rename .or scope (by simp) first rest)

end Form

theorem Procedure.move_rename (p : Procedure) {args : List Expr}
    (h : Separates f (capturedAll args)) :
    (p.rename f).move (args.map (Expr.rename f)) = (p.move args).map (Move.rename f) := by
  cases p with
  | builtin b =>
    simp only [Procedure.rename, Procedure.move, Builtin.apply_rename b h]
    cases hb : b.apply args with
    | error err => rfl
    | ok e =>
      have hsame : e.rename f = e := (Builtin.isPlain_apply hb).rename
      change Except.ok (Move.become e) = Except.ok (Move.become (e.rename f))
      rw [hsame]
  | form g scope => exact g.move_rename scope args
  | closure c => rfl

theorem Expr.headMove_rename (head : Expr) {args : List Expr}
    (h : Separates f (capturedAll args)) :
    (head.rename f).headMove (args.map (Expr.rename f)) = (head.headMove args).map (Move.rename f) := by
  cases head with
  | procedure p => exact p.move_rename h
  | tuple members =>
    simp only [Expr.rename, Expr.headMove]
    rw [← Expr.rename, Expr.text_rename]
    rfl
  | _ => rfl

/-- The next move of a tuple does not depend on which handles it keeps. -/
theorem tupleMove_rename {members : List Expr} (h : Separates f (capturedAll members)) :
    tupleMove (members.map (Expr.rename f)) = (tupleMove members).map (Move.rename f) := by
  cases members with
  | nil => rfl
  | cons head args =>
    have hargs : Separates f (capturedAll args) := h.mono fun g hg => List.mem_append_right _ hg
    cases hf : head.isForm with
    | true =>
      obtain ⟨g, scope, rfl⟩ := Expr.eq_form_of_isForm hf
      exact g.move_rename scope args
    | false =>
      have hfirst := Expr.firstUnreduced?_rename (f := f) (head :: args)
      rw [List.map_cons] at hfirst ⊢
      rw [tupleMove_of_not_form hf, tupleMove_of_not_form (by rwa [Expr.isForm_rename]), hfirst]
      cases Expr.firstUnreduced? (head :: args) with
      | some place => rfl
      | none => exact head.headMove_rename hargs

/-! ## Handles of a move -/

/-- The handles that a move keeps. -/
def Move.captured : Move → List Handle
  | .advance _ => []
  | .become e => e.captured
  | .define scope _ value => scope :: value.captured
  | .enter c args => c.scope :: capturedAll args

/-- A move keeps handles of the tuple only. -/
theorem Moves.captured_subset {members : List Expr} {m : Move} (hm : Moves members m) :
    ∀ h ∈ m.captured, h ∈ capturedAll members := by
  cases hm with
  | advance | advanceValue | advanceTest | advanceFirst => simp [Move.captured]
  | builtin hb =>
    intro h hh
    rw [Move.captured, (Builtin.isPlain_apply hb).captured] at hh
    cases hh
  | enter => exact fun h hh => hh
  | defineProcedure | lambda =>
    intro h hh
    simp_all [Move.captured, Expr.captured, Procedure.captured]
  | @defineName scope target value name hs hv =>
    intro h hh
    rw [Move.captured, Expr.captured_named] at hh
    rcases List.mem_cons.1 hh with rfl | hh
    · exact List.mem_append_left _ (List.mem_singleton.2 rfl)
    · exact mem_capturedAll.2 ⟨value, by simp, hh⟩
  | @branch scope test yes no =>
    intro h hh
    rw [Move.captured] at hh
    split at hh
    · exact mem_capturedAll.2 ⟨no, by simp, hh⟩
    · exact mem_capturedAll.2 ⟨yes, by simp, hh⟩
  | nothing => exact fun h hh => (List.not_mem_nil hh).elim
  | @settle f scope first rest =>
    intro h hh
    exact mem_capturedAll.2 ⟨first, by simp, hh⟩
  | @drop f scope first rest =>
    intro h hh
    obtain ⟨e, he, hh⟩ := mem_capturedAll.1 (show h ∈ capturedAll _ from hh)
    refine mem_capturedAll.2 ⟨e, ?_, hh⟩
    rcases List.mem_cons.1 he with rfl | he
    · simp
    · simp [he]

/-- What a move binds is a value. -/
theorem Moves.isValue_of_define {members : List Expr} {scope : Handle} {name : String} {value : Expr}
    (hm : Moves members (.define scope name value)) : value.isValue = true := by
  cases hm with
  | defineProcedure => rfl
  | defineName _ hv => rw [Expr.isValue_named, hv]

theorem Moves.isValue_of_enter {members : List Expr} {c : Closure} {args : List Expr}
    (hm : Moves members (.enter c args)) : ∀ a ∈ args, a.isValue = true := by
  cases hm with
  | enter hv => exact hv

end Stepwise
