import Stepwise.Proofs.Layout.Normal
/-!
# Expressions and moves in normal layout

The source text kept in an expression can be brought into normal layout. What the expression is does
not depend on that, and neither does the next move of a tuple (`alike_tupleMove`). Two things do:
an error may quote source text, and `equal?` compares the bodies of procedures as text.
-/

namespace Stepwise

variable {α β : Type} {allowed : String → Prop}

/-! ## Expressions -/

/-- The closure with its body in normal layout. -/
def Closure.normal (c : Closure) : Closure :=
  { c with body := Token.normal c.body }

/-- The procedure with its source in normal layout. -/
def Procedure.normal : Procedure → Procedure
  | .closure c => .closure c.normal
  | p => p

mutual

/-- The expression with all its source in normal layout. -/
def Expr.normal : Expr → Expr
  | .pending tokens scope => .pending (tokens.map Token.normal) scope
  | .tuple members => .tuple (normalAll members)
  | .procedure p => .procedure p.normal
  | .number x => .number x
  | .boolean b => .boolean b
  | .deferred token scope => .deferred (Token.normal token) scope
  | .void => .void

/-- Each expression with all its source in normal layout. -/
def normalAll : List Expr → List Expr
  | [] => []
  | e :: rest => e.normal :: normalAll rest

end

@[simp]
theorem normalAll_eq_map (es : List Expr) : normalAll es = es.map Expr.normal := by
  induction es with
  | nil => rfl
  | cons e rest ih => simp [normalAll, ih]

mutual

theorem Expr.captured_normal (e : Expr) : e.normal.captured = e.captured := by
  cases e with
  | tuple members => exact capturedAll_normal members
  | procedure p => cases p <;> rfl
  | _ => rfl

theorem capturedAll_normal (es : List Expr) : capturedAll (normalAll es) = capturedAll es := by
  cases es with
  | nil => rfl
  | cons e rest =>
    simp only [normalAll, capturedAll, Expr.captured_normal e, capturedAll_normal rest]

end

namespace Expr

@[simp]
theorem isValue_normal (e : Expr) : e.normal.isValue = e.isValue := by
  cases e <;> rfl

@[simp]
theorem isForm_normal (e : Expr) : e.normal.isForm = e.isForm := by
  cases e with
  | procedure p => cases p <;> rfl
  | _ => rfl

@[simp]
theorem isFalse_normal (e : Expr) : e.normal.isFalse = e.isFalse := by
  cases e <;> rfl

theorem firstUnreduced?_normal (members : List Expr) :
    firstUnreduced? (members.map Expr.normal) = firstUnreduced? members := by
  simp only [firstUnreduced?, List.findIdx?_map, Function.comp_def, isValue_normal]

/-- Nothing of a value's source is shown. -/
theorem text_normal {e : Expr} (hv : e.isValue = true) : e.normal.text = e.text := by
  cases e with
  | pending | tuple | deferred => cases hv
  | procedure p =>
    cases p with
    | closure c =>
      obtain ⟨name, params, body, scope⟩ := c
      cases name <;> rfl
    | _ => rfl
  | _ => rfl

theorem named_normal (e : Expr) (name : String) : e.normal.named name = (e.named name).normal := by
  cases e with
  | procedure p =>
    cases p with
    | closure c =>
      obtain ⟨n, params, body, scope⟩ := c
      cases n <;> rfl
    | _ => rfl
  | _ => rfl

variable {e : Expr}

theorem source?_normal (he : e.WellFormed allowed) :
    e.normal.source? = e.source?.map Token.normal := by
  cases he with
  | pending ht =>
    have htokens := Token.normal_enclose .round fun m hm => (ht m hm).1
    exact congrArg some htokens.symm
  | _ => rfl

theorem tupleSource?_normal (he : e.WellFormed allowed) :
    e.normal.tupleSource? = e.tupleSource?.map Token.normal := by
  unfold tupleSource?
  rw [source?_normal he]
  cases hs : e.source? with
  | none => rfl
  | some text =>
    have ho := Token.opensTuple_normal (he.source hs).1
    by_cases hopen : opensTuple text = true
    · simp [Option.filter, ho, hopen]
    · simp [Option.filter, ho, hopen]

theorem symbol?_normal (he : e.WellFormed allowed) : e.normal.symbol? = e.symbol? := by
  cases he with
  | deferred ht =>
    simp only [normal, symbol?, isSymbol_normal ht.1]
    split
    · rename_i hs
      rw [Token.normal_of_isSymbol ht.1 hs]
    · rfl
  | _ => rfl

end Expr

/-! ## Builtins -/

namespace Builtin

theorem operands_normal (b : Builtin) (args : List Expr) :
    b.operands (args.map Expr.normal) = b.operands args := by
  induction args with
  | nil => rfl
  | cons e rest ih => cases e <;> simp [Expr.normal, operands, ih, Expr.typeName]

/-- All builtins but one see no source. -/
theorem apply_normal {b : Builtin} (hb : b ≠ .isEqual) (args : List Expr) :
    b.apply (args.map Expr.normal) = b.apply args := by
  have hop := fun b => congrArg (· >>= compute b) (operands_normal b args)
  unfold apply
  rw [List.length_map]
  split
  · cases b with
    | not | isNumber | isBoolean | isProcedure =>
      rcases args with _ | ⟨e, _ | ⟨e', rest⟩⟩
      · exact hop _
      · cases e <;> rfl
      · exact hop _
    | isEqual => exact (hb rfl).elim
    | _ => exact hop _
  · rfl

theorem IsPlain.normal {e : Expr} (h : IsPlain e) : e.normal = e := by
  rcases h with ⟨x, rfl⟩ | ⟨c, rfl⟩ <;> rfl

end Builtin

/-! ## Errors -/

/-- The fault without the source text it quotes. -/
def FormFault.unquoted : FormFault → FormFault
  | .notParameter _ => .notParameter ""
  | .cannotBind _ => .cannotBind ""
  | fault => fault

/-- The error without the source text it quotes. -/
def Error.unquoted : Error → Error
  | .evaluation (.invalidForm f fault) => .evaluation (.invalidForm f fault.unquoted)
  | err => err

/-- The second result is the image of the first, or both are the same error but for quotations. -/
inductive Alike (φ : α → β) : Except Error α → Except Error β → Prop
  | ok (a : α) : Alike φ (.ok a) (.ok (φ a))
  | error {err err' : Error} : err'.unquoted = err.unquoted → Alike φ (.error err) (.error err')

theorem Alike.of_eq {φ : α → β} {a : α} {b : β} (h : b = φ a) : Alike φ (.ok a) (.ok b) := by
  rw [h]
  exact .ok a

theorem Alike.eq_ok {φ : α → β} {a : α} {y : Except Error β} (h : Alike φ (.ok a) y) :
    y = .ok (φ a) := by
  cases h with
  | ok => rfl

theorem Alike.bind {α' β' : Type} {φ : α → α'} {ψ : β → β'} {x : Except Error α}
    {y : Except Error α'} {k : α → Except Error β} {k' : α' → Except Error β'} (hx : Alike φ x y)
    (hk : ∀ a, x = .ok a → Alike ψ (k a) (k' (φ a))) : Alike ψ (x >>= k) (y >>= k') := by
  cases hx with
  | ok a => exact hk a rfl
  | error he => exact .error he

/-! ## Special forms -/

/-- The move with all its source in normal layout. -/
def Move.normal : Move → Move
  | .advance place => .advance place
  | .become e => .become e.normal
  | .define scope name value => .define scope name value.normal
  | .enter c args => .enter c.normal (args.map Expr.normal)

theorem map_normal_of_symbols {ps : List String} (ht : ∀ p ∈ ps, Token.IsToken p.toList)
    (hs : ∀ p ∈ ps, isSymbol p = true) : ps.map Token.normal = ps := by
  have hid : ps.map Token.normal = ps.map id :=
    List.map_congr_left fun p hp => Token.normal_of_isSymbol (ht p hp) (hs p hp)
  rw [hid, List.map_id]

theorem paramsFault_normal (earlier : List String) {params : List String}
    (ht : ∀ p ∈ params, Token.IsToken p.toList) :
    (paramsFault earlier (params.map Token.normal)).map FormFault.unquoted =
      (paramsFault earlier params).map FormFault.unquoted := by
  induction params generalizing earlier with
  | nil => rfl
  | cons p rest ih =>
    have hp := ht p (by simp)
    rw [List.map_cons, paramsFault, paramsFault, isSymbol_normal hp]
    by_cases hs : isSymbol p = true
    · rw [Token.normal_of_isSymbol hp hs]
      simp only [hs, Bool.not_true, Bool.false_eq_true, if_false]
      split
      · rfl
      · exact ih _ fun q hq => ht q (by simp [hq])
    · simp [hs, FormFault.unquoted]

namespace Form

theorem alike_body (f : Form) {e : Expr} (he : e.WellFormed allowed) :
    Alike Token.normal (f.body e) (f.body e.normal) := by
  unfold body
  rw [Expr.source?_normal he]
  cases e.source? with
  | none => exact .error rfl
  | some text => exact .ok text

theorem alike_names {text : String} (ht : Token.WellFormed allowed text)
    (ho : opensTuple text = true) :
    Alike (List.map Token.normal) (names text) (names (Token.normal text)) := by
  obtain ⟨ms, hm, -⟩ := ht.members ho
  unfold names
  rw [hm, Token.members_normal ht.1 ho hm]
  exact .ok ms

/-- Accepted parameters are atoms, which have no layout. -/
theorem alike_checkParams (f : Form) {params : List String}
    (ht : ∀ p ∈ params, Token.IsToken p.toList) :
    Alike id (f.checkParams params) (f.checkParams (params.map Token.normal)) := by
  have hfault := paramsFault_normal [] ht
  unfold checkParams
  cases hp : paramsFault [] params with
  | none =>
    rw [hp] at hfault
    have hsymbols := (paramsFault_eq_none hp).1
    rw [Option.map_eq_none_iff.1 hfault, map_normal_of_symbols ht hsymbols]
    exact .ok params
  | some reason =>
    rw [hp] at hfault
    obtain ⟨reason', hp', hreason⟩ := Option.map_eq_some_iff.1 hfault
    rw [hp']
    exact .error (congrArg (fun r => Error.evaluation (.invalidForm f r)) hreason)

variable {scope : Handle} {target value : Expr}

theorem alike_defineProcedure {signature : String} (hs : Token.WellFormed allowed signature)
    (ho : opensTuple signature = true) (hv : value.WellFormed allowed) :
    Alike Move.normal (defineProcedure scope signature value)
      (defineProcedure scope (Token.normal signature) value.normal) := by
  refine (alike_body .define hv).bind fun body _ => (alike_names hs ho).bind fun ns hns => ?_
  have hmembers := Token.isToken_of_mem_members (names_eq_ok hns)
  cases ns with
  | nil => exact .error rfl
  | cons name params =>
    have hname := hmembers name (by simp)
    simp only [List.map_cons, isSymbol_normal hname]
    split
    · rename_i hsymbol
      rw [Token.normal_of_isSymbol hname hsymbol]
      refine (alike_checkParams .define fun p hp => hmembers p (by simp [hp])).bind fun ps _ => ?_
      exact .ok _
    · exact .error rfl

theorem alike_defineName (ht : target.WellFormed allowed) :
    Alike Move.normal (defineName scope target value)
      (defineName scope target.normal value.normal) := by
  unfold defineName
  rw [Expr.symbol?_normal ht, Expr.isValue_normal]
  cases target.symbol? with
  | none => exact .error rfl
  | some name =>
    simp only
    split
    · rw [Expr.named_normal]
      exact .ok (Move.define scope name (value.named name))
    · exact .ok (Move.advance 2)

theorem alike_makeClosure (ht : target.WellFormed allowed) (hv : value.WellFormed allowed) :
    Alike Move.normal (makeClosure scope target value)
      (makeClosure scope target.normal value.normal) := by
  unfold makeClosure
  rw [Expr.tupleSource?_normal ht]
  cases hs : target.tupleSource? with
  | none => exact .error rfl
  | some text =>
    obtain ⟨htext, ho⟩ := ht.tupleSource hs
    refine (alike_names htext ho).bind fun ns hns => ?_
    have hmembers := Token.isToken_of_mem_members (names_eq_ok hns)
    refine (alike_checkParams .lambda hmembers).bind fun ps _ => ?_
    exact (alike_body .lambda hv).bind fun body _ =>
      .ok (Move.become (.procedure (.closure ⟨none, ps, body, scope⟩)))

theorem connective_normal (f : Form) (scope : Handle) {settles : Expr → Bool}
    (hs : ∀ e, settles e.normal = settles e) (first : Expr) (rest : List Expr) :
    connective f scope settles first.normal (rest.map Expr.normal) =
      (connective f scope settles first rest).normal := by
  unfold connective
  rw [Expr.isValue_normal, hs, List.isEmpty_map]
  split
  · rfl
  · split
    · rfl
    · simp only [Move.normal, Expr.normal, Procedure.normal, normalAll_eq_map, List.map_cons]

theorem alike_miscount (f : Form) (expected : Nat) (args : List Expr) :
    Alike Move.normal (.error (f.miscount expected args.length))
      (.error (f.miscount expected (args.map Expr.normal).length)) := by
  rw [List.length_map]
  exact .error rfl

theorem alike_move {f : Form} {args : List Expr} (h : ∀ e ∈ args, e.WellFormed allowed) :
    Alike Move.normal (f.move scope args) (f.move scope (args.map Expr.normal)) := by
  cases f with
  | define =>
    rcases args with _ | ⟨target, _ | ⟨value, _ | ⟨third, rest⟩⟩⟩
    · exact alike_miscount .define 2 _
    · exact alike_miscount .define 2 _
    · have ht := h target (by simp)
      simp only [List.map_cons, List.map_nil, move, Expr.tupleSource?_normal ht]
      cases hs : target.tupleSource? with
      | none => exact alike_defineName ht
      | some signature =>
        obtain ⟨htext, ho⟩ := ht.tupleSource hs
        exact alike_defineProcedure htext ho (h value (by simp))
    · exact alike_miscount .define 2 _
  | lambda =>
    rcases args with _ | ⟨params, _ | ⟨body, _ | ⟨third, rest⟩⟩⟩
    · exact alike_miscount .lambda 2 _
    · exact alike_miscount .lambda 2 _
    · exact alike_makeClosure (h params (by simp)) (h body (by simp))
    · exact alike_miscount .lambda 2 _
  | ifElse =>
    rcases args with _ | ⟨test, _ | ⟨yes, _ | ⟨no, _ | ⟨fourth, rest⟩⟩⟩⟩
    · exact alike_miscount .ifElse 3 _
    · exact alike_miscount .ifElse 3 _
    · exact alike_miscount .ifElse 3 _
    · simp only [List.map_cons, List.map_nil, move, Expr.isValue_normal, Expr.isFalse_normal]
      split
      · exact .ok (Move.advance 1)
      · split
        · exact .ok (Move.become no)
        · exact .ok (Move.become yes)
    · exact alike_miscount .ifElse 3 _
  | and =>
    cases args with
    | nil => exact .ok (Move.become (.boolean true))
    | cons first rest =>
      simp only [List.map_cons, move, connective_normal .and scope Expr.isFalse_normal]
      exact .ok _
  | or =>
    cases args with
    | nil => exact .ok (Move.become (.boolean false))
    | cons first rest =>
      simp only [List.map_cons, move]
      rw [connective_normal .or scope (by simp)]
      exact .ok _

end Form

/-! ## Tuples -/

theorem alike_headMove (hequal : ¬ allowed Builtin.isEqual.name) {head : Expr} {args : List Expr}
    (hv : head.isValue = true) (hh : head.WellFormed allowed)
    (ha : ∀ a ∈ args, a.WellFormed allowed) :
    Alike Move.normal (head.headMove args) (head.normal.headMove (args.map Expr.normal)) := by
  cases head with
  | pending | tuple | deferred => cases hv
  | procedure p =>
    cases p with
    | form f scope => exact Form.alike_move ha
    | closure c => exact .ok (Move.enter c args)
    | builtin b =>
      have hb : b ≠ .isEqual := by
        rintro rfl
        exact hequal hh.of_procedure
      simp only [Expr.normal, Procedure.normal, Expr.headMove, Procedure.move,
        Builtin.apply_normal hb]
      cases hx : b.apply args with
      | error err => exact .error rfl
      | ok e =>
        have hplain : e.normal = e := (Builtin.isPlain_apply hx).normal
        exact .of_eq (by rw [Move.normal, hplain])
  | _ => exact .error rfl

/-- Layout does not matter for the next move. -/
theorem alike_tupleMove (hequal : ¬ allowed Builtin.isEqual.name) {members : List Expr}
    (h : ∀ e ∈ members, e.WellFormed allowed) :
    Alike Move.normal (tupleMove members) (tupleMove (members.map Expr.normal)) := by
  cases members with
  | nil => exact .error rfl
  | cons head args =>
    have hargs : ∀ a ∈ args, a.WellFormed allowed := fun a ha => h a (by simp [ha])
    by_cases hf : head.isForm = true
    · obtain ⟨f, scope, rfl⟩ := Expr.eq_form_of_isForm hf
      exact Form.alike_move hargs
    · have hf : head.isForm = false := by simpa using hf
      rw [List.map_cons, tupleMove_of_not_form hf, tupleMove_of_not_form (by simpa using hf),
        ← List.map_cons, Expr.firstUnreduced?_normal]
      cases hu : Expr.firstUnreduced? (head :: args) with
      | some place => exact .ok (Move.advance place)
      | none =>
        have hv := firstUnreduced?_eq_none.1 hu head (by simp)
        exact alike_headMove hequal hv (h head (by simp)) hargs

end Stepwise
