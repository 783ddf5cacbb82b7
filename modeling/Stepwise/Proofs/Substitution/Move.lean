import Stepwise.Proofs.Renaming.Expr
import Stepwise.Proofs.Substitution.Text
import Stepwise.Proofs.WellFormed.Literals
/-!
# Moves under a substitution

A number literal can be put in the place of a name in all the source that an expression still
holds. Where the expression neither defines a name nor makes a procedure, its moves do not look at
source, so a tuple makes the same move before and after the substitution
(`movesLike_tupleMove`).
-/

namespace Stepwise

/-! ## Substitutions -/

/-- A name that can be a parameter, and the number literal that is put in its place. -/
structure Substitution where
  key : String
  literal : String
  value : Float
  isAtom_key : Token.IsAtom key.toList
  isSymbol_key : isSymbol key = true
  looksNumeric_literal : looksNumeric literal = true
  readNumber_literal : readNumber literal = .ok value

namespace Substitution

variable (σ : Substitution)

theorem opensTuple_key : opensTuple σ.key = false :=
  Token.opensTuple_of_isAtom σ.isAtom_key

theorem isAtom_literal : Token.IsAtom σ.literal.toList :=
  Token.isAtom_of_readNumber σ.readNumber_literal

/-- Where nothing is bound, the literal is its number. -/
theorem readUnbound_literal (g : Handle) : readUnbound σ.literal g = .ok (.number σ.value) := by
  apply readUnbound_of_literal
  have htrue : σ.literal ≠ "true" := by
    intro h
    have hlooks := σ.looksNumeric_literal
    rw [h] at hlooks
    revert hlooks
    decide +kernel
  have hfalse : σ.literal ≠ "false" := by
    intro h
    have hlooks := σ.looksNumeric_literal
    rw [h] at hlooks
    revert hlooks
    decide +kernel
  simp only [literal?, if_neg htrue, if_neg hfalse, σ.looksNumeric_literal, if_true,
    σ.readNumber_literal]
  rfl

/-- The token with the literal for every atom that is the key. -/
def token (text : String) : String :=
  Token.replaced σ.key σ.literal text

variable {σ} {text : String}

theorem isToken_token (ht : Token.IsToken text.toList) : Token.IsToken (σ.token text).toList :=
  Token.isToken_replaced σ.opensTuple_key (.atom σ.isAtom_literal) ht

theorem trim_token (ht : Token.IsToken text.toList) : trim (σ.token text) = σ.token text :=
  Token.trim_of_isToken (isToken_token ht)

theorem opensTuple_token (ht : Token.IsToken text.toList) :
    opensTuple (σ.token text) = opensTuple text :=
  Token.opensTuple_replaced σ.opensTuple_key σ.isAtom_literal ht

theorem members_token {ms : List String} (ht : Token.IsToken text.toList)
    (ho : opensTuple text = true) (hm : Token.members text = .ok ms) :
    Token.members (σ.token text) = .ok (ms.map σ.token) :=
  Token.members_replaced σ.opensTuple_key (.atom σ.isAtom_literal) ht ho hm

end Substitution

mutual

/-- The expression with the literal for the key in all its source. -/
def Expr.replaced (σ : Substitution) : Expr → Expr
  | .pending tokens scope => .pending (tokens.map σ.token) scope
  | .tuple members => .tuple (replacedAll σ members)
  | .procedure p => .procedure p
  | .number x => .number x
  | .boolean b => .boolean b
  | .deferred token scope => .deferred (σ.token token) scope
  | .void => .void

/-- Each expression with the literal for the key in all its source. -/
def replacedAll (σ : Substitution) : List Expr → List Expr
  | [] => []
  | e :: rest => e.replaced σ :: replacedAll σ rest

end

variable {σ : Substitution}

@[simp]
theorem replacedAll_eq_map (es : List Expr) : replacedAll σ es = es.map (Expr.replaced σ) := by
  induction es with
  | nil => rfl
  | cons e rest ih => simp [replacedAll, ih]

mutual

theorem Expr.captured_replaced (e : Expr) : (e.replaced σ).captured = e.captured := by
  cases e with
  | tuple members => exact capturedAll_replaced members
  | _ => rfl

theorem capturedAll_replaced (es : List Expr) :
    capturedAll (replacedAll σ es) = capturedAll es := by
  cases es with
  | nil => rfl
  | cons e rest =>
    simp only [replacedAll, capturedAll, Expr.captured_replaced e, capturedAll_replaced rest]

end

namespace Expr

@[simp]
theorem isValue_replaced (e : Expr) : (e.replaced σ).isValue = e.isValue := by
  cases e <;> rfl

@[simp]
theorem isForm_replaced (e : Expr) : (e.replaced σ).isForm = e.isForm := by
  cases e <;> rfl

@[simp]
theorem isFalse_replaced (e : Expr) : (e.replaced σ).isFalse = e.isFalse := by
  cases e <;> rfl

/-- No source is left in a value that could be read. -/
theorem replaced_of_isValue {e : Expr} (hv : e.isValue = true) : e.replaced σ = e := by
  cases e with
  | pending | tuple | deferred => cases hv
  | _ => rfl

theorem firstUnreduced?_replaced (members : List Expr) :
    firstUnreduced? (members.map (Expr.replaced σ)) = firstUnreduced? members := by
  simp only [firstUnreduced?, List.findIdx?_map, Function.comp_def, isValue_replaced]

end Expr

/-! ## Expressions that bind nothing -/

/-- The text is a token in which neither `define` nor `lambda` occurs. -/
def Token.BindsNothing (text : String) : Prop :=
  Token.WellFormed (fun a => a ≠ "define" ∧ a ≠ "lambda") text

/-- The expression holds no procedure of the program and neither `define` nor `lambda`, be it in
its source or as the form itself. -/
inductive Expr.BindsNothing : Expr → Prop
  | pending {tokens : List String} {g : Handle} : (∀ m ∈ tokens, Token.BindsNothing m) →
      BindsNothing (.pending tokens g)
  | deferred {token : String} {g : Handle} : Token.BindsNothing token →
      BindsNothing (.deferred token g)
  | tuple {members : List Expr} : (∀ e ∈ members, BindsNothing e) → BindsNothing (.tuple members)
  | builtin (b : Builtin) : BindsNothing (.procedure (.builtin b))
  | form {f : Form} {g : Handle} : f ≠ .define → f ≠ .lambda →
      BindsNothing (.procedure (.form f g))
  | number (x : Float) : BindsNothing (.number x)
  | boolean (b : Bool) : BindsNothing (.boolean b)

namespace Expr.BindsNothing

theorem members {es : List Expr} (h : (Expr.tuple es).BindsNothing) :
    ∀ e ∈ es, e.BindsNothing := by
  cases h with
  | tuple h => exact h

theorem of_isPlain {e : Expr} (h : Builtin.IsPlain e) : e.BindsNothing := by
  rcases h with ⟨x, rfl⟩ | ⟨b, rfl⟩
  · exact .number x
  · exact .boolean b

end Expr.BindsNothing

/-- What an unbound atom stands for binds nothing, unless it is one of the forms that do. -/
theorem bindsNothing_of_readUnbound {token : String} {g : Handle} {e : Expr}
    (ht : token ≠ "define" ∧ token ≠ "lambda") (h : readUnbound token g = .ok e) :
    e.BindsNothing := by
  rcases readUnbound_cases h with ⟨f, hf, rfl⟩ | ⟨b, rfl⟩ | hplain
  · rw [Form.eq_name_of_ofName? hf] at ht
    apply Expr.BindsNothing.form
    · rintro rfl
      exact ht.1 rfl
    · rintro rfl
      exact ht.2 rfl
  · exact .builtin b
  · exact .of_isPlain hplain

/-! ## Moves -/

/-- The move `y` is `x` as `φ` takes it: the same error, a step at the same place, or what `x` leads
to, which binds nothing. -/
inductive MovesLike (φ : Expr → Expr) : Except Error Move → Except Error Move → Prop
  | error (err : Error) : MovesLike φ (.error err) (.error err)
  | advance (place : Nat) : MovesLike φ (.ok (.advance place)) (.ok (.advance place))
  | become {e : Expr} : e.BindsNothing → MovesLike φ (.ok (.become e)) (.ok (.become (φ e)))

namespace Form

variable {f : Form} {scope : Handle}

theorem movesLike_connective {settles : Expr → Bool}
    (hs : ∀ e : Expr, settles (e.replaced σ) = settles e) (hdefine : f ≠ .define)
    (hlambda : f ≠ .lambda) {first : Expr} {rest : List Expr} (hfirst : first.BindsNothing)
    (hrest : ∀ e ∈ rest, e.BindsNothing) :
    MovesLike (Expr.replaced σ) (.ok (connective f scope settles first rest))
      (.ok (connective f scope settles (first.replaced σ) (rest.map (Expr.replaced σ)))) := by
  unfold connective
  rw [Expr.isValue_replaced, hs, List.isEmpty_map]
  split
  · exact .advance 1
  · split
    · exact .become hfirst
    · -- the form stays in front of what is left of its operands
      have htuple : (Expr.tuple (.procedure (.form f scope) :: rest)).BindsNothing := by
        apply Expr.BindsNothing.tuple
        intro e he
        rcases List.mem_cons.1 he with rfl | he
        · exact .form hdefine hlambda
        · exact hrest e he
      have himage : (Expr.tuple (.procedure (.form f scope) :: rest)).replaced σ =
          .tuple (.procedure (.form f scope) :: rest.map (Expr.replaced σ)) := by
        simp [Expr.replaced]
      rw [← himage]
      exact .become htuple

theorem movesLike_move {args : List Expr} (hdefine : f ≠ .define) (hlambda : f ≠ .lambda)
    (ha : ∀ e ∈ args, e.BindsNothing) :
    MovesLike (Expr.replaced σ) (f.move scope args)
      (f.move scope (args.map (Expr.replaced σ))) := by
  cases f with
  | define => exact (hdefine rfl).elim
  | lambda => exact (hlambda rfl).elim
  | ifElse =>
    rcases args with _ | ⟨test, _ | ⟨yes, _ | ⟨no, _ | ⟨e, rest⟩⟩⟩⟩
    · exact .error _
    · exact .error _
    · exact .error _
    · simp only [List.map_cons, List.map_nil, move, Expr.isValue_replaced, Expr.isFalse_replaced]
      split
      · exact .advance 1
      · split
        · exact .become (ha no (by simp))
        · exact .become (ha yes (by simp))
    · simp only [List.map_cons, move, miscount, List.length_cons, List.length_map]
      exact .error _
  | and =>
    cases args with
    | nil => exact .become (.boolean true)
    | cons first rest =>
      exact movesLike_connective Expr.isFalse_replaced hdefine hlambda (ha first (by simp))
        fun e he => ha e (by simp [he])
  | or =>
    cases args with
    | nil => exact .become (.boolean false)
    | cons first rest =>
      exact movesLike_connective (by simp) hdefine hlambda (ha first (by simp))
        fun e he => ha e (by simp [he])

end Form

theorem movesLike_headMove {head : Expr} (args : List Expr) (hh : head.BindsNothing)
    (hform : head.isForm = false) :
    MovesLike (Expr.replaced σ) (head.headMove args) (head.headMove args) := by
  cases hh with
  | builtin b =>
    simp only [Expr.headMove, Procedure.move]
    cases hb : b.apply args with
    | error err => exact .error _
    | ok e =>
      have hplain := Builtin.isPlain_apply hb
      have hsame : e.replaced σ = e := by
        rcases hplain with ⟨x, rfl⟩ | ⟨c, rfl⟩
        · rfl
        · rfl
      have hmove : MovesLike (Expr.replaced σ) (.ok (.become e)) (.ok (.become (e.replaced σ))) :=
        .become (.of_isPlain hplain)
      rw [hsame] at hmove
      exact hmove
  | form => cases hform
  | pending | deferred | tuple | number | boolean => exact .error _

/-- A tuple that binds nothing makes the same move after the substitution. -/
theorem movesLike_tupleMove {members : List Expr} (hm : ∀ e ∈ members, e.BindsNothing) :
    MovesLike (Expr.replaced σ) (tupleMove members)
      (tupleMove (members.map (Expr.replaced σ))) := by
  cases members with
  | nil => exact .error _
  | cons head args =>
    have hhead := hm head (by simp)
    have hargs : ∀ e ∈ args, e.BindsNothing := fun e he => hm e (by simp [he])
    cases hf : head.isForm with
    | true =>
      obtain ⟨f, scope, rfl⟩ := Expr.eq_form_of_isForm hf
      cases hhead with
      | form hdefine hlambda => exact Form.movesLike_move hdefine hlambda hargs
    | false =>
      have hfirst : Expr.firstUnreduced? (head.replaced σ :: args.map (Expr.replaced σ)) =
          Expr.firstUnreduced? (head :: args) := Expr.firstUnreduced?_replaced (head :: args)
      rw [List.map_cons]
      rw [tupleMove_of_not_form hf, tupleMove_of_not_form (by rwa [Expr.isForm_replaced]), hfirst]
      cases hu : Expr.firstUnreduced? (head :: args) with
      | some place => exact .advance place
      | none =>
        -- all members are values, and the substitution leaves these alone
        have hvalue := firstUnreduced?_eq_none.1 hu
        have hmap : args.map (Expr.replaced σ) = args := by
          rw [List.map_congr_left fun e he => Expr.replaced_of_isValue (hvalue e (by simp [he])),
            List.map_id']
        rw [hmap, Expr.replaced_of_isValue (hvalue head (by simp))]
        exact movesLike_headMove args hhead hf

/-- Renaming the scopes as well makes no difference. -/
theorem movesLike_tupleMove_rename {f : Handle → Handle} {members : List Expr}
    (hm : ∀ e ∈ members, e.BindsNothing) (hf : Separates f (capturedAll members)) :
    MovesLike (fun e => (e.replaced σ).rename f) (tupleMove members)
      (tupleMove (members.map fun e => (e.replaced σ).rename f)) := by
  have hcaptured : capturedAll (members.map (Expr.replaced σ)) = capturedAll members := by
    rw [← replacedAll_eq_map, capturedAll_replaced]
  have hrename : tupleMove (members.map fun e => (e.replaced σ).rename f) =
      (tupleMove (members.map (Expr.replaced σ))).map (Move.rename f) := by
    rw [← tupleMove_rename (by rw [hcaptured]; exact hf), List.map_map]
    rfl
  have hlike : MovesLike (Expr.replaced σ) _ _ := movesLike_tupleMove hm
  rw [hrename]
  generalize tupleMove members = x at hlike ⊢
  generalize tupleMove (members.map (Expr.replaced σ)) = y at hlike ⊢
  cases hlike with
  | error err => exact .error err
  | advance place => exact .advance place
  | become he => exact .become he

end Stepwise
