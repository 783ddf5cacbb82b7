import Stepwise.Proofs.WellFormed.Session
/-!
# Literals

A token is looked up in the scopes before it is taken for a literal, so a literal means itself only
as long as nothing binds it. The booleans and the literals that begin with a digit are no symbols
and are never bound. A literal that begins with a sign is a symbol: it means itself until it is
bound, and from then on what it is bound to (`Store.ReadsLiterals`).
-/

namespace Stepwise

variable {allowed : String → Prop} {s : Store} {g : Handle} {token : String}
  {x : Except ReadError Expr}

/-- What a token stands for as a literal, if it is one. -/
def literal? (token : String) : Option (Except ReadError Expr) :=
  if token = "true" then some (.ok (.boolean true))
  else if token = "false" then some (.ok (.boolean false))
  else if looksNumeric token then some ((readNumber token).map .number)
  else none

/-- Whether the token begins with a sign. -/
def isSigned (token : String) : Bool :=
  token.toList.head?.any fun c => c == '-' || c == '+'

/-! ## Literals among names -/

theorem literal?_builtin (b : Builtin) : literal? b.name = none := by
  cases b <;> decide +kernel

theorem literal?_form (f : Form) : literal? f.name = none := by
  cases f <;> decide +kernel

/-- No builtin and no form goes by the name of a literal. -/
theorem readUnbound_of_literal (h : literal? token = some x) (g : Handle) :
    readUnbound token g = x := by
  have hb : Builtin.ofName? token = none := by
    by_contra hne
    obtain ⟨b, hb⟩ := Option.ne_none_iff_exists'.1 hne
    rw [Builtin.eq_name_of_ofName? hb, literal?_builtin] at h
    cases h
  have hf : Form.ofName? token = none := by
    by_contra hne
    obtain ⟨f, hf⟩ := Option.ne_none_iff_exists'.1 hne
    rw [Form.eq_name_of_ofName? hf, literal?_form] at h
    cases h
  unfold literal? at h
  simp only [readUnbound, hb, hf]
  grind

/-- A literal without a sign is no symbol. -/
theorem isSymbol_of_literal (h : literal? token = some x) (hu : isSigned token = false) :
    isSymbol token = false := by
  unfold literal? at h
  unfold isSymbol
  by_cases ht : token = "true"
  · simp [ht]
  · by_cases hf : token = "false"
    · simp [hf]
    · simp only [ht, hf, if_false] at h
      have hn : looksNumeric token = true := by
        by_contra hn
        simp [hn] at h
      unfold looksNumeric at hn
      unfold isSigned at hu
      cases hl : token.toList with
      | nil => rfl
      | cons c rest =>
        rw [hl] at hn hu
        have hs : (c == '-' || c == '+') = false := by simpa using hu
        have hc : c.isDigit = true := by simpa [hs] using hn
        simp [hc]

/-- A literal does not open a tuple. -/
theorem opensTuple_of_literal (h : literal? token = some x) : opensTuple token = false := by
  by_contra ho
  obtain ⟨b, hb⟩ := Option.isSome_iff_exists.1 (eq_true_of_ne_false ho)
  have ht : token ≠ "true" := by
    rintro rfl
    cases hb
  have hf : token ≠ "false" := by
    rintro rfl
    cases hb
  have hn : looksNumeric token = false := by
    obtain ⟨c, hc, hcb⟩ := Option.bind_eq_some_iff.1 hb
    obtain ⟨rest, hrest⟩ := List.head?_eq_some_iff.1 hc
    rw [looksNumeric, hrest, Bracket.ofOpener?_eq_some_iff.1 hcb]
    cases b <;> rfl
  simp [literal?, ht, hf, hn] at h

/-! ## Reading literals -/

/-- Literals without a sign mean themselves; those with one do where nothing binds them. -/
structure Store.ReadsLiterals (s : Store) : Prop where
  unsigned : ∀ g text x, literal? (trim text) = some x → isSigned (trim text) = false →
    (read text g).runOn s = (x, s)
  signed : ∀ g text x, literal? (trim text) = some x → isSigned (trim text) = true →
    (read text g).runOn s = (((s.get? g (trim text)).map .ok).getD x, s)

theorem runOn_read_literal {text : String} (h : literal? (trim text) = some x) (g : Handle)
    (s : Store) : (read text g).runOn s = (((s.get? g (trim text)).map .ok).getD x, s) := by
  have hne : trim text ≠ "" := by
    intro he
    rw [he] at h
    cases h
  rw [runOn_read_atom hne (opensTuple_of_literal h), Store.readAtom]
  split
  · rename_i e he
    rw [he]
    rfl
  · rename_i he
    rw [he, readUnbound_of_literal h]
    rfl

theorem readsLiterals_of_wellFormed (hs : s.WellFormed allowed) : s.ReadsLiterals := by
  refine ⟨fun g text x h hu => ?_, fun g text x h _ => runOn_read_literal h g s⟩
  have hunbound : s.get? g (trim text) = none := by
    by_contra hne
    obtain ⟨e, he⟩ := Option.ne_none_iff_exists'.1 hne
    have hsymbol := (hs.bound.get? he).1
    rw [isSymbol_of_literal h hu] at hsymbol
    cases hsymbol
  rw [runOn_read_literal h, hunbound]
  rfl

/-! ## From the start -/

/-- From a fresh start, in every store that a program comes to and from every scope, a literal means
itself, unless it begins with a sign and is bound. -/
theorem literals_read (settings : Settings) :
    (∀ (before : List String) (source : String) (current : Option Expr) (s : Store),
      ((Interpreter.start settings).after before).Visits source current s → s.ReadsLiterals) ∧
    ∀ (before : List (String × Sink)) (line : String) (current : Option Expr) (s : Store),
      ((Session.start settings).after before).interpreter.Visits (trim line) current s →
        s.ReadsLiterals := by
  refine ⟨fun before source current s hv => ?_, fun before line current s hv => ?_⟩
  · have hstart := wellFormed_after_start settings before
    exact readsLiterals_of_wellFormed (wellFormed_of_visits hstart (lineOf_any source) hv).1
  · have hstart := Session.wellFormed_after_start settings before
    exact readsLiterals_of_wellFormed (wellFormed_of_visits hstart (lineOf_any (trim line)) hv).1

/-- It is not so that every literal always means itself: one with a sign can be defined. -/
theorem signed_literal_redefined :
    ¬ ∀ (settings : Settings) (before : List String) (source : String) (current : Option Expr)
      (s : Store) (g : Handle) (token : String) (x : Except ReadError Expr),
      ((Interpreter.start settings).after before).Visits source current s → s.isLive g = true →
      literal? token = some x → (read token g).runOn s = (x, s) := by
  intro h
  have hnumber : literal? "-5" = some ((readNumber "-5").map .number) := by
    have hlooks : looksNumeric "-5" = true := by decide +kernel
    simp [literal?, hlooks]
  have hread := h {} ["(define -5 false)"] "-5" none _ ⟨0, 0⟩ "-5" _ .start (by decide +kernel)
    hnumber
  have hfalse : ((read "-5" ⟨0, 0⟩).runOn ((Interpreter.start {}).after
      ["(define -5 false)"]).store).1.toOption.any Expr.isFalse = true := by
    decide +kernel
  rw [hread] at hfalse
  generalize readNumber "-5" = y at hfalse
  cases y with
  | error err => cases hfalse
  | ok z => cases hfalse

end Stepwise
