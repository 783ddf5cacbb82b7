import Stepwise.Proofs.WellFormed.Session
/-!
# What can go wrong after a line is read

Once a line has been read, a malformed number is the only fault that its reduction can still find in
source text. A name that stands for nothing is reported as undefined wherever it is met: as a
member of a tuple, as an argument that was put off, or as the body of a procedure.
-/

namespace Stepwise

variable {s t : Store} {e : Expr} {g : Handle} {name token : String}

/-! ## Names that stand for nothing -/

/-- The atom has no meaning, seen from the scope of `g`. -/
structure Store.Unknown (s : Store) (g : Handle) (name : String) : Prop where
  atom : Token.IsAtom name.toList
  unbound : s.get? g name = none
  not_builtin : Builtin.ofName? name = none
  not_form : Form.ofName? name = none
  not_boolean : name ≠ "true" ∧ name ≠ "false"
  not_number : looksNumeric name = false

/-- The next step of an expression comes upon a name that stands for nothing. The members of a
tuple are taken from the left, so those in front of the name have been shaped by then, and the
first of them is no form. -/
inductive Meets (name : String) : Expr → Store → Prop
  /-- The name is an argument that was put off. -/
  | argument {g : Handle} {s : Store} : s.Unknown g name → Meets name (.deferred name g) s
  /-- The name is a member of a tuple. -/
  | member {before after : List String} {es : List Expr} {g : Handle} {s t : Store} :
      (expand before g).runOn s = (.ok (.tuple es), t) → (∀ e ∈ es.head?, e.isForm = false) →
      t.Unknown g name → Meets name (.pending (before ++ name :: after) g) s
  /-- The name is met in a tuple within the tuple. -/
  | nested {before after ms : List String} {token : String} {es : List Expr} {g : Handle}
      {s t : Store} :
      (expand before g).runOn s = (.ok (.tuple es), t) → (∀ e ∈ es.head?, e.isForm = false) →
      opensTuple (trim token) = true → Token.members (trim token) = .ok ms →
      Meets name (.pending ms (t.child g).1) (t.child g).2 →
      Meets name (.pending (before ++ token :: after) g) s
  /-- The name is the body of the procedure that is entered. -/
  | body {members args : List Expr} {c : Closure} {s : Store} :
      tupleMove members = .ok (.enter c args) → args.length = c.params.length → c.body = name →
      (c.frame args s).2.Unknown (c.frame args s).1 name → Meets name (.tuple members) s
  /-- The member that takes the step meets the name. -/
  | inside {before after : List Expr} {e : Expr} {s : Store} :
      tupleMove (before ++ e :: after) = .ok (.advance before.length) → Meets name e s →
      Meets name (.tuple (before ++ e :: after)) s

theorem runOn_readMember_of_unknown (h : s.Unknown g name) :
    (readMember name g).runOn s = (.error (.evaluation (.undefinedName name)), s) := by
  have hatom : s.readAtom name g = .error (.unrecognized name) := by
    simp [Store.readAtom, readUnbound, h.unbound, h.not_builtin, h.not_form, h.not_boolean.1,
      h.not_boolean.2, h.not_number]
  rw [runOn_readMember, runOn_read_of_isAtom h.atom, hatom]
  rfl

theorem runOn_expandMember_error {err : Error}
    (h : (readMember token g).runOn s = (.error err, t)) :
    (expandMember token g).runOn s = (.error err, t) := by
  rw [expandMember, shapeMember, Action.runOn_bind, h]

/-- A step that meets a name without meaning reports it as undefined. -/
theorem undefined_of_meets (h : Meets name e s) :
    ∃ t, (step e).runOn s = (.error (.evaluation (.undefinedName name)), t) := by
  induction h with
  | argument hu => exact ⟨_, by rw [step, runOn_readMember_of_unknown hu]⟩
  | member hb hf hu =>
    rw [expand_eq_shapeTuple] at hb
    rw [step, expand_eq_shapeTuple]
    have hname := runOn_expandMember_error (runOn_readMember_of_unknown hu)
    exact ⟨_, runOn_shapeTuple_error hb hf hname⟩
  | nested hb hf ho hm _ ih =>
    obtain ⟨t, ht⟩ := ih
    rw [expand_eq_shapeTuple] at hb
    rw [step, ← runOn_expandMember_tuple ho hm] at ht
    rw [step, expand_eq_shapeTuple]
    exact ⟨_, runOn_shapeTuple_error hb hf ht⟩
  | body hmove hlength hbody hu =>
    rw [runOn_step_enter hmove, runOn_enter hlength, hbody]
    exact ⟨_, runOn_readMember_of_unknown hu⟩
  | inside hmove _ ih =>
    obtain ⟨t, ht⟩ := ih
    rw [runOn_step_advance hmove, ht]
    exact ⟨t, rfl⟩

/-! ## From the start -/

/-- A malformed number is the only fault in source text that the next step can report, and it
reports every name it meets without meaning as undefined. -/
structure Store.Digests (s : Store) (e : Expr) : Prop where
  reading : ∀ err t, (step e).runOn s = (.error (.reading err), t) →
    ∃ text, err = .malformedNumber text
  unknown : ∀ name, Meets name e s →
    ∃ t, (step e).runOn s = (.error (.evaluation (.undefinedName name)), t)

theorem digests_of_wellFormed {allowed : String → Prop} (hs : s.WellFormed allowed)
    (he : e.WellFormed allowed) : s.Digests e := by
  refine ⟨fun err t hx => ?_, fun name h => undefined_of_meets h⟩
  have hstep := preserves_step hs he
  rw [hx] at hstep
  have hregular := hstep.result.of_error
  cases err with
  | malformedNumber text => exact ⟨text, rfl⟩
  | _ => exact (hregular trivial).elim

/-- From a fresh start, whatever an accepted line comes to, in however many steps, structural
faults in source text are past. -/
theorem accepted_lines_digested (settings : Settings) :
    (∀ (before : List String) (source : String) (e : Expr) (s : Store),
      ((Interpreter.start settings).after before).Visits source (some e) s → s.Digests e) ∧
    ∀ (before : List (String × Sink)) (line : String) (e : Expr) (s : Store),
      ((Session.start settings).after before).interpreter.Visits (trim line) (some e) s →
        s.Digests e := by
  refine ⟨fun before source e s hv => ?_, fun before line e s hv => ?_⟩
  · have hstart := wellFormed_after_start settings before
    obtain ⟨hs, he⟩ := wellFormed_of_visits hstart (lineOf_any source) hv
    exact digests_of_wellFormed hs (he e rfl)
  · have hstart := Session.wellFormed_after_start settings before
    obtain ⟨hs, he⟩ := wellFormed_of_visits hstart (lineOf_any (trim line)) hv
    exact digests_of_wellFormed hs (he e rfl)

/-- The program has not defined `y` when it is met behind a builtin. -/
theorem undefined_member_reported :
    ∃ t, (step (.pending ["+", "y"] ⟨1, 0⟩)).runOn (Store.empty.root.2.child ⟨0, 0⟩).2 =
      (.error (.evaluation (.undefinedName "y")), t) := by
  have hread : (read "(+ y)" ⟨0, 0⟩).runOn Store.empty.root.2 =
      (.ok (.pending ["+", "y"] ⟨1, 0⟩), (Store.empty.root.2.child ⟨0, 0⟩).2) :=
    runOn_read_tuple (by decide +kernel) (by decide +kernel) _ _
  have hvisits : (Interpreter.start {}).Visits "(+ y)" (some (.pending ["+", "y"] ⟨1, 0⟩))
      (Store.empty.root.2.child ⟨0, 0⟩).2 :=
    .read (x := .ok (.pending ["+", "y"] ⟨1, 0⟩)) hread
  have hplus : (expand ["+"] ⟨1, 0⟩).runOn (Store.empty.root.2.child ⟨0, 0⟩).2 =
      (.ok (.tuple [.procedure (.builtin .add)]), (Store.empty.root.2.child ⟨0, 0⟩).2) := by
    rfl
  have hy : (Store.empty.root.2.child ⟨0, 0⟩).2.Unknown ⟨1, 0⟩ "y" :=
    ⟨by decide +kernel, rfl, by decide +kernel, by decide +kernel, by decide +kernel,
      by decide +kernel⟩
  have hmeets : Meets "y" (.pending (["+"] ++ "y" :: []) ⟨1, 0⟩)
      (Store.empty.root.2.child ⟨0, 0⟩).2 :=
    .member hplus (by simp [Expr.isForm]) hy
  exact ((accepted_lines_digested {}).1 [] "(+ y)" _ _ hvisits).unknown "y" hmeets

end Stepwise
