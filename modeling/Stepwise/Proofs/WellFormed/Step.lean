import Stepwise.Proofs.Store.Bound
import Stepwise.Proofs.WellFormed.Move
/-!
# Well-formed source stays well formed

In a well-formed store every name is a symbol and bound to a well-formed value. Reading a token,
expanding a tuple, entering a procedure and taking a step keep expressions and the store well
formed, and none of them fails because of the structure of source text (`preserves_step`).
-/

namespace Stepwise

variable {α : Type} {allowed : String → Prop} {s : Store} {g : Handle} {token : String}

/-! ## Stores -/

/-- Names are symbols, and they are bound to well-formed values. -/
structure Store.WellFormed (allowed : String → Prop) (s : Store) : Prop where
  sound : s.Sound
  bound : s.AllBound fun name e => isSymbol name = true ∧ e.IsBindable allowed

namespace Store.WellFormed

theorem child (hs : s.WellFormed allowed) (p : Handle) : (s.child p).2.WellFormed allowed :=
  ⟨sound_child hs.sound p, hs.bound.child hs.sound p⟩

theorem define (hs : s.WellFormed allowed) (h : Handle) {name : String} {e : Expr}
    (hn : isSymbol name = true) (he : e.IsBindable allowed) :
    (s.define h name e).WellFormed allowed :=
  ⟨sound_define hs.sound h name e, hs.bound.define h ⟨hn, he⟩⟩

theorem collect (hs : s.WellFormed allowed) (roots : List Handle) (values : List Expr) :
    (s.collect roots values).2.WellFormed allowed :=
  ⟨sound_collect hs.sound roots values, hs.bound.collect roots values⟩

theorem bindAll (hs : s.WellFormed allowed) (frame : Handle) {pairs : List (String × Expr)}
    (hp : ∀ p ∈ pairs, isSymbol p.1 = true ∧ p.2.IsBindable allowed) :
    (pairs.foldl (fun s (name, arg) => s.define frame name arg) s).WellFormed allowed := by
  induction pairs generalizing s with
  | nil => exact hs
  | cons p rest ih =>
    obtain ⟨hn, hv⟩ := hp p (by simp)
    exact ih (hs.define frame hn hv) fun q hq => hp q (by simp [hq])

end Store.WellFormed

/-! ## Reading -/

/-- A well-formed store and a result as described, or an error that is not one of structure. -/
abbrev Preserves (allowed : String → Prop) (Q : α → Prop) (x : Except Error α × Store) : Prop :=
  Yields (Store.WellFormed allowed) (fun err => ¬ err.IsStructural) Q x

theorem Builtin.eq_name_of_ofName? {b : Builtin} (h : Builtin.ofName? token = some b) :
    token = b.name := by
  have hb := List.find?_some h
  exact (beq_iff_eq.1 hb).symm

theorem Form.eq_name_of_ofName? {f : Form} (h : Form.ofName? token = some f) : token = f.name := by
  have hf := List.find?_some h
  exact (beq_iff_eq.1 hf).symm

theorem results_readNumber (text : String) :
    Results (· = ReadError.malformedNumber text) (fun _ => True) (readNumber text) := by
  unfold readNumber
  split
  · exact .error rfl
  · simp only
    split
    · exact .ok trivial
    · exact .error rfl

/-- An atom that nothing binds stands for a value, or is reported as what it is. -/
theorem results_readUnbound (ha : allowed token) (g : Handle) :
    Results (fun err => err = .unrecognized token ∨ err = .malformedNumber token)
      (Expr.IsBindable allowed) (readUnbound token g) := by
  unfold readUnbound
  split
  · rename_i hb
    rw [Builtin.eq_name_of_ofName? hb] at ha
    exact .ok ⟨rfl, .procedure ha⟩
  · rename_i hf
    rw [Form.eq_name_of_ofName? hf] at ha
    exact .ok ⟨rfl, .procedure ha⟩
  · split
    · exact .ok ⟨rfl, .boolean true⟩
    · split
      · exact .ok ⟨rfl, .boolean false⟩
      · split
        · have hn := results_readNumber token
          cases hx : readNumber token with
          | ok x => exact .ok ⟨rfl, .number x⟩
          | error err =>
            rw [hx] at hn
            exact .error (.inr hn.of_error)
        · exact .error (.inl rfl)

theorem results_readAtom (hs : s.WellFormed allowed) (ha : allowed token) (g : Handle) :
    Results (fun err => err = .unrecognized token ∨ err = .malformedNumber token)
      (Expr.IsBindable allowed) (s.readAtom token g) := by
  unfold Store.readAtom
  split
  · rename_i he
    exact .ok (hs.bound.get? he).2
  · exact results_readUnbound ha g

/-- There are no blanks around an atom. -/
theorem runOn_read_of_isAtom (h : Token.IsAtom token.toList) (g : Handle) (s : Store) :
    (read token g).runOn s = (s.readAtom token g, s) := by
  have htrim : trim token = token := Token.trim_of_isToken (.atom h)
  have hne : token ≠ "" := by
    rintro rfl
    exact h.1 rfl
  rw [runOn_read_atom (by rw [htrim]; exact hne)
    (by rw [htrim]; exact Token.opensTuple_of_isAtom h), htrim]

theorem runOn_expandMember_of_isAtom {e : Expr} (h : Token.IsAtom token.toList)
    (hread : s.readAtom token g = .ok e) (hv : e.isValue = true) :
    (expandMember token g).runOn s = (.ok e, s) := by
  rw [expandMember, shapeMember, Action.runOn_bind, runOn_readMember, runOn_read_of_isAtom h, hread]
  cases e with
  | pending => cases hv
  | _ => rfl

/-- Behind a special form the other tokens are deferred. -/
theorem runOn_expand_form {f : Form} {home : Handle} (h : Token.IsAtom token.toList)
    (hread : s.readAtom token g = .ok (.procedure (.form f home))) (rest : List String) :
    (expand (token :: rest) g).runOn s =
      (.ok (.tuple (.procedure (.form f home) :: rest.map fun token => .deferred token g)), s) := by
  simp only [expand_eq_shapeTuple, shapeTuple, Action.runOn_bind,
    runOn_expandMember_of_isAtom h hread rfl]
  rfl

/-- A token is read as a value, or as a tuple of its members when it opens a bracket. -/
theorem preserves_readMember (hs : s.WellFormed allowed) (ht : Token.WellFormed allowed token)
    (g : Handle) :
    Preserves allowed (fun e => e.WellFormed allowed ∧ ∀ ms inner, e = .pending ms inner →
      opensTuple (trim token) = true ∧ Token.members (trim token) = .ok ms)
      ((readMember token g).runOn s) := by
  have htrim : trim token = token := Token.trim_of_isToken ht.1
  rw [runOn_readMember]
  by_cases ho : opensTuple token = true
  · obtain ⟨ms, hm, hms⟩ := ht.members ho
    rw [runOn_read_tuple (by rw [htrim]; exact ho) (by rw [htrim]; exact hm)]
    refine ⟨hs.child g, .ok ⟨.pending hms, fun ns inner he => ?_⟩⟩
    cases he
    rw [htrim]
    exact ⟨ho, hm⟩
  · have ho : opensTuple token = false := by simpa using ho
    obtain ⟨hatom, hallowed⟩ := ht.atom ho
    rw [runOn_read_of_isAtom hatom]
    refine ⟨hs, ?_⟩
    have hread := results_readAtom hs hallowed g
    cases hx : s.readAtom token g with
    | ok e =>
      rw [hx] at hread
      obtain ⟨hvalue, hwell⟩ := hread.of_ok
      refine .ok ⟨hwell, fun ms inner he => ?_⟩
      rw [he] at hvalue
      cases hvalue
    | error err =>
      rw [hx] at hread
      rcases hread.of_error with rfl | rfl
      · exact .error id
      · exact .error id

theorem preserves_expandMember (hs : s.WellFormed allowed) (ht : Token.WellFormed allowed token)
    (hnested : ∀ ms, Token.members (trim token) = .ok ms →
      (∀ m ∈ ms, Token.WellFormed allowed m) → ∀ t inner, t.WellFormed allowed →
      Preserves allowed (Expr.WellFormed allowed) ((expand ms inner).runOn t)) (g : Handle) :
    Preserves allowed (Expr.WellFormed allowed) ((expandMember token g).runOn s) := by
  refine yields_expandMember (preserves_readMember hs ht g) (fun ms inner t hp htwell => ?_)
    fun e he _ => he.1
  obtain ⟨ho, hm⟩ := hp.2 ms inner rfl
  exact ⟨ho, hnested ms hm hp.1.tokens t inner htwell⟩

/-- Every tuple can be expanded. -/
theorem preserves_expand (tokens : List String) (hs : s.WellFormed allowed)
    (ht : ∀ token ∈ tokens, Token.WellFormed allowed token) (g : Handle) :
    Preserves allowed (Expr.WellFormed allowed) ((expand tokens g).runOn s) := by
  induction tokens using tokens_induction generalizing s g with
  | h tokens ih =>
    rw [expand_eq_shapeTuple]
    refine yields_shapeTuple (Q := Expr.WellFormed allowed) hs (fun token htoken t hwell => ?_)
      (fun head first rest hr hhead _ => ?_) fun es hes _ => .tuple hes
    · exact preserves_expandMember hwell (ht token htoken)
        (fun ms hm hms u inner hu => ih token htoken ms hm hu hms inner) g
    · refine .tuple fun e he => ?_
      rcases List.mem_cons.1 he with rfl | he
      · exact hhead
      · obtain ⟨token, htoken, rfl⟩ := List.mem_map.1 he
        exact .deferred (ht token (by simp [hr, htoken]))

/-! ## Steps -/

theorem wellFormed_frame (hs : s.WellFormed allowed) {c : Closure} {args : List Expr}
    (hc : c.WellFormed allowed) (ha : ∀ a ∈ args, a.IsBindable allowed) :
    (c.frame args s).2.WellFormed allowed := by
  have hpairs : ∀ p ∈ c.params.zip args, isSymbol p.1 = true ∧ p.2.IsBindable allowed :=
    fun p hp => ⟨hc.params _ (List.of_mem_zip hp).1, ha _ (List.of_mem_zip hp).2⟩
  exact (hs.child c.scope).bindAll (s.child c.scope).1 hpairs

theorem preserves_enter (hs : s.WellFormed allowed) {c : Closure} {args : List Expr}
    (hc : c.WellFormed allowed) (ha : ∀ a ∈ args, a.IsBindable allowed) :
    Preserves allowed (Expr.WellFormed allowed) ((c.enter args).runOn s) := by
  by_cases hlength : args.length = c.params.length
  · rw [runOn_enter hlength]
    exact (preserves_readMember (wellFormed_frame hs hc ha) hc.body _).weaken fun e he => he.1
  · rw [runOn_enter_error hlength]
    exact ⟨hs, regular_evaluation _⟩

theorem preserves_step_tuple (hs : s.WellFormed allowed) {members : List Expr}
    (hm : ∀ e ∈ members, e.WellFormed allowed)
    (hn : ∀ place, tupleMove members ≠ .ok (.advance place)) :
    Preserves allowed (Expr.WellFormed allowed) ((step (.tuple members)).runOn s) := by
  have hmove := regular_tupleMove hm
  cases hx : tupleMove members with
  | error err =>
    rw [hx] at hmove
    rw [runOn_step_error hx]
    exact ⟨hs, .error hmove.of_error⟩
  | ok m =>
    rw [hx] at hmove
    have hmove := hmove.of_ok
    cases m with
    | advance place => exact (hn place hx).elim
    | become e =>
      rw [runOn_step_become hx]
      exact ⟨hs, .ok hmove⟩
    | define scope name value =>
      rw [runOn_step_define hx]
      exact ⟨hs.define _ hmove.1 hmove.2, .ok .void⟩
    | enter c args =>
      rw [runOn_step_enter hx]
      exact preserves_enter hs hmove.1 hmove.2

/-- A step keeps everything well formed, and it does not fail because of the structure of source
text. -/
theorem preserves_step (hs : s.WellFormed allowed) {e : Expr} (he : e.WellFormed allowed) :
    Preserves allowed (Expr.WellFormed allowed) ((step e).runOn s) := by
  induction e using step_induction with
  | base e hn =>
    cases he with
    | pending ht => exact preserves_expand _ hs ht _
    | deferred ht => exact (preserves_readMember hs ht _).weaken fun e he => he.1
    | tuple hm => exact preserves_step_tuple hs hm fun place => hn _ place rfl
    | procedure hp => exact ⟨hs, .ok (.procedure hp)⟩
    | number x => exact ⟨hs, .ok (.number x)⟩
    | boolean b => exact ⟨hs, .ok (.boolean b)⟩
    | void => exact ⟨hs, .ok .void⟩
  | advance before e after hadvance ih =>
    have hm := he.members
    have hstep := ih (hm e (by simp))
    rw [runOn_step_advance hadvance]
    rcases hx : (step e).runOn s with ⟨err | e', t⟩
    all_goals rw [hx] at hstep
    · exact ⟨hstep.store, .error hstep.result.of_error⟩
    · refine ⟨hstep.store, .ok (.tuple fun x hmem => ?_)⟩
      rcases eq_or_mem_of_mem_replaced hmem with rfl | hmem
      · exact hstep.result.of_ok
      · exact hm x hmem

end Stepwise
