import Stepwise.Proofs.Confinement.Source
/-!
# Where a line writes

A line of led source makes scopes of its own, and everything it defines goes into these: every
tuple inside the line has a scope inside one of the line's own, and a definition binds its name one
scope further out. Only the outermost tuple can reach a scope that was there before, and when it
does so it becomes `void`, so that nothing is left that could fail (`tames_step`).
-/

namespace Stepwise

/-- The scope in which a tuple of the scope `g` defines names. -/
def Store.around (s : Store) (g : Handle) : Handle :=
  (s.parent? g).getD g

variable {ε α β : Type} {old : Handle → Prop} {s t : Store}

/-! ## Stores in which some scopes are old -/

/-- `t` still has the scopes of `s`, each with its parent, and the old ones with their bindings. -/
structure Spares (old : Handle → Prop) (s t : Store) : Prop where
  parent : ∀ g scope, s.scope? g = some scope →
    ∃ scope', t.scope? g = some scope' ∧ scope'.parent = scope.parent
  unchanged : ∀ h, old h → t.scope? h = s.scope? h

theorem Spares.refl (old : Handle → Prop) (s : Store) : Spares old s s :=
  ⟨fun _ scope hs => ⟨scope, hs, rfl⟩, fun _ _ => rfl⟩

theorem Spares.trans {u : Store} (h : Spares old s t) (h' : Spares old t u) : Spares old s u := by
  refine ⟨fun g scope hs => ?_, fun g hg => (h'.unchanged g hg).trans (h.unchanged g hg)⟩
  obtain ⟨scope', ht, hp⟩ := h.parent g scope hs
  obtain ⟨scope'', hu, hp'⟩ := h'.parent g scope' ht
  exact ⟨scope'', hu, hp'.trans hp⟩

/-- A store in which all names are bound to led values and the old scopes are still there. -/
structure Sheltered (old : Handle → Prop) (s : Store) : Prop where
  sound : s.Sound
  led : s.Led
  live : ∀ h, old h → s.isLive h = true

/-- The scope is one of the line's own; unless it is that of the outermost tuple, so is the scope
around it. -/
structure Store.Own (s : Store) (old : Handle → Prop) (outermost : Bool) (g : Handle) : Prop where
  live : s.isLive g = true
  fresh : ¬ old g
  around : outermost = false → ¬ old (s.around g)

theorem Store.Own.weaken {g : Handle} {outermost : Bool} (h : s.Own old outermost g) :
    s.Own old true g :=
  ⟨h.live, h.fresh, fun hn => by cases hn⟩

theorem Store.Own.spares {g : Handle} {outermost : Bool} (h : s.Own old outermost g)
    (hs : Spares old s t) : t.Own old outermost g := by
  obtain ⟨scope, hscope⟩ := Store.isLive_iff.1 h.live
  obtain ⟨scope', hscope', hp⟩ := hs.parent g scope hscope
  refine ⟨Store.isLive_iff.2 ⟨scope', hscope'⟩, h.fresh, fun ho => ?_⟩
  have hsame : t.around g = s.around g := by
    simp only [Store.around, Store.parent?, hscope, hscope', Option.bind_some, hp]
  rw [hsame]
  exact h.around ho

/-! ## Expressions that stay inside -/

/-- The value of a procedure's definition is still source. -/
def Quoted (f : Form) (args : List Expr) : Prop :=
  ∀ target value, args = [target, value] → f = .lambda ∨ f = .define ∧ target.tupleSource? ≠ none →
    ∃ token g, value = .deferred token g

/-- All that the expression can still define goes to the line's own scopes, except for the
outermost tuple. -/
inductive Confined (s : Store) (old : Handle → Prop) : Bool → Expr → Prop
  | value {outermost : Bool} {e : Expr} : e.IsLed → Confined s old outermost e
  | pending {outermost : Bool} {tokens : List String} {g : Handle} : LedMembers tokens →
      s.Own old outermost g → Confined s old outermost (.pending tokens g)
  | deferred {outermost : Bool} {token : String} {g : Handle} : Led token → s.Own old true g →
      Confined s old outermost (.deferred token g)
  | tuple {outermost : Bool} {members : List Expr} : (∀ e ∈ members, Confined s old false e) →
      Confined s old outermost (.tuple members)
  | form {outermost : Bool} {f : Form} {g : Handle} {args : List Expr} :
      s.Own old outermost g → (∀ e ∈ args, Confined s old false e) → Quoted f args →
      Confined s old outermost (.tuple (.procedure (.form f g) :: args))

namespace Confined

variable {e : Expr} {outermost : Bool}

theorem weaken (h : Confined s old false e) : Confined s old outermost e := by
  cases h with
  | value hv => exact .value hv
  | deferred hl ho => exact .deferred hl ho
  | tuple hm => exact .tuple hm
  | pending hl ho =>
    cases outermost with
    | false => exact .pending hl ho
    | true => exact .pending hl ho.weaken
  | form ho ha hq =>
    cases outermost with
    | false => exact .form ho ha hq
    | true => exact .form ho.weaken ha hq

theorem spares (h : Confined s old outermost e) (hs : Spares old s t) :
    Confined t old outermost e := by
  induction h with
  | value hv => exact .value hv
  | pending hl ho => exact .pending hl (ho.spares hs)
  | deferred hl ho => exact .deferred hl (ho.spares hs)
  | tuple _ ih => exact .tuple ih
  | form ho _ hq ih => exact .form (ho.spares hs) ih hq

theorem isLed (h : Confined s old outermost e) (hv : e.isValue = true) : e.IsLed := by
  cases h with
  | value hl => exact hl
  | pending | deferred | tuple | form => cases hv

end Confined

/-! ## Actions -/

/-- The outcome of an action on `s` that spares the old scopes. -/
structure Tames (old : Handle → Prop) (s : Store) (Q : Store → α → Prop)
    (x : Except ε α × Store) : Prop where
  spares : Spares old s x.2
  sheltered : Sheltered old x.2
  result : ∀ a, x.1 = .ok a → Q x.2 a

namespace Tames

variable {Q : Store → α → Prop}

theorem of_result (hs : Sheltered old s) {x : Except ε α} (hx : ∀ a, x = .ok a → Q s a) :
    Tames old s Q (x, s) :=
  ⟨.refl old s, hs, hx⟩

theorem of_error (hs : Sheltered old s) (err : ε) : Tames old s Q (.error err, s) :=
  of_result hs fun a ha => by cases ha

theorem weaken {P : Store → α → Prop} {x : Except ε α × Store} (h : Tames old s Q x)
    (hq : ∀ a, Q x.2 a → P x.2 a) : Tames old s P x :=
  ⟨h.spares, h.sheltered, fun a ha => hq a (h.result a ha)⟩

theorem bind {P : Store → β → Prop} {m : Action ε α} {k : α → Action ε β}
    (h : Tames old s Q (m.runOn s))
    (hk : ∀ a t, Spares old s t → Sheltered old t → Q t a → Tames old t P ((k a).runOn t)) :
    Tames old s P ((m >>= k).runOn s) := by
  rw [Action.runOn_bind]
  generalize m.runOn s = x at h
  obtain ⟨err | a, t⟩ := x
  · exact ⟨h.spares, h.sheltered, fun a ha => by cases ha⟩
  · have hnext := hk a t h.spares h.sheltered (h.result a rfl)
    exact ⟨h.spares.trans hnext.spares, hnext.sheltered, hnext.result⟩

theorem mapM {f : String → Action ε Expr} (tokens : List String) (hs : Sheltered old s)
    (hf : ∀ token ∈ tokens, ∀ t, Spares old s t → Sheltered old t →
      Tames old t (fun u e => Confined u old false e) ((f token).runOn t)) :
    Tames old s (fun t es => ∀ e ∈ es, Confined t old false e) ((tokens.mapM f).runOn s) := by
  induction tokens generalizing s with
  | nil =>
    refine of_result hs fun es hes => ?_
    cases hes
    simp
  | cons token rest ih =>
    simp only [List.mapM_cons]
    refine (hf token (by simp) s (.refl old s) hs).bind fun e t hst ht he => ?_
    have hrest := ih ht fun token htoken u htu => hf token (by simp [htoken]) u (hst.trans htu)
    refine hrest.bind fun es u htu hu hes => ?_
    refine of_result hu fun all hall => ?_
    cases hall
    intro x hx
    rcases List.mem_cons.1 hx with rfl | hx
    · exact he.spares htu
    · exact hes x hx

end Tames

/-- A new scope is one of the line's own. -/
theorem tames_newScope (hs : Sheltered old s) (p : Handle) :
    Tames old s (fun t g => t.Own old true g ∧ t.around g = p)
      ((Action.newScope p : Action ε Handle).runOn s) := by
  have hkeep : ∀ g, s.isLive g = true → (s.child p).2.scope? g = s.scope? g := fun g hg =>
    Store.scope?_child_of_isLive hs.sound hg
  have hself := Store.scope?_child_self hs.sound p
  refine ⟨⟨fun g scope hg => ?_, fun h hh => hkeep h (hs.live h hh)⟩,
    ⟨Store.sound_child hs.sound p, hs.led.child hs.sound p, fun h hh => ?_⟩, fun g hg => ?_⟩
  · exact ⟨scope, (hkeep g (Store.isLive_iff.2 ⟨scope, hg⟩)).trans hg, rfl⟩
  · have hlive := hs.live h hh
    rw [Store.isLive, ← hkeep h hlive] at hlive
    exact hlive
  · obtain rfl : (s.child p).1 = g := Except.ok.inj hg
    refine ⟨⟨Store.isLive_iff.2 ⟨_, hself⟩, fun hh => ?_, fun hn => by cases hn⟩, ?_⟩
    · exact Store.ne_child hs.sound (hs.live _ hh) rfl
    · simp only [Action.runOn_newScope, Store.around, Store.parent?, hself, Option.bind_some,
        Option.getD_some]

theorem spares_define {g : Handle} (hg : ¬ old g) (name : String) (e : Expr) :
    Spares old s (s.define g name e) := by
  refine ⟨fun h scope hh => ?_, fun h hh => ?_⟩
  · by_cases hgh : h = g
    · subst hgh
      exact ⟨_, Store.scope?_define_self hh, rfl⟩
    · exact ⟨scope, by rw [Store.scope?_define, if_neg hgh, hh], rfl⟩
  · have hne : h ≠ g := by
      rintro rfl
      exact hg hh
    rw [Store.scope?_define, if_neg hne]

theorem Sheltered.define (hs : Sheltered old s) (g : Handle) (name : String) {e : Expr}
    (he : e.IsLed) : Sheltered old (s.define g name e) :=
  ⟨Store.sound_define hs.sound _ _ _, hs.led.define g name he,
    fun h hh => by rw [Store.isLive_define]; exact hs.live h hh⟩

/-! ## Reading -/

theorem Tames.adapt {δ : Type} {Q : Store → α → Prop} {m : Action ε α} (f : ε → δ)
    (h : Tames old s Q (m.runOn s)) :
    Tames old s Q (Action.runOn (ExceptT.adapt f m : Action δ α) s) := by
  rw [Action.runOn_adapt]
  refine ⟨h.spares, h.sheltered, fun a ha => h.result a ?_⟩
  generalize (m.runOn s).1 = x at ha
  cases x with
  | ok b =>
    cases ha
    rfl
  | error err => cases ha

variable {g : Handle} {outermost : Bool} {token : String} {tokens : List String}

theorem tames_readAtom (hs : Sheltered old s) (ho : opensTuple (trim token) = false) :
    Tames old s (fun _ e => e.IsLed ∨ ∃ f, Form.ofName? (trim token) = some f ∧
      e = .procedure (.form f g)) ((read token g).runOn s) := by
  unfold read
  simp only [ho, Bool.false_eq_true, if_false]
  split
  · exact .of_error hs _
  · simp only [Action.runOn_bind, Action.runOn_get, Action.runOn_ofExcept]
    exact .of_result hs fun e he => hs.led.readAtom he

/-- What is read in a scope of the line's own stays inside; the line itself is read in an old
scope. -/
theorem tames_read (hs : Sheltered old s) (hg : outermost = false → ¬ old g) (hl : Led token) :
    Tames old s
      (fun t e => Confined t old outermost e ∧ (opensTuple (trim token) = false → e.IsLed))
      ((read token g).runOn s) := by
  cases ho : opensTuple (trim token) with
  | false =>
    refine (tames_readAtom hs ho).weaken fun e he => ?_
    rcases he with he | ⟨f, hf, -⟩
    · exact ⟨.value he, fun _ => he⟩
    · rw [hl.not_form ho] at hf
      cases hf
  | true =>
    unfold read
    simp only [ho, if_true]
    split
    · exact .of_error hs _
    · cases hm : Token.members (trim token) with
      | error err => exact .of_error hs _
      | ok ms =>
        refine (tames_newScope hs g).bind fun child t hst ht hc => ?_
        refine .of_result ht fun e he => ?_
        cases he
        refine ⟨.pending (hl.members ho hm) ⟨hc.1.live, hc.1.fresh, fun hn => ?_⟩, fun hn => ?_⟩
        · rw [hc.2]
          exact hg hn
        · cases hn

theorem tames_readMember (hs : Sheltered old s) (hg : s.Own old true g) (hl : Led token) :
    Tames old s (fun t e => Confined t old false e ∧ (opensTuple (trim token) = false → e.IsLed))
      ((readMember token g).runOn s) :=
  (tames_read hs (fun _ => hg.fresh) hl).adapt memberError

/-! ## Expanding -/

theorem tames_shapeMember {nested chase : List String → Handle → Eval Expr}
    (hn : ∀ t tokens inner, Spares old s t → Sheltered old t → t.Own old false inner →
      LedMembers tokens →
      Tames old t (fun u e => Confined u old false e) ((nested tokens inner).runOn t))
    (hs : Sheltered old s) (hg : s.Own old true g) (hl : Led token) :
    Tames old s (fun t e => Confined t old false e)
      ((shapeMember nested chase token g).runOn s) := by
  refine (tames_readMember hs hg hl).bind fun e t hst ht he => ?_
  cases e with
  | pending tokens inner =>
    simp only
    split
    · cases he.1 with
      | value hv => cases hv
      | pending hm hi => exact hn t tokens inner hst ht hi hm
    · -- no name is bound to a tuple
      rename_i ho
      cases he.2 (by simpa using ho)
  | _ =>
    refine .of_result ht fun e' he' => ?_
    cases he'
    exact he.1

theorem tames_shapeHead {nested chase : List String → Handle → Eval Expr}
    (hn : ∀ t tokens inner, Spares old s t → Sheltered old t → t.Own old false inner →
      LedMembers tokens →
      Tames old t (fun u e => Confined u old false e) ((nested tokens inner).runOn t))
    (hs : Sheltered old s) (hg : s.Own old true g)
    (hl : opensTuple (trim token) = true → Led token) :
    Tames old s (fun t e => Confined t old false e ∨ ∃ f, e = .procedure (.form f g))
      ((shapeMember nested chase token g).runOn s) := by
  cases ho : opensTuple (trim token) with
  | true => exact (tames_shapeMember hn hs hg (hl ho)).weaken fun e he => .inl he
  | false =>
    refine ((tames_readAtom hs ho).adapt memberError).bind fun e t _ ht he => ?_
    rcases he with he | ⟨f, -, rfl⟩
    · cases e with
      | pending => cases he
      | _ =>
        refine .of_result ht fun e' he' => ?_
        cases he'
        exact .inl (.value he)
    · refine .of_result ht fun e' he' => ?_
      cases he'
      exact .inr ⟨f, rfl⟩

theorem tames_expandNested {chase : List String → Handle → Eval Expr} (depth : Nat)
    (hs : Sheltered old s) (hg : s.Own old outermost g) (hl : LedMembers tokens) :
    Tames old s (fun t e => Confined t old outermost e)
      ((expandNested chase depth tokens g).runOn s) := by
  induction depth generalizing s g outermost tokens with
  | zero => exact .of_error hs _
  | succ depth ih =>
    unfold expandNested
    cases tokens with
    | nil =>
      refine .of_result hs fun e he => ?_
      cases he
      exact .tuple (by simp)
    | cons first rest =>
      refine (tames_shapeHead (fun t tokens inner _ ht hi hm => ih ht hi hm) hs hg.weaken
        hl.1).bind fun head t hst ht hh => ?_
      split
      · rename_i hf
        refine .of_result ht fun e he => ?_
        cases he
        -- the only form a head can be is the one it names itself
        rcases hh with hh | ⟨f, rfl⟩
        · obtain ⟨f, h, rfl⟩ := Expr.eq_form_of_isForm hf
          exact (hh.isLed rfl).elim
        · refine .form (hg.spares hst) (fun a ha => ?_) fun target value he _ => ?_
          · obtain ⟨token, htoken, rfl⟩ := List.mem_map.1 ha
            exact .deferred (hl.2 token htoken) (hg.weaken.spares hst)
          · have hmem : value ∈ rest.map fun token => Expr.deferred token g := by simp [he]
            obtain ⟨token, -, rfl⟩ := List.mem_map.1 hmem
            exact ⟨token, g, rfl⟩
      · rename_i hf
        rcases hh with hh | ⟨f, rfl⟩
        · refine (Tames.mapM rest ht fun token htoken u htu hu => ?_).bind
            fun es u htu hu hes => ?_
          · exact tames_shapeMember (fun t tokens inner _ ht hi hm => ih ht hi hm) hu
              ((hg.weaken.spares hst).spares htu) (hl.2 token htoken)
          · refine .of_result hu fun e he => ?_
            cases he
            refine .tuple fun x hx => ?_
            rcases List.mem_cons.1 hx with rfl | hx
            · exact hh.spares htu
            · exact hes x hx
        · exact (hf rfl).elim

/-! ## Stepping -/

theorem tames_bindAll {frame : Handle} (hf : ¬ old frame) (pairs : List (String × Expr))
    (hp : ∀ p ∈ pairs, p.2.IsLed) (hs : Sheltered old s) :
    Spares old s (pairs.foldl (fun s (name, arg) => s.define frame name arg) s) ∧
      Sheltered old (pairs.foldl (fun s (name, arg) => s.define frame name arg) s) := by
  induction pairs generalizing s with
  | nil => exact ⟨.refl old s, hs⟩
  | cons p rest ih =>
    obtain ⟨hspares, hsheltered⟩ := ih (fun q hq => hp q (by simp [hq]))
      (hs.define frame p.1 (hp p (by simp)))
    exact ⟨(spares_define hf p.1 p.2).trans hspares, hsheltered⟩

theorem tames_enter (hs : Sheltered old s) {c : Closure} {args : List Expr} (hc : Led c.body)
    (ha : ∀ a ∈ args, a.IsLed) :
    Tames old s (fun t e => Confined t old false e) ((c.enter args).runOn s) := by
  unfold Closure.enter
  split
  · refine (tames_newScope hs c.scope).bind fun frame t _ ht hframe => ?_
    obtain ⟨hspares, hsheltered⟩ := tames_bindAll hframe.1.fresh (c.params.zip args)
      (fun p hp => ha p.2 (List.of_mem_zip hp).2) ht
    rw [Action.runOn_bind, Action.runOn_modify]
    have hread := tames_readMember hsheltered (hframe.1.spares hspares) hc
    exact ⟨hspares.trans hread.spares, hread.sheltered, fun e he => (hread.result e he).1⟩
  · exact .of_error hs _

theorem isValue_of_advance {before after : List Expr} {e : Expr}
    (h : tupleMove (before ++ e :: after) = .ok (.advance before.length)) : e.isValue = false := by
  obtain ⟨before', e', after', he, hlen, hv⟩ := (moves_of_tupleMove h).advance_split
  obtain ⟨-, hrest⟩ := List.append_inj he hlen.symm
  cases hrest
  exact hv

/-- A form that reduces an argument quotes nothing. -/
theorem form_of_advance {f : Form} {args : List Expr} {place : Nat}
    (h : Moves (.procedure (.form f g) :: args) (.advance place)) :
    f ≠ .lambda ∧ (f = .define → place = 2 ∧
      ∀ target rest, args = target :: rest → target.tupleSource? = none) := by
  cases h with
  | advance hf => cases hf
  | advanceValue ht =>
    refine ⟨fun hf => (by cases hf), fun _ => ⟨rfl, fun target rest he => ?_⟩⟩
    cases he
    exact ht
  | advanceTest => exact ⟨fun hf => (by cases hf), fun hf => by cases hf⟩
  | advanceFirst hf =>
    rcases hf with rfl | rfl
    · exact ⟨fun hf => (by cases hf), fun hf => by cases hf⟩
    · exact ⟨fun hf => (by cases hf), fun hf => by cases hf⟩

namespace Confined

variable {e : Expr} {members : List Expr}

theorem member (h : Confined s old outermost (.tuple members)) (he : e ∈ members)
    (hv : e.isForm = false) : Confined s old false e := by
  cases h with
  | value hl => cases hl
  | tuple hm => exact hm e he
  | form _ ha _ =>
    rcases List.mem_cons.1 he with rfl | he
    · cases hv
    · exact ha e he

/-- Another confined expression may take the place of one that is advanced. -/
theorem replace {before after : List Expr} {e' : Expr}
    (h : Confined s old outermost (.tuple (before ++ e :: after)))
    (hmove : tupleMove (before ++ e :: after) = .ok (.advance before.length))
    (he' : Confined s old false e') : Confined s old outermost (.tuple (before ++ e' :: after)) := by
  have hv := isValue_of_advance hmove
  have hmoves := moves_of_tupleMove hmove
  generalize hm : before ++ e :: after = members at h hmoves
  cases h with
  | value hl => cases hl
  | tuple hall =>
    subst hm
    refine .tuple fun x hx => ?_
    rcases List.mem_append.1 hx with hx | hx
    · exact hall x (by simp [hx])
    · rcases List.mem_cons.1 hx with rfl | hx
      · exact he'
      · exact hall x (by simp [hx])
  | form ho ha hq =>
    obtain ⟨hlambda, hdefine⟩ := form_of_advance hmoves
    cases before with
    | nil =>
      -- a form is a value, so it is not what is advanced
      cases hm
      cases hv
    | cons b before =>
      cases hm
      refine .form ho (fun x hx => ?_) fun target value heq hor => ?_
      · rcases List.mem_append.1 hx with hx | hx
        · exact ha x (by simp [hx])
        · rcases List.mem_cons.1 hx with rfl | hx
          · exact he'
          · exact ha x (by simp [hx])
      · rcases hor with hf | ⟨hf, htarget⟩
        · exact (hlambda hf).elim
        · obtain ⟨hplace, hnone⟩ := hdefine hf
          -- the value is what is advanced, so the target is still the same
          obtain ⟨x, rfl⟩ := List.length_eq_one_iff.1 (Nat.succ.inj hplace)
          cases heq
          exact (htarget (hnone _ _ rfl)).elim

theorem led_of_quoted {value : Expr} {body : String} (h : Confined s old false value)
    (hq : ∃ token g, value = .deferred token g) (hb : value.source? = some body) : Led body := by
  obtain ⟨token, g, rfl⟩ := hq
  cases hb
  cases h with
  | value hl => cases hl
  | deferred hl => exact hl

/-- A form that leads a confined tuple is named in a scope of the line's own: no confined member is
a form. -/
theorem of_form {f : Form} {args : List Expr}
    (h : Confined s old outermost (.tuple (.procedure (.form f g) :: args))) :
    s.Own old outermost g ∧ (∀ a ∈ args, Confined s old false a) ∧ Quoted f args := by
  cases h with
  | value hl => cases hl
  | tuple hall => exact ((hall _ List.mem_cons_self).isLed rfl).elim
  | form ho ha hq => exact ⟨ho, ha, hq⟩

/-- What a confined tuple becomes is confined. -/
theorem become (h : Confined s old outermost (.tuple members)) (hm : Moves members (.become e)) :
    Confined s old outermost e := by
  cases hm with
  | builtin hb => exact .value (Builtin.isPlain_apply hb).isLed
  | lambda ht hb hn =>
    obtain ⟨-, ha, hq⟩ := h.of_form
    exact .value (led_of_quoted (ha _ (by simp)) (hq _ _ rfl (.inl rfl)) hb)
  | branch hv =>
    obtain ⟨-, ha, -⟩ := h.of_form
    refine Confined.weaken ?_
    split
    · exact ha _ (by simp)
    · exact ha _ (by simp)
  | nothing => exact .value trivial
  | settle hv =>
    obtain ⟨-, ha, -⟩ := h.of_form
    exact .value ((ha _ (by simp)).isLed hv)
  | drop hf =>
    obtain ⟨ho, ha, -⟩ := h.of_form
    -- the connectives quote none of their arguments
    refine .form ho (fun x hx => ha x (by simp [hx])) fun target value _ hor => ?_
    rcases hf with rfl | rfl
    · rcases hor with hor | ⟨hor, -⟩ <;> cases hor
    · rcases hor with hor | ⟨hor, -⟩ <;> cases hor

/-- A confined tuple defines a led value around a scope of its own. -/
theorem defines {name : String} (h : Confined s old outermost (.tuple members))
    (hm : Moves members (.define g name e)) : s.Own old outermost g ∧ e.IsLed := by
  cases hm with
  | defineProcedure ht hb hn =>
    obtain ⟨ho, ha, hq⟩ := h.of_form
    have hquoted := hq _ _ rfl (.inr ⟨rfl, by simp [ht]⟩)
    exact ⟨ho, led_of_quoted (ha _ (by simp)) hquoted hb⟩
  | defineName ht hv =>
    obtain ⟨ho, ha, -⟩ := h.of_form
    exact ⟨ho, ((ha _ (by simp)).isLed hv).named name⟩

/-- A confined tuple enters procedures of led source with led arguments. -/
theorem enters {c : Closure} {args : List Expr} (h : Confined s old outermost (.tuple members))
    (hm : Moves members (.enter c args)) : Led c.body ∧ ∀ a ∈ args, a.IsLed := by
  cases hm with
  | enter hv =>
    cases h with
    | value hl => cases hl
    | tuple hall =>
      exact ⟨(hall _ List.mem_cons_self).isLed rfl, fun a ha =>
        (hall a (List.mem_cons_of_mem _ ha)).isLed (hv a ha)⟩

end Confined

/-- A step of a confined expression spares the old scopes and leaves it confined, unless the
outermost tuple defines a name and the line is over. -/
theorem tames_step (e : Expr) (hs : Sheltered old s) (hc : Confined s old outermost e) :
    Tames old s (fun t e' => Confined t old outermost e') ((step e).runOn s) ∨
      outermost = true ∧ ((step e).runOn s).1 = .ok .void ∧ Sheltered old ((step e).runOn s).2 := by
  -- on the tuples the step goes through; what it reaches inside one of them is not outermost
  induction e using step_induction generalizing outermost with
  | advance before e after hmove ih =>
    have hform : e.isForm = false := e.isForm_of_not_value (isValue_of_advance hmove)
    have he : Confined s old false e := hc.member (by simp) hform
    rcases ih he with h | ⟨hfalse, -⟩
    · left
      rw [runOn_step_advance hmove]
      refine ⟨h.spares, h.sheltered, fun e' he' => ?_⟩
      cases hx : ((step e).runOn s).1 with
      | error err =>
        rw [hx] at he'
        cases he'
      | ok y =>
        rw [hx] at he'
        cases he'
        exact (hc.spares h.spares).replace hmove (h.result y hx)
    · cases hfalse
  | base e hbase =>
    cases e with
    | pending tokens g =>
      cases hc with
      | value hl => cases hl
      | pending hl ho => exact .inl (tames_expandNested _ hs ho hl)
    | deferred token g =>
      cases hc with
      | value hl => cases hl
      | deferred hl ho =>
        exact .inl ((tames_readMember hs ho hl).weaken fun e he => he.1.weaken)
    | tuple members =>
      cases hm : tupleMove members with
      | error err =>
        rw [runOn_step_error hm]
        exact .inl (.of_error hs err)
      | ok m =>
        have hmoves := moves_of_tupleMove hm
        cases m with
        | advance place => exact (hbase members place rfl hm).elim
        | become e =>
          rw [runOn_step_become hm]
          refine .inl (.of_result hs fun e' he' => ?_)
          cases he'
          exact hc.become hmoves
        | enter c args =>
          rw [runOn_step_enter hm]
          obtain ⟨hbody, hargs⟩ := hc.enters hmoves
          exact .inl ((tames_enter hs hbody hargs).weaken fun e he => he.weaken)
        | define g name value =>
          obtain ⟨ho, hl⟩ := hc.defines hmoves
          rw [runOn_step_define hm]
          -- inside the line the scope around is the line's own; outermost the line ends here
          have hsheltered := hs.define (s.around g) name hl
          cases outermost with
          | true => exact .inr ⟨rfl, rfl, hsheltered⟩
          | false =>
            refine .inl ⟨spares_define (ho.around rfl) name value, hsheltered, fun e' he' => ?_⟩
            cases he'
            exact .value trivial
    | procedure | number | boolean | void =>
      refine .inl (.of_result hs fun e' he' => ?_)
      cases he'
      exact hc

end Stepwise
