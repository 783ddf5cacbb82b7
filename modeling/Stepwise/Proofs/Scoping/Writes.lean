import Stepwise.Proofs.Scoping.Session
import Stepwise.Proofs.Store.Operations
/-!
# What a step writes

Reading and expanding add scopes and bind nothing (`grows_readMember`, `grows_expand`). A procedure
binds its parameters in a scope that it has made itself (`bindsApart_enter`). So a step writes to a
scope that was there before only when it completes a definition, and then it writes one binding and
has nothing left to fail at (`step_writes_one_binding`).
-/

namespace Stepwise

/-! ## Stores that grow -/

namespace Store

variable {bound : Handle → Prop} {s t : Store} {g : Handle}

/-- `t` has the scopes of `s` as they were, and of its other scopes those that are not `bound` have
no bindings. -/
structure Grows (bound : Handle → Prop) (s t : Store) : Prop where
  sound : t.Sound
  kept : ∀ h, s.isLive h = true → t.scope? h = s.scope? h
  fresh : ∀ h scope, s.isLive h = false → ¬ bound h → t.scope? h = some scope →
    scope.bindings = .empty

namespace Grows

theorem refl (hs : s.Sound) : Grows bound s s := by
  refine ⟨hs, fun h _ => rfl, fun h scope hh _ hscope => ?_⟩
  rw [isLive, hscope] at hh
  cases hh

theorem isLive (ht : Grows bound s t) {h : Handle} (hh : s.isLive h = true) :
    t.isLive h = true := by
  rw [Store.isLive, ht.kept h hh]
  exact hh

theorem child (ht : Grows bound s t) (p : Handle) : Grows bound s (t.child p).2 := by
  refine ⟨sound_child ht.sound p, fun h hh => ?_, fun h scope hh hb hscope => ?_⟩
  · rw [scope?_child_of_isLive ht.sound (ht.isLive hh), ht.kept h hh]
  · rw [scope?_child ht.sound] at hscope
    split at hscope
    · cases hscope
      rfl
    · exact ht.fresh h scope hh hb hscope

theorem define (ht : Grows bound s t) (hg : s.isLive g = false) (hb : bound g) (name : String)
    (e : Expr) : Grows bound s (t.define g name e) := by
  refine ⟨sound_define ht.sound g name e, fun h hh => ?_, fun h scope hh hnot hscope => ?_⟩
  · have hne : h ≠ g := by
      rintro rfl
      rw [hh] at hg
      cases hg
    rw [scope?_define, if_neg hne, ht.kept h hh]
  · have hne : h ≠ g := by
      rintro rfl
      exact hnot hb
    rw [scope?_define, if_neg hne] at hscope
    exact ht.fresh h scope hh hnot hscope

theorem defineAll (ht : Grows bound s t) (hg : s.isLive g = false) (hb : bound g)
    (pairs : List (String × Expr)) :
    Grows bound s (pairs.foldl (fun s (name, arg) => s.define g name arg) t) := by
  induction pairs generalizing t with
  | nil => exact ht
  | cons p rest ih => exact ih (ht.define hg hb p.1 p.2)

theorem yields {ε α : Type} {x : Except ε α × Store} (hx : Grows bound s x.2) :
    Yields (Grows bound s) (fun _ => True) (fun _ => True) x := by
  refine ⟨hx, ?_⟩
  cases x.1 with
  | ok a => exact .ok trivial
  | error err => exact .error trivial

end Grows

end Store

open Store (Grows)

variable {bound : Handle → Prop} {s t : Store} {e : Expr} {members : List Expr}

/-! ## Reading and expanding -/

theorem grows_readMember (ht : Grows bound s t) (token : String) (g : Handle) :
    Grows bound s ((readMember token g).runOn t).2 := by
  rw [runOn_readMember]
  rcases runOn_read_cases token g t with ⟨err, h⟩ | ⟨ms, -, -, h⟩ | ⟨-, h⟩
  all_goals rw [h]
  · exact ht
  · exact ht.child g
  · exact ht

theorem grows_expandNested {chase : List String → Handle → Eval Expr}
    (hchase : ∀ tokens g t, Grows bound s t → Grows bound s ((chase tokens g).runOn t).2)
    (depth : Nat) (tokens : List String) (g : Handle) (ht : Grows bound s t) :
    Grows bound s ((expandNested chase depth tokens g).runOn t).2 := by
  induction depth generalizing tokens g t with
  | zero => exact ht
  | succ depth ih =>
    have hmember : ∀ token ∈ tokens, ∀ u, Grows bound s u →
        Yields (Grows bound s) (fun _ => True) (fun _ => True)
          ((shapeMember (expandNested chase depth) chase token g).runOn u) := by
      intro token _ u hu
      refine (grows_readMember hu token g).yields.bind fun e v hv _ => ?_
      cases e with
      | pending inner scope =>
        simp only
        split
        · exact (ih inner scope hv).yields
        · exact (hchase inner scope v hv).yields
      | _ => exact .pure hv trivial
    exact (yields_shapeTuple (R := fun _ => True) ht hmember (fun _ _ _ _ _ _ => trivial)
      (fun _ _ _ => trivial)).store

theorem grows_expandBound (n : Nat) (tokens : List String) (g : Handle) (ht : Grows bound s t) :
    Grows bound s ((expandBound n tokens g).runOn t).2 := by
  induction n generalizing tokens g t with
  | zero => exact ht
  | succ n ih => exact grows_expandNested (fun inner h _ hu => ih inner h hu) _ tokens g ht

theorem grows_expand (ht : Grows bound s t) (tokens : List String) (g : Handle) :
    Grows bound s ((expand tokens g).runOn t).2 := by
  refine grows_expandNested (fun inner h u hu => ?_) _ tokens g ht
  rw [Action.runOn_bind, Action.runOn_get]
  exact grows_expandBound _ inner h hu

/-! ## Calls -/

/-- The bindings of a scope in which these pairs have been bound, in this order. -/
def Bindings.ofPairs (pairs : List (String × Expr)) : Bindings :=
  pairs.foldl (fun bs (name, e) => bs.insert name e) .empty

/-- A call binds its parameters in a scope that it makes, and whatever other scopes it makes have no
bindings. With the wrong count of arguments it does nothing. -/
def Closure.BindsApart (c : Closure) (args : List Expr) (s t : Store) : Prop :=
  if args.length = c.params.length then
    ∃ frame, s.isLive frame = false ∧
      t.scope? frame = some ⟨some c.scope, .ofPairs (c.params.zip args)⟩ ∧ Grows (· = frame) s t
  else t = s

theorem Store.scope?_defineAll (pairs : List (String × Expr)) (s : Store) (g : Handle) :
    (pairs.foldl (fun s (name, arg) => s.define g name arg) s).scope? g =
      (s.scope? g).map fun scope => { scope with
        bindings := pairs.foldl (fun bs (name, e) => bs.insert name e) scope.bindings } := by
  induction pairs generalizing s with
  | nil => simp
  | cons p rest ih =>
    rw [List.foldl_cons, ih, scope?_define, if_pos rfl, Option.map_map]
    rfl

namespace Closure

/-- The scope in which parameters are bound was not there before. -/
theorem frame_stale (hs : s.Sound) (c : Closure) (args : List Expr) :
    s.isLive (c.frame args s).1 = false := by
  change (s.scope? (s.allocate (some c.scope)).1).isSome = false
  rw [Store.scope?_allocate_self hs]
  rfl

theorem grows_frame (hs : s.Sound) (c : Closure) (args : List Expr) :
    Grows (· = (c.frame args s).1) s (c.frame args s).2 := by
  have hchild : Grows (· = (c.frame args s).1) s (s.child c.scope).2 := (Grows.refl hs).child _
  exact hchild.defineAll (c.frame_stale hs args) rfl _

theorem scope?_frame (hs : s.Sound) (c : Closure) (args : List Expr) :
    (c.frame args s).2.scope? (c.frame args s).1 =
      some ⟨some c.scope, .ofPairs (c.params.zip args)⟩ := by
  simp only [frame, Store.scope?_defineAll, Store.scope?_child_self hs]
  rfl

theorem bindsApart_enter (hs : s.Sound) (c : Closure) (args : List Expr) :
    c.BindsApart args s ((c.enter args).runOn s).2 := by
  unfold BindsApart
  split
  · rename_i hlength
    have hbound := c.scope?_frame hs args
    have hgrows := c.grows_frame hs args
    -- the body is read after the parameters are bound, and reading keeps them
    have hread : Grows (fun _ => False) (c.frame args s).2
        ((readMember c.body (c.frame args s).1).runOn (c.frame args s).2).2 :=
      grows_readMember (.refl hgrows.sound) c.body _
    rw [runOn_enter hlength]
    refine ⟨(c.frame args s).1, c.frame_stale hs args, ?_, grows_readMember hgrows c.body _⟩
    rw [hread.kept _ (Store.isLive_iff.2 ⟨_, hbound⟩), hbound]
  · rename_i hlength
    rw [runOn_enter_error hlength]

theorem BindsApart.grows {c : Closure} {args : List Expr} (hs : s.Sound)
    (h : c.BindsApart args s t) : Grows (fun _ => True) s t := by
  unfold BindsApart at h
  split at h
  · obtain ⟨frame, -, -, hgrows⟩ := h
    exact ⟨hgrows.sound, hgrows.kept, fun _ _ _ hnot => (hnot trivial).elim⟩
  · rw [h]
    exact .refl hs

end Closure

/-! ## The tuple that moves -/

theorem Redex.unique {others : List Expr} (hr : Redex e members) (ho : Redex e others) :
    others = members := by
  induction hr with
  | here hstay =>
    cases ho with
    | here => rfl
    | inside hmove => exact (hstay _ hmove).elim
  | @inside before after members e hmove hr ih =>
    generalize hwhole : Expr.tuple (before ++ e :: after) = whole at ho
    cases ho with
    | here hstay =>
      cases hwhole
      exact (hstay _ hmove).elim
    | @inside before' after' others e' hmove' ho =>
      rw [Expr.tuple.injEq] at hwhole
      rw [hwhole, hmove'] at hmove
      obtain ⟨-, hrest⟩ := List.append_inj hwhole (by injections; omega)
      cases hrest
      exact ih ho

/-- A step does to the store what the tuple that moves does, and fails when that fails. -/
theorem runOn_step_of_redex (hr : Redex e members) (s : Store) :
    ((step e).runOn s).2 = ((step (.tuple members)).runOn s).2 ∧
      ((step e).runOn s).1.isOk = ((step (.tuple members)).runOn s).1.isOk := by
  induction hr with
  | here => exact ⟨rfl, rfl⟩
  | inside hmove _ ih =>
    rw [runOn_step_advance hmove, ← ih.1, ← ih.2]
    refine ⟨rfl, ?_⟩
    cases ((step _).runOn s).1 <;> rfl

/-- Unless it completes a definition, a step only adds scopes. -/
theorem grows_or_defines (hs : s.Sound) (e : Expr) :
    Grows (fun _ => True) s ((step e).runOn s).2 ∨
      ∃ members g name value, Redex e members ∧ tupleMove members = .ok (.define g name value) := by
  induction e using step_induction with
  | advance before e after hmove ih =>
    rw [runOn_step_advance hmove]
    rcases ih with hgrows | ⟨members, g, name, value, hr, hm⟩
    · exact .inl hgrows
    · exact .inr ⟨members, g, name, value, .inside hmove hr, hm⟩
  | base e hbase =>
    have hrefl : Grows (fun _ => True) s s := .refl hs
    cases e with
    | pending tokens scope => exact .inl (grows_expand hrefl tokens scope)
    | deferred token scope => exact .inl (grows_readMember hrefl token scope)
    | tuple members =>
      cases hm : tupleMove members with
      | error err =>
        rw [runOn_step_error hm]
        exact .inl hrefl
      | ok m =>
        cases m with
        | advance place => exact (hbase members place rfl hm).elim
        | become e =>
          rw [runOn_step_become hm]
          exact .inl hrefl
        | define scope name value =>
          exact .inr ⟨members, scope, name, value, .here fun place => hbase members place rfl, hm⟩
        | enter c args =>
          rw [runOn_step_enter hm]
          exact .inl ((c.bindsApart_enter hs args).grows hs)
    | procedure p => exact .inl hrefl
    | number x => exact .inl hrefl
    | boolean b => exact .inl hrefl
    | void => exact .inl hrefl

theorem exists_members_of_define {g : Handle} {name : String} {value : Expr}
    (hm : tupleMove members = .ok (.define g name value)) :
    ∃ target last, members = [.procedure (.form .define g), target, last] := by
  cases moves_of_tupleMove hm with
  | defineProcedure => exact ⟨_, _, rfl⟩
  | defineName => exact ⟨_, _, rfl⟩

/-- A definition that completes does not fail, and is all that the step does to the store. -/
theorem runOn_step_of_define {g : Handle} {name : String} {value : Expr} (s : Store)
    (hr : Redex e members) (hm : tupleMove members = .ok (.define g name value)) :
    ((step e).runOn s).1.isOk = true ∧
      ((step e).runOn s).2 = s.define ((s.parent? g).getD g) name value := by
  refine ⟨?_, store_of_redex hr hm s⟩
  rw [(runOn_step_of_redex hr s).2, runOn_step_define hm]
  rfl

theorem sound_step (hs : s.Sound) (e : Expr) : ((step e).runOn s).2.Sound := by
  rcases grows_or_defines hs e with hgrows | ⟨members, g, name, value, hr, hm⟩
  · exact hgrows.sound
  · rw [(runOn_step_of_define s hr hm).2]
    exact Store.sound_define hs _ name value

/-- A step takes no scope away and moves none. -/
theorem isLive_step {h : Handle} (hs : s.Sound) (e : Expr) (hh : s.isLive h = true) :
    ((step e).runOn s).2.isLive h = true ∧ ((step e).runOn s).2.parent? h = s.parent? h := by
  rcases grows_or_defines hs e with hgrows | ⟨members, g, name, value, hr, hm⟩
  · exact ⟨hgrows.isLive hh, by rw [Store.parent?, hgrows.kept h hh, Store.parent?]⟩
  · rw [(runOn_step_of_define s hr hm).2, Store.isLive_define, Store.parent?_define]
    exact ⟨hh, rfl⟩

/-- A step that fails has written to no scope that was there. -/
theorem scope?_step_of_error {h : Handle} {err : Error} (hs : s.Sound)
    (herr : ((step e).runOn s).1 = .error err) (hh : s.isLive h = true) :
    ((step e).runOn s).2.scope? h = s.scope? h := by
  rcases grows_or_defines hs e with hgrows | ⟨members, g, name, value, hr, hm⟩
  · exact hgrows.kept h hh
  · exact (ne_error_of_isOk (runOn_step_of_define s hr hm).1 herr).elim

/-- A step leaves the scopes as they were, or binds one name in one of them. -/
theorem scope?_step (hs : s.Sound) (e : Expr) :
    (∀ h, s.isLive h = true → ((step e).runOn s).2.scope? h = s.scope? h) ∨
      ∃ g target last name value,
        Redex e [.procedure (.form .define g), target, last] ∧
        tupleMove [.procedure (.form .define g), target, last] = .ok (.define g name value) ∧
        ∀ h scope, s.scope? h = some scope → ((step e).runOn s).2.scope? h = some
          (if h = (s.parent? g).getD g then
            { scope with bindings := scope.bindings.insert name value } else scope) := by
  rcases grows_or_defines hs e with hgrows | ⟨members, g, name, value, hr, hm⟩
  · exact .inl hgrows.kept
  · obtain ⟨target, last, rfl⟩ := exists_members_of_define hm
    refine .inr ⟨g, target, last, name, value, hr, hm, fun h scope hscope => ?_⟩
    rw [(runOn_step_of_define s hr hm).2, Store.scope?_define]
    split
    · rename_i heq
      rw [← heq, hscope]
      rfl
    · exact hscope

/-! ## Reached stores -/

/-- A store that operations and steps lead to from an empty one, with whatever handles and
expressions. -/
inductive Store.Reached : Store → Prop
  | empty : Reached .empty
  | operation {s : Store} (operation : Operation) : Reached s → Reached (s.perform operation)
  | step {s : Store} (e : Expr) : Reached s → Reached ((step e).runOn s).2

theorem Store.Reached.sound (hs : s.Reached) : s.Sound := by
  induction hs with
  | empty => exact sound_empty
  | operation operation _ ih => exact sound_perform ih operation
  | step e _ ih => exact sound_step ih e

/-- A step keeps every scope of a store that operations and steps have led to, each inside the same
parent. If it fails, every one is as it was. If it does not, at most one binding of one of them is
written, by the tuple that moves, which then is a definition; its name goes to the scope around that
of the form, or to that scope itself if there is none around it. There is one tuple at most that
moves. A call, in a step or by itself, binds its parameters in a scope of its own. -/
theorem step_writes_one_binding (hs : s.Reached) (e : Expr) :
    let r := ((step e).runOn s).1
    let t := ((step e).runOn s).2
    (∀ h, s.isLive h = true → t.isLive h = true ∧ t.parent? h = s.parent? h) ∧
    (∀ err, r = .error err → ∀ h, s.isLive h = true → t.scope? h = s.scope? h) ∧
    ((∀ h, s.isLive h = true → t.scope? h = s.scope? h) ∨
      ∃ g target last name value,
        Redex e [.procedure (.form .define g), target, last] ∧
        tupleMove [.procedure (.form .define g), target, last] = .ok (.define g name value) ∧
        ∀ h scope, s.scope? h = some scope → t.scope? h = some
          (if h = (s.parent? g).getD g then
            { scope with bindings := scope.bindings.insert name value } else scope)) ∧
    (∀ members g name value, Redex e members →
      tupleMove members = .ok (.define g name value) →
        r.isOk = true ∧ t = s.define ((s.parent? g).getD g) name value) ∧
    (∀ members others, Redex e members → Redex e others → others = members) ∧
    (∀ members (c : Closure) args, Redex e members → tupleMove members = .ok (.enter c args) →
      c.BindsApart args s t) ∧
    ∀ (c : Closure) (args : List Expr),
      c.BindsApart args s (((Procedure.closure c).call args).runOn s).2 := by
  intro r t
  have hsound := hs.sound
  refine ⟨fun h => isLive_step hsound e, fun err herr h => scope?_step_of_error hsound herr,
    scope?_step hsound e, fun members g name value => runOn_step_of_define s,
    fun members others => Redex.unique, fun members c args hr hm => ?_,
    fun c args => c.bindsApart_enter hsound args⟩
  rw [show t = _ from (runOn_step_of_redex hr s).1, runOn_step_enter hm]
  exact c.bindsApart_enter hsound args

/-- A definition that stands in another tuple, in a scope inside the outermost one. -/
theorem step_of_inner_definition :
    let s := (Store.empty.perform .root).perform (.child ⟨0, 0⟩)
    let inner : List Expr :=
      [.procedure (.form .define ⟨1, 0⟩), .deferred "x" ⟨1, 0⟩, .boolean true]
    let e : Expr := .tuple [.procedure (.builtin .add), .tuple inner]
    s.Reached ∧ Redex e inner ∧
      tupleMove inner = .ok (.define ⟨1, 0⟩ "x" (.boolean true)) ∧
      ((step e).runOn s).1.isOk = true ∧
      ((step e).runOn s).2 = s.define ⟨0, 0⟩ "x" (.boolean true) := by
  intro s inner e
  have hs : s.Reached := .operation _ (.operation _ .empty)
  have hm : tupleMove inner = .ok (.define ⟨1, 0⟩ "x" (.boolean true)) := by rfl
  have hadvance : tupleMove ([.procedure (.builtin .add)] ++ [.tuple inner]) =
      .ok (.advance [Expr.procedure (.builtin .add)].length) := by rfl
  have hr : Redex e inner := .inside hadvance (.here fun place hplace => by
    rw [hm] at hplace
    cases hplace)
  exact ⟨hs, hr, hm, (step_writes_one_binding hs e).2.2.2.1 inner _ _ _ hr hm⟩

end Stepwise
