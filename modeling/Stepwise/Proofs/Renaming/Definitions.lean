import Stepwise.Eval.Step
import Stepwise.Proofs.Renaming.Store
/-!
# Definitions in either order

A line that defines a procedure makes a scope for itself and binds one name. Two such lines with
different names, carried out in either order, leave stores that mirror each other: the scopes that
the two lines made change places, and the order of the bindings is not seen by any look-up.
-/

namespace Stepwise

variable {s t : Store} {root scope h g : Handle} {name : String} {e : Expr}

namespace Store

/-! ## A definition that may be left undone -/

/-- Binds a name around `scope`, if that is done at all. -/
def defineIf (s : Store) (done : Bool) (scope : Handle) (name : String) (e : Expr) : Store :=
  if done then s.defineAround scope name e else s

theorem scope?_defineIf (s : Store) (done : Bool) (scope : Handle) (name : String) (e : Expr)
    (g : Handle) :
    (s.defineIf done scope name e).scope? g =
      if done = true ∧ g = (s.parent? scope).getD scope then
        (s.scope? g).map fun x => { x with bindings := x.bindings.insert name e }
      else s.scope? g := by
  cases done with
  | false => simp [defineIf]
  | true =>
    simp only [defineIf, if_true, defineAround, scope?_define, true_and]
    split
    · rename_i heq
      rw [heq]
    · rfl

theorem sound_defineIf (hs : s.Sound) (done : Bool) (scope : Handle) (name : String) (e : Expr) :
    (s.defineIf done scope name e).Sound := by
  cases done with
  | false => exact hs
  | true => exact sound_define hs _ _ _

/-- A definition changes neither parents nor the meaning of other names. -/
theorem exists_scope_defineIf (done : Bool) (scope : Handle) (name : String) (e : Expr)
    {x : Scope} (hx : s.scope? g = some x) :
    ∃ x', (s.defineIf done scope name e).scope? g = some x' ∧ x'.parent = x.parent ∧
      ∀ other, other ≠ name → x'.bindings.get? other = x.bindings.get? other := by
  cases done with
  | false => exact ⟨x, hx, rfl, fun _ _ => rfl⟩
  | true => exact exists_scope_define hx _ name e

theorem parent?_congr (hst : ∀ g, s.scope? g = t.scope? g) (g : Handle) :
    s.parent? g = t.parent? g := by
  rw [parent?, parent?, hst]

theorem scope?_defineIf_congr (hst : ∀ g, s.scope? g = t.scope? g) (done : Bool) (scope : Handle)
    (name : String) (e : Expr) (g : Handle) :
    (s.defineIf done scope name e).scope? g = (t.defineIf done scope name e).scope? g := by
  rw [scope?_defineIf, scope?_defineIf, parent?_congr hst, hst]

@[simp]
theorem parent?_defineIf (done : Bool) (scope : Handle) (name : String) (e : Expr) (g : Handle) :
    (s.defineIf done scope name e).parent? g = s.parent? g := by
  cases done with
  | false => rfl
  | true => exact parent?_define _ _ _ _ _

/-! ## Definitions and new scopes -/

/-- Where the next scope goes does not depend on bindings. -/
theorem child_define (s : Store) (h : Handle) (name : String) (e : Expr) (p : Handle) :
    ((s.define h name e).child p).1 = (s.child p).1 := by
  simp only [child, allocate, define]
  cases s.vacant with
  | nil => simp
  | cons i rest =>
    simp only [Array.getElem?_modify, Handle.mk.injEq, true_and]
    by_cases hi : h.slot = i
    · simp only [if_pos hi]
      cases s.slots[i]? with
      | none => rfl
      | some slot =>
        simp only [Option.map_some]
        split <;> rfl
    · simp only [if_neg hi]

theorem child_defineIf (done : Bool) (scope : Handle) (name : String) (e : Expr) (p : Handle) :
    ((s.defineIf done scope name e).child p).1 = (s.child p).1 := by
  cases done with
  | false => rfl
  | true => exact child_define _ _ _ _ _

/-- A new scope is the same before and after a definition in a scope that is there. -/
theorem scope?_child_defineIf (hs : s.Sound) (hl : s.isLive scope = true)
    (hp : s.isLive ((s.parent? scope).getD scope) = true) (done : Bool) (name : String) (e : Expr)
    (p g : Handle) :
    ((s.defineIf done scope name e).child p).2.scope? g =
      ((s.child p).2.defineIf done scope name e).scope? g := by
  have hparent : (s.child p).2.parent? scope = s.parent? scope := by
    rw [parent?, parent?, scope?_child_of_isLive hs hl]
  rw [scope?_child (sound_defineIf hs _ _ _ _), child_defineIf, scope?_defineIf, scope?_defineIf,
    hparent, scope?_child hs]
  by_cases hg : g = (s.child p).1
  · -- the new scope is not the one in which the name is bound
    have hne : g ≠ (s.parent? scope).getD scope := by
      intro heq
      exact ne_child hs hp (heq ▸ hg)
    simp only [if_pos hg, if_neg fun hc : _ ∧ _ => hne hc.2]
  · simp only [if_neg hg]

theorem Closed.child (hc : s.Closed root) {p : Handle} (hp : s.isLive p = true) :
    (s.child p).2.Closed root := by
  apply (hc.mirrors.child (p := p) hp).closed
  intro h hh
  by_cases hne : h = (s.child p).1
  · exact .inl hne
  · right
    obtain ⟨x, hx⟩ := isLive_iff.1 hh
    rw [scope?_child hc.sound, if_neg hne] at hx
    exact isLive_iff.2 ⟨x, hx⟩

theorem Closed.isLive_around (hc : s.Closed root) (hl : s.isLive h = true) :
    s.isLive ((s.parent? h).getD h) = true :=
  (hc.mirrors.parent? hl).1

theorem isLive_child (hs : s.Sound) (p : Handle) (hl : s.isLive h = true) :
    (s.child p).2.isLive h = true := by
  rw [isLive, scope?_child_of_isLive hs hl]
  exact hl

/-! ## Two definitions -/

/-- Names that differ can be bound in either order. -/
theorem exists_scope_comm {name' : String} (hne : name ≠ name') (done done' : Bool)
    (scope scope' : Handle) (e e' : Expr) {x : Scope}
    (hx : ((s.defineIf done scope name e).defineIf done' scope' name' e').scope? g = some x) :
    ∃ x', ((s.defineIf done' scope' name' e').defineIf done scope name e).scope? g = some x' ∧
      x'.parent = x.parent ∧ ∀ other, x'.bindings.get? other = x.bindings.get? other := by
  simp only [scope?_defineIf, parent?_defineIf] at hx ⊢
  cases hs : s.scope? g with
  | none => simp [hs] at hx
  | some y =>
    simp only [hs] at hx ⊢
    by_cases hd : done = true ∧ g = (s.parent? scope).getD scope
    · by_cases hd' : done' = true ∧ g = (s.parent? scope').getD scope'
      · simp only [if_pos hd, if_pos hd', Option.map_some, Option.some.injEq] at hx ⊢
        subst hx
        refine ⟨_, rfl, rfl, fun other => ?_⟩
        simp only [Bindings.get?_insert]
        by_cases ho : other = name
        · subst ho
          simp [hne]
        · simp [ho]
      · simp only [if_pos hd, if_neg hd', Option.map_some, Option.some.injEq] at hx ⊢
        exact ⟨x, hx, rfl, fun _ => rfl⟩
    · simp only [if_neg hd] at hx ⊢
      exact ⟨x, hx, rfl, fun _ => rfl⟩

end Store

/-- The same definition on both sides, done or left undone. -/
theorem Mirrors.defineIf {r : Renaming} (hm : Mirrors root r s t) (hk : r.known scope)
    (done : Bool) (name : String) (hv : e.isValue = true) (he : r.Knows e) :
    Mirrors root r (s.defineIf done scope name e)
      (t.defineIf done (r.map scope) name (e.rename r.map)) := by
  cases done with
  | false => exact hm
  | true => exact hm.defineAround hk name hv he

theorem Store.isLive_defineIf (done : Bool) :
    (s.defineIf done scope name e).isLive h = s.isLive h := by
  cases done with
  | false => rfl
  | true => exact Store.isLive_define _ _ _ _ _

theorem Store.Closed.defineIf (hc : s.Closed root) (hl : s.isLive scope = true) (done : Bool)
    (name : String) (hv : e.isValue = true) (he : ∀ k ∈ e.captured, s.isLive k = true) :
    (s.defineIf done scope name e).Closed root := by
  have hknown : (Renaming.same fun h => s.isLive h = true).known scope := hl
  apply (hc.mirrors.defineIf hknown done name hv he).closed
  intro k hk
  rw [Store.isLive_defineIf] at hk
  exact hk

/-! ## Lines that define a procedure -/

/-- What a line defines. -/
structure Definition where
  name : String
  params : List String
  body : String

/-- The procedure, when its definition acts in `scope`. -/
def Definition.procedure (d : Definition) (scope : Handle) : Expr :=
  .procedure (.closure ⟨some d.name, d.params, d.body, scope⟩)

@[simp]
theorem Definition.rename_procedure (d : Definition) (f : Handle → Handle) (scope : Handle) :
    (d.procedure scope).rename f = d.procedure (f scope) :=
  rfl

namespace Store

/-- The store after a line that defines a procedure, if it comes to that. The definition acts at
`home`, or else in the scope that the line makes for itself. -/
def withDefinition (s : Store) (root : Handle) (home : Option Handle) (d : Definition)
    (done : Bool) : Store :=
  let (h, s) := s.child root
  s.defineIf done (home.getD h) d.name (d.procedure (home.getD h))

variable {home : Option Handle} {d d' : Definition}

theorem sound_withDefinition (hs : s.Sound) (root : Handle) (home : Option Handle)
    (d : Definition) (done : Bool) : (s.withDefinition root home d done).Sound :=
  sound_defineIf (sound_child hs root) _ _ _ _

/-- The definition acts in a scope that is there. -/
theorem isLive_home (hc : s.Closed root) (hhome : ∀ k ∈ home, s.isLive k = true) :
    (s.child root).2.isLive (home.getD (s.child root).1) = true := by
  cases home with
  | none => exact isLive_iff.2 ⟨_, scope?_child_self hc.sound root⟩
  | some k => exact isLive_child hc.sound root (hhome k rfl)

theorem Closed.withDefinition (hc : s.Closed root) (hhome : ∀ k ∈ home, s.isLive k = true)
    (d : Definition) (done : Bool) : (s.withDefinition root home d done).Closed root := by
  have hlive := isLive_home hc hhome
  refine (hc.child hc.live_root).defineIf hlive done d.name rfl fun k hk => ?_
  rw [List.mem_singleton.1 (show k ∈ [home.getD (s.child root).1] from hk)]
  exact hlive

/-- After a definition other names mean what they meant. -/
theorem get?_withDefinition (hs : s.Sound) (hr : s.Rooted root h) (home : Option Handle)
    (d : Definition) (done : Bool) (hne : name ≠ d.name) :
    (s.withDefinition root home d done).get? h name = s.get? h name := by
  apply get?_congr hr
  intro g scope hg hscope
  have hchild : (s.child root).2.scope? g = some scope := by
    rw [scope?_child_of_isLive hs hg.isLive, hscope]
  obtain ⟨scope', hs', hp, hget⟩ :=
    exists_scope_defineIf done (home.getD (s.child root).1) d.name
      (d.procedure (home.getD (s.child root).1)) hchild
  exact ⟨scope', hs', hp, hget name hne⟩

/-- Two scopes more, both inside `root`. -/
def twoChildren (s : Store) (root : Handle) : Store :=
  ((s.child root).2.child root).2

/-- Both lines, with their scopes made first. -/
theorem scope?_withDefinition_twice (hc : s.Closed root) (hhome : ∀ k ∈ home, s.isLive k = true)
    (done done' : Bool) (g : Handle) :
    ((s.withDefinition root home d done).withDefinition root home d' done').scope? g =
      (((s.twoChildren root).defineIf done (home.getD (s.child root).1) d.name
          (d.procedure (home.getD (s.child root).1))).defineIf done'
        (home.getD ((s.child root).2.child root).1) d'.name
          (d'.procedure (home.getD ((s.child root).2.child root).1))).scope? g := by
  have hsound := sound_child hc.sound root
  have hlive := isLive_home hc hhome
  have haround := (hc.child hc.live_root).isLive_around hlive
  simp only [withDefinition, child_defineIf]
  exact scope?_defineIf_congr (scope?_child_defineIf hsound hlive haround _ _ _ _) _ _ _ _ _

end Store

/-! ## Either order -/

variable {home : Option Handle} {d d' : Definition}

/-- The renaming under which the scopes of the two lines change places. -/
def swapping (s : Store) (root : Handle) : Renaming :=
  ((Renaming.same fun h => s.isLive h = true).extend (s.child root).1
    ((s.child root).2.child root).1).extend ((s.child root).2.child root).1 (s.child root).1

theorem mirrors_swapping (hc : s.Closed root) :
    Mirrors root (swapping s root) (s.twoChildren root) (s.twoChildren root) := by
  have hc' := hc.child hc.live_root
  have hfirst : (s.child root).2.isLive (s.child root).1 = true :=
    Store.isLive_iff.2 ⟨_, Store.scope?_child_self hc.sound root⟩
  have hold : ∀ h, s.isLive h = true → (s.twoChildren root).scope? h = s.scope? h := by
    intro h hh
    rw [Store.twoChildren, Store.scope?_child_of_isLive hc'.sound
      (Store.isLive_child hc.sound root hh), Store.scope?_child_of_isLive hc.sound hh]
  have hscope : (s.twoChildren root).scope? (s.child root).1 = some ⟨some root, .empty⟩ := by
    rw [Store.twoChildren, Store.scope?_child_of_isLive hc'.sound hfirst,
      Store.scope?_child_self hc.sound]
  have hscope' : (s.twoChildren root).scope? ((s.child root).2.child root).1 =
      some ⟨some root, .empty⟩ := Store.scope?_child_self hc'.sound root
  have hne : ∀ h, s.isLive h = true → h ≠ (s.child root).1 := fun h hh =>
    Store.ne_child hc.sound hh
  have hne' : ∀ h, s.isLive h = true → h ≠ ((s.child root).2.child root).1 := fun h hh =>
    Store.ne_child hc'.sound (Store.isLive_child hc.sound root hh)
  have hfresh : (s.child root).1 ≠ ((s.child root).2.child root).1 :=
    Store.ne_child hc'.sound hfirst
  have hsound := Store.sound_child hc'.sound root
  have hm : Mirrors root (.same fun h => s.isLive h = true) (s.twoChildren root)
      (s.twoChildren root) := hc.mirrors.of_known hsound hsound hold hold
  -- first the scope of the first line takes the place of the second, then the other way round
  have hm' := hm.adopt hc.live_root (fun hk => hne _ hk rfl) hne' hscope hscope'
  refine hm'.adopt (.inr hc.live_root) ?_ ?_ hscope' ?_
  · rintro (heq | hk)
    · exact hfresh heq.symm
    · exact hne' _ hk rfl
  · rintro k (rfl | hk)
    · rw [Renaming.map_extend]
      exact hfresh.symm
    · rw [(Renaming.extends_extend (fun hk => hne _ hk rfl) k hk).2]
      exact hne k hk
  · rw [(Renaming.extends_extend (fun hk => hne _ hk rfl) root hc.live_root).2]
    exact hscope

theorem swapping_old (hc : s.Closed root) (hl : s.isLive h = true) :
    (swapping s root).known h ∧ (swapping s root).map h = h := by
  have hne := Store.ne_child (p := root) hc.sound hl
  have hne' := Store.ne_child (p := root) (hc.child hc.live_root).sound
    (Store.isLive_child hc.sound root hl)
  refine ⟨.inr (.inr hl), ?_⟩
  simp [swapping, Renaming.extend, Renaming.same, hne, hne']

theorem swapping_first (hc : s.Closed root) :
    (swapping s root).known (s.child root).1 ∧
      (swapping s root).map (s.child root).1 = ((s.child root).2.child root).1 := by
  have hne : (s.child root).1 ≠ ((s.child root).2.child root).1 :=
    Store.ne_child (hc.child hc.live_root).sound
      (Store.isLive_iff.2 ⟨_, Store.scope?_child_self hc.sound root⟩)
  refine ⟨.inr (.inl rfl), ?_⟩
  simp [swapping, Renaming.extend, hne]

theorem swapping_second (s : Store) (root : Handle) :
    (swapping s root).known ((s.child root).2.child root).1 ∧
      (swapping s root).map ((s.child root).2.child root).1 = (s.child root).1 :=
  ⟨.inl rfl, Renaming.map_extend _ _ _⟩

/-- Two definitions of different names leave stores that mirror each other, whichever comes first
and whether or not they are carried out. -/
theorem mirrors_of_either_order (hc : s.Closed root) (hhome : ∀ k ∈ home, s.isLive k = true)
    (hne : d.name ≠ d'.name) (done done' : Bool) :
    Mirrors root (swapping s root)
      ((s.withDefinition root home d done).withDefinition root home d' done')
      ((s.withDefinition root home d' done').withDefinition root home d done) := by
  have hplace : (swapping s root).known (home.getD (s.child root).1) ∧
      (swapping s root).map (home.getD (s.child root).1) =
        home.getD ((s.child root).2.child root).1 := by
    cases home with
    | none => exact swapping_first hc
    | some k => exact swapping_old hc (hhome k rfl)
  have hplace' : (swapping s root).known (home.getD ((s.child root).2.child root).1) ∧
      (swapping s root).map (home.getD ((s.child root).2.child root).1) =
        home.getD (s.child root).1 := by
    cases home with
    | none => exact swapping_second s root
    | some k => exact swapping_old hc (hhome k rfl)
  -- both scopes are made first and both names bound then: the same on either side, up to the order
  -- of the bindings
  have hm := ((mirrors_swapping hc).defineIf hplace.1 done d.name
      (e := d.procedure (home.getD (s.child root).1)) rfl
      (Renaming.knows_singleton hplace.1)).defineIf hplace'.1 done' d'.name
      (e := d'.procedure (home.getD ((s.child root).2.child root).1)) rfl
      (Renaming.knows_singleton hplace'.1)
  simp only [Definition.rename_procedure, hplace.2, hplace'.2] at hm
  have hsound := Store.sound_withDefinition (Store.sound_withDefinition hc.sound root home d done)
    root home d' done'
  have hsound' := Store.sound_withDefinition (Store.sound_withDefinition hc.sound root home d' done')
    root home d done
  refine (hm.congr_right ?_ fun g x hx => Store.exists_scope_comm hne _ _ _ _ _ _ hx).of_known hsound
    hsound' (fun g _ => ?_) fun g _ => ?_
  · exact Store.sound_defineIf (Store.sound_defineIf
      (Store.sound_child (Store.sound_child hc.sound root) root) _ _ _ _) _ _ _ _
  · exact Store.scope?_withDefinition_twice hc hhome done done' g
  · exact Store.scope?_withDefinition_twice hc hhome done' done _

end Stepwise
