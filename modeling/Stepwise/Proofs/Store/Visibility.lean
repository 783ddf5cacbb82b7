import Stepwise.Proofs.Store.History
/-!
# Where a definition is seen

A definition in a scope is seen from the scopes that are exposed to it: those from which the way out
comes to that scope before any other scope that binds the name. Everywhere else every name means
what it meant (`define_seen_where_exposed`). The chains of parents end, so the depth of a scope
tells the scopes inside it from those around it.
-/

namespace Stepwise.Store

variable {s : Store} {a c g h p : Handle} {scope : Scope} {name other : String} {e : Expr}

/-- From `g` outward the scope of `h` is met, by live parents, and no scope before it binds
`name`. -/
inductive Exposed (s : Store) (h : Handle) (name : String) : Handle → Prop
  | here : s.isLive h = true → Exposed s h name h
  | outward {g p : Handle} {scope : Scope} :
      s.scope? g = some scope → scope.bindings.get? name = none → scope.parent = some p →
        Exposed s h name p → Exposed s h name g

theorem Exposed.inside (hx : s.Exposed h name g) : s.Inside h g := by
  induction hx with
  | here hl => exact .self hl
  | outward hs _ hp _ ih => exact .inside hs hp ih

/-! ## Depth -/

theorem scope?_define_of_stale (hs : s.scope? g = none) (h : Handle) (name : String) (e : Expr) :
    (s.define h name e).scope? g = none := by
  rw [scope?_define]
  split
  · rename_i hg
    rw [← hg, hs]
    rfl
  · exact hs

theorem Depth.define {n : Nat} (hd : s.Depth g n) (h : Handle) (name : String) (e : Expr) :
    (s.define h name e).Depth g n := by
  induction hd with
  | stale hs => exact .stale (scope?_define_of_stale hs h name e)
  | root hs hp =>
    obtain ⟨scope, hs', hp', -⟩ := exists_scope_define hs h name e
    exact .root hs' (hp'.trans hp)
  | inside hs hp _ ih =>
    obtain ⟨scope, hs', hp', -⟩ := exists_scope_define hs h name e
    exact .inside hs' (hp'.trans hp) ih

/-- A scope lies no deeper than those inside it. -/
theorem Inside.depth_le {m n : Nat} (hi : s.Inside h g) (hm : s.Depth h m) (hn : s.Depth g n) :
    m ≤ n := by
  induction hi generalizing n with
  | self _ => exact Nat.le_of_eq (hm.unique hn)
  | inside hs hp _ ih =>
    obtain ⟨k, rfl, hd⟩ := hn.parent hs hp
    exact Nat.le_succ_of_le (ih hd)

/-- No scope lies inside one that lies around its parent. -/
theorem not_inside_of_parent (hends : s.Ends) (hs : s.scope? h = some scope)
    (hp : scope.parent = some p) (ha : s.Inside a p) : ¬ s.Inside h a := by
  intro hi
  obtain ⟨l, hl⟩ := hends a
  obtain ⟨m, hm⟩ := hends p
  have hle := ha.depth_le hl hm
  have hle' := hi.depth_le (.inside hs hp hm) hl
  omega

/-! ## Look-ups after a definition -/

/-- Where a definition is exposed, it is what a look-up finds. -/
theorem get?_define_of_exposed (hends : s.Ends) (hx : s.Exposed h name g) :
    (s.define h name e).get? g name = some e := by
  have hself : ∀ scope, s.scope? h = some scope → (s.define h name e).get? h name = some e := by
    intro scope hs
    obtain ⟨n, hd⟩ := hends h
    rw [get?_of_depth (hd.define h name e) (scope?_define_self hs), Bindings.get?_insert_self]
    rfl
  induction hx with
  | here hl =>
    obtain ⟨scope, hs⟩ := isLive_iff.1 hl
    exact hself scope hs
  | @outward g p scope hs hnone hp _ ih =>
    by_cases hg : g = h
    · rw [hg]
      exact hself scope (hg ▸ hs)
    · have hs' : (s.define h name e).scope? g = some scope := by rw [scope?_define, if_neg hg, hs]
      obtain ⟨n, hd⟩ := hends g
      rw [get?_of_depth (hd.define h name e) hs', hnone, hp]
      exact ih

/-- In another scope, or under another name, the binding is what it was. -/
theorem exists_scope_define_of_not (hs : s.scope? g = some scope) (hn : ¬ (other = name ∧ g = h)) :
    ∃ scope', (s.define h name e).scope? g = some scope' ∧ scope'.parent = scope.parent ∧
      scope'.bindings.get? other = scope.bindings.get? other := by
  by_cases hg : g = h
  · obtain ⟨scope', hs', hp, hget⟩ := exists_scope_define hs h name e
    exact ⟨scope', hs', hp, hget other fun ho => hn ⟨ho, hg⟩⟩
  · exact ⟨scope, by rw [scope?_define, if_neg hg, hs], rfl, rfl⟩

/-- Where a definition is not exposed, and for every other name, a look-up finds what it found
before. -/
theorem get?_define_of_not_exposed (hends : s.Ends)
    (hx : ¬ (other = name ∧ s.Exposed h name g)) :
    (s.define h name e).get? g other = s.get? g other := by
  have hhere : ∀ g scope, s.scope? g = some scope → ¬ (other = name ∧ s.Exposed h name g) →
      ¬ (other = name ∧ g = h) := by
    rintro g scope hs hx ⟨ho, rfl⟩
    exact hx ⟨ho, .here (isLive_iff.2 ⟨scope, hs⟩)⟩
  obtain ⟨n, hd⟩ := hends g
  induction hd with
  | stale hs => rw [get?_of_stale hs, get?_of_stale (scope?_define_of_stale hs h name e)]
  | root hs hp =>
    obtain ⟨scope', hs', hp', hget⟩ := exists_scope_define_of_not (e := e) hs (hhere _ _ hs hx)
    have hd : s.Depth _ 1 := .root hs hp
    rw [get?_of_depth hd hs, get?_of_depth (hd.define h name e) hs', hget, hp', hp]
    rfl
  | @inside g p scope n hs hp hd ih =>
    obtain ⟨scope', hs', hp', hget⟩ := exists_scope_define_of_not (e := e) hs (hhere _ _ hs hx)
    have hd' : s.Depth g (n + 1) := .inside hs hp hd
    rw [get?_of_depth hd' hs, get?_of_depth (hd'.define h name e) hs', hget, hp', hp]
    cases hb : scope.bindings.get? other with
    | some x => rfl
    | none =>
      refine ih ?_
      rintro ⟨rfl, hxp⟩
      exact hx ⟨rfl, .outward hs hb hp hxp⟩

/-- A scope on the way out that binds the name itself covers everything around it. -/
theorem not_exposed_of_covered (hends : s.Ends) (hc : s.Inside c g) (hne : c ≠ h)
    (hi : s.Inside h c) (hs : s.scope? c = some scope) (hb : scope.bindings.get? name = some e) :
    ¬ s.Exposed h name g := by
  induction hc with
  | self _ =>
    intro hx
    cases hx with
    | here _ => exact hne rfl
    | outward hs' hnone _ _ =>
      rw [hs] at hs'
      cases hs'
      rw [hb] at hnone
      cases hnone
  | inside hg hp hc ih =>
    intro hx
    cases hx with
    | here _ => exact not_inside_of_parent hends hg hp hc hi
    | outward hg' _ hp' hx =>
      rw [hg] at hg'
      cases hg'
      rw [hp] at hp'
      cases hp'
      exact ih hx

/-- With at most `2 ^ 32` scopes made, a definition gives its name the new meaning exactly where it
is exposed, and every other look-up finds what it found before. So nothing changes for the scopes
around it, nor where a scope on the way out binds the name, nor at all through a stale handle. -/
theorem define_seen_where_exposed {past : History} (hpast : History.empty.LeadsTo past)
    (hn : past.issued.length ≤ 2 ^ 32) (h : Handle) (name : String) (e : Expr) :
    let s := past.store
    let t := s.define h name e
    (∀ g other, other = name ∧ s.Exposed h name g → t.get? g other = some e) ∧
      (∀ g other, ¬ (other = name ∧ s.Exposed h name g) → t.get? g other = s.get? g other) ∧
      (∀ a p scope, s.scope? h = some scope → scope.parent = some p → s.Inside a p →
        ∀ other, t.get? a other = s.get? a other) ∧
      (∀ g c scope x, s.Inside c g → c ≠ h → s.Inside h c → s.scope? c = some scope →
        scope.bindings.get? name = some x → ∀ other, t.get? g other = s.get? g other) ∧
      (s.isLive h = false → t = s) ∧
      ∀ (u : Store) g other, (u.contains g other = true ↔ ∃ x, u.get? g other = some x) ∧
        (∀ x, u.lookup g other = .ok x ↔ u.get? g other = some x) ∧
        (u.lookup g other = .error (.undefinedName other) ↔ u.get? g other = none) := by
  intro s t
  have hends := (hpast.consistent History.consistent_empty hn).ends
  have hrest : ∀ g, ¬ s.Exposed h name g → ∀ other, t.get? g other = s.get? g other := by
    intro g hx other
    exact get?_define_of_not_exposed hends fun hboth => hx hboth.2
  refine ⟨?_, ?_, ?_, ?_, ?_, ?_⟩
  · rintro g other ⟨rfl, hx⟩
    exact get?_define_of_exposed hends hx
  · intro g other hx
    exact get?_define_of_not_exposed hends hx
  · intro a p scope hs hp ha
    exact hrest a fun hx => not_inside_of_parent hends hs hp ha hx.inside
  · intro g c scope x hc hne hi hs hb
    exact hrest g (not_exposed_of_covered hends hc hne hi hs hb)
  · intro hstale
    exact define_of_stale (by simpa [isLive] using hstale) name e
  · intro u g other
    unfold contains lookup
    cases u.get? g other <;> simp

/-- Of two scopes, one inside the other, the inner binds `x`. When the scope around both defines `x`,
the outer one sees that and the inner one does not. -/
theorem definition_around_bound_scope :
    let past := (((History.empty.next .root).next (.child ⟨0, 0⟩)).next (.child ⟨1, 0⟩)).next
      (.define ⟨2, 0⟩ "x" (.boolean false))
    let defined := past.store.define ⟨0, 0⟩ "x" (.boolean true)
    History.empty.LeadsTo past ∧ past.issued.length ≤ 2 ^ 32 ∧
      defined.get? ⟨1, 0⟩ "x" = some (.boolean true) ∧
      defined.get? ⟨2, 0⟩ "x" = past.store.get? ⟨2, 0⟩ "x" := by
  intro past defined
  have hpast : History.empty.LeadsTo past :=
    .next (.next (.next (.next .refl (by decide)) (by decide)) (by decide)) (by decide)
  have hn : past.issued.length ≤ 2 ^ 32 := by decide
  obtain ⟨hseen, -, -, hcovered, -⟩ :=
    define_seen_where_exposed hpast hn ⟨0, 0⟩ "x" (.boolean true)
  have hroot : past.store.isLive ⟨0, 0⟩ = true := by decide
  have hinside : past.store.Inside ⟨0, 0⟩ ⟨2, 0⟩ := .inside rfl rfl (.inside rfl rfl (.self hroot))
  refine ⟨hpast, hn, hseen _ _ ⟨rfl, .outward rfl rfl rfl (.here hroot)⟩, ?_⟩
  exact hcovered ⟨2, 0⟩ ⟨2, 0⟩ _ _ (.self (by decide)) (by decide) hinside rfl rfl "x"

end Stepwise.Store
