import Mathlib.Data.Fintype.Card
import Stepwise.Proofs.Store.Slots
/-!
# Looking names up along parents

A chain of parents that comes to an end, at a scope without parent or at a stale handle, has at most
as many scopes as there are slots (`Depth.le_size`), so a look-up follows all of it: it takes the
scope's own binding, or else looks in the parent (`get?_of_depth`). A scope is rooted when its
parents lead to a given outermost scope; its chain then ends there.
-/

namespace Stepwise.Store

variable {s : Store} {root g h p : Handle} {scope : Scope}

/-- The parents of `h` lead to `root`, which has none. -/
inductive Rooted (s : Store) (root : Handle) : Handle → Prop
  | root {scope : Scope} : s.scope? root = some scope → scope.parent = none → Rooted s root root
  | inside {h p : Handle} {scope : Scope} :
      s.scope? h = some scope → scope.parent = some p → Rooted s root p → Rooted s root h

theorem Rooted.isLive (hr : s.Rooted root h) : s.isLive h = true := by
  cases hr with
  | root hs _ => exact isLive_iff.2 ⟨_, hs⟩
  | inside hs _ _ => exact isLive_iff.2 ⟨_, hs⟩

/-- Rootedness depends on the parents only. -/
theorem Rooted.of_parents {t : Store} (hr : s.Rooted root h)
    (hp : ∀ g scope, s.Rooted root g → s.scope? g = some scope →
      ∃ scope', t.scope? g = some scope' ∧ scope'.parent = scope.parent) : t.Rooted root h := by
  induction hr with
  | root hs hn =>
    obtain ⟨scope', hs', he⟩ := hp _ _ (.root hs hn) hs
    exact .root hs' (he.trans hn)
  | inside hs hn hr ih =>
    obtain ⟨scope', hs', he⟩ := hp _ _ (.inside hs hn hr) hs
    exact .inside hs' (he.trans hn) ih

theorem Rooted.parent (hr : s.Rooted root h) (hs : s.scope? h = some scope)
    (hp : scope.parent = some p) : s.Rooted root p := by
  cases hr with
  | root hs' hn =>
    rw [hs] at hs'
    cases hs'
    rw [hp] at hn
    cases hn
  | inside hs' hn hr =>
    rw [hs] at hs'
    cases hs'
    rw [hp] at hn
    cases hn
    exact hr

/-! ## How far out a scope lies -/

/-- `h` has `n` scopes from its own outward, up to one without parent or to a stale handle. -/
inductive Depth (s : Store) : Handle → Nat → Prop
  | stale {h : Handle} : s.scope? h = none → Depth s h 0
  | root {h : Handle} {scope : Scope} : s.scope? h = some scope → scope.parent = none → Depth s h 1
  | inside {h p : Handle} {scope : Scope} {n : Nat} :
      s.scope? h = some scope → scope.parent = some p → Depth s p n → Depth s h (n + 1)

/-- Every chain of parents comes to an end. -/
def Ends (s : Store) : Prop :=
  ∀ h, ∃ n, s.Depth h n

theorem Rooted.depth (hr : s.Rooted root h) : ∃ n, s.Depth h n := by
  induction hr with
  | root hs hn => exact ⟨1, .root hs hn⟩
  | inside hs hn _ ih =>
    obtain ⟨n, hd⟩ := ih
    exact ⟨n + 1, .inside hs hn hd⟩

theorem Depth.isLive {n : Nat} (hd : s.Depth h (n + 1)) : s.isLive h = true := by
  cases hd with
  | root hs _ => exact isLive_iff.2 ⟨_, hs⟩
  | inside hs _ _ => exact isLive_iff.2 ⟨_, hs⟩

/-- A scope lies one deeper than its parent. -/
theorem Depth.parent {n : Nat} (hd : s.Depth h n) (hs : s.scope? h = some scope)
    (hp : scope.parent = some p) : ∃ m, n = m + 1 ∧ s.Depth p m := by
  cases hd with
  | stale hs' =>
    rw [hs] at hs'
    cases hs'
  | root hs' hp' =>
    rw [hs] at hs'
    cases hs'
    rw [hp] at hp'
    cases hp'
  | inside hs' hp' hd =>
    rw [hs] at hs'
    cases hs'
    rw [hp] at hp'
    cases hp'
    exact ⟨_, rfl, hd⟩

theorem Depth.unique {m n : Nat} (hm : s.Depth h m) (hn : s.Depth h n) : m = n := by
  induction hm generalizing n with
  | stale hs =>
    cases hn with
    | stale _ => rfl
    | root hs' _ =>
      rw [hs] at hs'
      cases hs'
    | inside hs' _ _ =>
      rw [hs] at hs'
      cases hs'
  | root hs hp =>
    cases hn with
    | stale hs' =>
      rw [hs] at hs'
      cases hs'
    | root _ _ => rfl
    | inside hs' hp' _ =>
      rw [hs] at hs'
      cases hs'
      rw [hp] at hp'
      cases hp'
  | inside hs hp _ ih =>
    obtain ⟨k, rfl, hd⟩ := hn.parent hs hp
    rw [ih hd]

/-- On the way out every smaller depth is met. -/
theorem Depth.exists_below {n k : Nat} (hd : s.Depth h n) (hk : k < n) : ∃ g, s.Depth g (k + 1) := by
  induction hd with
  | stale _ => omega
  | root hs hp =>
    obtain rfl : k = 0 := by omega
    exact ⟨_, .root hs hp⟩
  | @inside h p scope n hs hp hd ih =>
    by_cases hkn : k = n
    · exact ⟨h, hkn ▸ .inside hs hp hd⟩
    · exact ih (by omega)

/-- Scopes of different depths have different slots, so there are enough slots for all depths. -/
theorem Depth.le_size {n : Nat} (hd : s.Depth h n) : n ≤ s.slots.size := by
  have hex : ∀ k : Fin n, ∃ g, s.Depth g (k + 1) := fun k => hd.exists_below k.2
  -- one scope for each depth on the way out, and no two of them share a slot
  choose f hf using hex
  let slot : Fin n → Fin s.slots.size := fun k => ⟨(f k).slot, slot_lt_size (hf k).isLive⟩
  have hinj : Function.Injective slot := by
    intro j k hjk
    have he : f j = f k := eq_of_slot_eq (hf j).isLive (hf k).isLive (Fin.mk.inj hjk)
    have := (hf j).unique (he ▸ hf k)
    omega
  simpa using Fintype.card_le_of_injective slot hinj

/-! ## Chains -/

/-- From some length on a chain does not grow any more. -/
theorem chainFrom_eq_of_depth {n l m : Nat} (hd : s.Depth h n) (hl : n ≤ l) (hm : n ≤ m) :
    s.chainFrom l h = s.chainFrom m h := by
  induction hd generalizing l m with
  | stale hs => cases l <;> cases m <;> simp only [chainFrom, hs]
  | root hs hp =>
    obtain ⟨l, rfl⟩ : ∃ k, l = k + 1 := ⟨l - 1, by omega⟩
    obtain ⟨m, rfl⟩ : ∃ k, m = k + 1 := ⟨m - 1, by omega⟩
    simp only [chainFrom, hs, hp]
  | inside hs hp _ ih =>
    obtain ⟨l, rfl⟩ : ∃ k, l = k + 1 := ⟨l - 1, by omega⟩
    obtain ⟨m, rfl⟩ : ∃ k, m = k + 1 := ⟨m - 1, by omega⟩
    simp only [chainFrom, hs, hp]
    rw [ih (by omega : _ ≤ l) (by omega : _ ≤ m)]

/-- A chain that comes to an end begins with its scope and goes on with the chain of the parent. -/
theorem chain_of_depth {n : Nat} (hd : s.Depth h n) (hs : s.scope? h = some scope) :
    s.chain h = (h, scope) :: (scope.parent.map s.chain).getD [] := by
  have hsize := hd.le_size
  unfold chain
  cases hd with
  | stale hs' =>
    rw [hs] at hs'
    cases hs'
  | root hs' hp =>
    rw [hs] at hs'
    cases hs'
    obtain ⟨l, hl⟩ : ∃ k, s.slots.size = k + 1 := ⟨s.slots.size - 1, by omega⟩
    rw [hl]
    simp only [chainFrom, hs, hp, Option.map_none, Option.getD_none]
  | @inside _ p _ n hs' hp hd' =>
    rw [hs] at hs'
    cases hs'
    obtain ⟨l, hl⟩ : ∃ k, s.slots.size = k + 1 := ⟨s.slots.size - 1, by omega⟩
    have hchain := chainFrom_eq_of_depth hd' (by omega : n ≤ l) (by omega : n ≤ l + 1)
    rw [hl]
    simp only [chainFrom, hs, hp, Option.map_some, Option.getD_some]
    rw [hchain]
    rfl

/-- Along a chain that ends, the innermost binding is that of the scope itself, or else what its
parent sees. -/
theorem get?_of_depth {n : Nat} (hd : s.Depth h n) (hs : s.scope? h = some scope) (name : String) :
    s.get? h name = (scope.bindings.get? name).or (scope.parent.bind fun p => s.get? p name) := by
  unfold get?
  rw [chain_of_depth hd hs, List.findSome?_cons]
  cases scope.bindings.get? name with
  | some e => rfl
  | none => cases scope.parent <;> rfl

/-- The innermost binding is that of the scope itself, or else what its parent sees. -/
theorem get?_of_rooted (hr : s.Rooted root h) (hs : s.scope? h = some scope) (name : String) :
    s.get? h name = (scope.bindings.get? name).or (scope.parent.bind fun p => s.get? p name) := by
  obtain ⟨n, hd⟩ := hr.depth
  exact get?_of_depth hd hs name

/-- Nothing is found through a stale handle. -/
theorem get?_of_stale (hs : s.scope? h = none) (name : String) : s.get? h name = none := by
  unfold get? chain
  cases s.slots.size <;> simp [chainFrom, hs]

/-- Where two stores have the same scopes, closed under parents, they have the same chains. -/
theorem chainFrom_congr {t : Store} {K : Handle → Prop} (hk : ∀ g, K g → t.scope? g = s.scope? g)
    (hp : ∀ g scope p, K g → s.scope? g = some scope → scope.parent = some p → K p) (n : Nat)
    (hh : K h) : t.chainFrom n h = s.chainFrom n h := by
  induction n generalizing h with
  | zero => rfl
  | succ n ih =>
    simp only [chainFrom, hk h hh]
    cases hs : s.scope? h with
    | none => rfl
    | some scope =>
      cases hparent : scope.parent with
      | none => simp only [hparent]
      | some p => simp only [hparent, ih (hp h scope p hh hs hparent)]

/-- What a name means depends on the parents and on the bindings of that name only. -/
theorem get?_congr {t : Store} {name : String} (hr : s.Rooted root h)
    (ht : ∀ g scope, s.Rooted root g → s.scope? g = some scope →
      ∃ scope', t.scope? g = some scope' ∧ scope'.parent = scope.parent ∧
        scope'.bindings.get? name = scope.bindings.get? name) : t.get? h name = s.get? h name := by
  have hrooted : ∀ g, s.Rooted root g → t.Rooted root g := by
    intro g hg
    refine hg.of_parents fun k scope hk hs => ?_
    obtain ⟨scope', hs', hp, -⟩ := ht k scope hk hs
    exact ⟨scope', hs', hp⟩
  induction hr with
  | root hs hn =>
    obtain ⟨scope', hs', hp, hget⟩ := ht _ _ (.root hs hn) hs
    rw [get?_of_rooted (hrooted _ (.root hs hn)) hs', get?_of_rooted (.root hs hn) hs, hp, hget, hn]
    rfl
  | inside hs hn hr ih =>
    obtain ⟨scope', hs', hp, hget⟩ := ht _ _ (.inside hs hn hr) hs
    rw [get?_of_rooted (hrooted _ (.inside hs hn hr)) hs', get?_of_rooted (.inside hs hn hr) hs, hp,
      hget, hn, Option.bind_some, Option.bind_some, ih]

/-! ## New scopes -/

theorem Rooted.child (hr : s.Rooted root h) (hs : s.Sound) (p : Handle) :
    (s.child p).2.Rooted root h := by
  refine hr.of_parents fun g scope hg hscope => ⟨scope, ?_, rfl⟩
  rw [scope?_child_of_isLive hs hg.isLive, hscope]

/-- A new scope is rooted where its parent is. -/
theorem rooted_child_self (hs : s.Sound) (hr : s.Rooted root p) :
    (s.child p).2.Rooted root (s.child p).1 :=
  .inside (scope?_child_self hs p) rfl (hr.child hs p)

/-- A new scope changes the meaning of no name elsewhere. -/
theorem get?_child (hs : s.Sound) (hr : s.Rooted root h) (p : Handle) (name : String) :
    (s.child p).2.get? h name = s.get? h name := by
  refine get?_congr hr fun g scope hg hscope => ⟨scope, ?_, rfl, rfl⟩
  rw [scope?_child_of_isLive hs hg.isLive, hscope]

/-- In a new scope every name means what it means around it. -/
theorem get?_child_self (hs : s.Sound) (hr : s.Rooted root p) (name : String) :
    (s.child p).2.get? (s.child p).1 name = s.get? p name := by
  rw [get?_of_rooted (rooted_child_self hs hr) (scope?_child_self hs p), ← get?_child hs hr p name]
  rfl

/-! ## Definitions -/

theorem Rooted.define (hr : s.Rooted root h) (g : Handle) (name : String) (e : Expr) :
    (s.define g name e).Rooted root h := by
  refine hr.of_parents fun k scope _ hscope => ?_
  obtain ⟨scope', hscope', hparent, -⟩ := exists_scope_define hscope g name e
  exact ⟨scope', hscope', hparent⟩

theorem get?_define_self (hr : s.Rooted root h) (name : String) (e : Expr) :
    (s.define h name e).get? h name = some e := by
  obtain ⟨scope, hscope⟩ := isLive_iff.1 hr.isLive
  rw [get?_of_rooted (hr.define h name e) (scope?_define_self hscope), Bindings.get?_insert_self]
  rfl

/-- A definition leaves the meaning of other names as it is. -/
theorem get?_define_of_ne {name other : String} (hr : s.Rooted root h) (g : Handle) (e : Expr)
    (hne : other ≠ name) : (s.define g name e).get? h other = s.get? h other := by
  refine get?_congr hr fun k scope _ hscope => ?_
  obtain ⟨scope', hscope', hparent, hget⟩ := exists_scope_define hscope g name e
  exact ⟨scope', hscope', hparent, hget other hne⟩

end Stepwise.Store
