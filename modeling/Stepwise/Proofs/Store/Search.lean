import Stepwise.Proofs.Store.Visibility
/-!
# How far a search goes

A search for a name goes from scope to scope outward, until a scope binds the name, has no parent or
is gone. `Search` follows it without any bound on its length. Scopes can be made inside stale
handles, even in the slot that the parent has left, and an outer scope can have any slot. But a
parent was issued before its child, so the way out never comes to a scope twice: it passes every
scope at most once, and every search ends with what a look-up answers
(`searches_end_within_liveCount`).
-/

namespace Stepwise.Store

variable {s : Store} {g h p : Handle} {scope : Scope} {name : String} {m n : Nat}
  {r r' : Option Expr}

/-! ## Ways out -/

theorem Inside.isLive_outer (hi : s.Inside h g) : s.isLive h = true := by
  induction hi with
  | self hl => exact hl
  | inside _ _ _ ih => exact ih

/-- What is met on the way out lies around the scope. -/
theorem inside_of_mem_chainFrom (hg : g ∈ (s.chainFrom n h).map Prod.fst) : s.Inside g h := by
  induction n generalizing h with
  | zero => cases hg
  | succ n ih =>
    cases hs : s.scope? h with
    | none =>
      rw [chainFrom, hs] at hg
      cases hg
    | some scope =>
      rw [chainFrom, hs, List.map_cons] at hg
      rcases List.mem_cons.1 hg with rfl | hg
      · exact .self (isLive_iff.2 ⟨scope, hs⟩)
      · cases hp : scope.parent with
        | none =>
          rw [hp] at hg
          cases hg
        | some p =>
          rw [hp] at hg
          exact .inside hs hp (ih hg)

/-- Where all ways out come to an end, none of them comes back to the scope it started from. -/
theorem not_inside_parent (hends : s.Ends) (hs : s.scope? h = some scope)
    (hp : scope.parent = some p) : ¬ s.Inside h p := by
  intro hi
  exact not_inside_of_parent hends hs hp hi (.self (isLive_iff.2 ⟨scope, hs⟩))

/-- No scope is met twice on the way out, however far it goes. -/
theorem nodup_chainFrom (hends : s.Ends) (n : Nat) (h : Handle) :
    ((s.chainFrom n h).map Prod.fst).Nodup := by
  induction n generalizing h with
  | zero => exact List.nodup_nil
  | succ n ih =>
    cases hs : s.scope? h with
    | none =>
      rw [chainFrom, hs]
      exact List.nodup_nil
    | some scope =>
      rw [chainFrom, hs, List.map_cons]
      cases hp : scope.parent with
      | none => exact List.nodup_singleton h
      | some p =>
        refine List.nodup_cons.2 ⟨fun hm => ?_, ih p⟩
        exact not_inside_parent hends hs hp (inside_of_mem_chainFrom hm)

/-- So a way out has at most as many scopes as there are. -/
theorem length_chainFrom_le (hsound : s.Sound) (hends : s.Ends) (n : Nat) (h : Handle) :
    (s.chainFrom n h).length ≤ s.liveCount := by
  have hsub : ((s.chainFrom n h).map Prod.fst).toFinset ⊆ s.liveScopes := by
    intro g hg
    exact mem_liveScopes.2 ((inside_of_mem_chainFrom (List.mem_toFinset.1 hg)).isLive_outer)
  have hcard := Finset.card_le_card hsub
  rw [List.toFinset_card_of_nodup (nodup_chainFrom hends n h), List.length_map,
    card_liveScopes hsound] at hcard
  exact hcard

theorem Depth.length_chainFrom (hd : s.Depth h n) : (s.chainFrom n h).length = n := by
  induction hd with
  | stale _ => rfl
  | root hs hp =>
    rw [chainFrom, hs]
    simp [hp]
  | inside hs hp _ ih =>
    rw [chainFrom, hs]
    simp [hp, ih]

/-- No scope lies deeper than there are scopes. -/
theorem Depth.le_liveCount (hsound : s.Sound) (hends : s.Ends) (hd : s.Depth h n) :
    n ≤ s.liveCount := by
  have hle := length_chainFrom_le hsound hends n h
  rwa [hd.length_chainFrom] at hle

/-! ## Searches -/

/-- A search for `name` from `h` outward ends with an answer after it has looked into `n` scopes. -/
inductive Search (s : Store) (name : String) : Handle → Nat → Option Expr → Prop
  | stale {h : Handle} : s.scope? h = none → Search s name h 0 none
  | bound {h : Handle} {scope : Scope} {e : Expr} :
      s.scope? h = some scope → scope.bindings.get? name = some e → Search s name h 1 (some e)
  | root {h : Handle} {scope : Scope} :
      s.scope? h = some scope → scope.bindings.get? name = none → scope.parent = none →
        Search s name h 1 none
  | outward {h p : Handle} {scope : Scope} {n : Nat} {r : Option Expr} :
      s.scope? h = some scope → scope.bindings.get? name = none → scope.parent = some p →
        Search s name p n r → Search s name h (n + 1) r

/-- A search can end in one way only. -/
theorem Search.unique (hm : s.Search name h m r) (hn : s.Search name h n r') : m = n ∧ r = r' := by
  induction hm generalizing n r' with
  | stale hs => cases hn <;> simp_all
  | bound hs hb => cases hn <;> simp_all
  | root hs hb hp => cases hn <;> simp_all
  | outward hs hb hp _ ih =>
    cases hn with
    | outward hs' hb' hp' hr =>
      rw [hs] at hs'
      cases hs'
      rw [hp] at hp'
      cases hp'
      obtain ⟨rfl, rfl⟩ := ih hr
      exact ⟨rfl, rfl⟩
    | _ => simp_all

/-- Along a way out that ends, a search ends no later, with what a look-up answers. -/
theorem exists_search_of_depth (hd : s.Depth h n) (name : String) :
    ∃ m ≤ n, s.Search name h m (s.get? h name) := by
  induction hd with
  | stale hs =>
    refine ⟨0, Nat.le_refl 0, ?_⟩
    rw [get?_of_stale hs]
    exact .stale hs
  | @root h scope hs hp =>
    refine ⟨1, Nat.le_refl 1, ?_⟩
    rw [get?_of_depth (.root hs hp) hs, hp]
    cases hb : scope.bindings.get? name with
    | some e => exact .bound hs hb
    | none => exact .root hs hb hp
  | @inside h p scope n hs hp hd ih =>
    rw [get?_of_depth (.inside hs hp hd) hs, hp]
    cases hb : scope.bindings.get? name with
    | some e => exact ⟨1, Nat.succ_le_succ (Nat.zero_le n), .bound hs hb⟩
    | none =>
      obtain ⟨m, hm, hr⟩ := ih
      exact ⟨m + 1, Nat.succ_le_succ hm, .outward hs hb hp hr⟩

/-! ## After any operations -/

namespace History

/-- A history that comes from any operations, through whatever handles, issued or not; only the
parent of a new scope was issued before it. -/
inductive Arises : History → Prop
  | empty : Arises empty
  | next {past : History} {operation : Operation} : Arises past →
      (∀ p ∈ operation.parent?, p ∈ past.issued) → Arises (past.next operation)

theorem Arises.consistent {past : History} (hpast : past.Arises)
    (hn : past.issued.length ≤ 2 ^ 32) : past.Consistent := by
  induction hpast with
  | empty => exact consistent_empty
  | next _ hp ih => exact (ih (Nat.le_trans (length_le_next _ _) hn)).next hp hn

end History

/-- With at most `2 ^ 32` scopes made, each inside an issued handle if any, be it stale or one whose
slot the new scope gets, no scope lies inside itself: the way out from any handle meets no scope
twice and has at most as many scopes as there are. So every search ends after at most that many
scopes, in one way only, and looking a name up answers what it ends with. -/
theorem searches_end_within_liveCount {past : History} (hpast : past.Arises)
    (hn : past.issued.length ≤ 2 ^ 32) :
    let s := past.store
    (∀ h scope p, s.scope? h = some scope → scope.parent = some p → ¬ s.Inside h p) ∧
      (∀ h n, ((s.chainFrom n h).map Prod.fst).Nodup ∧ (s.chainFrom n h).length ≤ s.liveCount) ∧
      ∀ h name, ∃ n r, n ≤ s.liveCount ∧
        (∀ n' r', s.Search name h n' r' ↔ n' = n ∧ r' = r) ∧
        s.get? h name = r ∧ s.contains h name = r.isSome ∧
        s.lookup h name = r.elim (.error (.undefinedName name)) .ok := by
  intro s
  have hc := hpast.consistent hn
  have hends := hc.ends
  refine ⟨?_, ?_, ?_⟩
  · intro h scope p hs hp
    exact not_inside_parent hends hs hp
  · intro h n
    exact ⟨nodup_chainFrom hends n h, length_chainFrom_le hc.sound hends n h⟩
  · intro h name
    obtain ⟨d, hd⟩ := hends h
    obtain ⟨n, hle, hsearch⟩ := exists_search_of_depth hd name
    refine ⟨n, s.get? h name, Nat.le_trans hle (hd.le_liveCount hc.sound hends), ?_, rfl, rfl, ?_⟩
    · intro n' r'
      constructor
      · intro hsearch'
        exact hsearch'.unique hsearch
      · rintro ⟨rfl, rfl⟩
        exact hsearch
    · unfold lookup
      cases s.get? h name <;> rfl

/-- A scope is made in the slot that its own parent has left, and another one inside it in a slot
before both. A search from there ends all the same. -/
theorem search_through_reused_slots :
    let past := ((((((History.empty.next .root).next .root).next (.child ⟨1, 0⟩)).next
      (.release ⟨2, 0⟩)).next (.child ⟨2, 0⟩)).next (.release ⟨0, 0⟩)).next (.child ⟨2, 1⟩)
    past.Arises ∧ past.issued.length ≤ 2 ^ 32 ∧
      past.store.parent? ⟨0, 1⟩ = some ⟨2, 1⟩ ∧ past.store.parent? ⟨2, 1⟩ = some ⟨2, 0⟩ ∧
      (∀ n, ((past.store.chainFrom n ⟨0, 1⟩).map Prod.fst).Nodup) ∧
      ∃ n ≤ 3, past.store.Search "x" ⟨0, 1⟩ n none := by
  intro past
  have hpast : past.Arises :=
    .next (.next (.next (.next (.next (.next (.next .empty (by decide +kernel)) (by decide +kernel))
      (by decide +kernel)) (by decide +kernel)) (by decide +kernel)) (by decide +kernel))
      (by decide +kernel)
  have hn : past.issued.length ≤ 2 ^ 32 := by
    rw [show past.issued.length = 5 by decide +kernel]
    decide
  obtain ⟨-, hnodup, hsearches⟩ := searches_end_within_liveCount hpast hn
  obtain ⟨n, r, hle, hsearch, hget, -⟩ := hsearches ⟨0, 1⟩ "x"
  have hcount : past.store.liveCount = 3 := by decide +kernel
  have hnone : past.store.get? ⟨0, 1⟩ "x" = none :=
    Option.isNone_iff_eq_none.1 (by decide +kernel)
  refine ⟨hpast, hn, by decide +kernel, by decide +kernel, fun k => (hnodup ⟨0, 1⟩ k).1, n,
    hcount ▸ hle, ?_⟩
  exact (hsearch n none).2 ⟨rfl, hnone.symm.trans hget⟩

/-- A scope made inside a handle that is yet to be issued can be its own parent. -/
example : (after [.child ⟨0, 0⟩]).parent? ⟨0, 0⟩ = some ⟨0, 0⟩ := by
  decide

end Stepwise.Store
