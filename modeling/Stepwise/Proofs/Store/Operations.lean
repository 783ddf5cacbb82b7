import Stepwise.Proofs.Store.Release
/-!
# What is reclaimed after any operations

A store is put to use by five operations, with whatever handles. After any of them a collection
takes exactly the scopes that are not retained by a root or a value
(`collect_takes_unretained`), and a release takes exactly the scopes inside the released one
(`release_takes_inside`). Both count what they take and leave the rest undisturbed.
-/

namespace Stepwise

/-- `e` keeps the scope of `h`, itself or in a member at any depth. -/
inductive Expr.Holds (h : Handle) : Expr → Prop
  | pending {tokens : List String} : Holds h (.pending tokens h)
  | deferred {token : String} : Holds h (.deferred token h)
  | form {f : Form} : Holds h (.procedure (.form f h))
  | closure {c : Closure} : c.scope = h → Holds h (.procedure (.closure c))
  | member {members : List Expr} {e : Expr} : e ∈ members → Holds h e → Holds h (.tuple members)

theorem Expr.holds_of_mem_captured {h : Handle} :
    ∀ e : Expr, h ∈ e.captured → e.Holds h
  | .pending tokens scope, hh => by
    obtain rfl : h = scope := by simpa [Expr.captured] using hh
    exact .pending
  | .deferred token scope, hh => by
    obtain rfl : h = scope := by simpa [Expr.captured] using hh
    exact .deferred
  | .procedure (.form f scope), hh => by
    obtain rfl : h = scope := by simpa [Expr.captured, Procedure.captured] using hh
    exact .form
  | .procedure (.closure c), hh => by
    have hc : h = c.scope := by simpa [Expr.captured, Procedure.captured] using hh
    exact .closure hc.symm
  | .tuple members, hh => by
    obtain ⟨e, he, hmem⟩ := mem_capturedAll.1 (show h ∈ capturedAll members from hh)
    exact .member he (Expr.holds_of_mem_captured e hmem)

theorem Expr.Holds.mem_captured {h : Handle} {e : Expr} (hh : e.Holds h) : h ∈ e.captured := by
  induction hh with
  | pending => simp [Expr.captured]
  | deferred => simp [Expr.captured]
  | form => simp [Expr.captured, Procedure.captured]
  | closure hc => simp [Expr.captured, Procedure.captured, hc]
  | member he _ ih => exact mem_capturedAll.2 ⟨_, he, ih⟩

namespace Store

variable {s : Store} {roots : List Handle} {values : List Expr} {g h : Handle} {scope : Scope}

/-! ## Operations -/

/-- What can be done to a store. -/
inductive Operation where
  | root
  | child (parent : Handle)
  | define (h : Handle) (name : String) (e : Expr)
  | release (h : Handle)
  | collect (roots : List Handle) (values : List Expr)

/-- The store after an operation. -/
def perform (s : Store) : Operation → Store
  | .root => s.root.2
  | .child parent => (s.child parent).2
  | .define h name e => s.define h name e
  | .release h => (s.release h).2
  | .collect roots values => (s.collect roots values).2

/-- The store after operations on an empty one. -/
def after (operations : List Operation) : Store :=
  operations.foldl perform .empty

theorem sound_perform (hs : s.Sound) (operation : Operation) : (s.perform operation).Sound := by
  cases operation with
  | root => exact sound_allocate hs none
  | child parent => exact sound_allocate hs (some parent)
  | define h name e => exact sound_define hs h name e
  | release h => exact sound_release hs h
  | collect roots values => exact sound_collect hs roots values

theorem sound_after (operations : List Operation) : (after operations).Sound := by
  have hfold : ∀ s : Store, s.Sound → (operations.foldl perform s).Sound := by
    induction operations with
    | nil =>
      intro s hs
      exact hs
    | cons operation rest ih =>
      intro s hs
      exact ih _ (sound_perform hs operation)
  exact hfold .empty sound_empty

/-! ## What both ways of reclaiming leave -/

/-- The scope of `h` is the same in both stores, and from it the same scopes are met on the way out,
however far one goes, so that every name means the same. -/
structure Undisturbed (s t : Store) (h : Handle) : Prop where
  scope : t.scope? h = s.scope? h
  chain : ∀ n, t.chainFrom n h = s.chainFrom n h
  names : ∀ name, t.get? h name = s.get? h name

theorem undisturbed_of_chain {t : Store} (hsize : t.slots.size = s.slots.size)
    (hscope : t.scope? h = s.scope? h) (hchain : ∀ n, t.chainFrom n h = s.chainFrom n h) :
    s.Undisturbed t h := by
  refine ⟨hscope, hchain, fun name => ?_⟩
  rw [get?, get?, Store.chain, Store.chain, hsize, hchain]

@[simp]
theorem size_sweep (s : Store) (doomed : Nat → Bool) :
    (s.sweep doomed).2.slots.size = s.slots.size := by
  simp [sweep]

/-- A sweep of nothing changes nothing. -/
theorem sweep_of_none {doomed : Nat → Bool} (hd : ∀ i, doomed i = false) :
    s.sweep doomed = (0, s) := by
  have hslots : s.slots.mapIdx (fun i slot => if doomed i then { slot with scope := none } else slot) =
      s.slots := by
    ext i hi <;> simp [hd]
  have hfreed : (List.range s.slots.size).filter doomed = [] :=
    List.filter_eq_nil_iff.2 fun i _ => by simp [hd]
  simp only [sweep, hslots, hfreed]
  rfl

/-! ## Collection -/

/-- `h` is live and retained by the roots or the values: it is one of the roots or held by a value,
or the parent of a retained scope, or held by what a retained scope binds. -/
inductive Retained (s : Store) (roots : List Handle) (values : List Expr) : Handle → Prop
  | root {h : Handle} : s.isLive h = true → h ∈ roots → Retained s roots values h
  | value {h : Handle} {e : Expr} :
      s.isLive h = true → e ∈ values → e.Holds h → Retained s roots values h
  | parent {g h : Handle} {scope : Scope} :
      s.isLive h = true → Retained s roots values g → s.scope? g = some scope →
        scope.parent = some h → Retained s roots values h
  | bound {g h : Handle} {scope : Scope} {name : String} {e : Expr} :
      s.isLive h = true → Retained s roots values g → s.scope? g = some scope →
        scope.bindings.get? name = some e → e.Holds h → Retained s roots values h

theorem Retained.isLive (hr : s.Retained roots values h) : s.isLive h = true := by
  cases hr <;> assumption

/-- Of the live scopes, those that can be come upon are those that are retained. -/
theorem retained_iff (hs : s.Sound) :
    s.Retained roots values h ↔ s.isLive h = true ∧ s.Reaches (roots ++ capturedAll values) h := by
  constructor
  · intro hr
    refine ⟨hr.isLive, ?_⟩
    induction hr with
    | root _ hh => exact .root (List.mem_append_left _ hh)
    | value _ he hh =>
      exact .root (List.mem_append_right _ (mem_capturedAll.2 ⟨_, he, hh.mem_captured⟩))
    | parent _ _ hscope hp ih => exact .link ih hscope (mem_captured_of_parent hp)
    | bound _ _ hscope he hh ih =>
      exact .link ih hscope (mem_captured_of_bound he hh.mem_captured)
  · rintro ⟨hl, hr⟩
    induction hr with
    | root hh =>
      rcases List.mem_append.1 hh with hh | hh
      · exact .root hl hh
      · obtain ⟨e, he, hh⟩ := mem_capturedAll.1 hh
        exact .value hl he (e.holds_of_mem_captured hh)
    | @link g h scope hr hscope hh ih =>
      have hg := ih (isLive_iff.2 ⟨_, hscope⟩)
      rcases List.mem_append.1 hh with hh | hh
      · exact .parent hl hg hscope (Option.mem_toList.1 hh)
      · obtain ⟨e, he, hh⟩ := mem_capturedAll.1 hh
        obtain ⟨name, hname⟩ := (hs.distinct g scope hscope).mem_values_iff.1 he
        exact .bound hl hg hscope hname (e.holds_of_mem_captured hh)

theorem isLive_collect_iff (hs : s.Sound) :
    (s.collect roots values).2.isLive h = true ↔ s.Retained roots values h := by
  rw [retained_iff hs, isLive_iff, isLive_iff]
  simp only [scope?_collect_iff, exists_and_right]

/-- A second collection finds nothing left to take. -/
theorem collect_again (s : Store) (roots : List Handle) (values : List Expr) :
    (s.collect roots values).2.collect roots values = (0, (s.collect roots values).2) := by
  rw [collect]
  refine sweep_of_none fun i => ?_
  rw [Bool.and_eq_false_iff]
  cases hi : (s.collect roots values).2.handleAt? i with
  | none => exact .inl rfl
  | some h =>
    -- a scope that has survived once can be reached and survives again
    obtain ⟨rfl, hl⟩ := handleAt?_eq_some_iff.1 hi
    obtain ⟨scope, hscope⟩ := isLive_iff.1 hl
    have hmarked := (reachable_iff hl).2 (scope?_collect_iff.1 hscope).2.collect
    exact .inr (by rw [show _ = some true from hmarked]; rfl)

/-- After any operations, with whatever handles and bound expressions, a collection takes exactly
the scopes that are not retained and answers how many these are; every other scope is undisturbed,
and collecting again takes nothing. -/
theorem collect_takes_unretained (operations : List Operation) (roots : List Handle)
    (values : List Expr) :
    let s := after operations
    let t := (s.collect roots values).2
    (∀ h, t.isLive h = true ↔ s.Retained roots values h) ∧
      (∀ h, t.isLive h = true → s.Undisturbed t h) ∧
      (s.collect roots values).1 = (s.liveScopes \ t.liveScopes).card ∧
      t.collect roots values = (0, t) := by
  intro s t
  have hs : s.Sound := sound_after operations
  refine ⟨fun h => isLive_collect_iff hs, fun h hl => ?_, ?_, collect_again s roots values⟩
  · obtain ⟨scope, hscope⟩ := isLive_iff.1 hl
    obtain ⟨hold, hr⟩ := scope?_collect_iff.1 hscope
    exact undisturbed_of_chain (size_sweep _ _) (hscope.trans hold.symm) (chainFrom_collect hr)
  · exact count_sweep fun i hi => (Bool.and_eq_true_iff.1 hi).1

/-! ## Release -/

/-- After any operations, with whatever handles, a release through a stale handle changes nothing.
Through a live one it takes exactly the scopes inside that scope, itself among them, and answers how
many these are. No scope that is left has its parent among them, and every one is undisturbed. -/
theorem release_takes_inside (operations : List Operation) (h : Handle) :
    let s := after operations
    let t := (s.release h).2
    (s.isLive h = false → s.release h = (0, s)) ∧
      (s.isLive h = true →
        (∀ g, g ∈ s.liveScopes \ t.liveScopes ↔ s.Inside h g) ∧
        (s.release h).1 = (s.liveScopes \ t.liveScopes).card ∧
        (∀ g scope p, t.scope? g = some scope → scope.parent = some p → ¬ s.Inside h p) ∧
        ∀ g, t.isLive g = true → s.Undisturbed t g) := by
  intro s t
  refine ⟨release_of_stale, fun hh => ⟨fun g => ?_, count_release hh, ?_, ?_⟩⟩
  · rw [Finset.mem_sdiff, mem_liveScopes, mem_liveScopes]
    constructor
    · rintro ⟨hl, hgone⟩
      obtain ⟨scope, hscope⟩ := isLive_iff.1 hl
      by_contra hout
      exact hgone (isLive_iff.2 ⟨scope, (scope?_release_iff hh).2 ⟨hscope, hout⟩⟩)
    · intro hinside
      refine ⟨hinside.isLive, fun hl => ?_⟩
      obtain ⟨scope, hscope⟩ := isLive_iff.1 hl
      exact ((scope?_release_iff hh).1 hscope).2 hinside
  · intro g scope p hscope hp hinside
    obtain ⟨hold, hout⟩ := (scope?_release_iff hh).1 hscope
    exact hout (.inside hold hp hinside)
  · intro g hl
    obtain ⟨scope, hscope⟩ := isLive_iff.1 hl
    obtain ⟨hold, hout⟩ := (scope?_release_iff hh).1 hscope
    have hsize : t.slots.size = s.slots.size := by
      rw [show t = (s.release h).2 from rfl, release, if_pos hh]
      exact size_sweep _ _
    exact undisturbed_of_chain hsize (hscope.trans hold.symm) (chainFrom_release hh hout)

/-- The scopes in slots 2, 1 and 0 lie inside each other in this order, so that the one in slot 0 is
doomed in the second round only. -/
example :
    ((after [.root, .root, .root, .release ⟨0, 0⟩, .release ⟨1, 0⟩, .child ⟨2, 0⟩,
      .child ⟨1, 1⟩]).release ⟨2, 0⟩).1 = 3 := by
  decide +kernel

end Store

end Stepwise
