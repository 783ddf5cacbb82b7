import Mathlib.Logic.Function.Basic
import Stepwise.Proofs.Renaming.Expr
import Stepwise.Proofs.Store.Reachable
/-!
# Stores that mirror each other

Two stores mirror each other under a renaming when each scope of the one that the renaming knows
has an image in the other: the same names are bound to the same expressions, up to the renaming,
and the parents correspond. What the renaming does not know may differ, be it other scopes, free
slots or generations. New scopes, definitions and collections on either side keep this.
-/

namespace Stepwise

/-- Which scopes of one store correspond to which of another. -/
structure Renaming where
  map : Handle → Handle
  known : Handle → Prop

namespace Renaming

variable {r r' r'' : Renaming}

/-- All scopes that the expression keeps are known. -/
def Knows (r : Renaming) (e : Expr) : Prop :=
  ∀ h ∈ e.captured, r.known h

/-- `r'` knows all that `r` knows, and no differently. -/
def Extends (r r' : Renaming) : Prop :=
  ∀ h, r.known h → r'.known h ∧ r'.map h = r.map h

theorem Extends.refl (r : Renaming) : r.Extends r :=
  fun _ h => ⟨h, rfl⟩

theorem Extends.trans (h : r.Extends r') (h' : r'.Extends r'') : r.Extends r'' := by
  intro g hg
  obtain ⟨hk, he⟩ := h g hg
  obtain ⟨hk', he'⟩ := h' g hk
  exact ⟨hk', he'.trans he⟩

theorem Knows.mono {e : Expr} (hk : r.Knows e) (h : r.Extends r') : r'.Knows e :=
  fun g hg => (h g (hk g hg)).1

theorem Knows.rename_eq {e : Expr} (hk : r.Knows e) (h : r.Extends r') :
    e.rename r'.map = e.rename r.map :=
  e.rename_congr fun g hg => (h g (hk g hg)).2

theorem knows_tuple {es : List Expr} : r.Knows (.tuple es) ↔ ∀ e ∈ es, r.Knows e :=
  ⟨fun hk e he h hh => hk h (mem_capturedAll.2 ⟨e, he, hh⟩), fun hk h hh => by
    obtain ⟨e, he, hh⟩ := mem_capturedAll.1 (show h ∈ capturedAll es from hh)
    exact hk e he h hh⟩

theorem knows_singleton {e : Expr} {h : Handle} (hk : r.known h) (he : e.captured = [h] := by rfl) :
    r.Knows e := by
  intro g hg
  rw [he] at hg
  rw [List.mem_singleton.1 hg]
  exact hk

/-- `image` is the image of `scope`, in which everything is known and every bound expression is a
value. -/
structure Images (r : Renaming) (scope image : Scope) : Prop where
  parent : image.parent = scope.parent.map r.map
  known_parent : ∀ p, scope.parent = some p → r.known p
  get? : ∀ name, image.bindings.get? name = (scope.bindings.get? name).map (Expr.rename r.map)
  bound : ∀ name e, scope.bindings.get? name = some e → e.isValue = true ∧ r.Knows e

theorem Images.mono {scope image : Scope} (hi : r.Images scope image) (h : r.Extends r') :
    r'.Images scope image := by
  refine ⟨?_, fun p hp => (h p (hi.known_parent p hp)).1, fun name => ?_, fun name e he => ?_⟩
  · rw [hi.parent]
    cases hp : scope.parent with
    | none => rfl
    | some p => simp only [Option.map_some, (h p (hi.known_parent p hp)).2]
  · rw [hi.get?]
    cases he : scope.bindings.get? name with
    | none => rfl
    | some e => simp only [Option.map_some, (hi.bound name e he).2.rename_eq h]
  · exact ⟨(hi.bound name e he).1, (hi.bound name e he).2.mono h⟩

/-- The renaming that knows one more pair of scopes. -/
def extend (r : Renaming) (g h : Handle) : Renaming :=
  ⟨Function.update r.map g h, fun k => k = g ∨ r.known k⟩

@[simp]
theorem map_extend (r : Renaming) (g h : Handle) : (r.extend g h).map g = h := by
  simp [extend]

theorem extends_extend {g h : Handle} (hg : ¬ r.known g) : r.Extends (r.extend g h) := by
  intro k hk
  have hne : k ≠ g := by
    rintro rfl
    exact hg hk
  exact ⟨.inr hk, by simp [extend, hne]⟩

/-- The renaming that knows only what `keep` selects. -/
def restrict (r : Renaming) (keep : Handle → Prop) : Renaming :=
  ⟨r.map, fun h => r.known h ∧ keep h⟩

end Renaming

/-- The scopes of `s` that `r` knows have their images in `t`. All of them lie inside `root`. -/
structure Mirrors (root : Handle) (r : Renaming) (s t : Store) : Prop where
  left : s.Sound
  right : t.Sound
  injective : ∀ g h, r.known g → r.known h → r.map g = r.map h → g = h
  known_root : r.known root
  rooted : ∀ h, r.known h → s.Rooted root h
  image : ∀ h scope, r.known h → s.scope? h = some scope →
    ∃ image, t.scope? (r.map h) = some image ∧ r.Images scope image

namespace Mirrors

variable {root h p : Handle} {r r' : Renaming} {s t : Store}

theorem exists_scope (hm : Mirrors root r s t) (hk : r.known h) :
    ∃ scope image, s.scope? h = some scope ∧ t.scope? (r.map h) = some image ∧
      r.Images scope image := by
  obtain ⟨scope, hs⟩ := Store.isLive_iff.1 (hm.rooted h hk).isLive
  obtain ⟨image, ht, hi⟩ := hm.image h scope hk hs
  exact ⟨scope, image, hs, ht, hi⟩

theorem separates (hm : Mirrors root r s t) {hs : List Handle} (hk : ∀ h ∈ hs, r.known h) :
    Separates r.map hs :=
  fun g hg h hh => hm.injective g h (hk g hg) (hk h hh)

/-- Parents in the image are images of parents. -/
theorem rooted_map (hm : Mirrors root r s t) (hk : r.known h) :
    t.Rooted (r.map root) (r.map h) := by
  have hr := hm.rooted h hk
  induction hr with
  | root hs hn =>
    obtain ⟨image, ht, hi⟩ := hm.image _ _ hk hs
    exact .root ht (by rw [hi.parent, hn]; rfl)
  | inside hs hn _ ih =>
    obtain ⟨image, ht, hi⟩ := hm.image _ _ hk hs
    exact .inside ht (by rw [hi.parent, hn]; rfl) (ih (hi.known_parent _ hn))

/-! ## Looking names up -/

/-- A name means the same in both stores. -/
theorem get?_map (hm : Mirrors root r s t) (hk : r.known h) (name : String) :
    t.get? (r.map h) name = (s.get? h name).map (Expr.rename r.map) := by
  have hr := hm.rooted h hk
  induction hr with
  | root hs hn =>
    obtain ⟨image, ht, hi⟩ := hm.image _ _ hk hs
    rw [Store.get?_of_rooted (.root hs hn) hs, Store.get?_of_rooted (hm.rooted_map hk) ht,
      hi.parent, hi.get?, hn]
    simp
  | inside hs hn hr ih =>
    obtain ⟨image, ht, hi⟩ := hm.image _ _ hk hs
    rw [Store.get?_of_rooted (.inside hs hn hr) hs, Store.get?_of_rooted (hm.rooted_map hk) ht,
      hi.parent, hi.get?, hn]
    simp only [Option.map_some, Option.bind_some, ih (hi.known_parent _ hn), Option.map_or]

/-- What a name means is a value, and all it keeps is known. -/
theorem bound_of_get? (hm : Mirrors root r s t) (hk : r.known h) {name : String} {e : Expr}
    (he : s.get? h name = some e) : e.isValue = true ∧ r.Knows e := by
  have hr := hm.rooted h hk
  induction hr with
  | root hs hn =>
    obtain ⟨image, -, hi⟩ := hm.image _ _ hk hs
    rw [Store.get?_of_rooted (.root hs hn) hs, hn] at he
    exact hi.bound name e (by simpa using he)
  | inside hs hn hr ih =>
    obtain ⟨image, -, hi⟩ := hm.image _ _ hk hs
    rw [Store.get?_of_rooted (.inside hs hn hr) hs, hn] at he
    rcases Option.or_eq_some_iff.1 he with he | ⟨-, he⟩
    · exact hi.bound name e he
    · exact ih (hi.known_parent _ hn) he

/-! ## What matters of the stores -/

/-- Only the known scopes matter. -/
theorem of_known {s' t' : Store} (hm : Mirrors root r s t) (hl : s'.Sound) (hr : t'.Sound)
    (hs : ∀ h, r.known h → s'.scope? h = s.scope? h)
    (ht : ∀ h, r.known h → t'.scope? (r.map h) = t.scope? (r.map h)) : Mirrors root r s' t' := by
  refine ⟨hl, hr, hm.injective, hm.known_root, fun h hk => ?_, fun h scope hk hscope => ?_⟩
  · have hroot := hm.rooted h hk
    induction hroot with
    | root hscope hn => exact .root (by rw [hs _ hk, hscope]) hn
    | inside hscope hn _ ih =>
      obtain ⟨image, -, hi⟩ := hm.image _ _ hk hscope
      exact .inside (by rw [hs _ hk, hscope]) hn (ih (hi.known_parent _ hn))
  · obtain ⟨image, him, hi⟩ := hm.image h scope hk (by rw [← hs h hk, hscope])
    exact ⟨image, by rw [ht h hk, him], hi⟩

/-- On the right only parents and the meaning of names matter. -/
theorem congr_right {t' : Store} (hm : Mirrors root r s t) (hr : t'.Sound)
    (ht : ∀ g scope, t.scope? g = some scope → ∃ scope', t'.scope? g = some scope' ∧
      scope'.parent = scope.parent ∧
      ∀ name, scope'.bindings.get? name = scope.bindings.get? name) : Mirrors root r s t' := by
  refine ⟨hm.left, hr, hm.injective, hm.known_root, hm.rooted, fun h scope hk hs => ?_⟩
  obtain ⟨image, hi, himages⟩ := hm.image h scope hk hs
  obtain ⟨image', hi', hparent, hget⟩ := ht _ image hi
  refine ⟨image', hi', ?_, himages.known_parent, fun name => ?_, himages.bound⟩
  · rw [hparent, himages.parent]
  · rw [hget, himages.get?]

/-! ## New scopes -/

theorem isLive (hm : Mirrors root r s t) (hk : r.known h) : s.isLive h = true :=
  (hm.rooted h hk).isLive

/-- A pair of scopes in which nothing is bound, inside known ones, can be known as well. -/
theorem adopt {g g' : Handle} (hm : Mirrors root r s t) (hp : r.known p) (hg : ¬ r.known g)
    (hg' : ∀ k, r.known k → r.map k ≠ g') (hs : s.scope? g = some ⟨some p, .empty⟩)
    (ht : t.scope? g' = some ⟨some (r.map p), .empty⟩) : Mirrors root (r.extend g g') s t := by
  have hext : r.Extends (r.extend g g') := Renaming.extends_extend hg
  refine ⟨hm.left, hm.right, ?_, .inr hm.known_root, ?_, ?_⟩
  · rintro h k (rfl | hh) (rfl | hk) he
    · rfl
    · rw [Renaming.map_extend, (hext k hk).2] at he
      exact (hg' k hk he.symm).elim
    · rw [Renaming.map_extend, (hext h hh).2] at he
      exact (hg' h hh he).elim
    · rw [(hext h hh).2, (hext k hk).2] at he
      exact hm.injective h k hh hk he
  · rintro h (rfl | hh)
    · exact .inside hs rfl (hm.rooted p hp)
    · exact hm.rooted h hh
  · rintro h scope (rfl | hh) hscope
    · rw [hs] at hscope
      cases hscope
      refine ⟨_, by rw [Renaming.map_extend, ht], ?_⟩
      refine ⟨by simp [(hext p hp).2], fun q hq => ?_, fun name => rfl, fun name e he => ?_⟩
      · cases hq
        exact .inr hp
      · cases he
    · obtain ⟨image, hi, himages⟩ := hm.image h scope hh hscope
      exact ⟨image, by rw [(hext h hh).2, hi], himages.mono hext⟩

/-- A new scope on each side, inside known ones. -/
theorem child (hm : Mirrors root r s t) (hp : r.known p) :
    Mirrors root (r.extend (s.child p).1 (t.child (r.map p)).1) (s.child p).2
      (t.child (r.map p)).2 := by
  have hm' : Mirrors root r (s.child p).2 (t.child (r.map p)).2 :=
    hm.of_known (Store.sound_child hm.left p) (Store.sound_child hm.right _)
      (fun h hh => Store.scope?_child_of_isLive hm.left (hm.isLive hh))
      fun h hh => Store.scope?_child_of_isLive hm.right (hm.rooted_map hh).isLive
  -- a handle that was just made is in no slot that is in use, on either side
  exact hm'.adopt hp (fun hk => Store.ne_child hm.left (hm.isLive hk) rfl)
    (fun h hh => Store.ne_child hm.right (hm.rooted_map hh).isLive)
    (Store.scope?_child_self hm.left p) (Store.scope?_child_self hm.right _)

/-! ## Definitions -/

theorem define (hm : Mirrors root r s t) (hk : r.known h) (name : String) {e : Expr}
    (hv : e.isValue = true) (he : r.Knows e) :
    Mirrors root r (s.define h name e) (t.define (r.map h) name (e.rename r.map)) := by
  refine ⟨Store.sound_define hm.left _ _ _, Store.sound_define hm.right _ _ _, hm.injective,
    hm.known_root, fun g hg => ?_, fun g scope hg hs => ?_⟩
  · exact (hm.rooted g hg).define h name e
  · by_cases hgh : g = h
    · subst hgh
      obtain ⟨scope', image, hs', ht, hi⟩ := hm.exists_scope hg
      rw [Store.scope?_define_self hs'] at hs
      cases hs
      refine ⟨_, Store.scope?_define_self ht, hi.parent, hi.known_parent, fun n => ?_,
        fun n x hx => ?_⟩
      · rw [Bindings.get?_insert, Bindings.get?_insert, hi.get?]
        split <;> rfl
      · rw [Bindings.get?_insert] at hx
        split at hx
        · cases hx
          exact ⟨hv, he⟩
        · exact hi.bound n x hx
    · -- another scope has another image, which the definition does not touch either
      rw [Store.scope?_define, if_neg hgh] at hs
      obtain ⟨image, ht, hi⟩ := hm.image g scope hg hs
      refine ⟨image, ?_, hi⟩
      rw [Store.scope?_define, if_neg fun hmap => hgh (hm.injective g h hg hk hmap), ht]

/-- The scope around a known one is known, and its image lies around the image. -/
theorem parent? (hm : Mirrors root r s t) (hk : r.known h) :
    r.known ((s.parent? h).getD h) ∧
      (t.parent? (r.map h)).getD (r.map h) = r.map ((s.parent? h).getD h) := by
  obtain ⟨scope, image, hs, ht, hi⟩ := hm.exists_scope hk
  simp only [Store.parent?, hs, ht, Option.bind_some, hi.parent]
  cases hp : scope.parent with
  | none => exact ⟨hk, rfl⟩
  | some p => exact ⟨hi.known_parent p hp, rfl⟩

theorem defineAround (hm : Mirrors root r s t) (hk : r.known h) (name : String) {e : Expr}
    (hv : e.isValue = true) (he : r.Knows e) :
    Mirrors root r (s.defineAround h name e)
      (t.defineAround (r.map h) name (e.rename r.map)) := by
  obtain ⟨hp, hmap⟩ := hm.parent? hk
  unfold Store.defineAround
  rw [hmap]
  exact hm.define hp name hv he

/-! ## Collections -/

/-- It is enough to know scopes that hold one another. -/
theorem restrict (hm : Mirrors root r s t) {keep : Handle → Prop} (hroot : keep root)
    (hclosed : ∀ g h scope, r.known g → keep g → s.scope? g = some scope →
      (scope.parent = some h ∨ ∃ name e, scope.bindings.get? name = some e ∧ h ∈ e.captured) →
      keep h) : Mirrors root (r.restrict keep) s t := by
  refine ⟨hm.left, hm.right, fun g h hg hh => hm.injective g h hg.1 hh.1, ⟨hm.known_root, hroot⟩,
    fun h hh => hm.rooted h hh.1, fun h scope hh hs => ?_⟩
  obtain ⟨image, ht, hi⟩ := hm.image h scope hh.1 hs
  refine ⟨image, ht, hi.parent, fun p hp => ?_, hi.get?, fun name e he => ?_⟩
  · exact ⟨hi.known_parent p hp, hclosed h p scope hh.1 hh.2 hs (.inl hp)⟩
  · obtain ⟨hv, hk⟩ := hi.bound name e he
    exact ⟨hv, fun g hg => ⟨hk g hg, hclosed h g scope hh.1 hh.2 hs (.inr ⟨name, e, he, hg⟩)⟩⟩

/-- After a collection on the left, what can still be reached there is mirrored. -/
theorem collect_left (hm : Mirrors root r s t) (values : List Expr) :
    Mirrors root (r.restrict (s.Reaches ([root] ++ capturedAll values)))
      (s.collect [root] values).2 t := by
  refine (hm.restrict (.root (by simp)) fun g h scope _ hg hs hh => ?_).of_known
    (Store.sound_collect hm.left _ _) hm.right (fun h hh => ?_) fun _ _ => rfl
  · rcases hh with hp | ⟨name, e, he, hh⟩
    · exact .link hg hs (Store.mem_captured_of_parent hp)
    · exact .link hg hs (Store.mem_captured_of_bound he hh)
  · obtain ⟨scope, -, hs, -⟩ := hm.exists_scope hh.1
    rw [hs, Store.scope?_collect_iff.2 ⟨hs, hh.2⟩]

/-- After a collection on the right, what can still be reached there mirrors something. -/
theorem collect_right (hm : Mirrors root r s t) (values : List Expr) :
    Mirrors root (r.restrict fun h => t.Reaches ([r.map root] ++ capturedAll values) (r.map h)) s
      (t.collect [r.map root] values).2 := by
  refine (hm.restrict (.root (by simp)) fun g h scope hk hg hs hh => ?_).of_known
    hm.left (Store.sound_collect hm.right _ _) (fun _ _ => rfl) fun h hh => ?_
  · obtain ⟨image, ht, hi⟩ := hm.image g scope hk hs
    rcases hh with hp | ⟨name, e, he, hh⟩
    · exact .link hg ht (Store.mem_captured_of_parent (by rw [hi.parent, hp]; rfl))
    · refine .link hg ht (Store.mem_captured_of_bound (by rw [hi.get?, he]; rfl) ?_)
      rw [Expr.captured_rename]
      exact List.mem_map_of_mem hh
  · obtain ⟨-, image, -, ht, -⟩ := hm.exists_scope hh.1
    change (t.collect [r.map root] values).2.scope? (r.map h) = t.scope? (r.map h)
    rw [ht, Store.scope?_collect_iff.2 ⟨ht, hh.2⟩]

end Mirrors

/-! ## A store as its own image -/

/-- The renaming that leaves the scopes it knows where they are. -/
def Renaming.same (known : Handle → Prop) : Renaming :=
  ⟨id, known⟩

/-- Every scope lies inside `root`, every bound expression is a value, and no handle is stale. -/
structure Store.Closed (s : Store) (root : Handle) : Prop where
  sound : s.Sound
  live_root : s.isLive root = true
  rooted : ∀ h, s.isLive h = true → s.Rooted root h
  bound : ∀ h scope name e, s.scope? h = some scope → scope.bindings.get? name = some e →
    e.isValue = true ∧ ∀ g ∈ e.captured, s.isLive g = true

variable {root : Handle} {r : Renaming} {s t : Store}

theorem Store.Closed.isLive_parent (hc : s.Closed root) {h p : Handle} {scope : Scope}
    (hs : s.scope? h = some scope) (hp : scope.parent = some p) : s.isLive p = true :=
  ((hc.rooted h (Store.isLive_iff.2 ⟨scope, hs⟩)).parent hs hp).isLive

theorem Store.Closed.isLive_captured (hc : s.Closed root) {h g : Handle} {scope : Scope}
    (hs : s.scope? h = some scope) (hg : g ∈ scope.captured) : s.isLive g = true := by
  rcases List.mem_append.1 hg with hg | hg
  · exact hc.isLive_parent hs (by simpa using hg)
  · obtain ⟨e, he, hg⟩ := mem_capturedAll.1 hg
    obtain ⟨name, he⟩ := (hc.sound.distinct h scope hs).mem_values_iff.1 he
    exact (hc.bound h scope name e hs he).2 g hg

theorem Store.Closed.mirrors (hc : s.Closed root) :
    Mirrors root (.same fun h => s.isLive h = true) s s := by
  refine ⟨hc.sound, hc.sound, fun _ _ _ _ he => he, hc.live_root, hc.rooted,
    fun h scope _ hs => ⟨scope, hs, ?_, fun p hp => hc.isLive_parent hs hp, fun name => ?_,
      fun name e he => hc.bound h scope name e hs he⟩⟩
  · simp [Renaming.same]
  · have hid : Expr.rename id = id := funext Expr.rename_id
    simp [Renaming.same, hid]

theorem Mirrors.closed (hm : Mirrors root r s t) (hl : ∀ h, s.isLive h = true → r.known h) :
    s.Closed root := by
  refine ⟨hm.left, hm.isLive hm.known_root, fun h hh => hm.rooted h (hl h hh),
    fun h scope name e hs he => ?_⟩
  obtain ⟨image, -, hi⟩ := hm.image h scope (hl h (Store.isLive_iff.2 ⟨scope, hs⟩)) hs
  obtain ⟨hv, hk⟩ := hi.bound name e he
  exact ⟨hv, fun g hg => hm.isLive (hk g hg)⟩

theorem Store.scope?_root_iff {h : Handle} {scope : Scope} :
    Store.empty.root.2.scope? h = some scope ↔
      h = Store.empty.root.1 ∧ scope = ⟨none, .empty⟩ := by
  rw [Store.root, Store.scope?_allocate Store.sound_empty]
  split
  · rename_i he
    simp [he, eq_comm]
  · rename_i he
    simp [he]

theorem Store.closed_root : Store.empty.root.2.Closed Store.empty.root.1 := by
  have hself : Store.empty.root.2.scope? Store.empty.root.1 = some ⟨none, .empty⟩ :=
    Store.scope?_root_iff.2 ⟨rfl, rfl⟩
  refine ⟨Store.sound_allocate Store.sound_empty none, Store.isLive_iff.2 ⟨_, hself⟩,
    fun h hh => ?_, fun h scope name e hs he => ?_⟩
  · obtain ⟨scope, hs⟩ := Store.isLive_iff.1 hh
    obtain ⟨rfl, -⟩ := Store.scope?_root_iff.1 hs
    exact .root hself rfl
  · obtain ⟨-, rfl⟩ := Store.scope?_root_iff.1 hs
    cases he

end Stepwise
