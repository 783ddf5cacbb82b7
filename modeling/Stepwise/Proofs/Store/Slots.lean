import Stepwise.Store.Reclaim
/-!
# Slots and the stack of vacant ones

A slot without a scope waits on the stack of vacant slots, exactly once, and no slot in use does.
Every operation on the store keeps this (`Sound`). It makes a new scope move in where nothing
lives, so that no scope that is there is touched (`scope?_allocate`).
-/

namespace Stepwise

/-! ## Names bound once -/

namespace Bindings

/-- No name is bound twice. -/
def Distinct (bs : Bindings) : Prop :=
  (bs.entries.map Prod.fst).Nodup

theorem distinct_empty : Distinct empty :=
  List.nodup_nil

theorem fst_mem_insertEntry {name n : String} {e : Expr} {es : List (String × Expr)}
    (h : n ∈ (insertEntry name e es).map Prod.fst) : n = name ∨ n ∈ es.map Prod.fst := by
  induction es with
  | nil => exact .inl (by simpa [insertEntry] using h)
  | cons p rest ih => grind [insertEntry]

theorem Distinct.insert {bs : Bindings} (h : bs.Distinct) (name : String) (e : Expr) :
    (bs.insert name e).Distinct := by
  obtain ⟨es⟩ := bs
  simp only [Distinct, Bindings.insert] at h ⊢
  induction es with
  | nil => simp [insertEntry]
  | cons p rest ih =>
    obtain ⟨n, f⟩ := p
    rw [List.map_cons, List.nodup_cons] at h
    unfold insertEntry
    split
    · rename_i hn
      rw [List.map_cons, List.nodup_cons]
      exact ⟨hn ▸ h.1, h.2⟩
    · rename_i hn
      rw [List.map_cons, List.nodup_cons]
      refine ⟨fun hm => ?_, ih h.2⟩
      rcases fst_mem_insertEntry hm with rfl | hm
      · exact hn rfl
      · exact h.1 hm

theorem mem_of_lookup {name : String} {e : Expr} {es : List (String × Expr)}
    (h : es.lookup name = some e) : (name, e) ∈ es := by
  induction es with
  | nil => simp at h
  | cons p rest ih => grind

theorem mem_values_of_get? {bs : Bindings} {name : String} {e : Expr} (h : bs.get? name = some e) :
    e ∈ bs.values :=
  List.mem_map.2 ⟨(name, e), mem_of_lookup h, rfl⟩

theorem lookup_of_mem {name : String} {e : Expr} {es : List (String × Expr)}
    (hd : (es.map Prod.fst).Nodup) (h : (name, e) ∈ es) : es.lookup name = some e := by
  induction es with
  | nil => simp at h
  | cons p rest ih =>
    obtain ⟨n, f⟩ := p
    rw [List.map_cons, List.nodup_cons] at hd
    rcases List.mem_cons.1 h with hp | hp
    · cases hp
      simp
    · have hne : (name == n) = false := by
        refine beq_eq_false_iff_ne.2 fun hn => hd.1 ?_
        exact List.mem_map.2 ⟨(name, e), hp, hn⟩
      rw [List.lookup_cons, hne]
      exact ih hd.2 hp

/-- Every bound expression can be looked up. -/
theorem Distinct.mem_values_iff {bs : Bindings} (h : bs.Distinct) {e : Expr} :
    e ∈ bs.values ↔ ∃ name, bs.get? name = some e := by
  refine ⟨fun he => ?_, fun ⟨_, hn⟩ => mem_values_of_get? hn⟩
  obtain ⟨⟨name, f⟩, hm, rfl⟩ := List.mem_map.1 he
  exact ⟨name, lookup_of_mem h hm⟩

end Bindings

namespace Store

/-! ## Vacant slots -/

/-- The vacant slots are exactly those that have no scope, each listed once, and no scope binds a
name twice. -/
structure Sound (s : Store) : Prop where
  nodup : s.vacant.Nodup
  vacant_iff : ∀ i, i ∈ s.vacant ↔ ∃ generation, s.slots[i]? = some ⟨generation, none⟩
  distinct : ∀ h scope, s.scope? h = some scope → scope.bindings.Distinct

theorem scope?_eq_some_iff {s : Store} {h : Handle} {scope : Scope} :
    s.scope? h = some scope ↔ s.slots[h.slot]? = some ⟨h.generation, some scope⟩ := by
  unfold scope?
  cases s.slots[h.slot]? with
  | none => simp
  | some slot => obtain ⟨generation, content⟩ := slot; grind

theorem isLive_iff {s : Store} {h : Handle} : s.isLive h = true ↔ ∃ scope, s.scope? h = some scope :=
  Option.isSome_iff_exists

/-- A slot houses at most one scope. -/
theorem eq_of_slot_eq {s : Store} {g h : Handle} (hg : s.isLive g = true) (hh : s.isLive h = true)
    (hs : g.slot = h.slot) : g = h := by
  obtain ⟨_, hg⟩ := isLive_iff.1 hg
  obtain ⟨_, hh⟩ := isLive_iff.1 hh
  rw [scope?_eq_some_iff] at hg hh
  rw [hs, hh] at hg
  obtain ⟨i, m⟩ := g
  obtain ⟨j, n⟩ := h
  simp_all

theorem slot_lt_size {s : Store} {h : Handle} (hl : s.isLive h = true) : h.slot < s.slots.size := by
  obtain ⟨_, hh⟩ := isLive_iff.1 hl
  exact (Array.getElem?_eq_some_iff.1 (scope?_eq_some_iff.1 hh)).1

theorem sound_empty : Sound empty :=
  ⟨List.nodup_nil, by simp [empty], by simp⟩

/-! ## New scopes -/

/-- The handle of a new scope was stale before. -/
theorem scope?_allocate_self {s : Store} (hs : s.Sound) (parent : Option Handle) :
    s.scope? (s.allocate parent).1 = none := by
  unfold allocate
  cases hv : s.vacant with
  | nil => simp [scope?]
  | cons i rest =>
    obtain ⟨generation, hi⟩ := (hs.vacant_iff i).1 (by simp [hv])
    simp [scope?, hi]

/-- A new scope has nothing bound, and every other handle finds what it found before. -/
theorem scope?_allocate {s : Store} (hs : s.Sound) (parent : Option Handle) (g : Handle) :
    (s.allocate parent).2.scope? g =
      if g = (s.allocate parent).1 then some ⟨parent, .empty⟩ else s.scope? g := by
  obtain ⟨j, n⟩ := g
  unfold allocate
  cases hv : s.vacant with
  | nil =>
    simp only [scope?, Handle.mk.injEq, Array.getElem?_push]
    grind
  | cons i rest =>
    obtain ⟨generation, hi⟩ := (hs.vacant_iff i).1 (by simp [hv])
    simp only [scope?, hi, Handle.mk.injEq, Array.getElem?_setIfInBounds]
    grind

theorem sound_allocate {s : Store} (hs : s.Sound) (parent : Option Handle) :
    (s.allocate parent).2.Sound := by
  have hd : ∀ h scope, (s.allocate parent).2.scope? h = some scope → scope.bindings.Distinct := by
    intro h scope hh
    rw [scope?_allocate hs] at hh
    split at hh
    · cases hh
      exact Bindings.distinct_empty
    · exact hs.distinct h scope hh
  refine ⟨?_, ?_, hd⟩
  · unfold allocate
    cases hv : s.vacant with
    | nil => simp
    | cons i rest => exact (List.nodup_cons.1 (hv ▸ hs.nodup)).2
  · intro j
    have hj := hs.vacant_iff j
    unfold allocate
    cases hv : s.vacant with
    | nil =>
      simp only [hv, Array.getElem?_push] at hj ⊢
      grind
    | cons i rest =>
      have hnd := List.nodup_cons.1 (hv ▸ hs.nodup)
      obtain ⟨generation, hi⟩ := (hs.vacant_iff i).1 (by simp [hv])
      simp only [hv, List.mem_cons, hi, Array.getElem?_setIfInBounds] at hj ⊢
      grind

/-- A scope that is there is not the new one. -/
theorem ne_child {s : Store} (hs : s.Sound) {p g : Handle} (hg : s.isLive g = true) :
    g ≠ (s.child p).1 := by
  rintro rfl
  obtain ⟨scope, hscope⟩ := isLive_iff.1 hg
  rw [child, scope?_allocate_self hs] at hscope
  cases hscope

theorem scope?_child {s : Store} (hs : s.Sound) (p g : Handle) :
    (s.child p).2.scope? g =
      if g = (s.child p).1 then some ⟨some p, .empty⟩ else s.scope? g :=
  scope?_allocate hs (some p) g

theorem scope?_child_self {s : Store} (hs : s.Sound) (p : Handle) :
    (s.child p).2.scope? (s.child p).1 = some ⟨some p, .empty⟩ := by
  rw [scope?_child hs, if_pos rfl]

theorem scope?_child_of_isLive {s : Store} (hs : s.Sound) {p g : Handle} (hg : s.isLive g = true) :
    (s.child p).2.scope? g = s.scope? g := by
  rw [scope?_child hs, if_neg (ne_child hs hg)]

theorem sound_child {s : Store} (hs : s.Sound) (p : Handle) : (s.child p).2.Sound :=
  sound_allocate hs (some p)

/-! ## Definitions -/

theorem scope?_define_self {s : Store} {h : Handle} {scope : Scope} (hs : s.scope? h = some scope)
    {name : String} {e : Expr} :
    (s.define h name e).scope? h =
      some { scope with bindings := scope.bindings.insert name e } := by
  rw [scope?_define, if_pos rfl, hs]
  rfl

/-- A definition through a stale handle changes nothing. -/
theorem define_of_stale {s : Store} {h : Handle} (hs : s.scope? h = none) (name : String)
    (e : Expr) : s.define h name e = s := by
  have hslots : (s.define h name e).slots = s.slots := by
    apply Array.ext_getElem?
    intro i
    rw [define, Array.getElem?_modify]
    split
    · rename_i hi
      subst hi
      unfold scope? at hs
      cases hslot : s.slots[h.slot]? with
      | none => rfl
      | some slot =>
        rw [hslot] at hs
        by_cases hgeneration : slot.generation = h.generation
        · have hcontent : slot.scope = none := by simpa [hgeneration] using hs
          rw [Option.map_some, if_pos hgeneration, hcontent, Option.map_none, ← hcontent]
        · rw [Option.map_some, if_neg hgeneration]
    · rfl
  rw [show s.define h name e = ⟨(s.define h name e).slots, s.vacant⟩ from rfl, hslots]

/-- A definition changes neither parents nor the meaning of other names. -/
theorem exists_scope_define {s : Store} {g : Handle} {scope : Scope} (hs : s.scope? g = some scope)
    (h : Handle) (name : String) (e : Expr) :
    ∃ scope', (s.define h name e).scope? g = some scope' ∧ scope'.parent = scope.parent ∧
      ∀ other, other ≠ name → scope'.bindings.get? other = scope.bindings.get? other := by
  by_cases hg : g = h
  · subst hg
    refine ⟨_, scope?_define_self hs, rfl, fun other hne => ?_⟩
    exact Bindings.get?_insert_of_ne _ _ hne
  · exact ⟨scope, by rw [scope?_define, if_neg hg, hs], rfl, fun _ _ => rfl⟩

theorem sound_define {s : Store} (hs : s.Sound) (h : Handle) (name : String) (e : Expr) :
    (s.define h name e).Sound := by
  refine ⟨hs.nodup, fun i => ?_, fun g scope hg => ?_⟩
  · rw [show (s.define h name e).vacant = s.vacant from rfl, hs.vacant_iff]
    simp only [define, Array.getElem?_modify]
    split
    · rename_i hi
      subst hi
      cases s.slots[h.slot]? with
      | none => simp
      | some slot =>
        obtain ⟨m, content⟩ := slot
        by_cases hm : m = h.generation <;> simp [hm]
    · rfl
  · rw [scope?_define] at hg
    split at hg
    · obtain ⟨scope, hscope, rfl⟩ := Option.map_eq_some_iff.1 hg
      exact (hs.distinct h scope hscope).insert name e
    · exact hs.distinct g scope hg

/-! ## Sweeping -/

theorem handleAt?_eq_some_iff {s : Store} {i : Nat} {h : Handle} :
    s.handleAt? i = some h ↔ h.slot = i ∧ s.isLive h = true := by
  obtain ⟨j, n⟩ := h
  rw [isLive_iff]
  simp only [scope?_eq_some_iff]
  unfold handleAt?
  grind

theorem handleAt?_of_isLive {s : Store} {h : Handle} (hl : s.isLive h = true) :
    s.handleAt? h.slot = some h :=
  handleAt?_eq_some_iff.2 ⟨rfl, hl⟩

/-- A sweep takes the doomed scopes and leaves every other as it is. -/
theorem scope?_sweep (s : Store) (doomed : Nat → Bool) (h : Handle) :
    (s.sweep doomed).2.scope? h = if doomed h.slot then none else s.scope? h := by
  simp only [scope?, sweep, Array.getElem?_mapIdx]
  cases s.slots[h.slot]? with
  | none => simp
  | some slot => by_cases hd : doomed h.slot <;> simp [hd]

/-- A sweep that dooms only slots in use keeps the vacant ones apart. -/
theorem sound_sweep {s : Store} (hs : s.Sound) {doomed : Nat → Bool}
    (hd : ∀ i, doomed i = true → (s.handleAt? i).isSome) : (s.sweep doomed).2.Sound := by
  have hlive : ∀ i, doomed i = true → ∃ m scope, s.slots[i]? = some ⟨m, some scope⟩ := by
    intro i hi
    obtain ⟨h, hh⟩ := Option.isSome_iff_exists.1 (hd i hi)
    obtain ⟨rfl, hl⟩ := handleAt?_eq_some_iff.1 hh
    obtain ⟨scope, hscope⟩ := isLive_iff.1 hl
    exact ⟨_, scope, scope?_eq_some_iff.1 hscope⟩
  refine ⟨?_, fun i => ?_, fun h scope hh => ?_⟩
  · refine List.nodup_append.2 ⟨?_, hs.nodup, ?_⟩
    · exact (List.reverse_perm _).nodup_iff.2 (List.nodup_range.filter _)
    · rintro i hi j hj rfl
      obtain ⟨m, scope, hm⟩ := hlive i (List.mem_filter.1 (List.mem_reverse.1 hi)).2
      obtain ⟨n, hn⟩ := (hs.vacant_iff i).1 hj
      rw [hm] at hn
      cases hn
  · have hv := hs.vacant_iff i
    have hi := hlive i
    simp only [sweep, List.mem_append, List.mem_reverse, List.mem_filter, List.mem_range, hv,
      Array.getElem?_mapIdx]
    by_cases hdi : doomed i = true
    · obtain ⟨m, scope, hm⟩ := hi hdi
      have hlt := (Array.getElem?_eq_some_iff.1 hm).1
      simp [hdi, hlt]
    · cases s.slots[i]? <;> simp [hdi]
  · rw [scope?_sweep] at hh
    split at hh
    · cases hh
    · exact hs.distinct h scope hh

end Store

end Stepwise
