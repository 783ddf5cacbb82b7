import Stepwise.Proofs.Store.Lookup
/-!
# What a collection keeps

`Reaches` says which handles can be come upon from given roots, through parents and through the
handles that bound expressions hold. Marking finds exactly these (`reachable_iff`), so that a
collection keeps every live scope that can be reached, unchanged, and takes every other
(`scope?_collect_iff`). What a sweep answers is the number of scopes that it takes
(`count_sweep`).
-/

namespace Stepwise.Store

variable {s : Store} {roots : List Handle} {g h : Handle} {scope : Scope} {marks : Array Bool}
  {pending : List Handle}

/-- `h` can be come upon from `roots` through live scopes. -/
inductive Reaches (s : Store) (roots : List Handle) : Handle → Prop
  | root {h : Handle} : h ∈ roots → Reaches s roots h
  | link {g h : Handle} {scope : Scope} :
      Reaches s roots g → s.scope? g = some scope → h ∈ scope.captured → Reaches s roots h

theorem mem_captured_of_parent {p : Handle} (hp : scope.parent = some p) : p ∈ scope.captured := by
  simp [Scope.captured, hp]

theorem mem_captured_of_bound {name : String} {e : Expr} (he : scope.bindings.get? name = some e)
    (hh : h ∈ e.captured) : h ∈ scope.captured := by
  refine List.mem_append_right _ (mem_capturedAll.2 ⟨e, ?_, hh⟩)
  exact Bindings.mem_values_of_get? he

/-! ## Marking -/

/-- A slot is marked. -/
def Marked (marks : Array Bool) (i : Nat) : Prop :=
  marks[i]? = some true

theorem Marked.set {i j : Nat} (h : Marked marks i) : Marked (marks.setIfInBounds j true) i := by
  unfold Marked at *
  rw [Array.getElem?_setIfInBounds]
  grind

theorem marked_set_iff {i j : Nat} (hj : marks[j]? = some false) :
    Marked (marks.setIfInBounds j true) i ↔ i = j ∨ Marked marks i := by
  have hlt := (Array.getElem?_eq_some_iff.1 hj).1
  unfold Marked
  rw [Array.getElem?_setIfInBounds]
  grind

/-- A slot that has no mark yet though one is kept for it. -/
theorem unmarked_of_not_marked (hsize : marks.size = s.slots.size) (hl : s.isLive h = true)
    (hm : ¬ Marked marks h.slot) : marks[h.slot]? = some false := by
  have hlt : h.slot < marks.size := hsize ▸ slot_lt_size hl
  unfold Marked at hm
  rw [Array.getElem?_eq_getElem hlt] at hm ⊢
  simpa using hm

/-- Marking keeps the marks there are. -/
theorem marked_mark {i : Nat} (hm : Marked marks i) : Marked (s.mark marks pending) i := by
  fun_induction mark s marks pending with
  | case1 => exact hm
  | case2 _ _ _ _ ih => exact ih hm
  | case3 _ _ _ _ _ _ _ ih => exact ih hm.set
  | case4 _ _ _ _ _ _ ih => exact ih hm

/-- Every slot that marking marks houses a scope that can be reached. -/
theorem reaches_of_marked_mark (hp : ∀ h ∈ pending, s.Reaches roots h)
    (hm : ∀ h, s.isLive h = true → Marked marks h.slot → s.Reaches roots h)
    (hl : s.isLive h = true) (hh : Marked (s.mark marks pending) h.slot) : s.Reaches roots h := by
  fun_induction mark s marks pending with
  | case1 => exact hm h hl hh
  | case2 _ _ _ _ ih => exact ih (fun g hg => hp g (by simp [hg])) hm hh
  | case3 marks k pending scope hk unseen _ ih =>
    have hkr : s.Reaches roots k := hp k (by simp)
    refine ih (fun g hg => ?_) (fun g hg hgm => ?_) hh
    · rcases List.mem_append.1 hg with hg | hg
      · exact .link hkr hk hg
      · exact hp g (by simp [hg])
    · rcases (marked_set_iff unseen).1 hgm with he | hgm
      · exact eq_of_slot_eq hg (isLive_iff.2 ⟨_, hk⟩) he ▸ hkr
      · exact hm g hg hgm
  | case4 _ _ _ _ _ _ ih => exact ih (fun g hg => hp g (by simp [hg])) hm hh

/-- What a marked scope holds is marked too, or waits to be. -/
def Pursued (s : Store) (marks : Array Bool) (pending : List Handle) : Prop :=
  ∀ g scope, s.scope? g = some scope → Marked marks g.slot →
    ∀ h ∈ scope.captured, s.isLive h = true → Marked marks h.slot ∨ h ∈ pending

/-- At the end nothing waits: every waiting scope is marked, and so is all that marked scopes
hold. -/
theorem pursued_mark (hsize : marks.size = s.slots.size) (hp : s.Pursued marks pending) :
    s.Pursued (s.mark marks pending) [] ∧
      ∀ h ∈ pending, s.isLive h = true → Marked (s.mark marks pending) h.slot := by
  fun_induction mark s marks pending with
  | case1 => exact ⟨hp, by simp⟩
  | case2 marks k pending hk ih =>
    -- a stale handle is passed over
    have hnk : ∀ h, h = k → s.isLive h = true → False := by
      rintro h rfl hl
      obtain ⟨_, hs⟩ := isLive_iff.1 hl
      rw [hk] at hs
      cases hs
    obtain ⟨h1, h2⟩ := ih hsize fun g scope hs hm h hh hl => by
      rcases hp g scope hs hm h hh hl with hm | hm
      · exact .inl hm
      · rcases List.mem_cons.1 hm with he | hm
        · exact (hnk h he hl).elim
        · exact .inr hm
    refine ⟨h1, fun h hh hl => ?_⟩
    rcases List.mem_cons.1 hh with he | hh
    · exact (hnk h he hl).elim
    · exact h2 h hh hl
  | case3 marks k pending scope hk unseen _ ih =>
    -- a scope met for the first time is marked, and what it holds waits from now on
    obtain ⟨h1, h2⟩ := ih (by rw [Array.size_setIfInBounds, hsize]) fun g scope' hs hm h hh hl => by
      rcases (marked_set_iff unseen).1 hm with he | hm
      · cases eq_of_slot_eq (isLive_iff.2 ⟨_, hs⟩) (isLive_iff.2 ⟨_, hk⟩) he
        rw [hk] at hs
        cases hs
        exact .inr (List.mem_append_left _ hh)
      · rcases hp g scope' hs hm h hh hl with hm | hm
        · exact .inl hm.set
        · rcases List.mem_cons.1 hm with rfl | hm
          · exact .inl ((marked_set_iff unseen).2 (.inl rfl))
          · exact .inr (List.mem_append_right _ hm)
    refine ⟨h1, fun h hh hl => ?_⟩
    rcases List.mem_cons.1 hh with rfl | hh
    · exact marked_mark ((marked_set_iff unseen).2 (.inl rfl))
    · exact h2 h (List.mem_append_right _ hh) hl
  | case4 marks k pending scope hk seen ih =>
    -- a scope met before
    have hkm : Marked marks k.slot := by
      by_contra hn
      exact seen (unmarked_of_not_marked hsize (isLive_iff.2 ⟨_, hk⟩) hn)
    obtain ⟨h1, h2⟩ := ih hsize fun g scope' hs hm h hh hl => by
      rcases hp g scope' hs hm h hh hl with hm | hm
      · exact .inl hm
      · rcases List.mem_cons.1 hm with rfl | hm
        · exact .inl hkm
        · exact .inr hm
    refine ⟨h1, fun h hh hl => ?_⟩
    rcases List.mem_cons.1 hh with rfl | hh
    · exact marked_mark hkm
    · exact h2 h hh hl

theorem not_marked_replicate {n i : Nat} : ¬ Marked (Array.replicate n false) i := by
  unfold Marked
  rw [Array.getElem?_replicate]
  grind

/-- The marked slots are those of the live scopes that can be reached. -/
theorem reachable_iff (hl : s.isLive h = true) :
    Marked (s.reachable roots) h.slot ↔ s.Reaches roots h := by
  constructor
  · intro hm
    exact reaches_of_marked_mark (fun g hg => .root hg)
      (fun g _ hg => (not_marked_replicate hg).elim) hl hm
  · intro hr
    have hstart : s.Pursued (Array.replicate s.slots.size false) roots :=
      fun _ _ _ hm => (not_marked_replicate hm).elim
    obtain ⟨hclosed, hroots⟩ := pursued_mark (by simp) hstart
    induction hr with
    | root hh => exact hroots _ hh hl
    | link hr hs hc ih =>
      have hm := ih (isLive_iff.2 ⟨_, hs⟩)
      rcases hclosed _ _ hs hm _ hc hl with hm | hm
      · exact hm
      · simp at hm

/-! ## Collection -/

/-- A collection keeps exactly the live scopes that can be reached, each as it was. -/
theorem scope?_collect_iff {values : List Expr} :
    (s.collect roots values).2.scope? h = some scope ↔
      s.scope? h = some scope ∧ s.Reaches (roots ++ capturedAll values) h := by
  unfold collect
  rw [scope?_sweep]
  constructor
  · intro hh
    split at hh
    · cases hh
    · rename_i hd
      have hl : s.isLive h = true := isLive_iff.2 ⟨_, hh⟩
      refine ⟨hh, (reachable_iff hl).1 ?_⟩
      simpa [Marked, handleAt?_of_isLive hl] using hd
  · rintro ⟨hh, hr⟩
    have hl : s.isLive h = true := isLive_iff.2 ⟨_, hh⟩
    have hm : (s.reachable (roots ++ capturedAll values))[h.slot]? = some true :=
      (reachable_iff hl).2 hr
    rw [if_neg (by simp [hm]), hh]

theorem sound_collect (hs : s.Sound) (roots : List Handle) (values : List Expr) :
    (s.collect roots values).2.Sound :=
  sound_sweep hs fun _ hi => (Bool.and_eq_true_iff.1 hi).1

/-- What could be reached before a collection can be reached after it. -/
theorem Reaches.collect {values : List Expr} (hr : s.Reaches (roots ++ capturedAll values) h) :
    (s.collect roots values).2.Reaches (roots ++ capturedAll values) h := by
  induction hr with
  | root hh => exact .root hh
  | link hr hs hc ih => exact .link ih (scope?_collect_iff.2 ⟨hs, hr⟩) hc

/-- What survives a collection looks names up as before, however far it has to look. -/
theorem chainFrom_collect {values : List Expr} (hr : s.Reaches (roots ++ capturedAll values) h)
    (n : Nat) : (s.collect roots values).2.chainFrom n h = s.chainFrom n h := by
  refine chainFrom_congr (K := s.Reaches (roots ++ capturedAll values)) (fun g hg => ?_)
    (fun g scope p hg hs hp => .link hg hs (mem_captured_of_parent hp)) n hr
  exact Option.ext fun scope => scope?_collect_iff.trans (and_iff_left hg)

/-! ## Counting scopes -/

/-- The handles of all scopes. -/
def liveScopes (s : Store) : Finset Handle :=
  ((List.range s.slots.size).filterMap s.handleAt?).toFinset

@[simp]
theorem mem_liveScopes : h ∈ s.liveScopes ↔ s.isLive h = true := by
  simp only [liveScopes, List.mem_toFinset, List.mem_filterMap, List.mem_range,
    handleAt?_eq_some_iff]
  constructor
  · rintro ⟨_, _, _, hl⟩
    exact hl
  · intro hl
    exact ⟨h.slot, slot_lt_size hl, rfl, hl⟩

/-- Scopes are as many as their slots. -/
theorem card_eq_of_slots {scopes : Finset Handle} {slots : List Nat} (hnodup : slots.Nodup)
    (hlive : ∀ h ∈ scopes, s.isLive h = true)
    (hslots : ∀ i, i ∈ slots ↔ ∃ h ∈ scopes, h.slot = i) : scopes.card = slots.length := by
  have himage : scopes.image Handle.slot = slots.toFinset := by
    ext i
    rw [Finset.mem_image, List.mem_toFinset, hslots]
  have hinj : Set.InjOn Handle.slot scopes := by
    intro g hg h hh he
    exact eq_of_slot_eq (hlive g hg) (hlive h hh) he
  rw [← Finset.card_image_of_injOn hinj, himage, List.toFinset_card_of_nodup hnodup]

/-- A sweep of slots in use counts the scopes that it takes. -/
theorem count_sweep {doomed : Nat → Bool} (hd : ∀ i, doomed i = true → (s.handleAt? i).isSome) :
    (s.sweep doomed).1 = (s.liveScopes \ (s.sweep doomed).2.liveScopes).card := by
  have hgone : ∀ h, h ∈ s.liveScopes \ (s.sweep doomed).2.liveScopes ↔
      s.isLive h = true ∧ doomed h.slot = true := by
    intro h
    rw [Finset.mem_sdiff, mem_liveScopes, mem_liveScopes, isLive, isLive, scope?_sweep]
    cases s.scope? h <;> by_cases hdoomed : doomed h.slot = true <;> simp [hdoomed]
  symm
  apply card_eq_of_slots (s := s) (List.nodup_range.filter _)
  · intro h hh
    exact ((hgone h).1 hh).1
  · intro i
    rw [List.mem_filter, List.mem_range]
    constructor
    · rintro ⟨_, hi⟩
      obtain ⟨h, hh⟩ := Option.isSome_iff_exists.1 (hd i hi)
      obtain ⟨rfl, hl⟩ := handleAt?_eq_some_iff.1 hh
      exact ⟨h, (hgone h).2 ⟨hl, hi⟩, rfl⟩
    · rintro ⟨h, hh, rfl⟩
      obtain ⟨hl, hi⟩ := (hgone h).1 hh
      exact ⟨slot_lt_size hl, hi⟩

theorem length_vacant (hs : s.Sound) :
    s.vacant.length = s.slots.countP fun slot => slot.scope.isNone := by
  have hperm : s.vacant.Perm (s.slots.toList.findIdxs fun slot => slot.scope.isNone) := by
    refine (List.perm_ext_iff_of_nodup hs.nodup List.nodup_findIdxs).2 fun i => ?_
    rw [hs.vacant_iff, List.mem_findIdxs_iff_exists_getElem_pos]
    simp only [Array.getElem?_eq_some_iff, Array.getElem_toList, Array.length_toList,
      Option.isNone_iff_eq_none]
    constructor
    · rintro ⟨m, hlt, hslot⟩
      exact ⟨hlt, by rw [hslot]⟩
    · rintro ⟨hlt, hnone⟩
      exact ⟨s.slots[i].generation, hlt, by rw [← hnone]⟩
  rw [hperm.length_eq, List.length_findIdxs, Array.countP_toList]

/-- Taking the vacant slots from all slots counts those that house a scope. -/
theorem liveCount_eq_countP (hs : s.Sound) :
    s.liveCount = s.slots.countP fun slot => slot.scope.isSome := by
  have hsize : s.slots.size = (s.slots.countP fun slot => slot.scope.isSome) +
      s.slots.countP fun slot => decide ¬ slot.scope.isSome = true := Array.size_eq_countP_add_countP
  have hnone : (fun slot : Slot => decide ¬ slot.scope.isSome = true) =
      fun slot => slot.scope.isNone := by
    funext slot
    cases slot.scope <;> rfl
  rw [hnone, ← length_vacant hs] at hsize
  unfold liveCount
  omega

/-- All scopes are counted by taking the vacant slots from all slots. -/
theorem card_liveScopes (hs : s.Sound) : s.liveScopes.card = s.liveCount := by
  rw [liveCount_eq_countP hs, ← Array.countP_toList, ← List.length_findIdxs]
  apply card_eq_of_slots (s := s) List.nodup_findIdxs
  · intro h hh
    exact mem_liveScopes.1 hh
  · intro i
    rw [List.mem_findIdxs_iff_exists_getElem_pos]
    simp only [mem_liveScopes, isLive_iff, scope?_eq_some_iff, Array.getElem?_eq_some_iff,
      Array.getElem_toList, Array.length_toList, Option.isSome_iff_exists]
    constructor
    · rintro ⟨hlt, scope, hscope⟩
      exact ⟨⟨i, s.slots[i].generation⟩, ⟨scope, hlt, by rw [← hscope]⟩, rfl⟩
    · rintro ⟨h, ⟨scope, hlt, hslot⟩, rfl⟩
      exact ⟨hlt, scope, by rw [hslot]⟩

end Stepwise.Store
