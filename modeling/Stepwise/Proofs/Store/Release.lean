import Stepwise.Proofs.Store.Reachable
/-!
# What a release takes

`Inside` says which scopes lie inside a given one, at any depth: those from which live parents lead
to it. Dooming goes on, round after round, until a round changes nothing. Whatever it dooms lies
inside the released scope, and a round that changes nothing has left out no scope whose parent is
doomed, so in the end exactly the scopes inside are doomed (`marked_doomedWith`). A release takes
these and leaves every other scope as it is (`scope?_release_iff`).
-/

namespace Stepwise.Store

variable {s : Store} {g h p : Handle} {scope : Scope} {doomed : Array Bool} {i j : Nat}

/-- `g` is `h` or lies inside it, by parents that are all live. -/
inductive Inside (s : Store) (h : Handle) : Handle → Prop
  | self : s.isLive h = true → Inside s h h
  | inside {g p : Handle} {scope : Scope} :
      s.scope? g = some scope → scope.parent = some p → Inside s h p → Inside s h g

theorem Inside.isLive (hi : s.Inside h g) : s.isLive g = true := by
  cases hi with
  | self hl => exact hl
  | inside hs _ _ => exact isLive_iff.2 ⟨_, hs⟩

theorem Rooted.isInside (hr : s.Rooted h g) : s.Inside h g := by
  induction hr with
  | root hs _ => exact .self (isLive_iff.2 ⟨_, hs⟩)
  | inside hs hp _ ih => exact .inside hs hp ih

/-! ## Dooming -/

theorem parentDoomed_iff :
    s.parentDoomed doomed i = true ↔
      ∃ g scope p, s.handleAt? i = some g ∧ s.scope? g = some scope ∧ scope.parent = some p ∧
        s.isLive p = true ∧ Marked doomed p.slot := by
  unfold parentDoomed Marked
  cases hg : s.handleAt? i with
  | none => simp
  | some g =>
    obtain ⟨scope, hs⟩ := isLive_iff.1 (handleAt?_eq_some_iff.1 hg).2
    cases hp : scope.parent <;> simp [parent?, hs, hp]

theorem parentDoomed_mono {doomed' : Array Bool} (hm : ∀ j, Marked doomed j → Marked doomed' j)
    (hp : s.parentDoomed doomed i = true) : s.parentDoomed doomed' i = true := by
  obtain ⟨g, scope, p, hg, hs, hp, hl, hd⟩ := parentDoomed_iff.1 hp
  exact parentDoomed_iff.2 ⟨g, scope, p, hg, hs, hp, hl, hm p.slot hd⟩

/-- What is doomed after one slot was looked at: what was doomed before, and the slot itself if its
scope has a doomed parent. -/
theorem marked_doomAt_iff (hlt : i < doomed.size) :
    Marked (s.doomAt doomed i) j ↔
      Marked doomed j ∨ j = i ∧ s.parentDoomed doomed i = true := by
  unfold doomAt
  by_cases hmarked : Marked doomed i
  · have hset : ¬ (doomed[i]? = some false ∧ s.parentDoomed doomed i = true) := by
      rintro ⟨hfalse, -⟩
      rw [Marked, hfalse] at hmarked
      cases hmarked
    rw [if_neg hset]
    constructor
    · exact .inl
    · rintro (hj | ⟨rfl, -⟩)
      · exact hj
      · exact hmarked
  · have hfalse : doomed[i]? = some false := by
      rw [Marked, Array.getElem?_eq_getElem hlt] at hmarked
      rw [Array.getElem?_eq_getElem hlt]
      simpa using hmarked
    by_cases hp : s.parentDoomed doomed i = true
    · rw [if_pos ⟨hfalse, hp⟩, marked_set_iff hfalse]
      simp [hp, or_comm]
    · rw [if_neg fun hc => hp hc.2]
      simp [hp]

@[simp]
theorem size_doomAt : (s.doomAt doomed i).size = doomed.size := by
  unfold doomAt
  split <;> simp

@[simp]
theorem size_doomOnce : (s.doomOnce doomed).size = doomed.size := by
  unfold doomOnce
  generalize List.range s.slots.size = slots
  induction slots generalizing doomed with
  | nil => rfl
  | cons i rest ih => exact ih.trans size_doomAt

theorem marked_foldl_doomAt {slots : List Nat} (hlt : ∀ i ∈ slots, i < doomed.size)
    (hm : Marked doomed j) : Marked (slots.foldl s.doomAt doomed) j := by
  induction slots generalizing doomed with
  | nil => exact hm
  | cons i rest ih =>
    have hi := hlt i (by simp)
    refine ih (fun k hk => ?_) ((marked_doomAt_iff hi).2 (.inl hm))
    rw [size_doomAt]
    exact hlt k (by simp [hk])

/-- A round dooms every slot whose scope had a doomed parent before it. -/
theorem marked_foldl_of_parentDoomed {slots : List Nat} (hlt : ∀ i ∈ slots, i < doomed.size)
    (hj : j ∈ slots) (hp : s.parentDoomed doomed j = true) :
    Marked (slots.foldl s.doomAt doomed) j := by
  induction slots generalizing doomed with
  | nil => cases hj
  | cons i rest ih =>
    have hi := hlt i (by simp)
    have hrest : ∀ k ∈ rest, k < (s.doomAt doomed i).size := by
      intro k hk
      rw [size_doomAt]
      exact hlt k (by simp [hk])
    rw [List.foldl_cons]
    rcases List.mem_cons.1 hj with rfl | hj
    · exact marked_foldl_doomAt hrest ((marked_doomAt_iff hi).2 (.inr ⟨rfl, hp⟩))
    · refine ih hrest hj (parentDoomed_mono (fun k hk => ?_) hp)
      exact (marked_doomAt_iff hi).2 (.inl hk)

/-- Only slots of scopes inside `h` are doomed. -/
def DoomsInside (s : Store) (h : Handle) (doomed : Array Bool) : Prop :=
  doomed.size = s.slots.size ∧ ∀ i, Marked doomed i → ∃ g, s.handleAt? i = some g ∧ s.Inside h g

theorem DoomsInside.doomAt (hd : s.DoomsInside h doomed) (hi : i < s.slots.size) :
    s.DoomsInside h (s.doomAt doomed i) := by
  refine ⟨size_doomAt.trans hd.1, fun j hj => ?_⟩
  rcases (marked_doomAt_iff (hd.1 ▸ hi)).1 hj with hj | ⟨rfl, hp⟩
  · exact hd.2 j hj
  · -- the parent is doomed, so it lies inside, and the scope itself lies inside it
    obtain ⟨g, scope, p, hg, hs, hparent, hl, hm⟩ := parentDoomed_iff.1 hp
    obtain ⟨p', hp', hinside⟩ := hd.2 p.slot hm
    rw [handleAt?_of_isLive hl] at hp'
    cases hp'
    exact ⟨g, hg, .inside hs hparent hinside⟩

theorem DoomsInside.doomOnce (hd : s.DoomsInside h doomed) : s.DoomsInside h (s.doomOnce doomed) := by
  have hfold : ∀ slots : List Nat, (∀ i ∈ slots, i < s.slots.size) →
      ∀ doomed, s.DoomsInside h doomed → s.DoomsInside h (slots.foldl s.doomAt doomed) := by
    intro slots hlt
    induction slots with
    | nil =>
      intro doomed hd
      exact hd
    | cons i rest ih =>
      intro doomed hd
      exact ih (fun k hk => hlt k (by simp [hk])) _ (hd.doomAt (hlt i (by simp)))
  exact hfold _ (fun i hi => List.mem_range.1 hi) doomed hd

theorem DoomsInside.doom (hd : s.DoomsInside h doomed) : s.DoomsInside h (s.doom doomed) := by
  fun_induction Store.doom s doomed with
  | case1 => exact hd
  | case2 doomed _ _ _ ih => exact ih hd.doomOnce

/-- Dooming goes on until another round would change nothing. -/
theorem doomOnce_doom (s : Store) (doomed : Array Bool) :
    s.doomOnce (s.doom doomed) = s.doom doomed := by
  fun_induction Store.doom s doomed with
  | case1 doomed _ same => exact same
  | case2 _ _ _ _ ih => exact ih

theorem marked_doom (hsize : doomed.size = s.slots.size) (hm : Marked doomed i) :
    Marked (s.doom doomed) i := by
  fun_induction Store.doom s doomed with
  | case1 => exact hm
  | case2 doomed next _ _ ih =>
    have hlt : ∀ i ∈ List.range s.slots.size, i < doomed.size := by
      intro i hi
      rw [hsize]
      exact List.mem_range.1 hi
    exact ih (size_doomOnce.trans hsize) (marked_foldl_doomAt hlt hm)

theorem marked_start (hh : s.isLive h = true) :
    Marked ((Array.replicate s.slots.size false).setIfInBounds h.slot true) i ↔ i = h.slot := by
  have hfalse : (Array.replicate s.slots.size false)[h.slot]? = some false := by
    rw [Array.getElem?_replicate, if_pos (slot_lt_size hh)]
  rw [marked_set_iff hfalse]
  simp [not_marked_replicate]

theorem doomsInside_doomedWith (hh : s.isLive h = true) : s.DoomsInside h (s.doomedWith h) := by
  refine DoomsInside.doom ⟨by simp, fun i hi => ?_⟩
  rw [(marked_start hh).1 hi]
  exact ⟨h, handleAt?_of_isLive hh, .self hh⟩

/-- Exactly the slots of scopes inside `h` go with it. -/
theorem marked_doomedWith (hh : s.isLive h = true) (hg : s.isLive g = true) :
    Marked (s.doomedWith h) g.slot ↔ s.Inside h g := by
  obtain ⟨hsize, hdooms⟩ := doomsInside_doomedWith hh
  constructor
  · intro hm
    obtain ⟨g', hg', hinside⟩ := hdooms g.slot hm
    rw [handleAt?_of_isLive hg] at hg'
    cases hg'
    exact hinside
  · intro hinside
    induction hinside with
    | self _ => exact marked_doom (by simp) ((marked_start hh).2 rfl)
    | @inside g p scope hs hp hinside ih =>
      -- one more round would doom the scope because of its parent, and it changes nothing
      have hround : s.doomOnce (s.doomedWith h) = s.doomedWith h := doomOnce_doom s _
      have hparent : s.parentDoomed (s.doomedWith h) g.slot = true :=
        parentDoomed_iff.2 ⟨g, scope, p, handleAt?_of_isLive hg, hs, hp, hinside.isLive,
          ih hinside.isLive⟩
      rw [← hround]
      refine marked_foldl_of_parentDoomed (fun i hi => ?_) (List.mem_range.2 (slot_lt_size hg)) hparent
      rw [hsize]
      exact List.mem_range.1 hi

/-! ## Release -/

/-- A release takes exactly the scopes inside, and leaves every other as it was. -/
theorem scope?_release_iff (hh : s.isLive h = true) :
    (s.release h).2.scope? g = some scope ↔ s.scope? g = some scope ∧ ¬ s.Inside h g := by
  rw [release, if_pos hh, scope?_sweep]
  constructor
  · intro hs
    split at hs
    · cases hs
    · rename_i hd
      refine ⟨hs, fun hinside => hd ?_⟩
      exact beq_iff_eq.2 ((marked_doomedWith hh hinside.isLive).2 hinside)
  · rintro ⟨hs, hout⟩
    have hl : s.isLive g = true := isLive_iff.2 ⟨_, hs⟩
    have hd : ¬ ((s.doomedWith h)[g.slot]? == some true) = true := by
      intro hd
      exact hout ((marked_doomedWith hh hl).1 (beq_iff_eq.1 hd))
    rw [if_neg hd, hs]

/-- All slots that a release empties are in use. -/
theorem isSome_handleAt?_of_doomed (hh : s.isLive h = true)
    (hi : ((s.doomedWith h)[i]? == some true) = true) : (s.handleAt? i).isSome = true := by
  obtain ⟨-, hinside⟩ := doomsInside_doomedWith hh
  obtain ⟨g, hg, -⟩ := hinside i (beq_iff_eq.1 hi)
  rw [hg]
  rfl

theorem sound_release (hs : s.Sound) (h : Handle) : (s.release h).2.Sound := by
  unfold release
  split
  · rename_i hh
    exact sound_sweep hs fun i => isSome_handleAt?_of_doomed hh
  · exact hs

/-- A release answers how many scopes it takes. -/
theorem count_release (hh : s.isLive h = true) :
    (s.release h).1 = (s.liveScopes \ (s.release h).2.liveScopes).card := by
  rw [release, if_pos hh]
  exact count_sweep fun i => isSome_handleAt?_of_doomed hh

/-- Through a stale handle nothing is released. -/
theorem release_of_stale (hh : s.isLive h = false) : s.release h = (0, s) := by
  rw [release, if_neg (by simp [hh])]

/-- Outside of a released scope names are looked up as before, however far that goes. -/
theorem chainFrom_release (hh : s.isLive h = true) (hg : ¬ s.Inside h g) (n : Nat) :
    (s.release h).2.chainFrom n g = s.chainFrom n g := by
  refine chainFrom_congr (K := fun g => ¬ s.Inside h g) (fun g hg => ?_)
    (fun g scope p hg hs hp hinside => hg (.inside hs hp hinside)) n hg
  exact Option.ext fun scope => (scope?_release_iff hh).trans (and_iff_left hg)

/-- When all scopes lie inside one, its release takes them all and counts them. -/
theorem release_of_rooted {root : Handle} (hs : s.Sound) (hroot : s.isLive root = true)
    (hall : ∀ h, s.isLive h = true → s.Rooted root h) :
    (s.release root).1 = s.liveCount ∧ (s.release root).2.Sound ∧
      ∀ h, (s.release root).2.isLive h = false := by
  have hnone : ∀ h, (s.release root).2.isLive h = false := by
    intro h
    rw [Bool.eq_false_iff]
    intro hl
    obtain ⟨scope, hscope⟩ := isLive_iff.1 hl
    obtain ⟨hold, hout⟩ := (scope?_release_iff hroot).1 hscope
    exact hout (hall h (isLive_iff.2 ⟨_, hold⟩)).isInside
  refine ⟨?_, sound_release hs root, hnone⟩
  have hempty : (s.release root).2.liveScopes = ∅ := by
    ext h
    simp [hnone h]
  rw [count_release hroot, hempty, Finset.sdiff_empty, card_liveScopes hs]

end Stepwise.Store
