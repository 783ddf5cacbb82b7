import Mathlib.Algebra.Group.Nat.Defs
import Stepwise.Proofs.Store.Operations
/-!
# Generations of a slot

A slot keeps its generation while its scope lives and after it is gone; only a new scope that moves
in turns it on by one (`generation?_allocate`). The counter has 32 bits: a scope that is given up and
made again in the same slot has its first handle back after `2 ^ 32` times, and never in between
(`isLive_first_renew_iff`).
-/

namespace Stepwise.Store

variable {s : Store} {g h : Handle}

/-- How often a slot has been used again. -/
def generation? (s : Store) (i : Nat) : Option UInt32 :=
  s.slots[i]?.map Slot.generation

@[simp]
theorem generation?_define (s : Store) (h : Handle) (name : String) (e : Expr) (i : Nat) :
    (s.define h name e).generation? i = s.generation? i := by
  simp only [generation?, define, Array.getElem?_modify]
  split
  · rw [Option.map_map]
    congr 1
    funext slot
    simp only [Function.comp_apply]
    split <;> rfl
  · rfl

@[simp]
theorem generation?_sweep (s : Store) (doomed : Nat → Bool) (i : Nat) :
    (s.sweep doomed).2.generation? i = s.generation? i := by
  simp only [generation?, sweep, Array.getElem?_mapIdx, Option.map_map]
  congr 1
  funext slot
  simp only [Function.comp_apply]
  split <;> rfl

/-- A new scope moves in under the next generation of its slot. -/
theorem generation_allocate (s : Store) (parent : Option Handle) :
    (s.allocate parent).1.generation =
      ((s.generation? (s.allocate parent).1.slot).map (· + 1)).getD 0 := by
  unfold allocate generation?
  cases s.vacant with
  | nil => simp
  | cons i rest =>
    dsimp only
    cases s.slots[i]? <;> rfl

theorem generation?_allocate (hs : s.Sound) (parent : Option Handle) (j : Nat) :
    (s.allocate parent).2.generation? j =
      if j = (s.allocate parent).1.slot then some (s.allocate parent).1.generation
      else s.generation? j := by
  unfold allocate generation?
  cases hv : s.vacant with
  | nil =>
    simp only [Array.getElem?_push]
    split <;> rfl
  | cons i rest =>
    obtain ⟨n, hi⟩ := (hs.vacant_iff i).1 (by simp [hv])
    have hlt := (Array.getElem?_eq_some_iff.1 hi).1
    simp only [Array.getElem?_setIfInBounds, eq_comm (a := i)]
    split
    · rename_i hj
      subst hj
      simp [hlt]
    · rfl

theorem size_allocate_le (s : Store) (parent : Option Handle) :
    s.slots.size ≤ (s.allocate parent).2.slots.size := by
  unfold allocate
  cases s.vacant <;> simp

/-! ## Slots used again -/

/-- A scope that is made in `s`, then given up and made again `n` times, the `k`-th time inside
`parents k`. -/
def renew (s : Store) (parents : Nat → Option Handle) : Nat → Handle × Store
  | 0 => s.allocate (parents 0)
  | n + 1 =>
    let (h, t) := s.renew parents n
    (t.release h).2.allocate (parents (n + 1))

theorem inside_iff_of_childless (hl : s.isLive h = true)
    (hchild : ∀ g scope, s.scope? g = some scope → scope.parent = some h → g = h) :
    s.Inside h g ↔ g = h := by
  constructor
  · intro hinside
    induction hinside with
    | self _ => rfl
    | inside hs hp _ ih =>
      subst ih
      exact hchild _ _ hs hp
  · rintro rfl
    exact .self hl

/-- A release of a scope without children vacates its slot and no other. -/
theorem release_of_childless (hl : s.isLive h = true)
    (hchild : ∀ g scope, s.scope? g = some scope → scope.parent = some h → g = h) :
    s.release h =
      (1, ⟨s.slots.modify h.slot fun slot => { slot with scope := none }, h.slot :: s.vacant⟩) := by
  have hlt := slot_lt_size hl
  have hdoomed : (fun i => (s.doomedWith h)[i]? == some true) = fun i => i == h.slot := by
    funext i
    rw [Bool.eq_iff_iff, beq_iff_eq, beq_iff_eq]
    constructor
    · intro hi
      obtain ⟨g, hg, hinside⟩ := (doomsInside_doomedWith hl).2 i hi
      obtain rfl := (inside_iff_of_childless hl hchild).1 hinside
      exact (handleAt?_eq_some_iff.1 hg).1.symm
    · rintro rfl
      exact (marked_doomedWith hl hl).2 (.self hl)
  have hfreed : (List.range s.slots.size).filter (fun i => i == h.slot) = [h.slot] := by
    rw [List.filter_beq, List.count_eq_one_of_mem List.nodup_range (List.mem_range.2 hlt)]
    rfl
  have hslots : s.slots.mapIdx (fun i slot => if i == h.slot then { slot with scope := none } else slot) =
      s.slots.modify h.slot fun slot => { slot with scope := none } := by
    apply Array.ext_getElem?
    intro i
    rw [Array.getElem?_mapIdx, Array.getElem?_modify]
    by_cases hi : h.slot = i
    · simp [hi]
    · simp [hi, Ne.symm hi]
  rw [Store.release, if_pos hl]
  show s.sweep (fun i => (s.doomedWith h)[i]? == some true) = _
  rw [hdoomed]
  simp only [sweep, hfreed, hslots]
  rfl

/-- The next scope after such a release moves into that slot, under the next generation. -/
theorem allocate_release_of_childless (hl : s.isLive h = true)
    (hchild : ∀ g scope, s.scope? g = some scope → scope.parent = some h → g = h)
    (parent : Option Handle) :
    (s.release h).2.allocate parent =
      (⟨h.slot, h.generation + 1⟩,
        ⟨s.slots.setIfInBounds h.slot ⟨h.generation + 1, some ⟨parent, .empty⟩⟩, s.vacant⟩) := by
  obtain ⟨scope, hscope⟩ := isLive_iff.1 hl
  rw [scope?_eq_some_iff] at hscope
  rw [release_of_childless hl hchild]
  have hat : (s.slots.modify h.slot fun slot => { slot with scope := none })[h.slot]? =
      some ⟨h.generation, none⟩ := by
    rw [Array.getElem?_modify, if_pos rfl, hscope]
    rfl
  have hset : ∀ slot : Slot, (s.slots.modify h.slot fun slot =>
      { slot with scope := none }).setIfInBounds h.slot slot =
        s.slots.setIfInBounds h.slot slot := by
    intro slot
    apply Array.ext_getElem?
    intro i
    simp only [Array.getElem?_setIfInBounds, Array.getElem?_modify, Array.size_modify]
    grind
  simp only [allocate, hat, hset]

section Renewal

-- no slot is vacant, so the scope gets a new one, and no other scope has its parent there
variable (parents : Nat → Option Handle) (hv : s.vacant = [])
  (hout : ∀ g scope p, s.scope? g = some scope → scope.parent = some p → p.slot ≠ s.slots.size)
include hv hout

/-- In a slot of its own a scope is renewed under one generation after another. -/
theorem renew_eq (n : Nat) :
    s.renew parents n =
      (⟨s.slots.size, .ofNat n⟩, ⟨s.slots.push ⟨.ofNat n, some ⟨parents n, .empty⟩⟩, []⟩) := by
  induction n with
  | zero =>
    rw [renew, allocate, hv]
    rfl
  | succ n ih =>
    rw [renew, ih]
    dsimp only
    have hl : Store.isLive ⟨s.slots.push ⟨.ofNat n, some ⟨parents n, .empty⟩⟩, []⟩
        ⟨s.slots.size, .ofNat n⟩ = true := by
      rw [isLive_iff]
      exact ⟨⟨parents n, .empty⟩, scope?_eq_some_iff.2 (by simp)⟩
    rw [allocate_release_of_childless hl]
    · have hslots : ∀ a b : Slot, (s.slots.push a).setIfInBounds s.slots.size b =
          s.slots.push b := by
        intro a b
        apply Array.ext_getElem?
        intro i
        simp only [Array.getElem?_setIfInBounds, Array.getElem?_push]
        grind
      simp only [hslots, UInt32.ofNat_add]
      rfl
    · intro g scope hscope hp
      rw [scope?_eq_some_iff, Array.getElem?_push] at hscope
      split at hscope
      · rename_i hslot
        obtain ⟨i, m⟩ := g
        simp_all
      · exact (hout g scope _ (scope?_eq_some_iff.2 hscope) hp rfl).elim

theorem scope?_renew (n : Nat) :
    (s.renew parents n).2.scope? (s.renew parents n).1 = some ⟨parents n, .empty⟩ := by
  rw [renew_eq parents hv hout, scope?_eq_some_iff]
  exact Array.getElem?_push_size

/-- The first handle is live exactly when the generations have come round to zero. -/
theorem isLive_first_renew_iff (n : Nat) :
    ((s.renew parents n).2.isLive (s.renew parents 0).1 = true ↔ n % 2 ^ 32 = 0) ∧
      ((s.renew parents n).1 = (s.renew parents 0).1 ↔ n % 2 ^ 32 = 0) := by
  have hlive : (s.renew parents n).2.isLive (s.renew parents n).1 = true :=
    isLive_iff.2 ⟨_, scope?_renew parents hv hout n⟩
  have hslot : (s.renew parents 0).1.slot = (s.renew parents n).1.slot := by
    rw [renew_eq parents hv hout, renew_eq parents hv hout]
  have hsame : (s.renew parents n).1 = (s.renew parents 0).1 ↔ n % 2 ^ 32 = 0 := by
    rw [renew_eq parents hv hout, renew_eq parents hv hout, Handle.mk.injEq, ← UInt32.toNat_inj,
      UInt32.toNat_ofNat', UInt32.toNat_ofNat']
    simp
  refine ⟨⟨fun hfirst => ?_, fun hn => ?_⟩, hsame⟩
  · exact hsame.1 (eq_of_slot_eq hfirst hlive hslot).symm
  · rw [← hsame.2 hn]
    exact hlive

end Renewal

end Stepwise.Store
