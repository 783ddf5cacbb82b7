import Stepwise.Store.Basic
/-!
# Reclaiming scopes

Scopes go in two ways. `release` takes one scope with everything inside it. `collect` takes every
scope that cannot be reached from given handles through parents and bound expressions. Both say
how many scopes went.
-/

namespace Stepwise.Store

/-- The handle of the scope in a slot. -/
def handleAt? (s : Store) (i : Nat) : Option Handle :=
  match s.slots[i]? with
  | some ⟨generation, some _⟩ => some ⟨i, generation⟩
  | _ => none

/-- Vacates the slots that are doomed. The one with the highest number is used again first. -/
def sweep (s : Store) (doomed : Nat → Bool) : Nat × Store :=
  let freed := (List.range s.slots.size).filter doomed
  let vacate := fun (i : Nat) (slot : Slot) =>
    if doomed i then { slot with scope := none } else slot
  (freed.length, ⟨s.slots.mapIdx vacate, freed.reverse ++ s.vacant⟩)

/-! ## Release of a scope -/

/-- Whether the scope in slot `i` lies directly inside one that is there and doomed. -/
def parentDoomed (s : Store) (doomed : Array Bool) (i : Nat) : Bool :=
  match (s.handleAt? i).bind s.parent? with
  | some p => s.isLive p && doomed[p.slot]? == some true
  | none => false

/-- Dooms slot `i`, unless it is doomed already, when the parent of its scope is doomed. -/
def doomAt (s : Store) (doomed : Array Bool) (i : Nat) : Array Bool :=
  if doomed[i]? = some false ∧ s.parentDoomed doomed i = true then doomed.setIfInBounds i true
  else doomed

/-- Goes over all slots once. What is doomed on the way counts for the slots after it. -/
def doomOnce (s : Store) (doomed : Array Bool) : Array Bool :=
  (List.range s.slots.size).foldl s.doomAt doomed

theorem doomAt_eq_or_lt (s : Store) (doomed : Array Bool) (i : Nat) :
    s.doomAt doomed i = doomed ∨ (s.doomAt doomed i).count false < doomed.count false := by
  unfold doomAt
  split
  · rename_i unseen
    obtain ⟨bound, content⟩ := Array.getElem?_eq_some_iff.1 unseen.1
    have member : false ∈ doomed := content ▸ Array.getElem_mem bound
    have positive : 0 < doomed.count false := Array.count_pos_iff.2 member
    refine .inr ?_
    rw [Array.setIfInBounds_def, dif_pos bound, Array.count_set, content]
    simp only [beq_self_eq_true, if_true, Bool.true_beq, Bool.false_eq_true, if_false]
    omega
  · exact .inl rfl

/-- A round that changes anything leaves fewer slots that are not doomed. -/
theorem doomOnce_eq_or_lt (s : Store) (doomed : Array Bool) :
    s.doomOnce doomed = doomed ∨ (s.doomOnce doomed).count false < doomed.count false := by
  unfold doomOnce
  generalize List.range s.slots.size = slots
  induction slots generalizing doomed with
  | nil => exact .inl rfl
  | cons i rest ih =>
    rw [List.foldl_cons]
    rcases doomAt_eq_or_lt s doomed i with same | fewer
    · rw [same]
      exact ih doomed
    · rcases ih (s.doomAt doomed i) with same | fewer'
      · rw [same]
        exact .inr fewer
      · exact .inr (Nat.lt_trans fewer' fewer)

/-- Goes over the slots, round after round, until nothing more is doomed. A scope can have a lower
slot than its parent, so that one round is not always enough. -/
def doom (s : Store) (doomed : Array Bool) : Array Bool :=
  let next := s.doomOnce doomed
  if same : next = doomed then doomed
  else
    have := (doomOnce_eq_or_lt s doomed).resolve_left same
    s.doom next
termination_by doomed.count false

/-- The slots that go with the scope of `h`. -/
def doomedWith (s : Store) (h : Handle) : Array Bool :=
  s.doom ((Array.replicate s.slots.size false).setIfInBounds h.slot true)

/-- Takes away the scope of `h` and every scope inside it. -/
def release (s : Store) (h : Handle) : Nat × Store :=
  if s.isLive h then
    let doomed := s.doomedWith h
    s.sweep fun i => doomed[i]? == some true
  else (0, s)

/-! ## Collection of unreachable scopes -/

/-- The work that the scope in a slot can still cause: itself and the handles it keeps. -/
def workAt (s : Store) (i : Nat) : Nat :=
  match s.slots[i]? with
  | some ⟨_, some scope⟩ => scope.captured.length + 1
  | _ => 0

/-- The work that those of the first `n` slots that have no mark can still cause. -/
def unseenBelow (s : Store) (marks : Array Bool) : Nat → Nat
  | 0 => 0
  | n + 1 => s.unseenBelow marks n + if marks[n]? = some false then s.workAt n else 0

/-- The work that the slots without a mark can still cause. -/
def unseenWork (s : Store) (marks : Array Bool) : Nat :=
  s.unseenBelow marks s.slots.size

theorem workAt_of_scope? {s : Store} {h : Handle} {scope : Scope} (live : s.scope? h = some scope) :
    h.slot < s.slots.size ∧ s.workAt h.slot = scope.captured.length + 1 := by
  unfold scope? at live
  split at live
  · rename_i slot found
    have bound : h.slot < s.slots.size := (Array.getElem?_eq_some_iff.1 found).1
    obtain ⟨generation, content⟩ := slot
    have : content = some scope := by
      split at live
      · exact live
      · simp at live
    refine ⟨bound, ?_⟩
    simp only [workAt, found, this]
  · simp at live

theorem unseenBelow_mark {s : Store} {marks : Array Bool} {i : Nat} (unseen : marks[i]? = some false)
    (n : Nat) : s.unseenBelow (marks.setIfInBounds i true) n + (if i < n then s.workAt i else 0) =
      s.unseenBelow marks n := by
  have size : i < marks.size := (Array.getElem?_eq_some_iff.1 unseen).1
  induction n with
  | zero => rfl
  | succ n ih =>
    simp only [unseenBelow]
    by_cases here : i = n
    · subst here
      rw [if_neg (Nat.lt_irrefl i)] at ih
      rw [Array.getElem?_setIfInBounds_self_of_lt size, unseen, if_pos (Nat.lt_succ_self i)]
      simp only [Option.some.injEq, Bool.true_eq_false, if_true, if_false]
      omega
    · rw [Array.getElem?_setIfInBounds_ne here]
      have : i < n + 1 ↔ i < n := by omega
      simp only [this]
      omega

/-- A new mark takes its slot's work away. -/
theorem unseenWork_mark {s : Store} {marks : Array Bool} {h : Handle} {scope : Scope}
    (live : s.scope? h = some scope) (unseen : marks[h.slot]? = some false) :
    s.unseenWork (marks.setIfInBounds h.slot true) + (scope.captured.length + 1) =
      s.unseenWork marks := by
  obtain ⟨bound, work⟩ := workAt_of_scope? live
  have taken := unseenBelow_mark (s := s) unseen s.slots.size
  rw [if_pos bound, work] at taken
  exact taken

/-- Marks every slot reachable from the pending handles. -/
def mark (s : Store) (marks : Array Bool) (pending : List Handle) : Array Bool :=
  match pending with
  | [] => marks
  | h :: pending =>
    match live : s.scope? h with
    | none => s.mark marks pending
    | some scope =>
      if unseen : marks[h.slot]? = some false then
        have := unseenWork_mark live unseen
        s.mark (marks.setIfInBounds h.slot true) (scope.captured ++ pending)
      else s.mark marks pending
termination_by s.unseenWork marks + pending.length
decreasing_by all_goals simp only [List.length_cons, List.length_append]; omega

/-- Which slots are reachable from some handles. -/
def reachable (s : Store) (roots : List Handle) : Array Bool :=
  s.mark (Array.replicate s.slots.size false) roots

/-- Takes away every scope that is not reachable from `roots` or from what `values` hold. -/
def collect (s : Store) (roots : List Handle) (values : List Expr) : Nat × Store :=
  let marks := s.reachable (roots ++ capturedAll values)
  s.sweep fun i => (s.handleAt? i).isSome && marks[i]? != some true

end Stepwise.Store
