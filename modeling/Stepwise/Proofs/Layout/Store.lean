import Stepwise.Proofs.Layout.Move
import Stepwise.Store.Reclaim
/-!
# Stores in normal layout

What the names of a store are bound to can be brought into normal layout. No operation on a store
looks at source text, so each of them commutes with that.
-/

namespace Stepwise

/-! ## Bindings and scopes -/

/-- The bindings with all source in normal layout. -/
def Bindings.normal (bs : Bindings) : Bindings :=
  ⟨bs.entries.map fun entry => (entry.1, entry.2.normal)⟩

theorem Bindings.get?_normal (bs : Bindings) (name : String) :
    bs.normal.get? name = (bs.get? name).map Expr.normal := by
  obtain ⟨entries⟩ := bs
  simp only [normal, get?]
  induction entries with
  | nil => rfl
  | cons entry rest ih =>
    obtain ⟨n, e⟩ := entry
    rw [List.map_cons, List.lookup_cons, List.lookup_cons]
    cases name == n with
    | true => rfl
    | false => exact ih

theorem Bindings.insert_normal (bs : Bindings) (name : String) (e : Expr) :
    (bs.insert name e).normal = bs.normal.insert name e.normal := by
  obtain ⟨entries⟩ := bs
  simp only [normal, insert, Bindings.mk.injEq]
  induction entries with
  | nil => rfl
  | cons entry rest ih =>
    simp only [insertEntry, List.map_cons]
    split
    · rfl
    · rw [List.map_cons, ih]

/-- The scope with all source in normal layout. -/
def Scope.normal (scope : Scope) : Scope :=
  { scope with bindings := scope.bindings.normal }

theorem Scope.captured_normal (scope : Scope) : scope.normal.captured = scope.captured := by
  have hvalues : scope.bindings.normal.values = normalAll scope.bindings.values := by
    simp [Bindings.values, Bindings.normal, Function.comp_def]
  simp only [captured, normal, hvalues, capturedAll_normal]

/-- The slot with all source in normal layout. -/
def Slot.normal (slot : Slot) : Slot :=
  { slot with scope := slot.scope.map Scope.normal }

namespace Store

variable (s : Store)

/-- The store with all source in normal layout. -/
def normal : Store :=
  { s with slots := s.slots.map Slot.normal }

@[simp]
theorem size_normal : s.normal.slots.size = s.slots.size := by
  simp [normal]

theorem getElem?_normal (i : Nat) : s.normal.slots[i]? = s.slots[i]?.map Slot.normal := by
  simp [normal]

theorem liveCount_normal : s.normal.liveCount = s.liveCount := by
  simp [liveCount, normal]

/-! ## Names -/

theorem scope?_normal (h : Handle) : s.normal.scope? h = (s.scope? h).map Scope.normal := by
  unfold scope?
  rw [getElem?_normal]
  cases s.slots[h.slot]? with
  | none => rfl
  | some slot =>
    simp only [Option.map_some, Slot.normal]
    split
    · rfl
    · rfl

theorem parent?_normal (h : Handle) : s.normal.parent? h = s.parent? h := by
  unfold parent?
  rw [scope?_normal]
  cases s.scope? h with
  | none => rfl
  | some scope => rfl

theorem chainFrom_normal (n : Nat) (h : Handle) :
    s.normal.chainFrom n h = (s.chainFrom n h).map fun link => (link.1, link.2.normal) := by
  induction n generalizing h with
  | zero => rfl
  | succ n ih =>
    unfold chainFrom
    rw [scope?_normal]
    cases s.scope? h with
    | none => rfl
    | some scope =>
      cases hp : scope.parent with
      | none => simp [Scope.normal, hp]
      | some p => simp [Scope.normal, hp, ih]

theorem get?_normal (h : Handle) (name : String) :
    s.normal.get? h name = (s.get? h name).map Expr.normal := by
  unfold get? chain
  rw [size_normal, chainFrom_normal, List.findSome?_map, List.map_findSome?]
  congr 1
  funext link
  exact Bindings.get?_normal link.2.bindings name

/-! ## Changes -/

theorem child_normal (p : Handle) : s.normal.child p = ((s.child p).1, (s.child p).2.normal) := by
  obtain ⟨slots, vacant⟩ := s
  cases vacant with
  | nil =>
    simp [child, allocate, normal, Slot.normal, Scope.normal, Bindings.normal, Bindings.empty]
  | cons i rest =>
    simp only [child, allocate, normal, Array.getElem?_map]
    cases slots[i]? with
    | none => simp [Slot.normal, Scope.normal, Bindings.normal, Bindings.empty]
    | some slot => simp [Slot.normal, Scope.normal, Bindings.normal, Bindings.empty]

theorem define_normal (h : Handle) (name : String) (e : Expr) :
    (s.define h name e).normal = s.normal.define h name e.normal := by
  simp only [define, normal, Store.mk.injEq, and_true]
  refine Array.ext_getElem? fun i => ?_
  simp only [Array.getElem?_map, Array.getElem?_modify]
  by_cases hi : h.slot = i
  · simp only [hi, if_true]
    cases s.slots[i]? with
    | none => rfl
    | some slot =>
      obtain ⟨generation, scope⟩ := slot
      by_cases hg : generation = h.generation
      · cases scope with
        | none => simp [Slot.normal, hg]
        | some scope => simp [Slot.normal, Scope.normal, hg, Bindings.insert_normal]
      · simp [Slot.normal, hg]
  · simp only [hi, if_false]

theorem bindAll_normal (frame : Handle) (pairs : List (String × Expr)) :
    (pairs.foldl (fun s (name, arg) => s.define frame name arg) s).normal =
      (pairs.map fun p => (p.1, p.2.normal)).foldl (fun s (name, arg) => s.define frame name arg)
        s.normal := by
  induction pairs generalizing s with
  | nil => rfl
  | cons p rest ih => rw [List.foldl_cons, ih, define_normal, List.map_cons, List.foldl_cons]

/-! ## Collection -/

theorem mark_normal (marks : Array Bool) (pending : List Handle) :
    s.normal.mark marks pending = s.mark marks pending := by
  fun_induction mark s marks pending with
  | case1 => rw [mark]
  | case2 marks h pending hs ih =>
    rw [mark]
    split
    · exact ih
    · rename_i hn
      rw [scope?_normal, hs] at hn
      cases hn
  | case3 marks h pending scope hs hm _ ih =>
    rw [mark]
    split
    · rename_i hn
      rw [scope?_normal, hs] at hn
      cases hn
    · rename_i hn
      rw [scope?_normal, hs] at hn
      cases hn
      rw [dif_pos hm]
      simp only [Scope.captured_normal]
      exact ih
  | case4 marks h pending scope hs hm ih =>
    rw [mark]
    split
    · exact ih
    · rw [dif_neg hm]
      exact ih

theorem handleAt?_normal (i : Nat) : s.normal.handleAt? i = s.handleAt? i := by
  unfold handleAt?
  rw [getElem?_normal]
  cases s.slots[i]? with
  | none => rfl
  | some slot =>
    obtain ⟨generation, scope⟩ := slot
    cases scope with
    | none => rfl
    | some scope => rfl

theorem sweep_normal (doomed : Nat → Bool) :
    s.normal.sweep doomed = ((s.sweep doomed).1, (s.sweep doomed).2.normal) := by
  simp only [sweep, normal, Array.size_map, Prod.mk.injEq, Store.mk.injEq, and_true, true_and]
  refine Array.ext_getElem? fun i => ?_
  simp only [Array.getElem?_map, Array.getElem?_mapIdx]
  cases s.slots[i]? with
  | none => rfl
  | some slot => by_cases hd : doomed i = true <;> simp [Slot.normal, hd]

/-- The same scopes are collected. -/
theorem collect_normal (roots : List Handle) (values : List Expr) :
    s.normal.collect roots (values.map Expr.normal) =
      ((s.collect roots values).1, (s.collect roots values).2.normal) := by
  have hroots : capturedAll (values.map Expr.normal) = capturedAll values := by
    rw [← normalAll_eq_map, capturedAll_normal]
  simp only [collect, reachable, hroots, mark_normal, handleAt?_normal, size_normal]
  exact sweep_normal s _

end Store

end Stepwise
