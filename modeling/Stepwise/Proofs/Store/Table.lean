import Stepwise.Proofs.Store.Operations
/-!
# Scopes in a table of records

A store can be kept in a table of records that are used over and over: a flag says whether a scope
lives in a record, with its parent and bindings beside it. A new scope sets the flag and the parent
of a free record and takes over the bindings that it finds there; whoever gives a record up has to
clear it. After any operations the records that are not live are free, each listed once, and cleared
(`Clear`), so that the table keeps the very store (`store_perform`). Taking the free records from
all records then counts the scopes (`free_records_and_liveCount`).
-/

namespace Stepwise

namespace Store

variable {s : Store} {h : Handle}

/-! ## Slots in use -/

/-- No new scope gets a slot in use. -/
theorem slot_ne_allocate (hs : s.Sound) (parent : Option Handle) (hl : s.isLive h = true) :
    h.slot ≠ (s.allocate parent).1.slot := by
  intro hslot
  obtain ⟨scope, hscope⟩ := isLive_iff.1 hl
  have hne : h ≠ (s.allocate parent).1 := by
    rintro rfl
    rw [scope?_allocate_self hs] at hscope
    cases hscope
  -- both would live in the same slot afterwards
  have hnew : (s.allocate parent).2.isLive (s.allocate parent).1 = true := by
    rw [isLive, scope?_allocate hs, if_pos rfl]
    rfl
  have hold : (s.allocate parent).2.isLive h = true := by
    rw [isLive, scope?_allocate hs, if_neg hne, hscope]
    rfl
  exact hne (eq_of_slot_eq hold hnew hslot)

/-- There are no more vacant slots than slots. -/
theorem length_vacant_le (hs : s.Sound) : s.vacant.length ≤ s.slots.size := by
  rw [length_vacant hs]
  exact Array.countP_le_size

/-- A sweep of slots in use takes as many scopes off the count as it answers. -/
theorem liveCount_sweep (hs : s.Sound) {doomed : Nat → Bool}
    (hd : ∀ i, doomed i = true → (s.handleAt? i).isSome) :
    (s.sweep doomed).2.liveCount + (s.sweep doomed).1 = s.liveCount := by
  have hle := length_vacant_le (sound_sweep hs hd)
  rw [size_sweep] at hle
  unfold liveCount
  rw [size_sweep]
  simp only [sweep, List.length_append, List.length_reverse] at hle ⊢
  omega

theorem liveCount_release (hs : s.Sound) (h : Handle) :
    (s.release h).2.liveCount + (s.release h).1 = s.liveCount := by
  unfold release
  split
  · rename_i hh
    exact liveCount_sweep hs fun i => isSome_handleAt?_of_doomed hh
  · rfl

theorem liveCount_collect (hs : s.Sound) (roots : List Handle) (values : List Expr) :
    (s.collect roots values).2.liveCount + (s.collect roots values).1 = s.liveCount :=
  liveCount_sweep hs fun _ hi => (Bool.and_eq_true_iff.1 hi).1

end Store

/-! ## Records -/

/-- A place for a scope. Whether its fields are those of a scope is told by `live`. -/
structure Record where
  generation : UInt32
  live : Bool
  parent : Option Handle
  bindings : Bindings

/-- The slot that a record stands for. -/
def Record.slot (r : Record) : Slot :=
  ⟨r.generation, if r.live then some ⟨r.parent, r.bindings⟩ else none⟩

/-- The record with a new scope inside `parent`. Its bindings are left to the new scope. -/
def Record.reused (parent : Option Handle) (r : Record) : Record :=
  { r with generation := r.generation + 1, live := true, parent }

/-- The record after its scope is gone. -/
def Record.cleared (r : Record) : Record :=
  { r with live := false, parent := none, bindings := .empty }

/-- Records of scopes. The free ones wait on a stack. -/
structure Table where
  records : Array Record
  free : List Nat

namespace Table

variable {t : Table}

/-! ## Operations on records -/

/-- A table without records. -/
def empty : Table := ⟨#[], []⟩

/-- The store that a table keeps. -/
def store (t : Table) : Store :=
  ⟨t.records.map Record.slot, t.free⟩

/-- Makes a scope, in the record that became free last if there is one. -/
def allocate (t : Table) (parent : Option Handle) : Handle × Table :=
  match t.free with
  | [] =>
    (⟨t.records.size, 0⟩, { t with records := t.records.push ⟨0, true, parent, .empty⟩ })
  | i :: rest =>
    let generation := match t.records[i]? with
      | some r => r.generation + 1
      | none => 0
    (⟨i, generation⟩, ⟨t.records.modify i (Record.reused parent), rest⟩)

/-- Binds `name` in the record of `h`, if that is live under this handle. -/
def define (t : Table) (h : Handle) (name : String) (e : Expr) : Table :=
  let bind : Record → Record := fun r =>
    if r.live = true ∧ r.generation = h.generation then
      { r with bindings := r.bindings.insert name e }
    else r
  { t with records := t.records.modify h.slot bind }

/-- Clears the doomed records and puts them on the stack of free ones. -/
def sweep (t : Table) (doomed : Nat → Bool) : Nat × Table :=
  let freed := (List.range t.records.size).filter doomed
  let clear := fun (i : Nat) (r : Record) => if doomed i then r.cleared else r
  (freed.length, ⟨t.records.mapIdx clear, freed.reverse ++ t.free⟩)

/-- Sweeps the scope of `h` and every scope inside it. -/
def release (t : Table) (h : Handle) : Nat × Table :=
  if t.store.isLive h then
    let doomed := t.store.doomedWith h
    t.sweep fun i => doomed[i]? == some true
  else (0, t)

/-- Sweeps every scope that is not reachable from `roots` or from what `values` hold. -/
def collect (t : Table) (roots : List Handle) (values : List Expr) : Nat × Table :=
  let marks := t.store.reachable (roots ++ capturedAll values)
  t.sweep fun i => (t.store.handleAt? i).isSome && marks[i]? != some true

/-- The table after an operation. -/
def perform (t : Table) : Store.Operation → Table
  | .root => (t.allocate none).2
  | .child parent => (t.allocate (some parent)).2
  | .define h name e => t.define h name e
  | .release h => (t.release h).2
  | .collect roots values => (t.collect roots values).2

/-- The table after operations on an empty one. -/
def after (operations : List Store.Operation) : Table :=
  operations.foldl perform .empty

/-! ## Cleared records -/

/-- A record that is not live has neither parent nor bindings. -/
def Clear (t : Table) : Prop :=
  ∀ (i : Nat) (r : Record), t.records[i]? = some r → r.live = false →
    r.parent = none ∧ r.bindings = .empty

theorem clear_empty : Clear empty := by
  intro i r hr
  cases hr

theorem Clear.allocate (hc : t.Clear) (parent : Option Handle) : (t.allocate parent).2.Clear := by
  intro i r hr hdead
  unfold Table.allocate at hr
  cases hfree : t.free with
  | nil =>
    simp only [hfree, Array.getElem?_push] at hr
    split at hr
    · cases hr
      cases hdead
    · exact hc i r hr hdead
  | cons j rest =>
    simp only [hfree, Array.getElem?_modify] at hr
    split at hr
    · obtain ⟨old, -, rfl⟩ := Option.map_eq_some_iff.1 hr
      cases hdead
    · exact hc i r hr hdead

theorem Clear.define (hc : t.Clear) (h : Handle) (name : String) (e : Expr) :
    (t.define h name e).Clear := by
  intro i r hr hdead
  simp only [Table.define, Array.getElem?_modify] at hr
  split at hr
  · obtain ⟨old, hold, rfl⟩ := Option.map_eq_some_iff.1 hr
    split at hdead
    · rename_i hlive
      rw [hlive.1] at hdead
      cases hdead
    · rename_i hlive
      rw [if_neg hlive]
      exact hc i old hold hdead
  · exact hc i r hr hdead

/-- Whoever gives a record up clears it. -/
theorem Clear.sweep (hc : t.Clear) (doomed : Nat → Bool) : (t.sweep doomed).2.Clear := by
  intro i r hr hdead
  simp only [Table.sweep, Array.getElem?_mapIdx] at hr
  obtain ⟨old, hold, rfl⟩ := Option.map_eq_some_iff.1 hr
  split at hdead
  · rename_i hd
    rw [if_pos hd]
    exact ⟨rfl, rfl⟩
  · rename_i hd
    rw [if_neg hd]
    exact hc i old hold hdead

theorem Clear.perform (hc : t.Clear) (operation : Store.Operation) :
    (t.perform operation).Clear := by
  cases operation with
  | root => exact hc.allocate none
  | child parent => exact hc.allocate (some parent)
  | define h name e => exact hc.define h name e
  | release h =>
    rw [Table.perform, Table.release]
    split
    · exact hc.sweep _
    · exact hc
  | collect roots values => exact hc.sweep _

/-! ## The store that is kept -/

theorem getElem?_store (t : Table) (i : Nat) : t.store.slots[i]? = t.records[i]?.map Record.slot :=
  Array.getElem?_map

/-- The flag of a record tells whether its slot is vacant. -/
theorem slot_eq_vacant_iff {r : Record} : (∃ m, r.slot = ⟨m, none⟩) ↔ r.live = false := by
  cases hl : r.live <;> simp [Record.slot, hl]

/-- The free records of a table that keeps a sound store are those that are not live. -/
theorem mem_free_iff (hs : t.store.Sound) {i : Nat} :
    i ∈ t.free ↔ ∃ r, t.records[i]? = some r ∧ r.live = false := by
  rw [show i ∈ t.free ↔ i ∈ t.store.vacant from Iff.rfl, hs.vacant_iff]
  simp only [getElem?_store, Option.map_eq_some_iff, ← slot_eq_vacant_iff]
  constructor
  · rintro ⟨m, r, hr, hslot⟩
    exact ⟨r, hr, m, hslot⟩
  · rintro ⟨r, hr, m, hslot⟩
    exact ⟨m, r, hr, hslot⟩

/-- A free record has no bindings, so that it makes no difference that they are taken over. -/
theorem store_allocate (hc : t.Clear) (hs : t.store.Sound) (parent : Option Handle) :
    ((t.allocate parent).1, (t.allocate parent).2.store) = t.store.allocate parent := by
  unfold Table.allocate Store.allocate
  cases hfree : t.free with
  | nil => simp [store, hfree, Record.slot]
  | cons i rest =>
    obtain ⟨r, hr, hdead⟩ := (mem_free_iff hs).1 (hfree ▸ List.mem_cons_self : i ∈ t.free)
    have hslot : (r.reused parent).slot = ⟨r.generation + 1, some ⟨parent, .empty⟩⟩ := by
      rw [Record.slot, Record.reused, (hc i r hr hdead).2]
      rfl
    have hslots : (t.records.modify i (Record.reused parent)).map Record.slot =
        (t.records.map Record.slot).setIfInBounds i ⟨r.generation + 1, some ⟨parent, .empty⟩⟩ := by
      apply Array.ext_getElem?
      intro j
      rw [Array.getElem?_map, Array.getElem?_modify, Array.getElem?_setIfInBounds]
      by_cases hj : i = j
      · subst hj
        have hlt := (Array.getElem?_eq_some_iff.1 hr).1
        rw [if_pos rfl, if_pos rfl, if_pos (by rwa [Array.size_map]), hr, ← hslot]
        rfl
      · rw [if_neg hj, if_neg hj, Array.getElem?_map]
    simp only [store, hfree, hr, Array.getElem?_map, Option.map_some, hslots]
    rfl

theorem store_define (t : Table) (h : Handle) (name : String) (e : Expr) :
    (t.define h name e).store = t.store.define h name e := by
  have hslots : (t.define h name e).store.slots = (t.store.define h name e).slots := by
    apply Array.ext_getElem?
    intro i
    rw [getElem?_store]
    simp only [Table.define, Store.define, Array.getElem?_modify, getElem?_store]
    split
    · rw [Option.map_map, Option.map_map]
      congr 1
      funext r
      simp only [Function.comp_apply]
      cases hl : r.live <;> by_cases hg : r.generation = h.generation <;> simp [Record.slot, hl, hg]
    · rfl
  exact congrArg (Store.mk · t.free) hslots

theorem store_sweep (t : Table) (doomed : Nat → Bool) :
    ((t.sweep doomed).1, (t.sweep doomed).2.store) = t.store.sweep doomed := by
  have hslots : (t.records.mapIdx fun i r => if doomed i then r.cleared else r).map Record.slot =
      (t.records.map Record.slot).mapIdx fun i slot =>
        if doomed i then { slot with scope := none } else slot := by
    apply Array.ext_getElem?
    intro i
    rw [Array.getElem?_map, Array.getElem?_mapIdx, Array.getElem?_mapIdx, Array.getElem?_map,
      Option.map_map, Option.map_map]
    congr 1
    funext r
    simp only [Function.comp_apply]
    split <;> rfl
  simp only [Table.sweep, Store.sweep, store, hslots, Array.size_map]

theorem store_release (t : Table) (h : Handle) :
    ((t.release h).1, (t.release h).2.store) = t.store.release h := by
  unfold Table.release Store.release
  split
  · exact store_sweep t _
  · rfl

theorem store_collect (t : Table) (roots : List Handle) (values : List Expr) :
    ((t.collect roots values).1, (t.collect roots values).2.store) = t.store.collect roots values :=
  store_sweep t _

/-- A table keeps the store that its operations make. -/
theorem store_perform (hc : t.Clear) (hs : t.store.Sound) (operation : Store.Operation) :
    (t.perform operation).store = t.store.perform operation := by
  cases operation with
  | root => exact congrArg Prod.snd (store_allocate hc hs none)
  | child parent => exact congrArg Prod.snd (store_allocate hc hs (some parent))
  | define h name e => exact store_define t h name e
  | release h => exact congrArg Prod.snd (store_release t h)
  | collect roots values => exact congrArg Prod.snd (store_collect t roots values)

theorem store_empty : empty.store = .empty := by
  simp [store, empty, Store.empty]

/-- After any operations a table keeps the store that they make, and is clear. -/
theorem store_after (operations : List Store.Operation) :
    (after operations).store = Store.after operations ∧ (after operations).Clear := by
  have hfold : ∀ t : Table, t.Clear → t.store.Sound →
      (operations.foldl perform t).store = operations.foldl Store.perform t.store ∧
        (operations.foldl perform t).Clear := by
    induction operations with
    | nil =>
      intro t hc _
      exact ⟨rfl, hc⟩
    | cons operation rest ih =>
      intro t hc hs
      have hstore := store_perform hc hs operation
      have hsound : (t.perform operation).store.Sound := by
        rw [hstore]
        exact Store.sound_perform hs operation
      rw [List.foldl_cons, List.foldl_cons, ← hstore]
      exact ih _ (hc.perform operation) hsound
  have hstart := hfold empty clear_empty (store_empty ▸ Store.sound_empty)
  rwa [store_empty] at hstart

/-- Taking the free records from all records counts the live ones. -/
theorem liveCount_store (hs : t.store.Sound) :
    t.store.liveCount = t.records.countP Record.live := by
  have hlive : (fun slot : Slot => slot.scope.isSome) ∘ Record.slot = Record.live := by
    funext r
    cases hl : r.live <;> simp [Record.slot, hl]
  rw [Store.liveCount_eq_countP hs, show t.store.slots = t.records.map Record.slot from rfl,
    Array.countP_map, hlive]

/-- After any operations, with whatever handles, issued or not, the vacant slots are those without
a scope, each listed once. A table keeps this very store, though a new scope takes over the bindings
of its record: the free records are those that are not live, and none of them has a parent or
bindings left. So a new scope gets a slot that no scope is in. There are no more vacant slots than
slots, the difference is the number of live records, and it goes down by exactly what a release or a
collection answers. -/
theorem free_records_and_liveCount (operations : List Store.Operation) :
    let t := after operations
    let s := Store.after operations
    s.vacant.Nodup ∧ (∀ i, i ∈ s.vacant ↔ ∃ slot, s.slots[i]? = some slot ∧ slot.scope = none) ∧
      t.store = s ∧ (∀ i, i ∈ t.free ↔ ∃ r, t.records[i]? = some r ∧ r.live = false) ∧
      (∀ (i : Nat) (r : Record), t.records[i]? = some r → r.live = false →
        r.parent = none ∧ r.bindings = .empty) ∧
      (∀ parent, s.allocate parent = ((t.allocate parent).1, (t.allocate parent).2.store) ∧
        ∀ h, s.isLive h = true → h.slot ≠ (s.allocate parent).1.slot) ∧
      s.vacant.length ≤ s.slots.size ∧ s.liveCount = t.records.countP Record.live ∧
      (∀ h, (s.release h).2.liveCount + (s.release h).1 = s.liveCount) ∧
      ∀ roots values,
        (s.collect roots values).2.liveCount + (s.collect roots values).1 = s.liveCount := by
  intro t s
  obtain ⟨hstore, hclear⟩ : t.store = s ∧ t.Clear := store_after operations
  have hs : t.store.Sound := hstore ▸ Store.sound_after operations
  rw [← hstore]
  refine ⟨hs.nodup, fun i => ?_, rfl, fun i => mem_free_iff hs, hclear, fun parent => ?_,
    Store.length_vacant_le hs, liveCount_store hs, Store.liveCount_release hs,
    Store.liveCount_collect hs⟩
  · rw [hs.vacant_iff]
    constructor
    · rintro ⟨m, hslot⟩
      exact ⟨_, hslot, rfl⟩
    · rintro ⟨⟨m, content⟩, hslot, rfl⟩
      exact ⟨m, hslot⟩
  · exact ⟨(store_allocate hclear hs parent).symm, fun h => Store.slot_ne_allocate hs parent⟩

end Table

end Stepwise
