import Stepwise.Error.Basic
import Stepwise.Store.Bindings
/-!
# The store of scopes

Scopes live in numbered slots and name their parent by handle. A slot whose scope is gone stays
vacant until a new scope moves in, under the next generation: handles to the old scope are then
stale, and nothing is found through them. Names are looked up from a scope outward.
-/

namespace Stepwise

/-- A region of names inside its parent. -/
structure Scope where
  parent : Option Handle
  bindings : Bindings
  deriving Inhabited

/-- The handles that a scope keeps: its parent and what its bindings hold. -/
def Scope.captured (scope : Scope) : List Handle :=
  scope.parent.toList ++ capturedAll scope.bindings.values

/-- A place for a scope, and how often it was moved into again. -/
structure Slot where
  generation : UInt32
  scope : Option Scope
  deriving Inhabited

/-- All scopes. The vacant slots wait on a stack. -/
structure Store where
  slots : Array Slot
  vacant : List Nat
  deriving Inhabited

namespace Store

/-- A store without scopes. -/
def empty : Store := ⟨#[], []⟩

/-- The scope of a handle, unless the handle is stale. -/
def scope? (s : Store) (h : Handle) : Option Scope :=
  match s.slots[h.slot]? with
  | some slot => if slot.generation = h.generation then slot.scope else none
  | none => none

/-- Whether a handle still has its scope. -/
def isLive (s : Store) (h : Handle) : Bool :=
  (s.scope? h).isSome

/-- The parent of the scope of a handle. -/
def parent? (s : Store) (h : Handle) : Option Handle :=
  (s.scope? h).bind Scope.parent

/-- How many scopes there are. -/
def liveCount (s : Store) : Nat :=
  s.slots.size - s.vacant.length

/-! ## New scopes -/

/-- Makes a scope without bindings, in the slot that became vacant last if there is one. -/
def allocate (s : Store) (parent : Option Handle) : Handle × Store :=
  let scope : Scope := ⟨parent, .empty⟩
  match s.vacant with
  | [] => (⟨s.slots.size, 0⟩, { s with slots := s.slots.push ⟨0, some scope⟩ })
  | i :: rest =>
    let generation := match s.slots[i]? with
      | some slot => slot.generation + 1
      | none => 0
    (⟨i, generation⟩, ⟨s.slots.setIfInBounds i ⟨generation, some scope⟩, rest⟩)

/-- Makes a scope outside all others. -/
def root (s : Store) : Handle × Store :=
  s.allocate none

/-- Makes a scope inside `parent`. -/
def child (s : Store) (parent : Handle) : Handle × Store :=
  s.allocate (some parent)

/-! ## Names -/

/-- At most `n` scopes, from that of `h` outward. -/
def chainFrom (s : Store) : Nat → Handle → List (Handle × Scope)
  | 0, _ => []
  | n + 1, h =>
    match s.scope? h with
    | none => []
    | some scope =>
      (h, scope) :: match scope.parent with
        | none => []
        | some p => s.chainFrom n p

/-- The scopes from that of `h` outward, up to a stale handle or a scope without parent. No chain
has more scopes than there are slots. -/
def chain (s : Store) (h : Handle) : List (Handle × Scope) :=
  s.chainFrom s.slots.size h

/-- What `name` is bound to, seen from `h`: its innermost binding. -/
def get? (s : Store) (h : Handle) (name : String) : Option Expr :=
  (s.chain h).findSome? fun link => link.2.bindings.get? name

/-- Whether `name` is bound, seen from `h`. -/
def contains (s : Store) (h : Handle) (name : String) : Bool :=
  (s.get? h name).isSome

/-- What `name` is bound to, seen from `h`, or the error that it is bound nowhere. -/
def lookup (s : Store) (h : Handle) (name : String) : Except EvalError Expr :=
  match s.get? h name with
  | some e => .ok e
  | none => .error (.undefinedName name)

/-- Binds `name` in the scope of `h` itself, whatever its parents bind. Through a stale handle
nothing happens. -/
def define (s : Store) (h : Handle) (name : String) (e : Expr) : Store :=
  let bind : Slot → Slot := fun slot =>
    if slot.generation = h.generation then
      { slot with scope := slot.scope.map fun scope =>
          { scope with bindings := scope.bindings.insert name e } }
    else slot
  { s with slots := s.slots.modify h.slot bind }

/-- How many names are bound in all scopes together. -/
def bindingCount (s : Store) : Nat :=
  s.slots.foldl (fun n slot => n + (slot.scope.elim 0 fun scope => scope.bindings.size)) 0

/-! ## What a definition changes -/

@[simp]
theorem scope?_empty (h : Handle) : empty.scope? h = none := by
  simp [scope?, empty]

/-- A definition changes the bindings of its own scope and nothing else. -/
theorem scope?_define (s : Store) (h g : Handle) (name : String) (e : Expr) :
    (s.define h name e).scope? g =
      if g = h then
        (s.scope? h).map fun scope => { scope with bindings := scope.bindings.insert name e }
      else s.scope? g := by
  obtain ⟨i, m⟩ := h
  obtain ⟨j, n⟩ := g
  simp only [scope?, define, Array.getElem?_modify, Handle.mk.injEq]
  by_cases slot : i = j
  · subst slot
    cases s.slots[i]? with
    | none => simp
    | some content =>
      by_cases generation : content.generation = m <;> by_cases same : n = m <;> grind
  · simp [slot, Ne.symm slot]

@[simp]
theorem isLive_define (s : Store) (h g : Handle) (name : String) (e : Expr) :
    (s.define h name e).isLive g = s.isLive g := by
  rw [isLive, isLive, scope?_define]
  split <;> simp_all

@[simp]
theorem parent?_define (s : Store) (h g : Handle) (name : String) (e : Expr) :
    (s.define h name e).parent? g = s.parent? g := by
  rw [parent?, parent?, scope?_define]
  split
  · rename_i same
    subst same
    cases s.scope? g <;> rfl
  · rfl

@[simp]
theorem liveCount_define (s : Store) (h : Handle) (name : String) (e : Expr) :
    (s.define h name e).liveCount = s.liveCount := by
  simp [liveCount, define]

end Store

end Stepwise
