import Stepwise.Proofs.Store.Generation
/-!
# Handles over the history of a store

A history is a store with all handles that it has issued. As long as there are at most `2 ^ 32` of
them, the generation of a slot has never come round to zero again, so a new handle differs from all
before it; parents are then older than their children, and every chain of parents ends. This is
`Consistent`, which every operation through issued handles keeps. It makes stale handles harmless
for good (`handles_never_alias`). With one scope more the first handle can come back to life.
-/

namespace Stepwise.Store

variable {s : Store} {h p : Handle} {scope : Scope} {operation : Operation} {parent : Option Handle}
  {i : Nat}

/-! ## What an operation can do -/

/-- The handles through which an operation goes. -/
def Operation.handles : Operation → List Handle
  | .root => []
  | .child parent => [parent]
  | .define h _ _ => [h]
  | .release h => [h]
  | .collect roots _ => roots

/-- The scope inside which an operation makes a new one. -/
def Operation.parent? : Operation → Option Handle
  | .child parent => some parent
  | .root | .define _ _ _ | .release _ | .collect _ _ => none

theorem Operation.mem_handles_of_parent (hp : p ∈ operation.parent?) : p ∈ operation.handles := by
  cases operation with
  | child parent =>
    cases hp
    exact List.mem_singleton_self p
  | root => cases hp
  | define h name e => cases hp
  | release h => cases hp
  | collect roots values => cases hp

/-- The handle that an operation issues: that of the scope it makes. -/
def issues (s : Store) : Operation → Option Handle
  | .root => some s.root.1
  | .child parent => some (s.child parent).1
  | .define _ _ _ | .release _ | .collect _ _ => none

/-- An operation that issues a handle makes a scope. -/
theorem exists_allocate_of_issues (hi : s.issues operation = some h) :
    ∃ parent : Option Handle, operation.parent? = parent ∧
      h = (s.allocate parent).1 ∧ s.perform operation = (s.allocate parent).2 := by
  cases operation with
  | root =>
    cases hi
    exact ⟨none, rfl, rfl, rfl⟩
  | child parent =>
    cases hi
    exact ⟨some parent, rfl, rfl, rfl⟩
  | define h name e => cases hi
  | release h => cases hi
  | collect roots values => cases hi

/-- An operation that issues nothing makes no scope, moves none and turns no generation. -/
theorem scope?_perform_of_none (hi : s.issues operation = none) :
    (∀ i, (s.perform operation).generation? i = s.generation? i) ∧
      ∀ h scope, (s.perform operation).scope? h = some scope →
        ∃ old, s.scope? h = some old ∧ old.parent = scope.parent := by
  cases operation with
  | root => cases hi
  | child parent => cases hi
  | define h name e =>
    refine ⟨generation?_define s h name e, fun g scope hscope => ?_⟩
    rw [perform, scope?_define] at hscope
    split at hscope
    · rename_i hg
      obtain ⟨old, hold, rfl⟩ := Option.map_eq_some_iff.1 hscope
      exact ⟨old, hg ▸ hold, rfl⟩
    · exact ⟨scope, hscope, rfl⟩
  | release h =>
    by_cases hl : s.isLive h = true
    · refine ⟨fun i => ?_, fun g scope hscope => ?_⟩
      · rw [perform, release, if_pos hl, generation?_sweep]
      · exact ⟨scope, ((scope?_release_iff hl).1 hscope).1, rfl⟩
    · rw [perform, release_of_stale (Bool.eq_false_iff.2 hl)]
      exact ⟨fun i => rfl, fun g scope hscope => ⟨scope, hscope, rfl⟩⟩
  | collect roots values =>
    refine ⟨generation?_sweep s _, fun g scope hscope => ?_⟩
    exact ⟨scope, (scope?_collect_iff.1 hscope).1, rfl⟩

/-- Nothing happens through `h`: it finds no name, and neither defines nor releases anything. -/
structure Inert (s : Store) (h : Handle) : Prop where
  stale : s.isLive h = false
  names : ∀ name, s.get? h name = none
  define : ∀ name e, s.define h name e = s
  release : s.release h = (0, s)

theorem inert_of_stale (hstale : s.isLive h = false) : s.Inert h := by
  have hscope : s.scope? h = none := by simpa [isLive] using hstale
  exact ⟨hstale, get?_of_stale hscope, define_of_stale hscope, release_of_stale hstale⟩

/-! ## Histories -/

/-- A store and the handles that it has issued, the latest first. -/
structure History where
  store : Store
  issued : List Handle

namespace History

variable {past present : History}

/-- An empty store that has issued nothing. -/
def empty : History := ⟨.empty, []⟩

/-- The history with one operation more. -/
def next (past : History) (operation : Operation) : History :=
  ⟨past.store.perform operation, (past.store.issues operation).toList ++ past.issued⟩

/-- A history goes on to another one, by operations that each go through handles issued before. -/
inductive LeadsTo (past : History) : History → Prop
  | refl : LeadsTo past past
  | next {present : History} {operation : Operation} : LeadsTo past present →
      (∀ h ∈ operation.handles, h ∈ present.issued) → LeadsTo past (present.next operation)

theorem length_le_next (past : History) (operation : Operation) :
    past.issued.length ≤ (past.next operation).issued.length := by
  simp [History.next]

theorem mem_issued_next (operation : Operation) (hh : h ∈ past.issued) :
    h ∈ (past.next operation).issued :=
  List.mem_append_right _ hh

/-- The issued handles are all different, since no generation has come round: those of a slot go up
to its present one, which is below the number of all handles. Every scope there is was issued, and
its parent was issued before it. -/
structure Consistent (past : History) : Prop where
  sound : past.store.Sound
  nodup : past.issued.Nodup
  young : ∀ i n, past.store.generation? i = some n → n.toNat < past.issued.length
  known : ∀ h ∈ past.issued, ∃ n, past.store.generation? h.slot = some n ∧ h.generation ≤ n
  live : ∀ h, past.store.isLive h = true → h ∈ past.issued
  elder : ∀ h scope p, past.store.scope? h = some scope → scope.parent = some p →
    p ∈ past.issued ∧ past.issued.idxOf h < past.issued.idxOf p

theorem consistent_empty : empty.Consistent where
  sound := sound_empty
  nodup := List.nodup_nil
  young := by simp [empty, generation?, Store.empty]
  known := by simp [empty]
  live := by simp [empty, Store.isLive]
  elder := by simp [empty]

/-- A new scope in a slot that was used before is one generation younger. -/
theorem Consistent.toNat_generation (hc : past.Consistent) (hn : past.issued.length < 2 ^ 32)
    {n : UInt32} (hslot : past.store.generation? (past.store.allocate parent).1.slot = some n) :
    (past.store.allocate parent).1.generation.toNat = n.toNat + 1 := by
  have hyoung := hc.young _ _ hslot
  rw [generation_allocate, hslot, Option.map_some, Option.getD_some, UInt32.toNat_add,
    UInt32.toNat_one, Nat.mod_eq_of_lt (by omega)]

/-- A new handle is none of those issued before. -/
theorem Consistent.not_mem_issued (hc : past.Consistent) (hn : past.issued.length < 2 ^ 32)
    (parent : Option Handle) : (past.store.allocate parent).1 ∉ past.issued := by
  intro hm
  obtain ⟨n, hslot, hle⟩ := hc.known _ hm
  rw [UInt32.le_iff_toNat_le, hc.toNat_generation hn hslot] at hle
  omega

theorem Consistent.young_allocate (hc : past.Consistent) (hn : past.issued.length < 2 ^ 32)
    {n : UInt32} (hi : (past.store.allocate parent).2.generation? i = some n) :
    n.toNat < past.issued.length + 1 := by
  rw [generation?_allocate hc.sound] at hi
  split at hi
  · cases hi
    cases hslot : past.store.generation? (past.store.allocate parent).1.slot with
    | none =>
      rw [generation_allocate, hslot]
      exact Nat.succ_pos _
    | some m =>
      have hyoung := hc.young _ _ hslot
      rw [hc.toNat_generation hn hslot]
      omega
  · have hyoung := hc.young i n hi
    omega

theorem Consistent.known_allocate (hc : past.Consistent) (hn : past.issued.length < 2 ^ 32)
    (hh : h ∈ (past.store.allocate parent).1 :: past.issued) :
    ∃ n, (past.store.allocate parent).2.generation? h.slot = some n ∧ h.generation ≤ n := by
  rw [generation?_allocate hc.sound]
  rcases List.mem_cons.1 hh with rfl | hh
  · exact ⟨_, if_pos rfl, UInt32.le_refl _⟩
  · obtain ⟨n, hslot, hle⟩ := hc.known h hh
    split
    · rename_i hsame
      refine ⟨_, rfl, ?_⟩
      rw [UInt32.le_iff_toNat_le] at hle ⊢
      rw [hc.toNat_generation hn (hsame ▸ hslot)]
      omega
    · exact ⟨n, hslot, hle⟩

theorem Consistent.elder_allocate (hc : past.Consistent) (hn : past.issued.length < 2 ^ 32)
    (hparent : ∀ p ∈ parent, p ∈ past.issued)
    (hscope : (past.store.allocate parent).2.scope? h = some scope) (hp : scope.parent = some p) :
    p ∈ past.issued ∧ ((past.store.allocate parent).1 :: past.issued).idxOf h <
      ((past.store.allocate parent).1 :: past.issued).idxOf p := by
  have hne : ∀ g ∈ past.issued, (past.store.allocate parent).1 ≠ g := by
    rintro g hg rfl
    exact hc.not_mem_issued hn parent hg
  rw [scope?_allocate hc.sound] at hscope
  split at hscope
  · rename_i hnew
    cases hscope
    have hmem := hparent p hp
    refine ⟨hmem, ?_⟩
    rw [hnew, List.idxOf_cons_self, List.idxOf_cons_ne _ (hne p hmem)]
    exact Nat.succ_pos _
  · obtain ⟨hmem, hlt⟩ := hc.elder h scope p hscope hp
    have hh := hc.live h (isLive_iff.2 ⟨_, hscope⟩)
    refine ⟨hmem, ?_⟩
    rw [List.idxOf_cons_ne _ (hne h hh), List.idxOf_cons_ne _ (hne p hmem)]
    exact Nat.succ_lt_succ hlt

/-- A new scope inside one that was issued keeps the history consistent. -/
theorem Consistent.allocate (hc : past.Consistent) (hn : past.issued.length < 2 ^ 32)
    (hparent : ∀ p ∈ parent, p ∈ past.issued) :
    Consistent ⟨(past.store.allocate parent).2, (past.store.allocate parent).1 :: past.issued⟩ := by
  refine ⟨sound_allocate hc.sound parent,
    List.nodup_cons.2 ⟨hc.not_mem_issued hn parent, hc.nodup⟩, fun i n => hc.young_allocate hn,
    fun h => hc.known_allocate hn, ?_, ?_⟩
  · intro h hl
    obtain ⟨scope, hscope⟩ := isLive_iff.1 hl
    rw [scope?_allocate hc.sound] at hscope
    split at hscope
    · rename_i hnew
      exact List.mem_cons.2 (.inl hnew)
    · exact List.mem_cons_of_mem _ (hc.live h (isLive_iff.2 ⟨_, hscope⟩))
  · intro h scope p hscope hp
    obtain ⟨hmem, hlt⟩ := hc.elder_allocate hn hparent hscope hp
    exact ⟨List.mem_cons_of_mem _ hmem, hlt⟩

/-- An operation keeps a history consistent, through whatever handles it goes, as long as the parent
of a new scope was issued. -/
theorem Consistent.next (hc : past.Consistent) (hp : ∀ p ∈ operation.parent?, p ∈ past.issued)
    (hn : (past.next operation).issued.length ≤ 2 ^ 32) : (past.next operation).Consistent := by
  have hsound := sound_perform hc.sound operation
  cases hi : past.store.issues operation with
  | some new =>
    obtain ⟨parent, rfl, rfl, hstore⟩ := exists_allocate_of_issues hi
    rw [History.next, hi] at hn
    rw [History.next, hi, hstore]
    exact hc.allocate hn hp
  | none =>
    obtain ⟨hgeneration, hscope⟩ := scope?_perform_of_none hi
    rw [History.next, hi]
    refine ⟨hsound, hc.nodup, ?_, ?_, ?_, ?_⟩
    · intro i n hn
      exact hc.young i n ((hgeneration i).symm.trans hn)
    · intro h hh
      obtain ⟨n, hn, hle⟩ := hc.known h hh
      exact ⟨n, (hgeneration h.slot).trans hn, hle⟩
    · intro h hl
      obtain ⟨scope, hs⟩ := isLive_iff.1 hl
      obtain ⟨old, hold, -⟩ := hscope h scope hs
      exact hc.live h (isLive_iff.2 ⟨old, hold⟩)
    · intro h scope p hs hp
      obtain ⟨old, hold, hparent⟩ := hscope h scope hs
      exact hc.elder h old p hold (hparent.trans hp)

theorem LeadsTo.length_le (hr : past.LeadsTo present) :
    past.issued.length ≤ present.issued.length := by
  induction hr with
  | refl => exact Nat.le_refl _
  | next _ _ ih => exact Nat.le_trans ih (length_le_next _ _)

theorem LeadsTo.consistent (hr : past.LeadsTo present) (hc : past.Consistent)
    (hn : present.issued.length ≤ 2 ^ 32) : present.Consistent := by
  induction hr with
  | refl => exact hc
  | next _ hh ih =>
    have hpresent := ih (Nat.le_trans (length_le_next _ _) hn)
    exact hpresent.next (fun p hp => hh p (Operation.mem_handles_of_parent hp)) hn

/-! ## Stale handles -/

/-- A stale handle that was issued is not issued again. -/
theorem Consistent.stale_next (hc : past.Consistent)
    (hn : (past.next operation).issued.length ≤ 2 ^ 32) (hh : h ∈ past.issued)
    (hstale : past.store.isLive h = false) : (past.next operation).store.isLive h = false := by
  rw [Bool.eq_false_iff] at hstale ⊢
  intro hl
  obtain ⟨scope, hscope⟩ := isLive_iff.1 hl
  cases hi : past.store.issues operation with
  | some new =>
    obtain ⟨parent, -, rfl, hstore⟩ := exists_allocate_of_issues hi
    rw [History.next, hi] at hn
    rw [History.next, hstore, scope?_allocate hc.sound, if_neg] at hscope
    · exact hstale (isLive_iff.2 ⟨scope, hscope⟩)
    · rintro rfl
      exact hc.not_mem_issued hn parent hh
  | none =>
    obtain ⟨old, hold, -⟩ := (scope?_perform_of_none hi).2 h scope hscope
    exact hstale (isLive_iff.2 ⟨old, hold⟩)

theorem LeadsTo.stale (hr : past.LeadsTo present) (hc : past.Consistent)
    (hn : present.issued.length ≤ 2 ^ 32) (hh : h ∈ past.issued)
    (hstale : past.store.isLive h = false) :
    h ∈ present.issued ∧ present.store.isLive h = false := by
  induction hr with
  | refl => exact ⟨hh, hstale⟩
  | @next present operation hr _ ih =>
    have hle := Nat.le_trans (length_le_next present operation) hn
    obtain ⟨hmem, hstale⟩ := ih hle
    exact ⟨mem_issued_next operation hmem, (hr.consistent hc hle).stale_next hn hmem hstale⟩

/-! ## Look-ups -/

/-- Every chain of parents ends, since parents were issued before their children. -/
theorem Consistent.ends (hc : past.Consistent) : past.store.Ends := by
  intro h
  induction hm : past.issued.length - past.issued.idxOf h using Nat.strongRecOn generalizing h with
  | ind m ih =>
    cases hs : past.store.scope? h with
    | none => exact ⟨0, .stale hs⟩
    | some scope =>
      cases hp : scope.parent with
      | none => exact ⟨1, .root hs hp⟩
      | some p =>
        obtain ⟨hmem, hlt⟩ := hc.elder h scope p hs hp
        have hidx := List.idxOf_lt_length_of_mem hmem
        obtain ⟨n, hd⟩ := ih (past.issued.length - past.issued.idxOf p) (by omega) p rfl
        exact ⟨n + 1, .inside hs hp hd⟩

/-- A new scope changes the meaning of no name through a handle issued before it. -/
theorem Consistent.get?_allocate (hc : past.Consistent) (hn : past.issued.length < 2 ^ 32)
    (parent : Option Handle) (hh : h ∈ past.issued) (name : String) :
    (past.store.allocate parent).2.get? h name = past.store.get? h name := by
  have hscope : ∀ g, g ∈ past.issued →
      (past.store.allocate parent).2.scope? g = past.store.scope? g := by
    intro g hg
    rw [scope?_allocate hc.sound, if_neg]
    rintro rfl
    exact hc.not_mem_issued hn parent hg
  have hchain := chainFrom_congr hscope (fun g scope p _ hs hp => (hc.elder g scope p hs hp).1)
    (past.store.allocate parent).2.slots.size hh
  -- there may be one slot more than before, but the chain has ended by then
  obtain ⟨n, hd⟩ := hc.ends h
  have hsize := hd.le_size
  have hgrown := size_allocate_le past.store parent
  rw [Store.get?, Store.get?, chain, chain, hchain,
    chainFrom_eq_of_depth hd (Nat.le_trans hsize hgrown) hsize]

/-! ## The range of generations -/

theorem LeadsTo.mem_issued (hr : past.LeadsTo present) (hh : h ∈ past.issued) :
    h ∈ present.issued := by
  induction hr with
  | refl => exact hh
  | next _ _ ih => exact mem_issued_next _ ih

/-- A new scope inside one that was issued is one more operation. -/
theorem LeadsTo.allocate (hr : past.LeadsTo present) (hparent : ∀ p ∈ parent, p ∈ present.issued) :
    past.LeadsTo ⟨(present.store.allocate parent).2,
      (present.store.allocate parent).1 :: present.issued⟩ := by
  cases parent with
  | none =>
    refine @LeadsTo.next past present .root hr ?_
    intro h hh
    cases hh
  | some p =>
    refine @LeadsTo.next past present (.child p) hr ?_
    intro h hh
    rw [List.mem_singleton.1 hh]
    exact hparent p rfl

/-- Renewing a scope `n` times takes `n + 1` new scopes. -/
theorem exists_leadsTo_renew (past : History) (parents : Nat → Option Handle)
    (hparents : ∀ n, ∀ p ∈ parents n, p ∈ past.issued) (n : Nat) :
    ∃ present, past.LeadsTo present ∧ present.store = (past.store.renew parents n).2 ∧
      (past.store.renew parents n).1 ∈ present.issued ∧
      present.issued.length = past.issued.length + n + 1 := by
  induction n with
  | zero => exact ⟨_, LeadsTo.refl.allocate (hparents 0), rfl, List.mem_cons_self, rfl⟩
  | succ n ih =>
    obtain ⟨present, hr, hstore, hmem, hlength⟩ := ih
    rw [renew]
    generalize past.store.renew parents n = renewed at *
    obtain ⟨h, t⟩ := renewed
    dsimp only at *
    subst hstore
    have hrelease : past.LeadsTo (present.next (.release h)) := by
      refine hr.next fun g hg => ?_
      rw [List.mem_singleton.1 hg]
      exact hmem
    refine ⟨_, hrelease.allocate fun p hp => hrelease.mem_issued (hparents _ p hp), rfl,
      List.mem_cons_self, ?_⟩
    rw [List.length_cons, show (present.next (.release h)).issued = present.issued from rfl, hlength]
    omega

/-- After as many renewals as there are generations the first handle is live again, and is that of
the newest scope. -/
theorem renew_comes_round (hc : past.Consistent) (hv : past.store.vacant = [])
    (parents : Nat → Option Handle) (hparents : ∀ n, ∀ p ∈ parents n, p ∈ past.issued) (round : Nat)
    (hround : round = 2 ^ 32) :
    let first := (past.store.renew parents 0).1
    let last := past.store.renew parents round
    (∀ n, 0 < n → n < round → (past.store.renew parents n).2.isLive first = false) ∧
      last.1 = first ∧ last.2.scope? first = some ⟨parents round, .empty⟩ ∧
      ∃ present, past.LeadsTo present ∧ present.store = last.2 ∧
        present.issued.length = past.issued.length + round + 1 := by
  intro first last
  -- all parents were issued, so none of them can be in a slot that is yet to come
  have hout : ∀ g scope p, past.store.scope? g = some scope → scope.parent = some p →
      p.slot ≠ past.store.slots.size := by
    intro g scope p hscope hp hslot
    obtain ⟨n, hgeneration, -⟩ := hc.known p (hc.elder g scope p hscope hp).1
    rw [hslot, generation?, Array.getElem?_eq_none (Nat.le_refl _)] at hgeneration
    cases hgeneration
  have hfirst := isLive_first_renew_iff parents hv hout
  obtain ⟨present, hr, hstore, -, hlength⟩ := exists_leadsTo_renew past parents hparents round
  have hlast : last.1 = first := (hfirst round).2.2 (by rw [hround, Nat.mod_self])
  refine ⟨fun n hpos hlt => ?_, hlast, ?_, present, hr, hstore, hlength⟩
  · rw [Bool.eq_false_iff, Ne, (hfirst n).1, Nat.mod_eq_of_lt (hround ▸ hlt)]
    omega
  · rw [← hlast]
    exact scope?_renew parents hv hout round

/-- With at most `2 ^ 32` scopes made, all handles are different; a handle whose scope is gone is
inert for good; a new scope binds nothing and changes the meaning of no name through a handle issued
before it. The bound is sharp: a scope that is renewed `2 ^ 32` times in a slot of its own, which
takes one scope more, gets its first handle back after having lost it at every time before. -/
theorem handles_never_alias {past : History} (hpast : empty.LeadsTo past)
    (hn : past.issued.length ≤ 2 ^ 32) :
    past.issued.Nodup ∧
      (∀ earlier, empty.LeadsTo earlier → earlier.LeadsTo past → ∀ h ∈ earlier.issued,
        earlier.store.isLive h = false → past.store.Inert h) ∧
      (∀ earlier operation new, empty.LeadsTo earlier →
        (∀ h ∈ operation.handles, h ∈ earlier.issued) →
        earlier.store.issues operation = some new → (earlier.next operation).LeadsTo past →
        (∃ parent, (earlier.next operation).store.scope? new = some ⟨parent, .empty⟩) ∧
          ∀ h ∈ earlier.issued, ∀ name,
            (earlier.next operation).store.get? h name = earlier.store.get? h name) ∧
      (past.store.vacant = [] → ∀ parents : Nat → Option Handle,
        (∀ n, ∀ p ∈ parents n, p ∈ past.issued) →
        let first := (past.store.renew parents 0).1
        let last := past.store.renew parents (2 ^ 32)
        (∀ n, 0 < n → n < 2 ^ 32 → (past.store.renew parents n).2.isLive first = false) ∧
          last.1 = first ∧ last.2.scope? first = some ⟨parents (2 ^ 32), .empty⟩ ∧
          ∃ present, past.LeadsTo present ∧ present.store = last.2 ∧
            present.issued.length = past.issued.length + 2 ^ 32 + 1) := by
  have hc := hpast.consistent consistent_empty hn
  refine ⟨hc.nodup, ?_, ?_, ?_⟩
  · intro earlier hearlier hr h hh hstale
    have hce := hearlier.consistent consistent_empty (Nat.le_trans hr.length_le hn)
    exact inert_of_stale (hr.stale hce hn hh hstale).2
  · intro earlier operation new hearlier hhandles hi hr
    obtain ⟨parent, -, rfl, hstore⟩ := exists_allocate_of_issues hi
    have hlt : earlier.issued.length < 2 ^ 32 := by
      have hle := Nat.le_trans hr.length_le hn
      rw [History.next, hi] at hle
      exact hle
    have hce := hearlier.consistent consistent_empty (Nat.le_of_lt hlt)
    rw [History.next, hstore]
    refine ⟨⟨parent, ?_⟩, fun h hh name => hce.get?_allocate hlt parent hh name⟩
    rw [scope?_allocate hce.sound, if_pos rfl]
  · intro hv parents hparents
    exact renew_comes_round hc hv parents hparents (2 ^ 32) rfl

/-- A scope is made in the slot that its own parent has left. The stale handle of the parent stays
inert, and the global scope sees what it saw. -/
theorem child_in_slot_of_stale_parent :
    let past := ((empty.next .root).next (.child ⟨0, 0⟩)).next (.release ⟨1, 0⟩)
    let present := past.next (.child ⟨1, 0⟩)
    present.issued = [⟨1, 1⟩, ⟨1, 0⟩, ⟨0, 0⟩] ∧ empty.LeadsTo present ∧
      present.issued.length ≤ 2 ^ 32 ∧ present.issued.Nodup ∧ present.store.Inert ⟨1, 0⟩ ∧
      ∀ name, present.store.get? ⟨0, 0⟩ name = past.store.get? ⟨0, 0⟩ name := by
  intro past present
  have hissued : present.issued = [⟨1, 1⟩, ⟨1, 0⟩, ⟨0, 0⟩] := by decide +kernel
  have hpast : empty.LeadsTo past :=
    .next (.next (.next .refl (by decide +kernel)) (by decide +kernel)) (by decide +kernel)
  have hhandles : ∀ h ∈ (Operation.child ⟨1, 0⟩).handles, h ∈ past.issued := by decide +kernel
  have hpresent : empty.LeadsTo present := .next hpast hhandles
  have hn : present.issued.length ≤ 2 ^ 32 := by
    rw [hissued]
    decide
  obtain ⟨hnodup, hinert, hnew, -⟩ := handles_never_alias hpresent hn
  have hold : (⟨0, 0⟩ : Handle) ∈ past.issued := by decide +kernel
  refine ⟨hissued, hpresent, hn, hnodup, ?_, ?_⟩
  · exact hinert past hpast (.next .refl hhandles) ⟨1, 0⟩ (by decide +kernel) (by decide +kernel)
  · exact (hnew past (.child ⟨1, 0⟩) _ hpast hhandles rfl .refl).2 ⟨0, 0⟩ hold

end History

end Stepwise.Store
