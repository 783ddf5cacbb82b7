import Stepwise.Proofs.Renaming.Store
/-!
# Reduction up to renaming

Reading, expanding and stepping do the same in stores that mirror each other: they fail with the
same error or give results that correspond, and the stores they leave mirror each other under a
renaming that knows every new scope as well (`agree_step`).
-/

namespace Stepwise

variable {ε α β : Type} {root h : Handle} {r r' : Renaming} {s t : Store}

/-! ## Outcomes that agree -/

/-- Both results are the same error, or values that `Q` relates. -/
inductive Corresponds (Q : α → α → Prop) : Except ε α → Except ε α → Prop
  | ok {a b : α} : Q a b → Corresponds Q (.ok a) (.ok b)
  | error (e : ε) : Corresponds Q (.error e) (.error e)

theorem Corresponds.mono {Q P : α → α → Prop} {x y : Except ε α} (h : Corresponds Q x y)
    (hq : ∀ a b, Q a b → P a b) : Corresponds P x y := by
  cases h with
  | ok hab => exact .ok (hq _ _ hab)
  | error e => exact .error e

/-- The outcomes `x` and `y` of actions on `s` and on its mirror image correspond under a renaming
that extends `r` and knows every scope that is new in `x`. -/
def Agree (root : Handle) (r : Renaming) (s : Store) (Q : Renaming → α → α → Prop)
    (x y : Except ε α × Store) : Prop :=
  ∃ r', r.Extends r' ∧ Mirrors root r' x.2 y.2 ∧
    (∀ h, x.2.isLive h = true → s.isLive h = true ∨ r'.known h) ∧ Corresponds (Q r') x.1 y.1

/-- `e'` is the image of `e`. -/
def Renaming.Matches (r : Renaming) (e e' : Expr) : Prop :=
  e' = e.rename r.map ∧ r.Knows e

theorem Renaming.Matches.mono {e e' : Expr} (hm : r.Matches e e') (h : r.Extends r') :
    r'.Matches e e' :=
  ⟨by rw [hm.1, hm.2.rename_eq h], hm.2.mono h⟩

namespace Agree

variable {Q P : Renaming → α → α → Prop}

theorem of_corresponds (hm : Mirrors root r s t) {a b : Except ε α} (h : Corresponds (Q r) a b) :
    Agree root r s Q (a, s) (b, t) :=
  ⟨r, .refl r, hm, fun _ hl => .inl hl, h⟩

theorem weaken {x y : Except ε α × Store} (h : Agree root r s Q x y)
    (hq : ∀ r' a b, Q r' a b → P r' a b) : Agree root r s P x y := by
  obtain ⟨r', he, hm, hl, hc⟩ := h
  exact ⟨r', he, hm, hl, hc.mono (hq r')⟩

theorem bind {P : Renaming → β → β → Prop} {m m' : Action ε α} {k k' : α → Action ε β}
    (h : Agree root r s Q (m.runOn s) (m'.runOn t))
    (hk : ∀ r' a b s' t', r.Extends r' → Mirrors root r' s' t' → Q r' a b →
      Agree root r' s' P ((k a).runOn s') ((k' b).runOn t')) :
    Agree root r s P ((m >>= k).runOn s) ((m' >>= k').runOn t) := by
  rw [Action.runOn_bind, Action.runOn_bind]
  generalize m.runOn s = x at h ⊢
  generalize m'.runOn t = y at h ⊢
  obtain ⟨x, s'⟩ := x
  obtain ⟨y, t'⟩ := y
  obtain ⟨r', he, hm, hl, hc⟩ := h
  cases hc with
  | error e => exact ⟨r', he, hm, hl, .error e⟩
  | ok hab =>
    obtain ⟨r'', he', hm', hl', hc'⟩ := hk r' _ _ s' t' he hm hab
    refine ⟨r'', he.trans he', hm', fun h hh => ?_, hc'⟩
    rcases hl' h hh with hh | hh
    · rcases hl h hh with hh | hh
      · exact .inl hh
      · exact .inr (he' h hh).1
    · exact .inr hh

/-- A member by member reading agrees when each reading does. -/
theorem mapM {f f' : String → Action ε Expr} (tokens : List String)
    (hf : ∀ token r' s' t', r.Extends r' → Mirrors root r' s' t' →
      Agree root r' s' Renaming.Matches ((f token).runOn s') ((f' token).runOn t'))
    (hm : Mirrors root r s t) :
    Agree root r s (fun r' es es' => es' = es.map (Expr.rename r'.map) ∧ ∀ e ∈ es, r'.Knows e)
      ((tokens.mapM f).runOn s) ((tokens.mapM f').runOn t) := by
  induction tokens generalizing r s t with
  | nil => exact of_corresponds hm (.ok (by simp))
  | cons token rest ih =>
    simp only [List.mapM_cons]
    refine (hf token r s t (.refl r) hm).bind fun r' e e' s' t' he hm' hee => ?_
    refine (ih (fun token r'' s'' t'' he' => hf token r'' s'' t'' (he.trans he')) hm').bind
      fun r'' es es' s'' t'' he' hm'' hes => ?_
    refine of_corresponds hm'' (.ok ⟨?_, fun x hx => ?_⟩)
    · rw [(hee.mono he').1, hes.1]
      rfl
    · rcases List.mem_cons.1 hx with rfl | hx
      · exact hee.2.mono he'
      · exact hes.2 x hx

theorem newScope (hm : Mirrors root r s t) (hk : r.known h) :
    Agree root r s (fun r' g g' => g' = r'.map g ∧ r'.known g)
      ((Action.newScope h : Action ε Handle).runOn s)
      ((Action.newScope (r.map h) : Action ε Handle).runOn t) := by
  refine ⟨_, Renaming.extends_extend fun hk' => Store.ne_child hm.left (hm.isLive hk') rfl,
    hm.child hk, fun g hg => ?_, .ok ⟨(Renaming.map_extend _ _ _).symm, .inl rfl⟩⟩
  obtain ⟨scope, hs⟩ := Store.isLive_iff.1 hg
  rw [Action.runOn_newScope, Store.scope?_child hm.left] at hs
  split at hs
  · rename_i he
    exact .inr (.inl he)
  · exact .inl (Store.isLive_iff.2 ⟨scope, hs⟩)

theorem modify {f f' : Store → Store} (hm : Mirrors root r (f s) (f' t))
    (hl : ∀ h, (f s).isLive h = s.isLive h) :
    Agree root r s (fun _ _ _ => True) ((modify f : Action ε PUnit).runOn s)
      ((modify f' : Action ε PUnit).runOn t) :=
  ⟨r, .refl r, hm, fun h hh => .inl (hl h ▸ hh), .ok trivial⟩

end Agree

/-! ## Reading -/

theorem readUnbound_rename (token : String) (scope : Handle) :
    readUnbound token (r.map scope) = (readUnbound token scope).map (Expr.rename r.map) := by
  unfold readUnbound
  cases Builtin.ofName? token with
  | some b => rfl
  | none =>
    cases Form.ofName? token with
    | some f => rfl
    | none =>
      simp only
      split
      · rfl
      · split
        · rfl
        · split
          · cases readNumber token <;> rfl
          · rfl

/-- What stands for itself is a value, and keeps no scope but that it is read in. -/
theorem readUnbound_eq_ok {token : String} {scope : Handle} {e : Expr}
    (he : readUnbound token scope = .ok e) :
    e.isValue = true ∧ ∀ h ∈ e.captured, h = scope := by
  rcases readUnbound_cases he with ⟨f, -, rfl⟩ | ⟨b, rfl⟩ | ⟨x, rfl⟩ | ⟨c, rfl⟩
  · exact ⟨rfl, fun h hh => List.mem_singleton.1 hh⟩
  · exact ⟨rfl, fun h hh => (List.not_mem_nil hh).elim⟩
  · exact ⟨rfl, fun h hh => (List.not_mem_nil hh).elim⟩
  · exact ⟨rfl, fun h hh => (List.not_mem_nil hh).elim⟩

theorem corresponds_readAtom (hm : Mirrors root r s t) (hk : r.known h) (token : String) :
    Corresponds (fun e e' => r.Matches e e' ∧ e.isValue = true) (s.readAtom token h)
      (t.readAtom token (r.map h)) := by
  unfold Store.readAtom
  rw [hm.get?_map hk]
  cases hg : s.get? h token with
  | some e =>
    obtain ⟨hv, hke⟩ := hm.bound_of_get? hk hg
    exact .ok ⟨⟨rfl, hke⟩, hv⟩
  | none =>
    simp only [Option.map_none, readUnbound_rename]
    cases hu : readUnbound token h with
    | error err => exact .error err
    | ok e =>
      obtain ⟨hv, hc⟩ := readUnbound_eq_ok hu
      exact .ok ⟨⟨rfl, fun g hg => hc g hg ▸ hk⟩, hv⟩

theorem agree_read (hm : Mirrors root r s t) (hk : r.known h) (text : String) :
    Agree root r s
      (fun r' e e' => r'.Matches e e' ∧ (opensTuple (trim text) = false → e.isValue = true))
      ((read text h).runOn s) ((read text (r.map h)).runOn t) := by
  unfold read
  simp only
  split
  · exact .of_corresponds hm (.error _)
  · split
    · rename_i ho
      cases Token.members (trim text) with
      | error err => exact .of_corresponds hm (.error _)
      | ok ms =>
        refine (Agree.newScope hm hk).bind fun r' g g' s' t' _ hm' hg => ?_
        refine .of_corresponds hm' (.ok ⟨⟨?_, Renaming.knows_singleton hg.2⟩, fun hn => ?_⟩)
        · rw [hg.1]
          rfl
        · rw [ho] at hn
          cases hn
    · have hc := corresponds_readAtom hm hk (trim text)
      simp only [Action.runOn_bind, Action.runOn_get, Action.runOn_ofExcept]
      refine (Agree.of_corresponds hm (Q := fun r' e e' => r'.Matches e e' ∧ e.isValue = true)
        hc).weaken fun r' e e' hq => ⟨hq.1, fun _ => hq.2⟩

theorem agree_readMember (hm : Mirrors root r s t) (hk : r.known h) (token : String) :
    Agree root r s
      (fun r' e e' => r'.Matches e e' ∧ (opensTuple (trim token) = false → e.isValue = true))
      ((readMember token h).runOn s) ((readMember token (r.map h)).runOn t) := by
  obtain ⟨r', he, hm', hl, hc⟩ := agree_read hm hk token
  unfold readMember
  rw [Action.runOn_adapt, Action.runOn_adapt]
  refine ⟨r', he, hm', hl, ?_⟩
  generalize ((read token h).runOn s).1 = x at hc
  generalize ((read token (r.map h)).runOn t).1 = y at hc
  cases hc with
  | ok hq => exact .ok hq
  | error e => exact .error _

/-! ## Expanding -/

theorem agree_shapeMember {nested nested' chase chase' : List String → Handle → Eval Expr}
    (hn : ∀ r' g s' t' tokens, r.Extends r' → Mirrors root r' s' t' → r'.known g →
      Agree root r' s' Renaming.Matches ((nested tokens g).runOn s')
        ((nested' tokens (r'.map g)).runOn t'))
    (hm : Mirrors root r s t) (hk : r.known h) (token : String) :
    Agree root r s Renaming.Matches ((shapeMember nested chase token h).runOn s)
      ((shapeMember nested' chase' token (r.map h)).runOn t) := by
  unfold shapeMember
  refine (agree_readMember hm hk token).bind fun r' e e' s' t' he hm' ⟨hee, hv⟩ => ?_
  obtain ⟨rfl, hke⟩ := hee
  cases e with
  | pending tokens inner =>
    simp only [Expr.rename]
    split
    · exact hn r' inner s' t' tokens he hm' (hke inner (List.mem_singleton.2 rfl))
    · -- what a name is bound to is a value, so there is nothing to chase
      rename_i ho
      cases hv (by simpa using ho)
  | _ => exact .of_corresponds hm' (.ok ⟨rfl, hke⟩)

theorem agree_shapeTuple {member member' : String → Eval Expr}
    (hf : ∀ token r' s' t', r.Extends r' → Mirrors root r' s' t' →
      Agree root r' s' Renaming.Matches ((member token).runOn s') ((member' token).runOn t'))
    (hm : Mirrors root r s t) (hk : r.known h) (tokens : List String) :
    Agree root r s Renaming.Matches ((shapeTuple member h tokens).runOn s)
      ((shapeTuple member' (r.map h) tokens).runOn t) := by
  cases tokens with
  | nil => exact .of_corresponds hm (.ok ⟨rfl, Renaming.knows_tuple.2 (by simp)⟩)
  | cons first rest =>
    simp only [shapeTuple]
    refine (hf first r s t (.refl r) hm).bind fun r' e e' s' t' he hm' hee => ?_
    obtain ⟨rfl, hke⟩ := hee
    rw [Expr.isForm_rename]
    split
    · refine .of_corresponds hm' (.ok ⟨?_, ?_⟩)
      · simp [Expr.rename, Function.comp_def, (he h hk).2]
      · refine Renaming.knows_tuple.2 fun x hx => ?_
        rcases List.mem_cons.1 hx with rfl | hx
        · exact hke
        · obtain ⟨token, -, rfl⟩ := List.mem_map.1 hx
          exact Renaming.knows_singleton (he h hk).1
    · refine (Agree.mapM rest (fun token r'' s'' t'' he' => hf token r'' s'' t'' (he.trans he'))
        hm').bind fun r'' es es' s'' t'' he' hm'' hes => ?_
      refine .of_corresponds hm'' (.ok ⟨?_, ?_⟩)
      · simp [Expr.rename, hes.1, hke.rename_eq he']
      · refine Renaming.knows_tuple.2 fun x hx => ?_
        rcases List.mem_cons.1 hx with rfl | hx
        · exact hke.mono he'
        · exact hes.2 x hx

theorem agree_expandNested {chase chase' : List String → Handle → Eval Expr} (depth : Nat)
    (hm : Mirrors root r s t) (hk : r.known h) (tokens : List String) :
    Agree root r s Renaming.Matches ((expandNested chase depth tokens h).runOn s)
      ((expandNested chase' depth tokens (r.map h)).runOn t) := by
  -- the renaming grows with each member, so it is not fixed in the induction either
  induction depth generalizing r s t h tokens with
  | zero => exact .of_corresponds hm (.error _)
  | succ depth ih =>
    unfold expandNested
    refine agree_shapeTuple (fun token r' s' t' he hm' => ?_) hm hk tokens
    rw [← (he h hk).2]
    exact agree_shapeMember (fun r'' g s'' t'' tokens _ hm'' hg => ih hm'' hg tokens) hm' (he h hk).1
      token

/-! ## Stepping -/

theorem mirrors_bindAll (hk : r.known h) (pairs : List (String × Expr))
    (hp : ∀ p ∈ pairs, p.2.isValue = true ∧ r.Knows p.2) (hm : Mirrors root r s t) :
    Mirrors root r (pairs.foldl (fun s (name, arg) => s.define h name arg) s)
      ((pairs.map fun p => (p.1, p.2.rename r.map)).foldl
        (fun s (name, arg) => s.define (r.map h) name arg) t) := by
  induction pairs generalizing s t with
  | nil => exact hm
  | cons p rest ih =>
    obtain ⟨hv, hkp⟩ := hp p (by simp)
    exact ih (fun q hq => hp q (by simp [hq])) (hm.define hk p.1 hv hkp)

theorem isLive_bindAll (g : Handle) (pairs : List (String × Expr)) (s : Store) :
    (pairs.foldl (fun s (name, arg) => s.define h name arg) s).isLive g = s.isLive g := by
  induction pairs generalizing s with
  | nil => rfl
  | cons p rest ih => rw [List.foldl_cons, ih, Store.isLive_define]

theorem agree_enter (hm : Mirrors root r s t) {c : Closure} {args : List Expr}
    (hc : r.known c.scope) (hv : ∀ a ∈ args, a.isValue = true) (ha : ∀ a ∈ args, r.Knows a) :
    Agree root r s Renaming.Matches ((c.enter args).runOn s)
      (((c.rename r.map).enter (args.map (Expr.rename r.map))).runOn t) := by
  unfold Closure.enter
  simp only [Closure.rename, List.length_map]
  split
  · refine (Agree.newScope hm hc).bind fun r' g g' s' t' he hm' hg => ?_
    obtain ⟨rfl, hg⟩ := hg
    -- the arguments were known before the frame was, so its image does not change theirs
    have hpairs : c.params.zip (args.map (Expr.rename r.map)) =
        (c.params.zip args).map fun p => (p.1, p.2.rename r'.map) := by
      rw [List.zip_map_right]
      refine List.map_congr_left fun p hp => ?_
      rw [(ha p.2 (List.of_mem_zip hp).2).rename_eq he]
      rfl
    have hp : ∀ p ∈ c.params.zip args, p.2.isValue = true ∧ r'.Knows p.2 := fun p hp =>
      ⟨hv p.2 (List.of_mem_zip hp).2, (ha p.2 (List.of_mem_zip hp).2).mono he⟩
    rw [hpairs]
    refine (Agree.modify (mirrors_bindAll hg _ hp hm') fun k => isLive_bindAll k _ _).bind
      fun r'' _ _ s'' t'' he' hm'' _ => ?_
    rw [← (he' g hg).2]
    exact (agree_readMember hm'' (he' g hg).1 c.body).weaken fun _ _ _ hq => hq.1
  · exact .of_corresponds hm (.error _)

/-- A tuple that makes its own move makes the corresponding one in the mirror image. -/
theorem agree_step_tuple {members : List Expr} (hm : Mirrors root r s t)
    (hk : ∀ e ∈ members, r.Knows e) (hmove : ∀ place, tupleMove members ≠ .ok (.advance place)) :
    Agree root r s Renaming.Matches ((step (.tuple members)).runOn s)
      ((step (.tuple (members.map (Expr.rename r.map)))).runOn t) := by
  have hknown : ∀ h ∈ capturedAll members, r.known h := Renaming.knows_tuple.2 hk
  have hsame := tupleMove_rename (hm.separates hknown)
  cases hc : tupleMove members with
  | error err =>
    rw [hc] at hsame
    rw [runOn_step_error hc, runOn_step_error hsame]
    exact .of_corresponds hm (.error err)
  | ok m =>
    have hmoves := moves_of_tupleMove hc
    have hcaptured := fun h hh => hknown h (hmoves.captured_subset h hh)
    rw [hc] at hsame
    cases m with
    | advance place => exact (hmove place hc).elim
    | become e =>
      rw [runOn_step_become hc, runOn_step_become hsame]
      exact .of_corresponds hm (.ok ⟨rfl, hcaptured⟩)
    | define scope name value =>
      rw [runOn_step_define hc, runOn_step_define hsame]
      have hv := hmoves.isValue_of_define
      refine ⟨r, .refl r, ?_, fun h hh => .inl ?_, .ok ⟨rfl, by simp [Renaming.Knows, Expr.captured]⟩⟩
      · exact hm.defineAround (hcaptured scope (by simp [Move.captured])) name hv
          fun h hh => hcaptured h (List.mem_cons_of_mem _ hh)
      · simpa [Store.defineAround] using hh
    | enter c args =>
      rw [runOn_step_enter hc, runOn_step_enter hsame]
      refine agree_enter hm (hcaptured _ (by simp [Move.captured])) hmoves.isValue_of_enter ?_
      exact Renaming.knows_tuple.1 fun h hh => hcaptured h (List.mem_cons_of_mem _ hh)

/-- A step in stores that mirror each other does the same in both. -/
theorem agree_step (e : Expr) (hm : Mirrors root r s t) (he : r.Knows e) :
    Agree root r s Renaming.Matches ((step e).runOn s) ((step (e.rename r.map)).runOn t) := by
  induction e using step_induction with
  | advance before e after hmove ih =>
    have hknow := Renaming.knows_tuple.1 he
    obtain ⟨r', hext, hm', hl, hc⟩ := ih (hknow e (by simp))
    have hmove' := tupleMove_rename (hm.separates he)
    rw [hmove, List.map_append, List.map_cons] at hmove'
    rw [Expr.rename, renameAll_eq_map, List.map_append, List.map_cons, runOn_step_advance hmove,
      runOn_step_advance (by rw [hmove', List.length_map]; rfl)]
    refine ⟨r', hext, hm', hl, ?_⟩
    generalize ((step e).runOn s).1 = x at hc ⊢
    generalize ((step (e.rename r.map)).runOn t).1 = y at hc ⊢
    cases hc with
    | error err => exact .error err
    | @ok x y hxy =>
      -- the other members keep their images, since the renaming only learned new scopes
      have hsame : ∀ z ∈ before ++ e :: after, z.rename r'.map = z.rename r.map :=
        fun z hz => (hknow z hz).rename_eq hext
      refine .ok ⟨?_, Renaming.knows_tuple.2 fun z hz => ?_⟩
      · rw [hxy.1, Expr.rename, renameAll_eq_map, List.map_append, List.map_cons,
          List.map_congr_left fun z hz => hsame z (List.mem_append_left _ hz),
          List.map_congr_left fun z hz => hsame z (by simp [hz])]
      · rcases List.mem_append.1 hz with hz | hz
        · exact (hknow z (by simp [hz])).mono hext
        · rcases List.mem_cons.1 hz with rfl | hz
          · exact hxy.2
          · exact (hknow z (by simp [hz])).mono hext
  | base e hbase =>
    cases e with
    | pending tokens scope =>
      exact agree_expandNested _ hm (he scope (List.mem_singleton.2 rfl)) tokens
    | deferred token scope =>
      exact (agree_readMember hm (he scope (List.mem_singleton.2 rfl)) token).weaken
        fun _ _ _ hq => hq.1
    | tuple members =>
      rw [Expr.rename, renameAll_eq_map]
      exact agree_step_tuple hm (Renaming.knows_tuple.1 he) fun place => hbase members place rfl
    | procedure p => exact .of_corresponds hm (.ok ⟨rfl, he⟩)
    | number x => exact .of_corresponds hm (.ok ⟨rfl, he⟩)
    | boolean b => exact .of_corresponds hm (.ok ⟨rfl, he⟩)
    | void => exact .of_corresponds hm (.ok ⟨rfl, he⟩)

end Stepwise
