import Stepwise.Proofs.Eval.Expansion
import Stepwise.Proofs.Renaming.Step
import Stepwise.Proofs.Substitution.Move
/-!
# Steps under a substitution

On the one side the key is bound to a number in every scope that matters, and on the other side
the literal stands in its place and nothing is bound. An expression that binds nothing, and its
image after the substitution, then take the same steps up to a renaming of scopes: they fail with
the same error, or they lead to an expression that binds nothing and to its image
(`inStep_step`).
-/

namespace Stepwise

variable {ε α β : Type} {σ : Substitution} {r r' : Renaming} {s t : Store} {h : Handle}

/-! ## Expressions and their images -/

namespace Substitution

/-- The expression after the substitution, with its scopes renamed. -/
def image (σ : Substitution) (r : Renaming) (e : Expr) : Expr :=
  (e.replaced σ).rename r.map

/-- `e'` is the image of `e`, all of whose scopes are known and which binds nothing. -/
structure Relates (σ : Substitution) (r : Renaming) (e e' : Expr) : Prop where
  eq : e' = σ.image r e
  knows : r.Knows e
  bindsNothing : e.BindsNothing

theorem image_eq {e : Expr} (hk : r.Knows e) (hr : r.Extends r') : σ.image r' e = σ.image r e := by
  have hknows : r.Knows (e.replaced σ) := by
    intro g hg
    rw [Expr.captured_replaced] at hg
    exact hk g hg
  exact hknows.rename_eq hr

theorem Relates.mono {e e' : Expr} (h : σ.Relates r e e') (hr : r.Extends r') :
    σ.Relates r' e e' :=
  ⟨h.eq.trans (image_eq h.knows hr).symm, h.knows.mono hr, h.bindsNothing⟩

theorem image_of_isValue {e : Expr} (hv : e.isValue = true) : σ.image r e = e.rename r.map := by
  rw [image, Expr.replaced_of_isValue hv]

theorem image_tuple (es : List Expr) : σ.image r (.tuple es) = .tuple (es.map (σ.image r)) := by
  simp only [image, Expr.replaced, Expr.rename, replacedAll_eq_map, renameAll_eq_map, List.map_map]
  rfl

theorem Relates.members {es : List Expr} {e' : Expr} (h : σ.Relates r (.tuple es) e') :
    ∀ e ∈ es, σ.Relates r e (σ.image r e) :=
  fun e he => ⟨rfl, Renaming.knows_tuple.1 h.knows e he, h.bindsNothing.members e he⟩

theorem relates_tuple (es : List Expr) (h : ∀ e ∈ es, σ.Relates r e (σ.image r e)) :
    σ.Relates r (.tuple es) (.tuple (es.map (σ.image r))) := by
  refine ⟨(image_tuple es).symm, Renaming.knows_tuple.2 ?_, .tuple ?_⟩
  · intro e he
    exact (h e he).knows
  · intro e he
    exact (h e he).bindsNothing

/-- A tuple and a new member in front of it. -/
theorem Relates.cons {e e' : Expr} {es es' : List Expr} (he : σ.Relates r e e')
    (hes : σ.Relates r (.tuple es) (.tuple es')) :
    σ.Relates r (.tuple (e :: es)) (.tuple (e' :: es')) := by
  have htail := hes.eq
  rw [image_tuple, Expr.tuple.injEq] at htail
  rw [he.eq, htail, ← List.map_cons]
  apply relates_tuple
  intro x hx
  rcases List.mem_cons.1 hx with rfl | hx
  · exact ⟨rfl, he.knows, he.bindsNothing⟩
  · exact hes.members x hx

/-- A member that has taken a step is put back in its place. -/
theorem Relates.at_place {before after : List Expr} {e x x' : Expr}
    (h : ∀ z ∈ before ++ e :: after, σ.Relates r z (σ.image r z)) (hr : r.Extends r')
    (hx : σ.Relates r' x x') :
    σ.Relates r' (.tuple (before ++ x :: after))
      (.tuple (before.map (σ.image r) ++ x' :: after.map (σ.image r))) := by
  -- the other members keep their images, since the renaming only learned new scopes
  have hbefore : before.map (σ.image r) = before.map (σ.image r') :=
    List.map_congr_left fun z hz => (image_eq (h z (by simp [hz])).knows hr).symm
  have hafter : after.map (σ.image r) = after.map (σ.image r') :=
    List.map_congr_left fun z hz => (image_eq (h z (by simp [hz])).knows hr).symm
  rw [hbefore, hafter, hx.eq, ← List.map_cons, ← List.map_append]
  apply relates_tuple
  intro z hz
  rcases eq_or_mem_of_mem_replaced (e := e) hz with rfl | hz
  · exact ⟨rfl, hx.knows, hx.bindsNothing⟩
  · exact ⟨rfl, (h z hz).knows.mono hr, (h z hz).bindsNothing⟩

end Substitution

/-! ## Stores -/

/-- Seen from the scopes of `s` that `r` knows, the key is bound to its number and nothing else is
bound; seen from their images in `t`, nothing is bound at all. -/
structure Supplied (σ : Substitution) (r : Renaming) (s t : Store) : Prop where
  left : s.Sound
  right : t.Sound
  injective : ∀ g h, r.known g → r.known h → r.map g = r.map h → g = h
  rooted : ∀ h, r.known h → ∃ root, s.Rooted root h
  rooted_map : ∀ h, r.known h → ∃ root, t.Rooted root (r.map h)
  bound : ∀ h name, r.known h →
    s.get? h name = if name = σ.key then some (.number σ.value) else none
  unbound : ∀ h name, r.known h → t.get? (r.map h) name = none

namespace Supplied

theorem isLive (hs : Supplied σ r s t) (hk : r.known h) : s.isLive h = true := by
  obtain ⟨root, hr⟩ := hs.rooted h hk
  exact hr.isLive

theorem isLive_map (hs : Supplied σ r s t) (hk : r.known h) : t.isLive (r.map h) = true := by
  obtain ⟨root, hr⟩ := hs.rooted_map h hk
  exact hr.isLive

theorem separates (hs : Supplied σ r s t) {hs' : List Handle} (hk : ∀ h ∈ hs', r.known h) :
    Separates r.map hs' :=
  fun g hg h hh => hs.injective g h (hk g hg) (hk h hh)

theorem extends_child (hs : Supplied σ r s t) (p g : Handle) :
    r.Extends (r.extend (s.child p).1 g) :=
  Renaming.extends_extend fun hk => Store.ne_child hs.left (hs.isLive hk) rfl

/-- A new scope on each side sees what is seen around it. -/
theorem child {p : Handle} (hs : Supplied σ r s t) (hp : r.known p) :
    Supplied σ (r.extend (s.child p).1 (t.child (r.map p)).1) (s.child p).2
      (t.child (r.map p)).2 := by
  have hext := hs.extends_child p (t.child (r.map p)).1
  have hfresh : ∀ h, r.known h → r.map h ≠ (t.child (r.map p)).1 :=
    fun h hk => Store.ne_child hs.right (hs.isLive_map hk)
  obtain ⟨root, hroot⟩ := hs.rooted p hp
  obtain ⟨root', hroot'⟩ := hs.rooted_map p hp
  refine ⟨Store.sound_child hs.left p, Store.sound_child hs.right _, ?_, ?_, ?_, ?_, ?_⟩
  · -- the new scope of `t` is the image of no scope that was known before
    rintro g h (rfl | hg) (rfl | hh) he
    · rfl
    · rw [Renaming.map_extend, (hext h hh).2] at he
      exact (hfresh h hh he.symm).elim
    · rw [Renaming.map_extend, (hext g hg).2] at he
      exact (hfresh g hg he).elim
    · rw [(hext g hg).2, (hext h hh).2] at he
      exact hs.injective g h hg hh he
  · rintro h (rfl | hh)
    · exact ⟨root, Store.rooted_child_self hs.left hroot⟩
    · obtain ⟨root, hr⟩ := hs.rooted h hh
      exact ⟨root, hr.child hs.left p⟩
  · rintro h (rfl | hh)
    · rw [Renaming.map_extend]
      exact ⟨root', Store.rooted_child_self hs.right hroot'⟩
    · rw [(hext h hh).2]
      obtain ⟨root, hr⟩ := hs.rooted_map h hh
      exact ⟨root, hr.child hs.right _⟩
  · rintro h name (rfl | hh)
    · rw [Store.get?_child_self hs.left hroot, hs.bound p name hp]
    · obtain ⟨root, hr⟩ := hs.rooted h hh
      rw [Store.get?_child hs.left hr, hs.bound h name hh]
  · rintro h name (rfl | hh)
    · rw [Renaming.map_extend, Store.get?_child_self hs.right hroot', hs.unbound p name hp]
    · obtain ⟨root, hr⟩ := hs.rooted_map h hh
      rw [(hext h hh).2, Store.get?_child hs.right hr, hs.unbound h name hh]

end Supplied

/-! ## Outcomes -/

/-- The outcomes `x` and `y` correspond under a renaming that extends `r`, and so do the stores that
are left. -/
def InStep (σ : Substitution) (r : Renaming) (Q : Renaming → α → α → Prop)
    (x y : Except ε α × Store) : Prop :=
  ∃ r', r.Extends r' ∧ Supplied σ r' x.2 y.2 ∧ Corresponds (Q r') x.1 y.1

namespace InStep

variable {Q P : Renaming → α → α → Prop}

theorem of_corresponds (hs : Supplied σ r s t) {a b : Except ε α} (h : Corresponds (Q r) a b) :
    InStep σ r Q (a, s) (b, t) :=
  ⟨r, .refl r, hs, h⟩

theorem weaken {x y : Except ε α × Store} (h : InStep σ r Q x y)
    (hq : ∀ r' a b, Q r' a b → P r' a b) : InStep σ r P x y := by
  obtain ⟨r', hr, hs, hc⟩ := h
  exact ⟨r', hr, hs, hc.mono (hq r')⟩

theorem bind {P : Renaming → β → β → Prop} {m m' : Action ε α} {k k' : α → Action ε β}
    (h : InStep σ r Q (m.runOn s) (m'.runOn t))
    (hk : ∀ r' a b s' t', r.Extends r' → Supplied σ r' s' t' → Q r' a b →
      InStep σ r' P ((k a).runOn s') ((k' b).runOn t')) :
    InStep σ r P ((m >>= k).runOn s) ((m' >>= k').runOn t) := by
  rw [Action.runOn_bind, Action.runOn_bind]
  generalize m.runOn s = x at h ⊢
  generalize m'.runOn t = y at h ⊢
  obtain ⟨x, s'⟩ := x
  obtain ⟨y, t'⟩ := y
  obtain ⟨r', hr, hs, hc⟩ := h
  cases hc with
  | error e => exact ⟨r', hr, hs, .error e⟩
  | ok hab =>
    obtain ⟨r'', hr', hs', hc'⟩ := hk r' _ _ s' t' hr hs hab
    exact ⟨r'', hr.trans hr', hs', hc'⟩

/-- Member by member, each token on the one side and its image on the other. -/
theorem mapM {f f' : String → Action ε Expr} {tokens : List String}
    (hf : ∀ token ∈ tokens, ∀ r' s' t', r.Extends r' → Supplied σ r' s' t' →
      InStep σ r' σ.Relates ((f token).runOn s') ((f' (σ.token token)).runOn t'))
    (hs : Supplied σ r s t) :
    InStep σ r (fun r' es es' => σ.Relates r' (.tuple es) (.tuple es'))
      ((tokens.mapM f).runOn s) (((tokens.map σ.token).mapM f').runOn t) := by
  induction tokens generalizing r s t with
  | nil => exact of_corresponds hs (.ok (Substitution.relates_tuple [] (by simp)))
  | cons token rest ih =>
    rw [List.map_cons, List.mapM_cons, List.mapM_cons]
    refine (hf token (by simp) r s t (.refl r) hs).bind ?_
    intro r' e e' s' t' hr hs' he
    have hrest : ∀ token ∈ rest, ∀ r'' s'' t'', r'.Extends r'' → Supplied σ r'' s'' t'' →
        InStep σ r'' σ.Relates ((f token).runOn s'') ((f' (σ.token token)).runOn t'') := by
      intro token hmem r'' s'' t'' hr'
      exact hf token (by simp [hmem]) r'' s'' t'' (hr.trans hr')
    refine (ih hrest hs').bind ?_
    intro r'' es es' s'' t'' hr' hs'' hes
    exact of_corresponds hs'' (.ok ((he.mono hr').cons hes))

end InStep

/-! ## Reading -/

/-- The key is read as its number, and so is the literal; any other atom is not bound. -/
theorem corresponds_readAtom_replaced (hs : Supplied σ r s t) (hk : r.known h) {token : String}
    (ha : Token.IsAtom token.toList) (ht : token ≠ "define" ∧ token ≠ "lambda") :
    Corresponds (fun e e' => σ.Relates r e e' ∧ e.isValue = true) (s.readAtom token h)
      (t.readAtom (σ.token token) (r.map h)) := by
  simp only [Store.readAtom, hs.bound h _ hk, hs.unbound h _ hk, Substitution.token,
    Token.replaced_of_isAtom ha]
  by_cases hkey : token = σ.key
  · simp only [if_pos hkey, σ.readUnbound_literal]
    refine .ok ⟨⟨rfl, ?_, .number σ.value⟩, rfl⟩
    simp [Renaming.Knows, Expr.captured]
  · simp only [if_neg hkey, readUnbound_rename]
    cases he : readUnbound token h with
    | error err => exact .error err
    | ok e =>
      obtain ⟨hv, hc⟩ := readUnbound_eq_ok he
      refine .ok ⟨⟨(Substitution.image_of_isValue hv).symm, ?_, ?_⟩, hv⟩
      · intro g hg
        rw [hc g hg]
        exact hk
      · exact bindsNothing_of_readUnbound ht he

/-- A token that opens a bracket is read as a pending tuple, and any other as a value. -/
theorem inStep_readMember (hs : Supplied σ r s t) (hk : r.known h) {token : String}
    (ht : Token.BindsNothing token) :
    InStep σ r (fun r' e e' => σ.Relates r' e e' ∧ ∀ ms inner, e = .pending ms inner →
        opensTuple (trim token) = true ∧ Token.members (trim token) = .ok ms)
      ((readMember token h).runOn s) ((readMember (σ.token token) (r.map h)).runOn t) := by
  have htrim : trim token = token := Token.trim_of_isToken ht.1
  have htrim' : trim (σ.token token) = σ.token token := Substitution.trim_token ht.1
  have ho' : opensTuple (σ.token token) = opensTuple token := Substitution.opensTuple_token ht.1
  rw [runOn_readMember, runOn_readMember]
  by_cases ho : opensTuple token = true
  · obtain ⟨ms, hm, hms⟩ := ht.members ho
    have hm' : Token.members (σ.token token) = .ok (ms.map σ.token) :=
      Substitution.members_token ht.1 ho hm
    rw [runOn_read_tuple (by rw [htrim]; exact ho) (by rw [htrim]; exact hm),
      runOn_read_tuple (by rw [htrim', ho']; exact ho) (by rw [htrim']; exact hm')]
    refine ⟨_, hs.extends_child h _, hs.child hk, .ok ⟨⟨?_, ?_, .pending hms⟩, ?_⟩⟩
    · simp only [Substitution.image, Expr.replaced, Expr.rename, Renaming.map_extend]
    · exact Renaming.knows_singleton (.inl rfl)
    · intro ns inner he
      cases he
      rw [htrim]
      exact ⟨ho, hm⟩
  · have ho : opensTuple token = false := by simpa using ho
    obtain ⟨ha, hallowed⟩ := ht.atom ho
    have ha' := Token.isAtom_of_isToken (Substitution.isToken_token ht.1) (ho'.trans ho)
    rw [runOn_read_of_isAtom ha, runOn_read_of_isAtom ha']
    have hread := corresponds_readAtom_replaced hs hk ha hallowed
    refine .of_corresponds hs ?_
    generalize s.readAtom token h = x at hread ⊢
    generalize t.readAtom (σ.token token) (r.map h) = y at hread ⊢
    cases hread with
    | error err => exact .error _
    | ok he =>
      refine .ok ⟨he.1, ?_⟩
      rintro ms inner rfl
      cases he.2

/-! ## Expanding -/

theorem inStep_shapeTuple {member member' : String → Eval Expr} {tokens : List String}
    (hs : Supplied σ r s t) (hk : r.known h) (ht : ∀ token ∈ tokens, Token.BindsNothing token)
    (hm : ∀ token ∈ tokens, ∀ r' s' t', r.Extends r' → Supplied σ r' s' t' →
      InStep σ r' σ.Relates ((member token).runOn s') ((member' (σ.token token)).runOn t')) :
    InStep σ r σ.Relates ((shapeTuple member h tokens).runOn s)
      ((shapeTuple member' (r.map h) (tokens.map σ.token)).runOn t) := by
  cases tokens with
  | nil => exact .of_corresponds hs (.ok (Substitution.relates_tuple [] (by simp)))
  | cons first rest =>
    rw [List.map_cons]
    refine (hm first (by simp) r s t (.refl r) hs).bind ?_
    intro r' e e' s' t' hr hs' he
    have hform : e'.isForm = e.isForm := by
      rw [he.eq, Substitution.image, Expr.isForm_rename, Expr.isForm_replaced]
    rw [hform]
    split
    · -- behind a form the tokens are left as they are, in the scope of the tuple
      obtain ⟨hk', hmap⟩ := hr h hk
      have hdeferred : σ.Relates r' (.tuple (rest.map fun token => .deferred token h))
          (.tuple ((rest.map σ.token).map fun token => .deferred token (r.map h))) := by
        have himage : ∀ x ∈ rest.map fun token => Expr.deferred token h,
            σ.Relates r' x (σ.image r' x) := by
          intro x hx
          obtain ⟨token, htoken, rfl⟩ := List.mem_map.1 hx
          exact ⟨rfl, Renaming.knows_singleton hk', .deferred (ht token (by simp [htoken]))⟩
        have htuple := Substitution.relates_tuple _ himage
        rw [← hmap]
        simpa [Substitution.image, Expr.replaced, Expr.rename, Function.comp_def] using htuple
      exact .of_corresponds hs' (.ok (he.cons hdeferred))
    · refine (InStep.mapM ?_ hs').bind ?_
      · intro token hmem r'' s'' t'' hr'
        exact hm token (by simp [hmem]) r'' s'' t'' (hr.trans hr')
      · intro r'' es es' s'' t'' hr' hs'' hes
        exact .of_corresponds hs'' (.ok ((he.mono hr').cons hes))

theorem inStep_expand (tokens : List String) (hs : Supplied σ r s t) (hk : r.known h)
    (ht : ∀ token ∈ tokens, Token.BindsNothing token) :
    InStep σ r σ.Relates ((expand tokens h).runOn s)
      ((expand (tokens.map σ.token) (r.map h)).runOn t) := by
  -- on the nesting of the tokens: every tuple among them is expanded in a new scope of its own,
  -- so the renaming and the stores change from member to member
  induction tokens using tokens_induction generalizing r s t h with
  | h tokens ih =>
    rw [expand_eq_shapeTuple, expand_eq_shapeTuple]
    refine inStep_shapeTuple hs hk ht ?_
    intro token htoken r' s' t' hr hs'
    obtain ⟨hk', hmap⟩ := hr h hk
    have htok := ht token htoken
    rw [← hmap]
    refine (inStep_readMember hs' hk' htok).bind ?_
    rintro r'' e e' s'' t'' hr' hs'' ⟨he, hpending⟩
    cases e with
    | pending ms inner =>
      obtain ⟨ho, hm⟩ := hpending ms inner rfl
      have ho' : opensTuple (trim (σ.token token)) = true := by
        rw [Substitution.trim_token htok.1, Substitution.opensTuple_token htok.1,
          ← Token.trim_of_isToken htok.1]
        exact ho
      have hms : ∀ m ∈ ms, Token.BindsNothing m := by
        cases he.bindsNothing with
        | pending hms => exact hms
      rw [he.eq]
      simp only [Substitution.image, Expr.replaced, Expr.rename, ho, ho', if_true]
      exact ih token htoken ms hm hs'' (he.knows inner (List.mem_singleton.2 rfl)) hms
    | _ =>
      rw [he.eq]
      exact .of_corresponds hs'' (.ok ⟨rfl, he.knows, he.bindsNothing⟩)

/-! ## Stepping -/

theorem movesLike_image {members : List Expr} (hs : Supplied σ r s t)
    (hm : ∀ e ∈ members, σ.Relates r e (σ.image r e)) :
    MovesLike (σ.image r) (tupleMove members) (tupleMove (members.map (σ.image r))) := by
  apply movesLike_tupleMove_rename
  · intro e he
    exact (hm e he).bindsNothing
  · exact hs.separates (Renaming.knows_tuple.2 fun e he => (hm e he).knows)

theorem inStep_step_tuple {members : List Expr} (hs : Supplied σ r s t)
    (hm : ∀ e ∈ members, σ.Relates r e (σ.image r e))
    (hn : ∀ place, tupleMove members ≠ .ok (.advance place)) :
    InStep σ r σ.Relates ((step (.tuple members)).runOn s)
      ((step (.tuple (members.map (σ.image r)))).runOn t) := by
  have hlike := movesLike_image hs hm
  generalize hx : tupleMove members = x at hlike
  generalize hy : tupleMove (members.map (σ.image r)) = y at hlike
  cases hlike with
  | error err =>
    rw [runOn_step_error hx, runOn_step_error hy]
    exact .of_corresponds hs (.error err)
  | advance place => exact (hn place hx).elim
  | @become e he =>
    rw [runOn_step_become hx, runOn_step_become hy]
    refine .of_corresponds hs (.ok ⟨rfl, ?_, he⟩)
    have hknows := (Substitution.relates_tuple members hm).knows
    intro g hg
    exact hknows g ((moves_of_tupleMove hx).captured_subset g hg)

/-- An expression that binds nothing and its image take the same step. -/
theorem inStep_step {e e' : Expr} (hs : Supplied σ r s t) (he : σ.Relates r e e') :
    InStep σ r σ.Relates ((step e).runOn s) ((step e').runOn t) := by
  obtain ⟨rfl, hk, hb⟩ := he
  induction e using step_induction with
  | base e hbase =>
    cases hb with
    | pending ht => exact inStep_expand _ hs (hk _ (List.mem_singleton.2 rfl)) ht
    | deferred ht =>
      exact (inStep_readMember hs (hk _ (List.mem_singleton.2 rfl)) ht).weaken fun _ _ _ hq => hq.1
    | tuple hm =>
      rw [Substitution.image_tuple]
      exact inStep_step_tuple hs (Substitution.Relates.members ⟨rfl, hk, .tuple hm⟩)
        fun place => hbase _ place rfl
    | builtin b => exact .of_corresponds hs (.ok ⟨rfl, hk, .builtin b⟩)
    | form hdefine hlambda => exact .of_corresponds hs (.ok ⟨rfl, hk, .form hdefine hlambda⟩)
    | number x => exact .of_corresponds hs (.ok ⟨rfl, hk, .number x⟩)
    | boolean b => exact .of_corresponds hs (.ok ⟨rfl, hk, .boolean b⟩)
  | advance before e after hadvance ih =>
    -- the image steps at the same place
    have hm := Substitution.Relates.members (σ := σ) ⟨rfl, hk, hb⟩
    have hadvance' : tupleMove (before.map (σ.image r) ++ σ.image r e :: after.map (σ.image r)) =
        .ok (.advance (before.map (σ.image r)).length) := by
      have hlike := movesLike_image hs hm
      rw [hadvance, List.map_append, List.map_cons] at hlike
      rw [List.length_map]
      generalize tupleMove (before.map (σ.image r) ++ σ.image r e :: after.map (σ.image r)) = y
        at hlike
      cases hlike
      rfl
    have hself := hm e (by simp)
    obtain ⟨r', hr, hs', hc⟩ := ih hself.knows hself.bindsNothing
    rw [Substitution.image_tuple, List.map_append, List.map_cons, runOn_step_advance hadvance,
      runOn_step_advance hadvance']
    refine ⟨r', hr, hs', ?_⟩
    generalize ((step e).runOn s).1 = x at hc ⊢
    generalize ((step (σ.image r e)).runOn t).1 = y at hc ⊢
    cases hc with
    | error err => exact .error err
    | ok hxy => exact .ok (.at_place hm hr hxy)

end Stepwise
