import Stepwise.Proofs.Layout.Store
import Stepwise.Proofs.WellFormed.Step
/-!
# Reduction in normal layout

A store and an expression can be brought into normal layout before a step or after it: the outcome
is the same, but for the source text that an error quotes (`tallies_step`).
-/

namespace Stepwise

variable {α β : Type} {allowed : String → Prop} {s : Store} {g : Handle} {token : String}

/-! ## Outcomes -/

/-- The outcome `y` is the image of `x` in normal layout. -/
structure Tallies (φ : α → β) (x : Except Error α × Store) (y : Except Error β × Store) : Prop where
  result : Alike φ x.1 y.1
  store : y.2 = x.2.normal

namespace Tallies

variable {φ : α → α} {ψ : β → β} {Q : α → Prop} {E : Error → Prop} {I : Store → Prop}

theorem bind {m m' : Eval α} {k k' : α → Eval β} (hm : Tallies φ (m.runOn s) (m'.runOn s.normal))
    (hy : Yields I E Q (m.runOn s))
    (hk : ∀ a t, I t → Q a → Tallies ψ ((k a).runOn t) ((k' (φ a)).runOn t.normal)) :
    Tallies ψ ((m >>= k).runOn s) ((m' >>= k').runOn s.normal) := by
  rw [Action.runOn_bind, Action.runOn_bind]
  generalize m.runOn s = x at hm hy ⊢
  generalize m'.runOn s.normal = y at hm ⊢
  obtain ⟨x, t⟩ := x
  obtain ⟨y, t'⟩ := y
  obtain ⟨hresult, hstore⟩ := hm
  simp only at hresult hstore
  subst hstore
  cases hresult with
  | error he => exact ⟨.error he, rfl⟩
  | ok a => exact hk a t hy.store hy.result.of_ok

theorem mapM {f f' : String → Eval β} {tokens : List String} {R : β → Prop} (hs : I s)
    (hf : ∀ token ∈ tokens, ∀ t, I t → Yields I E R ((f token).runOn t) ∧
      Tallies ψ ((f token).runOn t) ((f' (Token.normal token)).runOn t.normal)) :
    Tallies (List.map ψ) ((tokens.mapM f).runOn s)
      (((tokens.map Token.normal).mapM f').runOn s.normal) := by
  induction tokens generalizing s with
  | nil => exact ⟨.ok [], rfl⟩
  | cons token rest ih =>
    have hrest : ∀ t, I t → Yields I E (fun bs => ∀ b ∈ bs, R b) ((rest.mapM f).runOn t) :=
      fun t ht => .mapM ht fun token' hmem u hu => (hf token' (by simp [hmem]) u hu).1
    rw [List.map_cons, List.mapM_cons, List.mapM_cons]
    obtain ⟨hyields, htallies⟩ := hf token (by simp) s hs
    refine htallies.bind hyields fun b t ht _ => ?_
    have htail := ih ht fun token' hmem => hf token' (by simp [hmem])
    refine htail.bind (hrest t ht) fun bs u _ _ => ?_
    exact ⟨.ok (b :: bs), rfl⟩

end Tallies

/-! ## Reading -/

theorem readAtom_normal (s : Store) (token : String) (g : Handle) :
    s.normal.readAtom token g = (s.readAtom token g).map Expr.normal := by
  unfold Store.readAtom
  rw [Store.get?_normal]
  cases s.get? g token with
  | some e => rfl
  | none =>
    simp only [Option.map_none]
    cases hx : readUnbound token g with
    | error err => rfl
    | ok e =>
      have hnormal : e.normal = e := by
        rcases readUnbound_cases hx with ⟨f, -, rfl⟩ | ⟨b, rfl⟩ | hp
        · rfl
        · rfl
        · exact hp.normal
      rw [Except.map, hnormal]

theorem tallies_readMember (ht : Token.WellFormed allowed token) (g : Handle) (s : Store) :
    Tallies Expr.normal ((readMember token g).runOn s)
      ((readMember (Token.normal token) g).runOn s.normal) := by
  have htrim : trim token = token := Token.trim_of_isToken ht.1
  have htrim' : trim (Token.normal token) = Token.normal token :=
    Token.trim_of_isToken (Token.isToken_normal ht.1)
  have ho' := Token.opensTuple_normal ht.1
  rw [runOn_readMember, runOn_readMember]
  by_cases ho : opensTuple token = true
  · obtain ⟨ms, hm, -⟩ := ht.members ho
    have hm' := Token.members_normal ht.1 ho hm
    rw [runOn_read_tuple (by rw [htrim]; exact ho) (by rw [htrim]; exact hm),
      runOn_read_tuple (by rw [htrim', ho']; exact ho) (by rw [htrim']; exact hm'),
      Store.child_normal]
    exact ⟨.ok _, rfl⟩
  · have ho : opensTuple token = false := by simpa using ho
    obtain ⟨hatom, -⟩ := ht.atom ho
    rw [Token.normal_of_isAtom hatom, runOn_read_of_isAtom hatom, runOn_read_of_isAtom hatom,
      readAtom_normal]
    cases s.readAtom token g with
    | error err => exact ⟨.error rfl, rfl⟩
    | ok e => exact ⟨.ok e, rfl⟩

/-! ## Expanding -/

theorem tallies_shapeTuple {member member' : String → Eval Expr} {tokens : List String}
    (hs : s.WellFormed allowed)
    (hm : ∀ token ∈ tokens, ∀ t, t.WellFormed allowed →
      Preserves allowed (Expr.WellFormed allowed) ((member token).runOn t) ∧
      Tallies Expr.normal ((member token).runOn t)
        ((member' (Token.normal token)).runOn t.normal)) :
    Tallies Expr.normal ((shapeTuple member g tokens).runOn s)
      ((shapeTuple member' g (tokens.map Token.normal)).runOn s.normal) := by
  cases tokens with
  | nil => exact ⟨.ok (Expr.tuple []), rfl⟩
  | cons first rest =>
    obtain ⟨hyields, htallies⟩ := hm first (by simp) s hs
    refine htallies.bind hyields fun head t ht _ => ?_
    rw [Expr.isForm_normal]
    split
    · exact ⟨.of_eq (by simp [Expr.normal, Function.comp_def]), rfl⟩
    · have hrest := fun token hmem => hm token (List.mem_cons_of_mem first hmem)
      refine (Tallies.mapM ht hrest).bind
        (.mapM ht fun token hmem u hu => (hrest token hmem u hu).1) fun es u _ _ => ?_
      exact ⟨.of_eq (by simp [Expr.normal]), rfl⟩

theorem tallies_expand (tokens : List String) (hs : s.WellFormed allowed)
    (ht : ∀ token ∈ tokens, Token.WellFormed allowed token) (g : Handle) :
    Tallies Expr.normal ((expand tokens g).runOn s)
      ((expand (tokens.map Token.normal) g).runOn s.normal) := by
  induction tokens using tokens_induction generalizing s g with
  | h tokens ih =>
    rw [expand_eq_shapeTuple, expand_eq_shapeTuple]
    refine tallies_shapeTuple hs fun token htoken t hwell => ?_
    have htok := ht token htoken
    refine ⟨preserves_expandMember hwell htok (fun ms _ hms u inner hu =>
      preserves_expand ms hu hms inner) g, ?_⟩
    refine (tallies_readMember htok g t).bind (preserves_readMember hwell htok g)
      fun e u hu he => ?_
    cases e with
    | pending ms inner =>
      obtain ⟨ho, hm⟩ := he.2 ms inner rfl
      have ho' : opensTuple (trim (Token.normal token)) = true := by
        rw [Token.trim_of_isToken (Token.isToken_normal htok.1), Token.opensTuple_normal htok.1,
          ← Token.trim_of_isToken htok.1]
        exact ho
      simp only [Expr.normal, ho, ho', if_true]
      exact ih token htoken ms hm hu he.1.tokens inner
    | _ => exact ⟨.ok _, rfl⟩

/-! ## Steps -/

theorem frame_normal (c : Closure) (args : List Expr) (s : Store) :
    c.normal.frame (args.map Expr.normal) s.normal =
      ((c.frame args s).1, (c.frame args s).2.normal) := by
  have hzip : c.params.zip (args.map Expr.normal) =
      (c.params.zip args).map fun p => (p.1, p.2.normal) := by
    rw [List.zip_map_right]
    rfl
  simp only [Closure.frame, Closure.normal, Store.child_normal, hzip, Store.bindAll_normal]

theorem tallies_enter {c : Closure} {args : List Expr} (hc : c.WellFormed allowed) (s : Store) :
    Tallies Expr.normal ((c.enter args).runOn s)
      ((c.normal.enter (args.map Expr.normal)).runOn s.normal) := by
  by_cases hlength : args.length = c.params.length
  · have hlength' : (args.map Expr.normal).length = c.normal.params.length := by
      rw [List.length_map]
      exact hlength
    rw [runOn_enter hlength, runOn_enter hlength', frame_normal]
    exact tallies_readMember hc.body _ _
  · have hlength' : (args.map Expr.normal).length ≠ c.normal.params.length := by
      rw [List.length_map]
      exact hlength
    rw [runOn_enter_error hlength, runOn_enter_error hlength', List.length_map]
    exact ⟨.error rfl, rfl⟩

theorem defineAround_normal (s : Store) (h : Handle) (name : String) (e : Expr) :
    (s.defineAround h name e).normal = s.normal.defineAround h name e.normal := by
  unfold Store.defineAround
  rw [Store.define_normal, Store.parent?_normal]

theorem normal_tuple (members : List Expr) :
    (Expr.tuple members).normal = .tuple (members.map Expr.normal) := by
  rw [Expr.normal, normalAll_eq_map]

theorem tallies_step_tuple (hequal : ¬ allowed Builtin.isEqual.name) {members : List Expr}
    (hm : ∀ e ∈ members, e.WellFormed allowed)
    (hn : ∀ place, tupleMove members ≠ .ok (.advance place)) (s : Store) :
    Tallies Expr.normal ((step (.tuple members)).runOn s)
      ((step (.tuple (members.map Expr.normal))).runOn s.normal) := by
  have halike := alike_tupleMove hequal hm
  have hwell := regular_tupleMove hm
  generalize hx : tupleMove members = x at halike hwell
  generalize hy : tupleMove (members.map Expr.normal) = y at halike
  cases halike with
  | error he =>
    rw [runOn_step_error hx, runOn_step_error hy]
    exact ⟨.error he, rfl⟩
  | ok m =>
    cases m with
    | advance place => exact (hn place hx).elim
    | become e =>
      rw [runOn_step_become hx, runOn_step_become hy]
      exact ⟨.ok e, rfl⟩
    | define h name value =>
      rw [runOn_step_define hx, runOn_step_define hy]
      exact ⟨.ok Expr.void, (defineAround_normal s h name value).symm⟩
    | enter c args =>
      rw [runOn_step_enter hx, runOn_step_enter hy]
      exact tallies_enter hwell.of_ok.1 s

/-- A step in normal layout does what the step does. -/
theorem tallies_step (hequal : ¬ allowed Builtin.isEqual.name) (hs : s.WellFormed allowed)
    {e : Expr} (he : e.WellFormed allowed) :
    Tallies Expr.normal ((step e).runOn s) ((step e.normal).runOn s.normal) := by
  induction e using step_induction with
  | base e hn =>
    cases he with
    | pending ht => exact tallies_expand _ hs ht _
    | deferred ht => exact tallies_readMember ht _ s
    | tuple hm =>
      rw [normal_tuple]
      exact tallies_step_tuple hequal hm (fun place => hn _ place rfl) s
    | procedure | number | boolean | void => exact ⟨.ok _, rfl⟩
  | advance before e after hadvance ih =>
    have hstep := ih (he.members e (by simp))
    have hadvance' : tupleMove (before.map Expr.normal ++ e.normal :: after.map Expr.normal) =
        .ok (.advance (before.map Expr.normal).length) := by
      have halike := alike_tupleMove hequal he.members
      rw [hadvance, List.map_append, List.map_cons] at halike
      rw [halike.eq_ok, Move.normal, List.length_map]
    rw [normal_tuple, List.map_append, List.map_cons, runOn_step_advance hadvance,
      runOn_step_advance hadvance']
    generalize (step e).runOn s = x at hstep ⊢
    generalize (step e.normal).runOn s.normal = y at hstep ⊢
    obtain ⟨x, t⟩ := x
    obtain ⟨y, t'⟩ := y
    obtain ⟨hresult, hstore⟩ := hstep
    refine ⟨?_, hstore⟩
    cases hresult with
    | error he => exact .error he
    | ok e' => exact .of_eq (by simp [Expr.normal])

end Stepwise
