import Stepwise.Proofs.Eval.Expansion
/-!
# What an action yields

The postcondition of an action: a property of the store it leaves, one of its result, and one of
the error it fails with. The lemmas follow the ways in which actions are put together, up to the
shaping of a tuple and of its members.
-/

namespace Stepwise

variable {ε α β : Type} {E : ε → Prop} {Q : α → Prop} {R : β → Prop}

/-! ## Results -/

theorem eq_ok_of_mem_toOption {x : Except ε α} {a : α} (h : a ∈ x.toOption) : x = .ok a := by
  cases x with
  | error err => cases h
  | ok b =>
    cases h
    rfl

theorem exists_ok_of_isOk {x : Except ε α} (h : x.isOk = true) : ∃ a, x = .ok a := by
  cases x with
  | error err => cases h
  | ok a => exact ⟨a, rfl⟩

theorem ne_error_of_isOk {x : Except ε α} {err : ε} (h : x.isOk = true) :
    x ≠ .error err := by
  obtain ⟨a, rfl⟩ := exists_ok_of_isOk h
  simp

/-- A result that satisfies `Q`, or an error that satisfies `E`. -/
inductive Results (E : ε → Prop) (Q : α → Prop) : Except ε α → Prop
  | ok {a : α} : Q a → Results E Q (.ok a)
  | error {err : ε} : E err → Results E Q (.error err)

namespace Results

variable {x : Except ε α}

theorem bind {k : α → Except ε β} (hx : Results E Q x) (hk : ∀ a, Q a → Results E R (k a)) :
    Results E R (x >>= k) := by
  cases hx with
  | ok ha => exact hk _ ha
  | error he => exact .error he

theorem of_ok {a : α} (h : Results E Q (.ok a)) : Q a := by
  cases h with
  | ok ha => exact ha

theorem of_error {err : ε} (h : Results E Q (.error err)) : E err := by
  cases h with
  | error he => exact he

theorem weaken {P : α → Prop} (hx : Results E Q x) (h : ∀ a, Q a → P a) : Results E P x := by
  cases hx with
  | ok ha => exact .ok (h _ ha)
  | error he => exact .error he

end Results

/-! ## Actions -/

/-- The store that is left satisfies `I`, the result `Q` and the error `E`. -/
structure Yields (I : Store → Prop) (E : ε → Prop) (Q : α → Prop) (x : Except ε α × Store) :
    Prop where
  store : I x.2
  result : Results E Q x.1

namespace Yields

variable {I : Store → Prop} {s : Store}

theorem pure {a : α} (hs : I s) (ha : Q a) : Yields I E Q ((Pure.pure a : Action ε α).runOn s) :=
  ⟨hs, .ok ha⟩

theorem weaken {P : α → Prop} {x : Except ε α × Store} (hx : Yields I E Q x)
    (h : ∀ a, Q a → P a) : Yields I E P x :=
  ⟨hx.store, hx.result.weaken h⟩

theorem bind {m : Action ε α} {k : α → Action ε β} (hm : Yields I E Q (m.runOn s))
    (hk : ∀ a t, I t → Q a → Yields I E R ((k a).runOn t)) :
    Yields I E R ((m >>= k).runOn s) := by
  rw [Action.runOn_bind]
  rcases hx : m.runOn s with ⟨err | a, t⟩
  all_goals rw [hx] at hm
  · exact ⟨hm.store, .error hm.result.of_error⟩
  · exact hk a t hm.store hm.result.of_ok

theorem mapM {f : α → Action ε β} {as : List α} (hs : I s)
    (hf : ∀ a ∈ as, ∀ t, I t → Yields I E R ((f a).runOn t)) :
    Yields I E (fun bs => ∀ b ∈ bs, R b) ((as.mapM f).runOn s) := by
  induction as generalizing s with
  | nil => exact .pure hs (by simp)
  | cons a rest ih =>
    rw [List.mapM_cons]
    refine (hf a (by simp) s hs).bind fun b t ht hb => ?_
    refine (ih ht fun a' ha' => hf a' (by simp [ha'])).bind fun bs u hu hbs => ?_
    exact .pure hu (by simpa [hb] using hbs)

end Yields

/-! ## Tuples -/

theorem eq_or_mem_of_mem_replaced {x e e' : Expr} {before after : List Expr}
    (hx : x ∈ before ++ e' :: after) : x = e' ∨ x ∈ before ++ e :: after := by
  simp only [List.mem_append, List.mem_cons] at hx ⊢
  grind

section

variable {I : Store → Prop} {E : Error → Prop} {Q R : Expr → Prop} {s : Store} {g : Handle}

/-- A tuple with a form at its head keeps the other tokens; in any other, all members are
shaped. -/
theorem yields_shapeTuple {member : String → Eval Expr} {tokens : List String} (hs : I s)
    (hm : ∀ token ∈ tokens, ∀ t, I t → Yields I E Q ((member token).runOn t))
    (hform : ∀ head first rest, tokens = first :: rest → Q head → head.isForm = true →
      R (.tuple (head :: rest.map fun token => .deferred token g)))
    (hother : ∀ es, (∀ e ∈ es, Q e) → (∀ e ∈ es.head?, e.isForm = false) → R (.tuple es)) :
    Yields I E R ((shapeTuple member g tokens).runOn s) := by
  cases tokens with
  | nil => exact .pure hs (hother [] (by simp) (by simp))
  | cons first rest =>
    unfold shapeTuple
    refine (hm first (by simp) s hs).bind fun head t ht hhead => ?_
    split
    · rename_i hf
      exact .pure ht (hform head first rest rfl hhead hf)
    · rename_i hf
      refine (Yields.mapM ht fun token htoken => hm token (by simp [htoken])).bind
        fun es u hu hes => ?_
      exact .pure hu (hother (head :: es) (by simpa [hhead] using hes) (by simpa using hf))

/-- A member that is read as a tuple is expanded, where no name is bound to a pending tuple. -/
theorem yields_expandMember {token : String} {P : Expr → Prop}
    (hread : Yields I E P ((readMember token g).runOn s))
    (hpending : ∀ ms inner t, P (.pending ms inner) → I t → opensTuple (trim token) = true ∧
      Yields I E Q ((expand ms inner).runOn t))
    (hother : ∀ e, P e → (∀ ms inner, e ≠ .pending ms inner) → Q e) :
    Yields I E Q ((expandMember token g).runOn s) := by
  refine hread.bind fun e t ht he => ?_
  cases e with
  | pending ms inner =>
    obtain ⟨ho, hexpand⟩ := hpending ms inner t he ht
    simp only [ho, if_true]
    exact hexpand
  | _ => exact .pure ht (hother _ he (by simp))

end

end Stepwise
