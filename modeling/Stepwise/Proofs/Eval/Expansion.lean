import Stepwise.Eval.Step
/-!
# Reading and expanding

What reading a token comes to, by the kind of token, and in which scope the body of a procedure is
read. The depth to which an expansion is bounded does not matter as long as it is no less than the
tokens can need (`expandNested_eq`), so a nested tuple is expanded as if it stood alone, and the
members in front of it do not depend on those that follow (`runOn_shapeTuple_error`).
-/

namespace Stepwise

variable {ε α β : Type} {s t : Store} {g : Handle} {token text : String}

theorem Action.ext {m m' : Action ε α} (h : ∀ s, m.runOn s = m'.runOn s) : m = m' :=
  funext h

/-! ## Reading -/

theorem opensTuple_empty : opensTuple "" = false := by
  decide

/-- Only a text that opens a bracket has members. -/
theorem opensTuple_of_members {ms : List String} (h : Token.members text = .ok ms) :
    opensTuple (trim text) = true := by
  unfold Token.members Token.memberChars at h
  rw [opensTuple, Bracket.leading?, toList_trim]
  cases hc : trimChars text.toList with
  | nil => simp [hc, Except.map] at h
  | cons c rest =>
    cases hb : Bracket.ofOpener? c with
    | none => simp [hc, hb, Except.map] at h
    | some b => simp [hb]

theorem runOn_read_blank (h : trim text = "") (g : Handle) (s : Store) :
    (read text g).runOn s = (.error .empty, s) := by
  simp only [read, h, if_true]
  rfl

theorem runOn_read_tuple {ms : List String} (ho : opensTuple (trim text) = true)
    (hm : Token.members (trim text) = .ok ms) (g : Handle) (s : Store) :
    (read text g).runOn s = (.ok (.pending ms (s.child g).1), (s.child g).2) := by
  have hne : trim text ≠ "" := by
    intro h
    rw [h, opensTuple_empty] at ho
    cases ho
  simp only [read, hne, if_false, ho, if_true, hm, Action.runOn_bind, Action.runOn_newScope]
  rfl

theorem runOn_read_bad_tuple {err : ReadError} (ho : opensTuple (trim text) = true)
    (hm : Token.members (trim text) = .error err) (g : Handle) (s : Store) :
    (read text g).runOn s = (.error err, s) := by
  have hne : trim text ≠ "" := by
    intro h
    rw [h, opensTuple_empty] at ho
    cases ho
  simp only [read, hne, if_false, ho, if_true, hm]
  rfl

theorem runOn_read_atom (hne : trim text ≠ "") (ho : opensTuple (trim text) = false) (g : Handle)
    (s : Store) : (read text g).runOn s = (s.readAtom (trim text) g, s) := by
  simp only [read, hne, if_false, ho, Bool.false_eq_true, Action.runOn_bind, Action.runOn_get,
    Action.runOn_ofExcept]

/-- Everything that reading a text can come to. -/
theorem runOn_read_cases (text : String) (g : Handle) (s : Store) :
    (∃ err, (read text g).runOn s = (.error err, s)) ∨
    (∃ ms, opensTuple (trim text) = true ∧ Token.members (trim text) = .ok ms ∧
      (read text g).runOn s = (.ok (.pending ms (s.child g).1), (s.child g).2)) ∨
    opensTuple (trim text) = false ∧ (read text g).runOn s = (s.readAtom (trim text) g, s) := by
  by_cases hblank : trim text = ""
  · exact .inl ⟨_, runOn_read_blank hblank g s⟩
  · by_cases ho : opensTuple (trim text) = true
    · cases hm : Token.members (trim text) with
      | error err => exact .inl ⟨err, runOn_read_bad_tuple ho hm g s⟩
      | ok ms => exact .inr (.inl ⟨ms, ho, rfl, runOn_read_tuple ho hm g s⟩)
    · have ho : opensTuple (trim text) = false := by simpa using ho
      exact .inr (.inr ⟨ho, runOn_read_atom hblank ho g s⟩)

theorem runOn_readMember (token : String) (g : Handle) (s : Store) :
    (readMember token g).runOn s =
      (((read token g).runOn s).1.mapError memberError, ((read token g).runOn s).2) :=
  Action.runOn_adapt memberError (read token g) s

/-- What a token that opens a bracket is read as holds its members. -/
theorem members_of_readMember {tokens : List String} {inner : Handle}
    (ho : opensTuple (trim token) = true)
    (h : (readMember token g).runOn s = (.ok (.pending tokens inner), t)) :
    Token.members (trim token) = .ok tokens := by
  rw [runOn_readMember] at h
  cases hm : Token.members (trim token) with
  | error err =>
    rw [runOn_read_bad_tuple ho hm] at h
    cases h
  | ok ms =>
    rw [runOn_read_tuple ho hm] at h
    cases h
    rfl

/-- The scope in which a procedure's body is read, and the store in which its parameters are
bound there. -/
def Closure.frame (c : Closure) (args : List Expr) (s : Store) : Handle × Store :=
  let (frame, t) := s.child c.scope
  (frame, (c.params.zip args).foldl (fun s (name, arg) => s.define frame name arg) t)

theorem runOn_enter {c : Closure} {args : List Expr} (h : args.length = c.params.length)
    (s : Store) : (c.enter args).runOn s =
      (readMember c.body (c.frame args s).1).runOn (c.frame args s).2 := by
  simp only [Closure.enter, h, if_true, Action.runOn_bind, Action.runOn_newScope,
    Action.runOn_modify]
  rfl

theorem runOn_enter_error {c : Closure} {args : List Expr} (h : args.length ≠ c.params.length)
    (s : Store) : (c.enter args).runOn s =
      (.error (.evaluation (.arityMismatch (c.name.getD "lambda") (.exactly c.params.length)
        args.length)), s) := by
  simp only [Closure.enter, h, if_false]
  rfl

/-! ## The depth of an expansion -/

theorem mapM_congr {f f' : α → Action ε β} {as : List α} (h : ∀ a ∈ as, f a = f' a) :
    as.mapM f = as.mapM f' := by
  induction as with
  | nil => rfl
  | cons a rest ih =>
    rw [List.mapM_cons, List.mapM_cons, h a (by simp), ih fun x hx => h x (by simp [hx])]

theorem shapeTuple_congr {member member' : String → Eval Expr} {tokens : List String}
    (h : ∀ token ∈ tokens, member token = member' token) (g : Handle) :
    shapeTuple member g tokens = shapeTuple member' g tokens := by
  cases tokens with
  | nil => rfl
  | cons first rest =>
    have hrest : rest.mapM member = rest.mapM member' := mapM_congr fun x hx => h x (by simp [hx])
    simp only [shapeTuple, h first (by simp), hrest]

theorem shapeMember_congr {nested nested' chase : List String → Handle → Eval Expr}
    (h : ∀ tokens inner, Token.members (trim token) = .ok tokens →
      nested tokens inner = nested' tokens inner) (g : Handle) :
    shapeMember nested chase token g = shapeMember nested' chase token g := by
  refine Action.ext fun s => ?_
  simp only [shapeMember, Action.runOn_bind]
  rcases hr : (readMember token g).runOn s with ⟨err | e, t⟩
  · rfl
  · cases e with
    | pending tokens inner =>
      simp only
      split
      · rename_i ho
        rw [h tokens inner (members_of_readMember ho hr)]
      · rfl
    | _ => rfl

/-- The members of a token need less depth than the tokens it stands among. -/
theorem nestingBound_lt {tokens ms : List String} (hm : token ∈ tokens)
    (h : Token.members (trim token) = .ok ms) : nestingBound ms < nestingBound tokens := by
  have hinner := Token.totalLength_members_lt h
  have htrim := trimChars_length_le token.toList
  have houter := Token.length_le_totalLength (List.mem_map_of_mem (f := String.toList) hm)
  rw [toList_trim] at hinner
  unfold nestingBound
  omega

/-- Depth beyond what the tokens can need changes nothing. -/
theorem expandNested_eq {chase : List String → Handle → Eval Expr} {tokens : List String}
    {m n : Nat} (hm : nestingBound tokens ≤ m) (hn : nestingBound tokens ≤ n) (g : Handle) :
    expandNested chase m tokens g = expandNested chase n tokens g := by
  induction m generalizing n tokens g with
  | zero =>
    unfold nestingBound at hm
    omega
  | succ m ih =>
    obtain ⟨n, rfl⟩ : ∃ k, n = k + 1 := ⟨n - 1, by unfold nestingBound at hn; omega⟩
    unfold expandNested
    refine shapeTuple_congr (fun token htoken => ?_) g
    refine shapeMember_congr (fun ms inner hms => ?_) g
    have hlt := nestingBound_lt htoken hms
    exact ih (by omega) (by omega) inner

/-- How a tuple that a name is bound to is expanded. -/
def chaseBound (tokens : List String) (g : Handle) : Eval Expr := do
  expandBound (← get).bindingCount tokens g

theorem expand_eq {tokens : List String} {n : Nat} (hn : nestingBound tokens ≤ n) (g : Handle) :
    expand tokens g = expandNested chaseBound n tokens g :=
  expandNested_eq (Nat.le_refl _) hn g

/-- One member of a tuple, with what is nested in it. -/
def expandMember (token : String) (g : Handle) : Eval Expr :=
  shapeMember expand chaseBound token g

theorem runOn_expandMember_tuple {ms : List String} (ho : opensTuple (trim token) = true)
    (hm : Token.members (trim token) = .ok ms) :
    (expandMember token g).runOn s = (expand ms (s.child g).1).runOn (s.child g).2 := by
  have hread : (readMember token g).runOn s = (.ok (.pending ms (s.child g).1), (s.child g).2) := by
    rw [runOn_readMember, runOn_read_tuple ho hm]
    rfl
  rw [expandMember, shapeMember, Action.runOn_bind, hread]
  simp only [ho, if_true]

/-- An expansion shapes member by member. -/
theorem expand_eq_shapeTuple (tokens : List String) (g : Handle) :
    expand tokens g = shapeTuple (fun token => expandMember token g) g tokens := by
  rw [expand_eq (Nat.le_succ _)]
  refine shapeTuple_congr (fun token htoken => ?_) g
  refine shapeMember_congr (fun ms inner hms => ?_) g
  exact (expand_eq (Nat.le_of_lt (nestingBound_lt htoken hms)) inner).symm

/-- What holds of tokens as soon as it holds of the members of each tuple among them holds of all
tokens. -/
theorem tokens_induction {motive : List String → Prop}
    (h : ∀ tokens, (∀ token ∈ tokens, ∀ ms, Token.members (trim token) = .ok ms → motive ms) →
      motive tokens) (tokens : List String) : motive tokens := by
  induction hn : nestingBound tokens using Nat.strongRecOn generalizing tokens with
  | ind n ih =>
    exact h tokens fun token htoken ms hms => ih _ (hn ▸ nestingBound_lt htoken hms) ms rfl

/-! ## The first member that fails -/

theorem runOn_mapM_append {f : α → Action ε β} {as cs : List α} {bs : List β}
    (h : (as.mapM f).runOn s = (.ok bs, t)) :
    ((as ++ cs).mapM f).runOn s =
      (((cs.mapM f).runOn t).1.map (bs ++ ·), ((cs.mapM f).runOn t).2) := by
  rw [List.mapM_append, Action.runOn_bind, h]
  simp only [Action.runOn_bind]
  rcases (cs.mapM f).runOn t with ⟨err | ds, u⟩ <;> rfl

theorem runOn_mapM_error {f : α → Action ε β} {a : α} {as : List α} {err : ε} {u : Store}
    (h : (f a).runOn t = (.error err, u)) : ((a :: as).mapM f).runOn t = (.error err, u) := by
  rw [List.mapM_cons, Action.runOn_bind, h]

/-- When the members in front are shaped and the first of them is no form, the tuple fails as its
next member does. -/
theorem runOn_shapeTuple_error {member : String → Eval Expr} {before after : List String}
    {es : List Expr} {err : Error} {u : Store}
    (hb : (shapeTuple member g before).runOn s = (.ok (.tuple es), t))
    (hf : ∀ e ∈ es.head?, e.isForm = false) (he : (member token).runOn t = (.error err, u)) :
    (shapeTuple member g (before ++ token :: after)).runOn s = (.error err, u) := by
  cases before with
  | nil =>
    cases hb
    simp only [List.nil_append, shapeTuple, Action.runOn_bind, he]
  | cons first rest =>
    simp only [List.cons_append, shapeTuple, Action.runOn_bind] at hb ⊢
    rcases hr : (member first).runOn s with ⟨err' | head, s'⟩
    all_goals rw [hr] at hb
    · cases hb
    · simp only at hb ⊢
      split at hb
      · rename_i hform
        cases hb
        rw [hf head rfl] at hform
        cases hform
      · rename_i hform
        rw [if_neg hform, Action.runOn_bind]
        rw [Action.runOn_bind] at hb
        rcases hm : (rest.mapM member).runOn s' with ⟨err' | fs, t'⟩
        all_goals rw [hm] at hb
        · cases hb
        · cases hb
          rw [runOn_mapM_append hm, runOn_mapM_error he]
          rfl

end Stepwise
