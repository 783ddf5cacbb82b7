import Stepwise.Proofs.Token.Grammar
/-!
# The tree of a token

A token written out in text stands for a tree: its atoms are the leaves, and each tuple is a node
over its members. `tree?` takes a text apart down to its atoms, and every token has a tree
(`exists_tree_of_isToken`). Tokens in which only certain atoms occur keep that property when they
are taken apart into members and when they are put between brackets.
-/

namespace Stepwise

/-- A token taken apart down to its atoms. -/
inductive Tree where
  | atom (text : String)
  | node (style : Bracket) (members : List Tree)

namespace Tree

mutual

/-- The atoms, from left to right. -/
def atoms : Tree → List String
  | .atom text => [text]
  | .node _ members => atomsAll members

/-- The atoms of some trees, from left to right. -/
def atomsAll : List Tree → List String
  | [] => []
  | t :: rest => t.atoms ++ atomsAll rest

end

mutual

/-- The tree with every node in round brackets. -/
def rounded : Tree → Tree
  | .atom text => .atom text
  | .node _ members => .node .round (roundedAll members)

/-- Each tree with every node in round brackets. -/
def roundedAll : List Tree → List Tree
  | [] => []
  | t :: rest => t.rounded :: roundedAll rest

end

mutual

/-- The tree written out, with single spaces between members. -/
def text : Tree → String
  | .atom text => text
  | .node style members => style.enclose (" ".intercalate (textAll members))

/-- Each tree written out. -/
def textAll : List Tree → List String
  | [] => []
  | t :: rest => t.text :: textAll rest

end

theorem atomsAll_eq_flatMap (ts : List Tree) : atomsAll ts = ts.flatMap atoms := by
  induction ts with
  | nil => rfl
  | cons t rest ih => simp [atomsAll, ih]

@[simp]
theorem mem_atomsAll {a : String} {ts : List Tree} : a ∈ atomsAll ts ↔ ∃ t ∈ ts, a ∈ t.atoms := by
  simp [atomsAll_eq_flatMap]

@[simp]
theorem roundedAll_eq_map (ts : List Tree) : roundedAll ts = ts.map rounded := by
  induction ts with
  | nil => rfl
  | cons t rest ih => simp [roundedAll, ih]

@[simp]
theorem textAll_eq_map (ts : List Tree) : textAll ts = ts.map text := by
  induction ts with
  | nil => rfl
  | cons t rest ih => simp [textAll, ih]

end Tree

namespace Token

instance (c : Char) : Decidable (IsPlain c) :=
  inferInstanceAs (Decidable (_ ∧ _))

instance (cs : List Char) : Decidable (IsAtom cs) :=
  decidable_of_iff (cs.isEmpty = false ∧ (cs.all fun c => decide (IsPlain c)) = true)
    (by simp [IsAtom])

/-- The tree of a text, if all of it is one token. -/
def tree? (text : String) : Option Tree :=
  match Bracket.leading? text with
  | none => if IsAtom text.toList then some (.atom text) else none
  | some style =>
    match h : members text with
    | .error _ => none
    | .ok ms =>
      let trees := ms.attach.mapM fun ⟨m, hm⟩ =>
        have := length_lt_of_mem_members h hm
        tree? m
      trees.map (.node style)
termination_by text.toList.length

/-! ## Trees and members -/

theorem mapM_eq_some_iff {α β : Type} {f : α → Option β} {as : List α} {bs : List β} :
    as.mapM f = some bs ↔ as.map f = bs.map some := by
  induction as generalizing bs with
  | nil => cases bs <;> simp
  | cons a rest ih =>
    rw [List.mapM_cons, List.map_cons]
    cases f a with
    | none => cases bs <;> simp
    | some c =>
      simp only [Option.bind_eq_bind, Option.bind_some, Option.bind_eq_some_iff, ih,
        Option.pure_def, Option.some.injEq]
      cases bs <;> grind

variable {text : String} {style : Bracket} {ms : List String} {ts : List Tree} {T : Tree}

theorem tree?_of_isAtom (h : IsAtom text.toList) : tree? text = some (.atom text) := by
  have hn : Bracket.leading? text = none := by simpa [opensTuple] using opensTuple_of_isAtom h
  rw [tree?, hn]
  simp only [h, if_true]

theorem tree?_of_members (ms : List String) (hl : Bracket.leading? text = some style)
    (hm : members text = .ok ms) (ht : ms.map tree? = ts.map some) :
    tree? text = some (.node style ts) := by
  rw [tree?, hl]
  simp only
  split
  · rename_i h
    rw [hm] at h
    cases h
  · rename_i ns h
    rw [hm] at h
    cases h
    rw [List.mapM_subtype fun _ _ => rfl, List.unattach_attach, mapM_eq_some_iff.2 ht]
    rfl

/-- A text without a bracket in front has a tree when it is an atom. -/
theorem isAtom_of_tree? (hl : Bracket.leading? text = none) (h : tree? text = some T) :
    IsAtom text.toList ∧ T = .atom text := by
  rw [tree?, hl] at h
  simp only at h
  split at h
  · rename_i ha
    cases h
    exact ⟨ha, rfl⟩
  · cases h

/-- The tree of a tuple is a node over the trees of its members. -/
theorem exists_members_of_tree? (hl : Bracket.leading? text = some style)
    (h : tree? text = some T) :
    ∃ ms ts, members text = .ok ms ∧ ms.map tree? = ts.map some ∧ T = .node style ts := by
  rw [tree?, hl] at h
  simp only at h
  split at h
  · cases h
  · rename_i ms hm
    obtain ⟨ts, hts, rfl⟩ := Option.map_eq_some_iff.1 h
    rw [List.mapM_subtype fun _ _ => rfl, List.unattach_attach] at hts
    exact ⟨ms, ts, hm, mapM_eq_some_iff.1 hts, rfl⟩

theorem exists_map_some {α β : Type} {f : α → Option β} {as : List α}
    (h : ∀ a ∈ as, ∃ b, f a = some b) : ∃ bs : List β, as.map f = bs.map some := by
  induction as with
  | nil => exact ⟨[], rfl⟩
  | cons a rest ih =>
    obtain ⟨b, hb⟩ := h a (by simp)
    obtain ⟨bs, hbs⟩ := ih fun x hx => h x (by simp [hx])
    exact ⟨b :: bs, by simp [hb, hbs]⟩

/-- What is computed from each of some things can be computed from what is found for each. -/
theorem map_eq_of_map_some {α β γ : Type} {f : α → Option β} {g : α → γ} {k : β → γ} {as : List α}
    {bs : List β} (h : as.map f = bs.map some) (hg : ∀ a ∈ as, ∀ b, f a = some b → g a = k b) :
    as.map g = bs.map k := by
  induction as generalizing bs with
  | nil =>
    cases bs with
    | nil => rfl
    | cons => cases h
  | cons a rest ih =>
    cases bs with
    | nil => cases h
    | cons b bs =>
      obtain ⟨hb, hrest⟩ := List.cons.inj h
      rw [List.map_cons, List.map_cons, hg a (by simp) b hb,
        ih hrest fun x hx => hg x (by simp [hx])]

/-- Every token has a tree. -/
theorem exists_tree_of_isToken (ht : IsToken text.toList) : ∃ T, tree? text = some T := by
  -- on the length of the text, since members are shorter than the tuple they are taken from
  induction hn : text.toList.length using Nat.strongRecOn generalizing text with
  | ind n ih =>
    cases hl : Bracket.leading? text with
    | none => exact ⟨_, tree?_of_isAtom (isAtom_of_isToken ht (by simp [opensTuple, hl]))⟩
    | some style =>
      obtain ⟨ms, hms⟩ := exists_members_of_isToken ht (by simp [opensTuple, hl])
      have hmembers : ∀ m ∈ ms, ∃ T, tree? m = some T := fun m hm =>
        ih _ (hn ▸ length_lt_of_mem_members hms hm) (isToken_of_mem_members hms m hm) rfl
      obtain ⟨ts, hts⟩ := exists_map_some hmembers
      exact ⟨_, tree?_of_members ms hl hms hts⟩

/-! ## Tokens whose atoms are restricted -/

/-- The text is one token, and all its atoms, at any depth, are allowed. -/
def WellFormed (allowed : String → Prop) (text : String) : Prop :=
  IsToken text.toList ∧ ∀ T, tree? text = some T → ∀ a ∈ T.atoms, allowed a

variable {allowed : String → Prop}

theorem WellFormed.of_isToken (ht : IsToken text.toList) : WellFormed (fun _ => True) text :=
  ⟨ht, fun _ _ _ _ => trivial⟩

theorem WellFormed.of_isAtom (ha : IsAtom text.toList) (hallowed : allowed text) :
    WellFormed allowed text := by
  refine ⟨.atom ha, fun T hT a hmem => ?_⟩
  rw [tree?_of_isAtom ha] at hT
  cases hT
  rw [List.mem_singleton.1 hmem]
  exact hallowed

theorem WellFormed.atom (h : WellFormed allowed text) (ho : opensTuple text = false) :
    IsAtom text.toList ∧ allowed text := by
  have ha := isAtom_of_isToken h.1 ho
  exact ⟨ha, h.2 _ (tree?_of_isAtom ha) text (by simp [Tree.atoms])⟩

/-- The atoms of a member are atoms of the tuple. -/
theorem wellFormed_of_mem_members (hl : Bracket.leading? text = some style)
    (hT : tree? text = some T) (ha : ∀ a ∈ T.atoms, allowed a) (hm : members text = .ok ms) :
    ∀ m ∈ ms, WellFormed allowed m := by
  obtain ⟨ns, ts, hns, hts, rfl⟩ := exists_members_of_tree? hl hT
  rw [hm] at hns
  cases hns
  refine fun m hmem => ⟨isToken_of_mem_members hm m hmem, fun U hU a hatom => ?_⟩
  have hmem' : some U ∈ ts.map some := by
    rw [← hts, ← hU]
    exact List.mem_map_of_mem hmem
  obtain ⟨V, hV, hVU⟩ := List.mem_map.1 hmem'
  cases hVU
  exact ha a (by simp only [Tree.atoms, Tree.mem_atomsAll]; exact ⟨U, hV, hatom⟩)

theorem WellFormed.members (h : WellFormed allowed text) (ho : opensTuple text = true) :
    ∃ ms, members text = .ok ms ∧ ∀ m ∈ ms, WellFormed allowed m := by
  obtain ⟨style, hl⟩ := Option.isSome_iff_exists.1 ho
  obtain ⟨T, hT⟩ := exists_tree_of_isToken h.1
  obtain ⟨ms, hm⟩ := exists_members_of_isToken h.1 ho
  exact ⟨ms, hm, wellFormed_of_mem_members hl hT (h.2 T hT) hm⟩

/-- Well-formed tokens between brackets are a well-formed token. -/
theorem WellFormed.enclose (b : Bracket) (h : ∀ m ∈ ms, WellFormed allowed m) :
    WellFormed allowed (b.enclose (" ".intercalate ms)) := by
  have htokens : ∀ m ∈ ms, IsToken m.toList := fun m hm => (h m hm).1
  refine ⟨isToken_enclose b htokens, fun T hT a ha => ?_⟩
  obtain ⟨ns, ts, hns, hts, rfl⟩ := exists_members_of_tree? (leading?_enclose b ms) hT
  rw [members_enclose b htokens] at hns
  cases hns
  simp only [Tree.atoms, Tree.mem_atomsAll] at ha
  obtain ⟨U, hU, ha⟩ := ha
  have hmem : some U ∈ ms.map tree? := by
    rw [hts]
    exact List.mem_map_of_mem hU
  obtain ⟨m, hm, hmU⟩ := List.mem_map.1 hmem
  exact (h m hm).2 U hmU a ha

end Token

end Stepwise
