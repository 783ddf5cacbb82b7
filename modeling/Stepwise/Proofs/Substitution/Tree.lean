import Stepwise.Proofs.Substitution.Text
import Stepwise.Proofs.Token.Spacing
/-!
# Substitution in trees

Substitution in the text of a token is substitution in its tree: every leaf that reads as the key
becomes the tree of the replacement, and every node stays (`tree?_replaced`). A substitution fails
only where the outermost tuple does (`substitute_eq_error_iff`). Where the key does not occur, what
is left is the tree written out (`replaced_of_absent`).
-/

namespace Stepwise

namespace Tree

variable {key : String} {R : Tree}

mutual

/-- The tree with `R` for every leaf that reads `key`. Nodes keep their style of brackets. -/
def replace : Tree → (key : String) → (R : Tree) → Tree
  | .atom text, key, R => if text = key then R else .atom text
  | .node style members, key, R => .node style (replaceAll members key R)

/-- Each tree with `R` for every leaf that reads `key`. -/
def replaceAll : List Tree → (key : String) → (R : Tree) → List Tree
  | [], _, _ => []
  | t :: rest, key, R => t.replace key R :: replaceAll rest key R

end

@[simp]
theorem replaceAll_eq_map (ts : List Tree) (key : String) (R : Tree) :
    replaceAll ts key R = ts.map (·.replace key R) := by
  induction ts with
  | nil => rfl
  | cons t rest ih => simp [replaceAll, ih]

mutual

/-- A tree in which the key does not occur stays as it is. -/
theorem replace_of_absent (T : Tree) (h : key ∉ T.atoms) : T.replace key R = T := by
  cases T with
  | atom text =>
    have hne : text ≠ key := by
      rintro rfl
      exact h (by simp [atoms])
    rw [replace, if_neg hne]
  | node style members => rw [replace, replaceAll_of_absent members h]

theorem replaceAll_of_absent (ts : List Tree) (h : key ∉ atomsAll ts) :
    replaceAll ts key R = ts := by
  cases ts with
  | nil => rfl
  | cons t rest =>
    rw [atomsAll, List.mem_append, not_or] at h
    rw [replaceAll, replace_of_absent t h.1, replaceAll_of_absent rest h.2]

end

mutual

/-- A key that replaces itself changes nothing. -/
theorem replace_self (T : Tree) : T.replace key (.atom key) = T := by
  cases T with
  | atom text =>
    rw [replace]
    split
    · rename_i htext
      rw [htext]
    · rfl
  | node style members => rw [replace, replaceAll_self members]

theorem replaceAll_self (ts : List Tree) : replaceAll ts key (.atom key) = ts := by
  cases ts with
  | nil => rfl
  | cons t rest => rw [replaceAll, replace_self t, replaceAll_self rest]

end

end Tree

namespace Token

variable {key replacement text : String} {T R : Tree}

/-! ## The tree of what is left -/

theorem isToken_of_members {ms : List String} (h : members text = .ok ms) :
    IsToken (trim text).toList :=
  (members_eq_ok_iff.1 h).isToken

theorem isToken_of_tree? (h : tree? (trim text) = some T) : IsToken (trim text).toList := by
  cases hl : Bracket.leading? (trim text) with
  | none => exact .atom (isAtom_of_tree? hl h).1
  | some style =>
    obtain ⟨ms, -, hm, -⟩ := exists_members_of_tree? hl h
    rw [members_trim] at hm
    exact isToken_of_members hm

/-- The tree of a token after the substitution is its tree after the substitution. -/
theorem tree?_replaced (hkey : opensTuple key = false) (hr : IsToken replacement.toList)
    (hR : tree? replacement = some R) (ht : IsToken text.toList) (hT : tree? text = some T) :
    tree? (replaced key replacement text) = some (T.replace key R) := by
  -- on the length of the text: the members of a tuple are shorter than the tuple
  induction hn : text.toList.length using Nat.strongRecOn generalizing text T with
  | ind n ih =>
    cases hl : Bracket.leading? text with
    | none =>
      obtain ⟨hatom, rfl⟩ := isAtom_of_tree? hl hT
      rw [replaced_of_isAtom hatom, Tree.replace]
      split
      · exact hR
      · exact hT
    | some style =>
      obtain ⟨ms, ts, hm, hts, rfl⟩ := exists_members_of_tree? hl hT
      have htokens : ∀ m ∈ ms.map (replaced key replacement), IsToken m.toList := by
        intro m hmem
        obtain ⟨m, hmm, rfl⟩ := List.mem_map.1 hmem
        exact isToken_replaced hkey hr (isToken_of_mem_members hm m hmm)
      have htrees : (ms.map (replaced key replacement)).map tree? =
          (Tree.replaceAll ts key R).map some := by
        rw [List.map_map, Tree.replaceAll_eq_map, List.map_map]
        exact map_eq_of_map_some hts fun m hmm U hU =>
          ih _ (hn ▸ length_lt_of_mem_members hm hmm) (isToken_of_mem_members hm m hmm) hU rfl
      rw [replaced_of_isToken hkey ht hl hm, Tree.replace]
      exact tree?_of_members _ (leading?_enclose style _) (members_enclose style htokens) htrees

/-- Where the key does not occur, the token is written out with single spaces. -/
theorem replaced_of_absent (hkey : opensTuple key = false) (ht : IsToken text.toList)
    (hT : tree? text = some T) (ha : key ∉ T.atoms) : replaced key replacement text = T.text := by
  induction hn : text.toList.length using Nat.strongRecOn generalizing text T with
  | ind n ih =>
    cases hl : Bracket.leading? text with
    | none =>
      obtain ⟨hatom, rfl⟩ := isAtom_of_tree? hl hT
      have hne : text ≠ key := by
        rintro rfl
        exact ha (by simp [Tree.atoms])
      rw [replaced_of_isAtom hatom, if_neg hne, Tree.text]
    | some style =>
      obtain ⟨ms, ts, hm, hts, rfl⟩ := exists_members_of_tree? hl hT
      have hallowed : ∀ a ∈ (Tree.node style ts).atoms, a ≠ key := by
        rintro a hmem rfl
        exact ha hmem
      have hwell := wellFormed_of_mem_members hl hT hallowed hm
      rw [replaced_of_isToken hkey ht hl hm, Tree.text, Tree.textAll_eq_map]
      congr 2
      refine map_eq_of_map_some hts fun m hmm U hU => ?_
      have habsent : key ∉ U.atoms := fun hmem => (hwell m hmm).2 U hU key hmem rfl
      exact ih _ (hn ▸ length_lt_of_mem_members hm hmm) (isToken_of_mem_members hm m hmm) hU
        habsent rfl

/-! ## Texts that are no token -/

theorem substitute_of_not_tuple (ho : opensTuple (trim text) = false) :
    substitute key replacement text =
      .ok (if trim text = key then replacement else trim text) := by
  have hl : Bracket.leading? (trim text) = none := by simpa [opensTuple] using ho
  rw [substitute, hl]
  split <;> rfl

theorem substitute_of_error {err : ReadError} (hkey : opensTuple key = false)
    (ho : opensTuple (trim text) = true) (hm : members text = .error err) :
    substitute key replacement text = .error err := by
  obtain ⟨style, hl⟩ := Option.isSome_iff_exists.1 ho
  have hne : trim text ≠ key := by
    rintro rfl
    rw [ho] at hkey
    cases hkey
  rw [substitute, if_neg hne, hl]
  simp only
  split
  · rename_i h
    rw [hm] at h
    cases h
    rfl
  · rename_i h
    rw [hm] at h
    cases h

/-- A text that is a token but for the blanks around it is substituted in like the token. -/
theorem substitute_of_isToken_trim (hkey : opensTuple key = false) (replacement : String)
    (ht : IsToken (trim text).toList) :
    substitute key replacement text = .ok (replaced key replacement (trim text)) := by
  cases ho : opensTuple (trim text) with
  | true => exact substitute_of_trim hkey replacement ht ho
  | false =>
    rw [substitute_of_not_tuple ho, replaced_of_isAtom (isAtom_of_isToken ht ho)]

theorem isToken_trim_of_atom_or_members
    (h : IsAtom (trim text).toList ∨ ∃ ms, members (trim text) = .ok ms) :
    IsToken (trim text).toList := by
  rcases h with hatom | ⟨ms, hm⟩
  · exact .atom hatom
  · rw [members_trim] at hm
    exact isToken_of_members hm

/-- A substitution fails where the text opens a bracket and has no members, and nowhere else. -/
theorem substitute_eq_error_iff {err : ReadError} (hkey : opensTuple key = false) :
    substitute key replacement text = .error err ↔
      opensTuple (trim text) = true ∧ members (trim text) = .error err := by
  rw [members_trim]
  constructor
  · intro h
    cases ho : opensTuple (trim text) with
    | false =>
      rw [substitute_of_not_tuple ho] at h
      cases h
    | true =>
      cases hm : members text with
      | error err' =>
        rw [substitute_of_error hkey ho hm] at h
        cases h
        exact ⟨rfl, rfl⟩
      | ok ms =>
        rw [substitute_of_trim hkey replacement (isToken_of_members hm) ho] at h
        cases h
  · rintro ⟨ho, hm⟩
    exact substitute_of_error hkey ho hm

/-! ## All texts -/

/-- Of a token in which the key does not occur, what is left is its tree written out. -/
theorem substitute_of_absent (hkey : opensTuple key = false) (hr : IsToken replacement.toList)
    (hT : tree? (trim text) = some T) (ha : key ∉ T.atoms) :
    substitute key replacement text = .ok T.text ∧ tree? T.text = some T ∧
      IsToken T.text.toList := by
  have ht := isToken_of_tree? hT
  obtain ⟨R, hR⟩ := exists_tree_of_isToken hr
  have htext : replaced key replacement (trim text) = T.text := replaced_of_absent hkey ht hT ha
  have htree := tree?_replaced hkey hr hR ht hT
  have htoken := isToken_replaced hkey hr ht
  rw [htext, Tree.replace_of_absent T ha] at htree
  rw [htext] at htoken
  exact ⟨by rw [substitute_of_isToken_trim hkey replacement ht, htext], htree, htoken⟩

/-- A text that opens a tuple and can be substituted in has a tree. -/
theorem exists_tree?_of_substitute {result : String} (hkey : opensTuple key = false)
    (ho : opensTuple (trim text) = true) (h : substitute key replacement text = .ok result) :
    ∃ T, tree? (trim text) = some T := by
  cases hm : members text with
  | error err =>
    rw [substitute_of_error hkey ho hm] at h
    cases h
  | ok ms => exact exists_tree_of_isToken (isToken_of_members hm)

theorem substitute_of_not_token (hkey : IsAtom key.toList) (ho : opensTuple (trim text) = false)
    (hatom : ¬ IsAtom (trim text).toList) : substitute key replacement text = .ok (trim text) := by
  have hne : trim text ≠ key := by
    intro heq
    rw [heq] at hatom
    exact hatom hkey
  rw [substitute_of_not_tuple ho, if_neg hne]

/-- A second substitution for a key that does not occur changes nothing more. -/
theorem substitute_again {result : String} (hkey : IsAtom key.toList)
    (hr : IsToken replacement.toList) (ha : ∀ T, tree? (trim text) = some T → key ∉ T.atoms)
    (h : substitute key replacement text = .ok result) :
    substitute key replacement result = .ok result := by
  have hflat := opensTuple_of_isAtom hkey
  cases hT : tree? (trim text) with
  | some T =>
    obtain ⟨hok, htree, htoken⟩ := substitute_of_absent hflat hr hT (ha T hT)
    rw [hok] at h
    cases h
    rw [← trim_of_isToken htoken] at htree
    exact (substitute_of_absent hflat hr htree (ha T hT)).1
  | none =>
    cases ho : opensTuple (trim text) with
    | true =>
      obtain ⟨T, hT'⟩ := exists_tree?_of_substitute hflat ho h
      rw [hT] at hT'
      cases hT'
    | false =>
      have hatom : ¬ IsAtom (trim text).toList := by
        intro hatom
        rw [tree?_of_isAtom hatom] at hT
        cases hT
      rw [substitute_of_not_token hkey ho hatom] at h
      cases h
      rw [← trim_trim] at ho hatom
      rw [substitute_of_not_token hkey ho hatom, trim_trim]

/-- A key that replaces itself leaves the tree as it was. -/
theorem tree?_of_substitute_self {result : String} (hkey : IsAtom key.toList)
    (h : substitute key key text = .ok result) : tree? result = tree? (trim text) := by
  have hflat := opensTuple_of_isAtom hkey
  cases hT : tree? (trim text) with
  | some T =>
    have ht := isToken_of_tree? hT
    rw [substitute_of_isToken_trim hflat key ht] at h
    cases h
    rw [tree?_replaced hflat (.atom hkey) (tree?_of_isAtom hkey) ht hT, Tree.replace_self]
  | none =>
    cases ho : opensTuple (trim text) with
    | true =>
      obtain ⟨T, hT'⟩ := exists_tree?_of_substitute hflat ho h
      rw [hT] at hT'
      cases hT'
    | false =>
      rw [substitute_of_not_tuple ho] at h
      cases h
      rw [ite_eq_right_iff.2 Eq.symm, hT]

/-- Substitution of a token for an atom is substitution in trees. It fails where the text opens a
tuple that has no members, and with the error that the members give. A text that is an atom or a
tuple with members keeps its tree but for the leaves that read the key, each of which becomes the
tree of the replacement; any other text is only trimmed. A key that does not occur leaves the tree
written out with single spaces, and a second time nothing is left to change; a key that replaces
itself leaves the tree as it was. -/
theorem substitute_replaces_leaves (hkey : IsAtom key.toList) (hr : IsToken replacement.toList)
    (text : String) :
    (∀ err, substitute key replacement text = .error err ↔
      opensTuple (trim text) = true ∧ members (trim text) = .error err) ∧
    (IsAtom (trim text).toList ∨ (∃ ms, members (trim text) = .ok ms) →
      ∃ T R result, tree? (trim text) = some T ∧ tree? replacement = some R ∧
        substitute key replacement text = .ok result ∧ tree? result = some (T.replace key R)) ∧
    (opensTuple (trim text) = false → ¬ IsAtom (trim text).toList →
      substitute key replacement text = .ok (trim text)) ∧
    (∀ T, tree? (trim text) = some T → key ∉ T.atoms →
      substitute key replacement text = .ok T.text ∧ tree? T.text = some T) ∧
    ((∀ T, tree? (trim text) = some T → key ∉ T.atoms) →
      ∀ result, substitute key replacement text = .ok result →
        substitute key replacement result = .ok result) ∧
    (∀ result, substitute key key text = .ok result → tree? result = tree? (trim text)) := by
  have hflat := opensTuple_of_isAtom hkey
  refine ⟨fun err => substitute_eq_error_iff hflat, ?_, substitute_of_not_token hkey, ?_,
    fun ha result h => substitute_again hkey hr ha h,
    fun result h => tree?_of_substitute_self hkey h⟩
  · intro h
    have ht := isToken_trim_of_atom_or_members h
    obtain ⟨T, hT⟩ := exists_tree_of_isToken ht
    obtain ⟨R, hR⟩ := exists_tree_of_isToken hr
    exact ⟨T, R, _, hT, hR, substitute_of_isToken_trim hflat replacement ht,
      tree?_replaced hflat hr hR ht hT⟩
  · intro T hT ha
    obtain ⟨hok, htree, -⟩ := substitute_of_absent hflat hr hT ha
    exact ⟨hok, htree⟩

/-- A tuple takes the place of an atom that touches its neighbours. -/
theorem substitute_tuple_for_atom :
    IsAtom "x".toList ∧ IsToken "[g y]".toList ∧ members "(f(x)x)" = .ok ["f", "(x)", "x"] ∧
      ∃ T R result, tree? (trim " (f(x)x)") = some T ∧ tree? "[g y]" = some R ∧
        substitute "x" "[g y]" " (f(x)x)" = .ok result ∧ tree? result = some (T.replace "x" R) := by
  have hx : IsAtom "x".toList := by decide
  have hr : IsToken "[g y]".toList :=
    .tuple .square (.cons (by decide) (.cons (by decide) (.cons (by decide) .nil)))
  have hm : members "(f(x)x)" = .ok ["f", "(x)", "x"] := by rfl
  exact ⟨hx, hr, hm, (substitute_replaces_leaves hx hr " (f(x)x)").2.1 (.inr ⟨_, hm⟩)⟩

end Token

end Stepwise
