import Stepwise.Proofs.Confinement.Source
import Stepwise.Proofs.WellFormed.Move
/-!
# Normal layout

A token in normal layout has round brackets throughout and single spaces between members. Layout
is all that is lost: an atom stays as it is, and the members of a tuple in normal layout are its
members in normal layout (`members_normal`).
-/

namespace Stepwise

namespace Tree

mutual

theorem atoms_rounded (T : Tree) : T.rounded.atoms = T.atoms := by
  cases T with
  | atom text => rfl
  | node style members => simp only [rounded, atoms, atomsAll_rounded members]

theorem atomsAll_rounded (ts : List Tree) : atomsAll (roundedAll ts) = atomsAll ts := by
  cases ts with
  | nil => rfl
  | cons t rest => simp only [roundedAll, atomsAll, atoms_rounded t, atomsAll_rounded rest]

end

end Tree

namespace Token

variable {text : String} {style : Bracket} {ms : List String} {T : Tree}

/-- The text in normal layout, and without blanks around it. -/
def normal (text : String) : String :=
  match tree? (trim text) with
  | some T => T.rounded.text
  | none => trim text

theorem normal_of_tree? (h : tree? (trim text) = some T) : normal text = T.rounded.text := by
  simp only [normal, h]

/-- Text that opens no bracket only loses the blanks around it. -/
theorem normal_of_not_tuple (ho : opensTuple (trim text) = false) : normal text = trim text := by
  unfold normal
  split
  · rename_i T hT
    have hl : Bracket.leading? (trim text) = none := by simpa [opensTuple] using ho
    obtain ⟨-, rfl⟩ := isAtom_of_tree? hl hT
    rfl
  · rfl

theorem normal_of_isAtom (h : IsAtom text.toList) : normal text = text := by
  have htrim : trim text = text := trim_of_isToken (.atom h)
  rw [normal_of_not_tuple (by rw [htrim]; exact opensTuple_of_isAtom h), htrim]

theorem map_normal {ts : List Tree} (hms : ∀ m ∈ ms, IsToken m.toList)
    (hts : ms.map tree? = ts.map some) : ms.map normal = ts.map fun t => t.rounded.text := by
  refine map_eq_of_map_some hts fun m hm t ht => normal_of_tree? ?_
  rw [trim_of_isToken (hms m hm)]
  exact ht

/-- A tuple in normal layout is made of its members in normal layout. -/
theorem normal_of_members (hl : Bracket.leading? (trim text) = some style)
    (hT : tree? (trim text) = some T) (hm : members (trim text) = .ok ms) :
    normal text = Bracket.round.enclose (" ".intercalate (ms.map normal)) := by
  obtain ⟨ns, ts, hns, hts, rfl⟩ := exists_members_of_tree? hl hT
  rw [hm] at hns
  cases hns
  rw [normal_of_tree? hT, map_normal (isToken_of_mem_members hm) hts]
  simp [Tree.rounded, Tree.text, Function.comp_def]

theorem normal_of_isToken (ht : IsToken text.toList) (hl : Bracket.leading? text = some style)
    (hm : members text = .ok ms) :
    normal text = Bracket.round.enclose (" ".intercalate (ms.map normal)) := by
  have htrim : trim text = text := trim_of_isToken ht
  obtain ⟨T, hT⟩ := exists_tree_of_isToken ht
  rw [← htrim] at hl hT hm
  exact normal_of_members hl hT hm

/-- A token in normal layout is a token. -/
theorem isToken_normal (ht : IsToken text.toList) : IsToken (normal text).toList := by
  induction hn : text.toList.length using Nat.strongRecOn generalizing text with
  | ind n ih =>
    cases hl : Bracket.leading? text with
    | none =>
      have ha := isAtom_of_isToken ht (by simp [opensTuple, hl])
      rw [normal_of_isAtom ha]
      exact ht
    | some style =>
      obtain ⟨ms, hm⟩ := exists_members_of_isToken ht (by simp [opensTuple, hl])
      rw [normal_of_isToken ht hl hm]
      refine isToken_enclose .round fun t hmem => ?_
      obtain ⟨m, hmm, rfl⟩ := List.mem_map.1 hmem
      exact ih _ (hn ▸ length_lt_of_mem_members hm hmm) (isToken_of_mem_members hm m hmm) rfl

theorem opensTuple_normal (ht : IsToken text.toList) :
    opensTuple (normal text) = opensTuple text := by
  cases hl : Bracket.leading? text with
  | none => rw [normal_of_isAtom (isAtom_of_isToken ht (by simp [opensTuple, hl]))]
  | some style =>
    obtain ⟨ms, hm⟩ := exists_members_of_isToken ht (by simp [opensTuple, hl])
    rw [normal_of_isToken ht hl hm, opensTuple, leading?_enclose, opensTuple, hl]
    rfl

/-- The members of a tuple in normal layout are its members in normal layout. -/
theorem members_normal (ht : IsToken text.toList) (ho : opensTuple text = true)
    (hm : members text = .ok ms) : members (normal text) = .ok (ms.map normal) := by
  obtain ⟨style, hl⟩ := Option.isSome_iff_exists.1 ho
  rw [normal_of_isToken ht hl hm]
  refine members_enclose .round fun t hmem => ?_
  obtain ⟨m, hmm, rfl⟩ := List.mem_map.1 hmem
  exact isToken_normal (isToken_of_mem_members hm m hmm)

theorem normal_enclose (b : Bracket) (ht : ∀ m ∈ ms, IsToken m.toList) :
    normal (b.enclose (" ".intercalate ms)) =
      Bracket.round.enclose (" ".intercalate (ms.map normal)) :=
  normal_of_isToken (isToken_enclose b ht) (leading?_enclose b ms) (members_enclose b ht)

end Token

/-! ## Names -/

/-- A symbol opens no bracket. -/
theorem opensTuple_of_isSymbol {name : String} (h : isSymbol name = true) :
    opensTuple name = false := by
  unfold isSymbol at h
  unfold opensTuple Bracket.leading?
  cases hl : name.toList with
  | nil => rfl
  | cons c rest =>
    rw [hl] at h
    simp only [List.any_cons, Bool.and_eq_true, Bool.not_eq_true', Bool.or_eq_false_iff] at h
    have hc : isBracket c = false := h.1.1.2.1
    simpa using (Token.isBracket_eq_false_iff.1 hc).1

theorem Token.normal_of_isSymbol {name : String} (ht : IsToken name.toList)
    (h : isSymbol name = true) : normal name = name :=
  normal_of_isAtom (isAtom_of_isToken ht (opensTuple_of_isSymbol h))

theorem isSymbol_normal {text : String} (ht : Token.IsToken text.toList) :
    isSymbol (Token.normal text) = isSymbol text := by
  by_cases ho : opensTuple text = true
  · -- no tuple is a symbol, whatever its layout
    have hno : ∀ t, opensTuple t = true → isSymbol t = false := by
      intro t hopen
      cases hs : isSymbol t with
      | false => rfl
      | true =>
        rw [opensTuple_of_isSymbol hs] at hopen
        cases hopen
    rw [hno text ho, hno _ (by rw [Token.opensTuple_normal ht]; exact ho)]
  · rw [Token.normal_of_isAtom (Token.isAtom_of_isToken ht (by simpa using ho))]

end Stepwise
