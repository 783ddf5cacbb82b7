import Stepwise.Number.Literal
import Stepwise.Proofs.Confinement.Source
import Stepwise.Proofs.Token.Tree
import Stepwise.Token.Substitute
/-!
# What a substitution leaves

A substitution takes a token to a token (`isToken_replaced`): the atoms that read as the key are
replaced, and a tuple keeps its bracket and is made of its members after the substitution
(`members_replaced`). It fails on no token (`substitute_of_isToken`).
-/

namespace Stepwise.Token

variable {key literal text : String} {style : Bracket} {ms : List String}

/-- The text after the substitution, or as it was where the substitution fails. -/
def replaced (key literal text : String) : String :=
  (substitute key literal text).toOption.getD text

theorem substitute_eq_ok_replaced {t : String} (h : substitute key literal text = .ok t) :
    substitute key literal text = .ok (replaced key literal text) := by
  rw [replaced, h]
  rfl

/-! ## Atoms -/

theorem substitute_of_isAtom (key literal : String) (h : IsAtom text.toList) :
    substitute key literal text = .ok (if text = key then literal else text) := by
  have htrim : trim text = text := trim_of_isToken (.atom h)
  have hleading : Bracket.leading? text = none := by simpa [opensTuple] using opensTuple_of_isAtom h
  rw [substitute, htrim, hleading]
  split <;> rfl

theorem replaced_of_isAtom (h : IsAtom text.toList) :
    replaced key literal text = if text = key then literal else text := by
  rw [replaced, substitute_of_isAtom key literal h]
  rfl

/-! ## Number literals -/

section Literals

variable {cs : List Char} {c : Char}

theorem isPlain_of_isDigit (h : c.isDigit = true) : IsPlain c := by
  simp only [Char.isDigit, Bool.and_eq_true, decide_eq_true_eq, ge_iff_le,
    UInt32.le_iff_toNat_le] at h
  have hlow : 48 ≤ c.toNat := h.1
  have hhigh : c.toNat ≤ 57 := h.2
  refine ⟨?_, ?_⟩
  · simp only [isBlank, Bool.or_eq_false_iff, Bool.and_eq_false_iff, decide_eq_false_iff_not,
      beq_eq_false_iff_ne]
    omega
  · have hne : ∀ d : Char, 57 < d.toNat ∨ d.toNat < 48 → c ≠ d := by
      rintro d hd rfl
      omega
    simp [isBracket, Bracket.ofOpener?, Bracket.ofCloser?, hne '(' (by decide), hne '[' (by decide),
      hne ')' (by decide), hne ']' (by decide)]

theorem plain_of_spanSign (h : ∀ c ∈ (spanSign cs).2, IsPlain c) : ∀ c ∈ cs, IsPlain c := by
  unfold spanSign at h
  split at h
  · simpa using And.intro (by decide : IsPlain '-') h
  · simpa using And.intro (by decide : IsPlain '+') h
  · exact h

theorem plain_of_spanDigits (h : ∀ c ∈ (spanDigits cs).2, IsPlain c) : ∀ c ∈ cs, IsPlain c := by
  intro c hc
  rw [← List.takeWhile_append_dropWhile (p := Char.isDigit) (l := cs)] at hc
  rcases List.mem_append.1 hc with hc | hc
  · exact isPlain_of_isDigit (List.all_eq_true.1 List.all_takeWhile c hc)
  · exact h c hc

theorem plain_of_spanFraction (h : ∀ c ∈ (Literal.spanFraction cs).2, IsPlain c) :
    ∀ c ∈ cs, IsPlain c := by
  unfold Literal.spanFraction at h
  split at h
  · simpa using And.intro (by decide : IsPlain '.') (plain_of_spanDigits h)
  · exact h

theorem plain_of_exponent? {e : Int} (h : Literal.exponent? cs = some e) : ∀ c ∈ cs, IsPlain c := by
  unfold Literal.exponent? at h
  split at h
  · simp
  · rename_i d rest
    split at h
    · rename_i hd
      have hplain : IsPlain d := by
        rcases hd with rfl | rfl <;> decide
      have hrest : ∀ c ∈ rest, IsPlain c := by
        refine plain_of_spanSign (plain_of_spanDigits ?_)
        simp only at h
        split at h
        · cases h
        · rename_i ds hs
          rw [hs]
          simp
        · cases h
      simpa using And.intro hplain hrest
    · cases h

/-- A number literal is an atom. -/
theorem isAtom_of_readNumber {x : Float} (h : readNumber text = .ok x) : IsAtom text.toList := by
  unfold readNumber at h
  cases hp : Literal.parse? text.toList with
  | none =>
    rw [hp] at h
    cases h
  | some lit =>
    unfold Literal.parse? at hp
    refine ⟨fun hnil => ?_, ?_⟩
    · rw [hnil] at hp
      cases hp
    · refine plain_of_spanSign (plain_of_spanDigits (plain_of_spanFraction ?_))
      simp only at hp
      split at hp
      · cases hp
      · obtain ⟨e, he, -⟩ := Option.map_eq_some_iff.1 hp
        exact plain_of_exponent? he

end Literals

/-! ## Tuples -/

theorem mapM_eq_ok {ε α β : Type} {f : α → Except ε β} {g : α → β} {as : List α}
    (h : ∀ a ∈ as, f a = .ok (g a)) : as.mapM f = .ok (as.map g) := by
  induction as with
  | nil => rfl
  | cons a rest ih =>
    rw [List.mapM_cons, h a (by simp), ih fun x hx => h x (by simp [hx])]
    rfl

theorem members_trim (text : String) : members (trim text) = members text := by
  have htrim : trimChars (trimChars text.toList) = trimChars text.toList := by
    rw [← toList_trim, ← toList_trim, trim_trim]
  rw [members, members, toList_trim, htrim]

theorem substitute_of_members (hkey : trim text ≠ key)
    (hl : Bracket.leading? (trim text) = some style) (hm : members text = .ok ms)
    (hms : ∀ m ∈ ms, substitute key literal m = .ok (replaced key literal m)) :
    substitute key literal text =
      .ok (style.enclose (" ".intercalate (ms.map (replaced key literal)))) := by
  rw [substitute, if_neg hkey, hl]
  simp only
  split
  · rename_i h
    rw [hm] at h
    cases h
  · rename_i ns h
    rw [hm] at h
    cases h
    -- that the members are shorter only serves the recursion, and is forgotten here
    rw [List.mapM_subtype fun _ _ => rfl, List.unattach_attach, mapM_eq_ok hms]
    rfl

variable (hkey : opensTuple key = false)

include hkey

/-- There is a replacement for every token. -/
theorem substitute_of_isToken (literal : String) (ht : IsToken text.toList) :
    substitute key literal text = .ok (replaced key literal text) := by
  -- on the length of the text: the members of a tuple are shorter than the tuple
  induction hn : text.toList.length using Nat.strongRecOn generalizing text with
  | ind n ih =>
    cases hl : Bracket.leading? text with
    | none =>
      have hatom := isAtom_of_isToken ht (by simp [opensTuple, hl])
      exact substitute_eq_ok_replaced (substitute_of_isAtom key literal hatom)
    | some style =>
      have ho : opensTuple text = true := by simp [opensTuple, hl]
      obtain ⟨ms, hm⟩ := exists_members_of_isToken ht ho
      have htrim : trim text = text := trim_of_isToken ht
      have hne : trim text ≠ key := by
        rintro rfl
        rw [htrim, ho] at hkey
        cases hkey
      have hms : ∀ m ∈ ms, substitute key literal m = .ok (replaced key literal m) := fun m hmem =>
        ih _ (hn ▸ length_lt_of_mem_members hm hmem) (isToken_of_mem_members hm m hmem) rfl
      exact substitute_eq_ok_replaced
        (substitute_of_members hne (by rw [htrim]; exact hl) hm hms)

theorem replaced_of_isToken (ht : IsToken text.toList) (hl : Bracket.leading? text = some style)
    (hm : members text = .ok ms) :
    replaced key literal text =
      style.enclose (" ".intercalate (ms.map (replaced key literal))) := by
  have htrim : trim text = text := trim_of_isToken ht
  have hne : trim text ≠ key := by
    rintro rfl
    rw [htrim, opensTuple, hl] at hkey
    cases hkey
  have hms : ∀ m ∈ ms, substitute key literal m = .ok (replaced key literal m) := fun m hmem =>
    substitute_of_isToken hkey literal (isToken_of_mem_members hm m hmem)
  have hall := substitute_of_members hne (by rw [htrim]; exact hl) hm hms
  rw [substitute_of_isToken hkey literal ht] at hall
  exact Except.ok.inj hall

/-- Blanks around a tuple are dropped. -/
theorem substitute_of_trim (literal : String) (ht : IsToken (trim text).toList)
    (ho : opensTuple (trim text) = true) :
    substitute key literal text = .ok (replaced key literal (trim text)) := by
  obtain ⟨style, hl⟩ := Option.isSome_iff_exists.1 ho
  obtain ⟨ms, hm⟩ := exists_members_of_isToken ht ho
  have hne : trim text ≠ key := by
    rintro rfl
    rw [ho] at hkey
    cases hkey
  rw [replaced_of_isToken hkey ht hl hm]
  refine substitute_of_members hne hl (by rw [← members_trim, hm]) fun m hmem => ?_
  exact substitute_of_isToken hkey literal (isToken_of_mem_members hm m hmem)

theorem opensTuple_replaced (hliteral : IsAtom literal.toList) (ht : IsToken text.toList) :
    opensTuple (replaced key literal text) = opensTuple text := by
  cases hl : Bracket.leading? text with
  | none =>
    have hatom := isAtom_of_isToken ht (by simp [opensTuple, hl])
    rw [replaced_of_isAtom hatom, opensTuple_of_isAtom hatom]
    split
    · exact opensTuple_of_isAtom hliteral
    · exact opensTuple_of_isAtom hatom
  | some style =>
    obtain ⟨ms, hm⟩ := exists_members_of_isToken ht (by simp [opensTuple, hl])
    rw [replaced_of_isToken hkey ht hl hm, opensTuple, leading?_enclose, opensTuple, hl]

variable (hliteral : IsToken literal.toList)

include hliteral

/-- Tokens stay tokens. -/
theorem isToken_replaced (ht : IsToken text.toList) :
    IsToken (replaced key literal text).toList := by
  induction hn : text.toList.length using Nat.strongRecOn generalizing text with
  | ind n ih =>
    cases hl : Bracket.leading? text with
    | none =>
      rw [replaced_of_isAtom (isAtom_of_isToken ht (by simp [opensTuple, hl]))]
      split
      · exact hliteral
      · exact ht
    | some style =>
      obtain ⟨ms, hm⟩ := exists_members_of_isToken ht (by simp [opensTuple, hl])
      rw [replaced_of_isToken hkey ht hl hm]
      refine isToken_enclose style fun t hmem => ?_
      obtain ⟨m, hmm, rfl⟩ := List.mem_map.1 hmem
      exact ih _ (hn ▸ length_lt_of_mem_members hm hmm) (isToken_of_mem_members hm m hmm) rfl

/-- The members of a tuple after the substitution are its members, each after the substitution. -/
theorem members_replaced (ht : IsToken text.toList) (ho : opensTuple text = true)
    (hm : members text = .ok ms) :
    members (replaced key literal text) = .ok (ms.map (replaced key literal)) := by
  obtain ⟨style, hl⟩ := Option.isSome_iff_exists.1 ho
  rw [replaced_of_isToken hkey ht hl hm]
  refine members_enclose style fun t hmem => ?_
  obtain ⟨m, hmm, rfl⟩ := List.mem_map.1 hmem
  exact isToken_replaced hkey hliteral (isToken_of_mem_members hm m hmm)

end Stepwise.Token
