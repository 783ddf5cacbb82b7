import Stepwise.Proofs.Token.Grammar
/-!
# How a tuple is written

A tuple is written as a bracket, its members and the other bracket. There may be blanks around the
members, and only two atoms that follow on one another need one between them (`Spaced`). A scan
finds the members exactly where they are written like this (`scan_eq_some_iff`), so that the texts
with members are those that hold such a tuple between blanks (`members_iff_written`).
-/

namespace Stepwise.Token

variable {outer : Bracket} {inner : List Bracket} {token text r cs : List Char}
  {ms : List (List Char)} {c : Char}

/-! ## Spaced tokens -/

/-- The tokens in their order, with blanks in front of them, between them and behind them. Between
two atoms there is at least one. -/
inductive Spaced : List (List Char) → List Char → Prop
  | nil {gap : List Char} : (∀ c ∈ gap, isBlank c = true) → Spaced [] gap
  | cons {gap token rest : List Char} {tokens : List (List Char)} :
      (∀ c ∈ gap, isBlank c = true) →
      (IsAtom token → ∀ next ∈ tokens.head?, IsAtom next → ∃ c ∈ rest.head?, isBlank c = true) →
      Spaced tokens rest → Spaced (token :: tokens) (gap ++ (token ++ rest))

/-- The text is a tuple of these members. -/
def Written (ms : List (List Char)) (text : List Char) : Prop :=
  (∀ m ∈ ms, IsToken m) ∧
    ∃ (b : Bracket) (inner : List Char), Spaced ms inner ∧ text = b.opener :: (inner ++ [b.closer])

theorem IsToken.ne_nil (ht : IsToken token) : token ≠ [] := by
  cases ht with
  | atom h => exact h.1
  | tuple b hi => exact List.cons_ne_nil _ _

theorem not_isAtom_of_isBracket (hc : isBracket c = true) (hm : c ∈ token) : ¬ IsAtom token := by
  intro h
  rw [(h.2 c hm).2] at hc
  cases hc

namespace Spaced

theorem blank (hs : Spaced ms text) (hc : isBlank c = true) : Spaced ms (c :: text) := by
  cases hs with
  | nil hgap => exact .nil (by simpa [hc] using hgap)
  | cons hgap hsep hs =>
    rw [← List.cons_append]
    exact .cons (by simpa [hc] using hgap) hsep hs

/-- Where no blank comes first, the first token does. -/
theorem head (hs : Spaced ms (c :: text)) (ht : ∀ m ∈ ms, IsToken m) (hc : isBlank c = false) :
    ∃ m ∈ ms.head?, c ∈ m := by
  generalize hcs : c :: text = cs at hs
  cases hs with
  | nil hgap =>
    rw [hgap c (by simp [← hcs])] at hc
    cases hc
  | @cons gap token rest tokens hgap _ _ =>
    cases gap with
    | cons d gap =>
      obtain ⟨rfl, -⟩ := List.cons.inj hcs
      rw [hgap c (by simp)] at hc
      cases hc
    | nil =>
      cases token with
      | nil => exact ((ht [] (by simp)).ne_nil rfl).elim
      | cons d token =>
        obtain ⟨rfl, -⟩ := List.cons.inj hcs
        exact ⟨_, rfl, by simp⟩

/-- Blanks in front of the first token are not needed. -/
theorem prepend (hsep : IsAtom token → ∀ next ∈ ms.head?, IsAtom next →
    ∃ c ∈ text.head?, isBlank c = true) (hs : Spaced ms text) :
    Spaced (token :: ms) (token ++ text) := by
  have hcons : Spaced (token :: ms) ([] ++ (token ++ text)) := .cons (by simp) hsep hs
  exact hcons

/-- What has been read of a token, if anything, comes first. -/
theorem flush (hsep : IsAtom token.reverse → ∀ next ∈ ms.head?, IsAtom next →
    ∃ c ∈ text.head?, isBlank c = true) (hs : Spaced ms text) :
    Spaced (flush token ms) (token.reverse ++ text) := by
  cases token with
  | nil => exact hs
  | cons c token => exact hs.prepend hsep

theorem balanced (hs : Spaced ms text) (ht : ∀ m ∈ ms, IsToken m) : Balanced text := by
  induction hs with
  | nil hgap => exact balanced_of_isBlank hgap
  | cons hgap _ _ ih =>
    have hrest := ih fun m hm => ht m (by simp [hm])
    exact (balanced_of_isBlank hgap).append ((ht _ (by simp)).balanced.append hrest)

end Spaced

/-! ## What a scan has read -/

/-- The members that a scan finds stand spaced in what it has read, in front of the closing
bracket. -/
theorem spaced_of_scan (h : scan outer inner token cs = some (ms, r)) (ht : Begun inner token) :
    ∃ text, cs = text ++ outer.closer :: r ∧ Spaced ms (token.reverse ++ text) := by
  -- on the text still to come, with what has been read of the current member in front of it
  fun_induction scan outer inner token cs generalizing ms r with
  | case1 => cases h
  | case2 token c rest b hb ih =>
    obtain ⟨⟨ns, r'⟩, hscan, he⟩ := Option.map_eq_some_iff.1 h
    cases he
    rw [Bracket.ofOpener?_eq_some_iff.1 hb] at hscan ih ⊢
    have hbegun : Begun [b] [b.opener] := .opened (.first b .nil)
    have htokens := isToken_of_mem_scan hscan hbegun
    obtain ⟨text, rfl, hs⟩ := ih hscan hbegun
    refine ⟨b.opener :: text, rfl, hs.flush fun _ next hnext hatom => ?_⟩
    -- the next member begins with the bracket and is no atom
    obtain ⟨m, hm, hmem⟩ := hs.head htokens (isBlank_opener b)
    obtain rfl : m = next := Option.some.inj (hm.symm.trans hnext)
    exact (not_isAtom_of_isBracket (isBracket_opener b) hmem hatom).elim
  | case3 token c rest b inner hne hb ih =>
    rw [Bracket.ofOpener?_eq_some_iff.1 hb] at h ih ⊢
    have hbegun : Begun (b :: inner) (b.opener :: token) := by
      refine .opened ?_
      rw [List.reverse_cons]
      exact .next b (ht.reverse hne) .nil
    obtain ⟨text, rfl, hs⟩ := ih h hbegun
    exact ⟨b.opener :: text, rfl, by simpa using hs⟩
  | case4 token c rest ho hc =>
    cases h
    rw [Bracket.ofCloser?_eq_some_iff.1 hc]
    exact ⟨[], rfl, .flush (by simp) (.nil (by simp))⟩
  | case6 token c rest i ho hc ih =>
    obtain ⟨⟨ns, r'⟩, hscan, he⟩ := Option.map_eq_some_iff.1 h
    cases he
    obtain ⟨text, rfl, hs⟩ := ih hscan (.atom (by simp))
    rw [Bracket.ofCloser?_eq_some_iff.1 hc]
    have hflush : Spaced (flush (i.closer :: token) ns) ((i.closer :: token).reverse ++ text) :=
      hs.flush fun hatom => (not_isAtom_of_isBracket (isBracket_closer i) (by simp) hatom).elim
    exact ⟨i.closer :: text, rfl, by simpa using hflush⟩
  | case8 token c rest i inner hne ho hc ih =>
    rw [Bracket.ofCloser?_eq_some_iff.1 hc] at h ih ⊢
    have hbegun : Begun inner (i.closer :: token) := by
      refine .opened ?_
      rw [List.reverse_cons]
      exact (ht.reverse (List.cons_ne_nil _ _)).close hne
    obtain ⟨text, rfl, hs⟩ := ih h hbegun
    exact ⟨i.closer :: text, rfl, by simpa using hs⟩
  | case10 token c rest hc ho hblank ih =>
    obtain ⟨⟨ns, r'⟩, hscan, he⟩ := Option.map_eq_some_iff.1 h
    cases he
    obtain ⟨text, rfl, hs⟩ := ih hscan (.atom (by simp))
    exact ⟨c :: text, rfl, (hs.blank hblank).flush fun _ _ _ _ => ⟨c, rfl, hblank⟩⟩
  | case11 token c rest hc ho hblank ih =>
    have hplain : IsPlain c := ⟨by simpa using hblank, isBracket_eq_false_iff.2 ⟨ho, hc⟩⟩
    obtain ⟨text, rfl, hs⟩ := ih h (.atom (by simpa [hplain] using ht.plain))
    exact ⟨c :: text, rfl, by simpa using hs⟩
  | case12 token c rest inner hne hc ho ih =>
    have hbegun : Begun inner (c :: token) := by
      refine .opened ?_
      rw [List.reverse_cons]
      exact (ht.reverse hne).append (.cons (isBracket_eq_false_iff.2 ⟨ho, hc⟩) .nil)
    obtain ⟨text, rfl, hs⟩ := ih h hbegun
    exact ⟨c :: text, rfl, by simpa using hs⟩
  | case5 | case7 | case9 => cases h

/-! ## Scanning what is spaced -/

/-- Behind an atom come a blank, a bracket, or nothing. -/
theorem Spaced.head_not_isPlain (hs : Spaced ms text) (ht : ∀ m ∈ ms, IsToken m)
    (hsep : ∀ next ∈ ms.head?, IsAtom next → ∃ c ∈ text.head?, isBlank c = true) :
    ∀ c ∈ text.head?, ¬ IsPlain c := by
  intro c hc hplain
  cases hs with
  | nil hgap => exact not_isPlain_of_isBlank (hgap c (List.mem_of_head? hc)) hplain
  | @cons gap token rest tokens hgap _ _ =>
    cases gap with
    | cons d gap =>
      obtain rfl : d = c := by simpa using hc
      exact not_isPlain_of_isBlank (hgap d (by simp)) hplain
    | nil =>
      cases ht token (by simp) with
      | atom h =>
        obtain ⟨d, hd, hblank⟩ := hsep token rfl h
        obtain rfl : d = c := Option.some.inj (hd.symm.trans hc)
        exact not_isPlain_of_isBlank hblank hplain
      | tuple b hi =>
        obtain rfl : b.opener = c := by simpa using hc
        exact not_isPlain_of_isBracket (isBracket_opener b) hplain

theorem scan_of_spaced (hs : Spaced ms text) (ht : ∀ m ∈ ms, IsToken m) :
    scan outer [] [] (text ++ outer.closer :: r) = some (ms, r) := by
  induction hs with
  | nil hgap =>
    rw [scan_blanks hgap, scan_close]
    rfl
  | @cons gap token rest tokens hgap hsep hs ih =>
    have htokens : ∀ m ∈ tokens, IsToken m := fun m hm => ht m (by simp [hm])
    rw [List.append_assoc, scan_blanks hgap, List.append_assoc, scan_token (ht token (by simp)),
      ih htokens]
    · rfl
    · intro hatom c hc
      cases rest with
      | nil =>
        obtain rfl : outer.closer = c := by simpa using hc
        exact not_isPlain_of_isBracket (isBracket_closer outer)
      | cons d rest => exact hs.head_not_isPlain htokens (hsep hatom) c hc

/-- A scan finds the tokens that are written in front of the closing bracket, and no others. -/
theorem scan_eq_some_iff : scan outer [] [] cs = some (ms, r) ↔
    (∀ m ∈ ms, IsToken m) ∧ ∃ text, Spaced ms text ∧ cs = text ++ outer.closer :: r := by
  constructor
  · intro h
    have hbegun : Begun [] [] := .atom (by simp)
    obtain ⟨text, hcs, hs⟩ := spaced_of_scan h hbegun
    exact ⟨isToken_of_mem_scan h hbegun, text, hs, hcs⟩
  · rintro ⟨ht, text, hs, rfl⟩
    exact scan_of_spaced hs ht

/-! ## Tuples at the start of a text -/

section Tuple

variable {tuple tuple' after after' : List Char} {ms' : List (List Char)}

/-- What comes of a text that begins with a tuple of the members `ms` and goes on with `after`. -/
def verdict (whole : String) (ms : List (List Char)) (after : List Char) :
    Except ReadError (List (List Char)) :=
  match after.dropWhile isBlank with
  | [] => .ok ms
  | d :: junk =>
    if (Bracket.ofCloser? d).isSome then .error (.unbalanced whole)
    else .error (.trailing (String.ofList (d :: junk)))

theorem memberChars_opener (b : Bracket) (cs : List Char) :
    memberChars (b.opener :: cs) =
      match scan b [] [] cs with
      | none => .error (.unbalanced (String.ofList (b.opener :: cs)))
      | some (ms, after) => verdict (String.ofList (b.opener :: cs)) ms after := by
  simp only [memberChars, Bracket.ofOpener?_opener]
  rfl

theorem memberChars_of_written (hw : Written ms tuple) (after : List Char) :
    memberChars (tuple ++ after) = verdict (String.ofList (tuple ++ after)) ms after := by
  obtain ⟨ht, b, inner, hs, rfl⟩ := hw
  have hscan : scan b [] [] (inner ++ b.closer :: after) = some (ms, after) := scan_of_spaced hs ht
  simp only [List.cons_append, List.append_assoc, List.nil_append, memberChars_opener, hscan]

/-- Everything that can come of a text: it opens no bracket, or it begins with no tuple, or with
one. -/
theorem memberChars_cases (text : List Char) :
    (text.head?.bind Bracket.ofOpener? = none ∧
      memberChars text = .error (.notTuple (String.ofList text))) ∨
    ((∃ b : Bracket, text.head? = some b.opener) ∧
      (∀ ms tuple after, Written ms tuple → text ≠ tuple ++ after) ∧
      memberChars text = .error (.unbalanced (String.ofList text))) ∨
    ∃ ms tuple after, Written ms tuple ∧ text = tuple ++ after ∧
      memberChars text = verdict (String.ofList text) ms after := by
  cases text with
  | nil => exact .inl ⟨rfl, rfl⟩
  | cons c cs =>
    cases hc : Bracket.ofOpener? c with
    | none => exact .inl ⟨hc, by simp [memberChars, hc]⟩
    | some b =>
      obtain rfl := Bracket.ofOpener?_eq_some_iff.1 hc
      cases hscan : scan b [] [] cs with
      | none =>
        refine .inr (.inl ⟨⟨b, rfl⟩, ?_, by simp only [memberChars_opener, hscan]⟩)
        rintro ms tuple after ⟨ht, b', inner, hs, rfl⟩ heq
        simp only [List.cons_append, List.append_assoc, List.nil_append, List.cons.injEq] at heq
        obtain rfl : b = b' := by simpa using congrArg Bracket.ofOpener? heq.1
        rw [heq.2, scan_of_spaced hs ht] at hscan
        cases hscan
      | some found =>
        obtain ⟨ms, after⟩ := found
        obtain ⟨ht, inner, hs, rfl⟩ := scan_eq_some_iff.1 hscan
        have hw : Written ms (b.opener :: (inner ++ [b.closer])) := ⟨ht, b, inner, hs, rfl⟩
        refine .inr (.inr ⟨ms, _, after, hw, ?_, ?_⟩)
        · simp
        · simp only [memberChars_opener, hscan]

/-- A text begins with one tuple at most. -/
theorem Written.unique (hw : Written ms tuple) (hw' : Written ms' tuple')
    (heq : tuple ++ after = tuple' ++ after') : ms = ms' ∧ tuple = tuple' ∧ after = after' := by
  obtain ⟨ht, b, inner, hs, rfl⟩ := hw
  obtain ⟨ht', b', inner', hs', rfl⟩ := hw'
  simp only [List.cons_append, List.append_assoc, List.nil_append, List.cons.injEq] at heq
  obtain rfl : b = b' := by simpa using congrArg Bracket.ofOpener? heq.1
  have hscan : scan b [] [] (inner ++ b.closer :: after) = some (ms, after) := scan_of_spaced hs ht
  rw [heq.2, scan_of_spaced hs' ht'] at hscan
  obtain ⟨rfl, rfl⟩ := Prod.mk.inj (Option.some.inj hscan)
  obtain rfl : inner = inner' := List.append_cancel_right heq.2
  exact ⟨rfl, rfl, rfl⟩

theorem Written.isToken (hw : Written ms tuple) : IsToken tuple := by
  obtain ⟨ht, b, inner, hs, rfl⟩ := hw
  exact .tuple b (hs.balanced ht)

theorem verdict_eq_ok {whole : String} (h : verdict whole ms after = .ok ms') :
    ms = ms' ∧ ∀ c ∈ after, isBlank c = true := by
  unfold verdict at h
  split at h
  · rename_i hblank
    cases h
    have hall := List.takeWhile_append_dropWhile (p := isBlank) (l := after)
    rw [hblank, List.append_nil] at hall
    rw [← hall]
    exact ⟨rfl, List.all_eq_true.1 List.all_takeWhile⟩
  · split at h <;> cases h

end Tuple

/-! ## Texts with members -/

/-- A trimmed text does not end in blanks. -/
theorem eq_nil_of_trimmed {tuple after : List Char} (heq : trimChars cs = tuple ++ after)
    (hblank : ∀ c ∈ after, isBlank c = true) : after = [] := by
  cases hlast : after.getLast? with
  | none => exact List.getLast?_eq_none_iff.1 hlast
  | some c =>
    have hend : (trimChars cs).getLast? = some c := by
      rw [heq, List.getLast?_append, hlast]
      rfl
    have hc := hblank c (List.mem_of_getLast? hlast)
    rw [isBlank_of_getLast?_trimChars hend] at hc
    cases hc

theorem memberChars_trimChars_iff :
    memberChars (trimChars cs) = .ok ms ↔ Written ms (trimChars cs) := by
  constructor
  · intro h
    rcases memberChars_cases (trimChars cs) with
      ⟨-, he⟩ | ⟨-, -, he⟩ | ⟨ns, tuple, after, hw, heq, he⟩
    · rw [he] at h
      cases h
    · rw [he] at h
      cases h
    · obtain ⟨rfl, hblank⟩ := verdict_eq_ok (he.symm.trans h)
      obtain rfl := eq_nil_of_trimmed heq hblank
      rw [heq, List.append_nil]
      exact hw
  · intro hw
    have hall := memberChars_of_written hw []
    rw [List.append_nil] at hall
    exact hall

theorem members_eq_ok_iff {text : String} {ts : List String} :
    members text = .ok ts ↔ Written (ts.map String.toList) (trim text).toList := by
  rw [toList_trim, ← memberChars_trimChars_iff, members]
  cases memberChars (trimChars text.toList) with
  | error err =>
    constructor
    · intro h
      cases h
    · intro h
      cases h
  | ok ms =>
    simp only [Except.map, Except.ok.injEq]
    constructor
    · rintro rfl
      simp [Function.comp_def]
    · rintro rfl
      simp [Function.comp_def]

/-- A text has the members `ts` if and only if these are tokens and the text without the blanks
around it is a bracket, the members with blanks between them as they like, and the other bracket.
The members put together with single spaces, in brackets of either style, have the members `ts`
again, and each of them that opens a bracket has members of its own. -/
theorem members_iff_written (text : String) (ts : List String) :
    (members text = .ok ts ↔ Written (ts.map String.toList) (trim text).toList) ∧
      (members text = .ok ts →
        (∀ b : Bracket, members (b.enclose (" ".intercalate ts)) = .ok ts) ∧
        ∀ t ∈ ts, opensTuple t = true → ∃ us, members t = .ok us) := by
  refine ⟨members_eq_ok_iff, fun h => ?_⟩
  have htokens := isToken_of_mem_members h
  exact ⟨fun b => members_enclose b htokens,
    fun t ht ho => exists_members_of_isToken (htokens t ht) ho⟩

end Stepwise.Token
