import Stepwise.Proofs.Token.Spacing
/-!
# Why a text has no members

A text that is no tuple opens no bracket, or goes on behind its first complete tuple, or has
brackets that do not pair up. Which of these is reported is decided by the first character that
does not fit: `rejections_classified` says for every text which error it is given.
-/

namespace Stepwise.Token

variable {text tuple gap rest : String} {next : Char} {b i : Bracket} {stack : List Bracket}

/-! ## What follows a tuple -/

/-- A complete tuple stands at the start of `text`, then come blanks, and then `rest`, which begins
with the character `next` and not with a blank. -/
structure GoesOn (text tuple gap rest : String) (next : Char) : Prop where
  eq : text = tuple ++ gap ++ rest
  complete : ∃ ts, members tuple = .ok ts
  closed : ∃ b : Bracket, tuple.toList.getLast? = some b.closer
  blank : ∀ c ∈ gap.toList, isBlank c = true
  begins : rest.toList.head? = some next
  visible : isBlank next = false

section Gap

variable {after junk cs : List Char} {ms : List (List Char)} {whole : String}

theorem takeWhile_gap (hgap : ∀ c ∈ cs, isBlank c = true) (hnext : isBlank next = false) :
    (cs ++ next :: junk).takeWhile isBlank = cs := by
  rw [List.takeWhile_append_of_pos hgap, List.takeWhile_cons, hnext]
  simp

theorem dropWhile_gap (hgap : ∀ c ∈ cs, isBlank c = true) (hnext : isBlank next = false) :
    (cs ++ next :: junk).dropWhile isBlank = next :: junk := by
  rw [List.dropWhile_append_of_pos hgap, List.dropWhile_cons, hnext]
  simp

theorem verdict_gap (hgap : ∀ c ∈ cs, isBlank c = true) (hnext : isBlank next = false) :
    verdict whole ms (cs ++ next :: junk) =
      if (Bracket.ofCloser? next).isSome then .error (.unbalanced whole)
      else .error (.trailing (String.ofList (next :: junk))) := by
  unfold verdict
  rw [dropWhile_gap hgap hnext]

theorem verdict_blank (hblank : ∀ c ∈ after, isBlank c = true) :
    verdict whole ms after = .ok ms := by
  have hnone : (after ++ []).dropWhile isBlank = List.dropWhile isBlank [] :=
    List.dropWhile_append_of_pos hblank
  rw [List.append_nil] at hnone
  unfold verdict
  rw [hnone]
  rfl

/-- Behind a tuple there are only blanks, or a character that is none. -/
theorem blank_or_gap (after : List Char) : (∀ c ∈ after, isBlank c = true) ∨
    ∃ cs next junk, after = cs ++ next :: junk ∧ (∀ c ∈ cs, isBlank c = true) ∧
      isBlank next = false := by
  have hsplit := List.takeWhile_append_dropWhile (p := isBlank) (l := after)
  have hblank : ∀ c ∈ after.takeWhile isBlank, isBlank c = true :=
    List.all_eq_true.1 List.all_takeWhile
  cases hrest : after.dropWhile isBlank with
  | nil =>
    rw [hrest, List.append_nil] at hsplit
    rw [hsplit] at hblank
    exact .inl hblank
  | cons next junk =>
    rw [hrest] at hsplit
    exact .inr ⟨_, next, junk, hsplit.symm, hblank, isBlank_of_head?_dropWhile (by rw [hrest]; rfl)⟩

end Gap

/-! ## Everything that can come of a text -/

theorem members_cases (text : String) :
    (opensTuple (trim text) = false ∧ members text = .error (.notTuple (trim text))) ∨
    (opensTuple (trim text) = true ∧
      (∀ ms tuple after, Written ms tuple → (trim text).toList ≠ tuple ++ after) ∧
      members text = .error (.unbalanced (trim text))) ∨
    ∃ ms tuple after, Written ms tuple ∧ (trim text).toList = tuple ++ after ∧
      members text = (verdict (trim text) ms after).map (·.map String.ofList) := by
  rw [members, opensTuple, Bracket.leading?, toList_trim]
  rcases memberChars_cases (trimChars text.toList) with
    ⟨hn, he⟩ | ⟨⟨b, hb⟩, hno, he⟩ | ⟨ms, tuple, after, hw, heq, he⟩
  · refine .inl ⟨by simp [hn], ?_⟩
    rw [he]
    rfl
  · refine .inr (.inl ⟨by simp [hb], hno, ?_⟩)
    rw [he]
    rfl
  · refine .inr (.inr ⟨ms, tuple, after, hw, heq, ?_⟩)
    rw [he]
    rfl

theorem opensTuple_of_written {ms : List (List Char)} {cs after : List Char} (hw : Written ms cs)
    (heq : (trim text).toList = cs ++ after) : opensTuple (trim text) = true := by
  obtain ⟨-, b, inner, -, rfl⟩ := hw
  simp [opensTuple, Bracket.leading?, heq]

theorem GoesOn.exists_written (h : GoesOn (trim text) tuple gap rest next) :
    ∃ ms junk, Written ms tuple.toList ∧ rest.toList = next :: junk ∧
      (trim text).toList = tuple.toList ++ (gap.toList ++ next :: junk) := by
  obtain ⟨ts, hts⟩ := h.complete
  obtain ⟨b, hclosed⟩ := h.closed
  obtain ⟨junk, hrest⟩ := List.head?_eq_some_iff.1 h.begins
  have heq : (trim text).toList = tuple.toList ++ (gap.toList ++ next :: junk) := by
    rw [h.eq, String.toList_append, String.toList_append, hrest, List.append_assoc]
  have hself : trimChars tuple.toList = tuple.toList := by
    refine trimChars_eq_self (fun c hc => ?_) fun c hc => ?_
    · -- the tuple begins where the trimmed text does
      have hhead : (trimChars text.toList).head? = some c := by
        rw [← toList_trim, heq, List.head?_append, hc]
        rfl
      exact isBlank_of_head?_trimChars hhead
    · rw [Option.some.inj (hc.symm.trans hclosed)]
      exact isBlank_closer b
  have hw := members_eq_ok_iff.1 hts
  rw [toList_trim, hself] at hw
  exact ⟨_, junk, hw, hrest, heq⟩

theorem goesOn_of_written {ms : List (List Char)} {cs gap junk : List Char} (hw : Written ms cs)
    (heq : (trim text).toList = cs ++ (gap ++ next :: junk)) (hgap : ∀ c ∈ gap, isBlank c = true)
    (hnext : isBlank next = false) :
    GoesOn (trim text) (String.ofList cs) (String.ofList gap) (String.ofList (next :: junk))
      next where
  eq := by
    rw [← String.toList_inj, heq]
    simp
  complete := by
    have htuple : members (String.ofList cs) = .ok (ms.map String.ofList) := by
      rw [members_eq_ok_iff, toList_trim, String.toList_ofList, hw.isToken.trimChars]
      simpa [Function.comp_def] using hw
    exact ⟨_, htuple⟩
  closed := by
    obtain ⟨-, b, inner, -, rfl⟩ := hw
    refine ⟨b, ?_⟩
    rw [String.toList_ofList, ← List.cons_append, List.getLast?_append]
    rfl
  blank := by
    rw [String.toList_ofList]
    exact hgap
  begins := by simp
  visible := hnext

/-- The first character behind the tuple and its blanks decides. -/
theorem members_of_goesOn (h : GoesOn (trim text) tuple gap rest next) :
    members text = if (Bracket.ofCloser? next).isSome then .error (.unbalanced (trim text))
      else .error (.trailing rest) := by
  obtain ⟨ms, junk, hw, hrest, heq⟩ := h.exists_written
  have hall := memberChars_of_written hw (gap.toList ++ next :: junk)
  rw [← heq, verdict_gap h.blank h.visible, toList_trim] at hall
  rw [members, hall, ← hrest, String.ofList_toList]
  split <;> rfl

/-- There is at most one way to take a text apart behind its first tuple. -/
theorem GoesOn.unique {tuple' gap' rest' : String} {next' : Char}
    (h : GoesOn (trim text) tuple gap rest next) (h' : GoesOn (trim text) tuple' gap' rest' next') :
    tuple = tuple' ∧ gap = gap' ∧ rest = rest' := by
  obtain ⟨ms, junk, hw, hrest, heq⟩ := h.exists_written
  obtain ⟨ms', junk', hw', hrest', heq'⟩ := h'.exists_written
  obtain ⟨-, htuple, hafter⟩ := hw.unique hw' (heq.symm.trans heq')
  have hgap := congrArg (List.takeWhile isBlank) hafter
  rw [takeWhile_gap h.blank h.visible, takeWhile_gap h'.blank h'.visible] at hgap
  have htail := congrArg (List.dropWhile isBlank) hafter
  rw [dropWhile_gap h.blank h.visible, dropWhile_gap h'.blank h'.visible, ← hrest,
    ← hrest'] at htail
  exact ⟨String.toList_inj.1 htuple, String.toList_inj.1 hgap, String.toList_inj.1 htail⟩

theorem members_eq_notTuple_iff {shown : String} : members text = .error (.notTuple shown) ↔
    opensTuple (trim text) = false ∧ shown = trim text := by
  constructor
  · intro h
    rcases members_cases text with ⟨ho, he⟩ | ⟨-, -, he⟩ | ⟨ms, cs, after, -, -, he⟩
    · rw [he] at h
      cases h
      exact ⟨ho, rfl⟩
    · rw [he] at h
      cases h
    · rw [he] at h
      rcases blank_or_gap after with hblank | ⟨gap, next, junk, rfl, hgap, hnext⟩
      · rw [verdict_blank hblank] at h
        cases h
      · rw [verdict_gap hgap hnext] at h
        split at h <;> cases h
  · rintro ⟨ho, rfl⟩
    rcases members_cases text with ⟨-, he⟩ | ⟨ho', -, -⟩ | ⟨ms, cs, after, hw, heq, -⟩
    · exact he
    · rw [ho] at ho'
      cases ho'
    · rw [opensTuple_of_written hw heq] at ho
      cases ho

theorem members_eq_trailing_iff : members text = .error (.trailing rest) ↔
    ∃ tuple gap next, GoesOn (trim text) tuple gap rest next ∧ Bracket.ofCloser? next = none := by
  constructor
  · intro h
    rcases members_cases text with ⟨-, he⟩ | ⟨-, -, he⟩ | ⟨ms, cs, after, hw, heq, he⟩
    · rw [he] at h
      cases h
    · rw [he] at h
      cases h
    · rw [he] at h
      rcases blank_or_gap after with hblank | ⟨gap, next, junk, rfl, hgap, hnext⟩
      · rw [verdict_blank hblank] at h
        cases h
      · rw [verdict_gap hgap hnext] at h
        split at h
        · cases h
        · rename_i hcloser
          cases h
          exact ⟨_, _, next, goesOn_of_written hw heq hgap hnext, by simpa using hcloser⟩
  · rintro ⟨tuple, gap, next, h, hcloser⟩
    rw [members_of_goesOn h, hcloser]
    rfl

/-- There is no fourth reason. -/
theorem eq_unbalanced_of_members {err : ReadError} (h : members text = .error err)
    (ho : opensTuple (trim text) = true)
    (hon : ∀ tuple gap rest next, GoesOn (trim text) tuple gap rest next →
      Bracket.ofCloser? next ≠ none) : err = .unbalanced (trim text) := by
  rcases members_cases text with ⟨hn, -⟩ | ⟨-, -, he⟩ | ⟨ms, cs, after, hw, heq, he⟩
  · rw [ho] at hn
    cases hn
  · rw [he] at h
    cases h
    rfl
  · rcases blank_or_gap after with hblank | ⟨gap, next, junk, rfl, hgap, hnext⟩
    · rw [he, verdict_blank hblank] at h
      cases h
    · have hgo := goesOn_of_written hw heq hgap hnext
      rw [members_of_goesOn hgo, if_pos (Option.isSome_iff_ne_none.2 (hon _ _ _ _ hgo))] at h
      cases h
      rfl

/-! ## Texts that stop too early -/

/-- A text that begins with something other than a blank loses only blanks at its end. -/
theorem exists_blanks_behind {cs : List Char} {c : Char} (hc : cs.head? = some c)
    (hvisible : isBlank c = false) :
    ∃ back, cs = trimChars cs ++ back ∧ (trimChars cs).head? = some c := by
  obtain ⟨front, back, heq, hfront, hback⟩ := exists_blanks_around cs
  have hnil : front = [] := by
    cases front with
    | nil => rfl
    | cons d front =>
      rw [heq, List.append_assoc, List.cons_append, List.head?_cons] at hc
      rw [Option.some.inj hc.symm, hfront d (by simp)] at hvisible
      cases hvisible
  rw [hnil, List.nil_append] at heq
  refine ⟨back, heq, ?_⟩
  cases htrim : trimChars cs with
  | nil =>
    rw [htrim, List.nil_append] at heq
    rw [heq] at hc
    rw [hback c (List.mem_of_head? hc)] at hvisible
    cases hvisible
  | cons d rest =>
    rw [heq, htrim] at hc
    exact hc

/-- What is left of a tuple when its end is missing has a bracket open. -/
theorem members_of_prefix {ts : List String} {part : String} (h : members text = .ok ts)
    (hpart : part.toList <+: (trim text).toList) (hne : part ≠ "") (hproper : part ≠ trim text) :
    members part = .error (.unbalanced (trim part)) := by
  have hw := members_eq_ok_iff.1 h
  obtain ⟨missing, hmissing⟩ := hpart
  obtain ⟨b, hhead⟩ : ∃ b : Bracket, part.toList.head? = some b.opener := by
    obtain ⟨-, b, inner, -, heq⟩ := hw
    cases hcs : part.toList with
    | nil => exact (hne (String.toList_eq_nil_iff.1 hcs)).elim
    | cons c cs =>
      rw [hcs, heq] at hmissing
      exact ⟨b, by rw [(List.cons.inj hmissing).1]; rfl⟩
  obtain ⟨back, hback, htrim⟩ := exists_blanks_behind hhead (isBlank_opener b)
  rcases members_cases part with ⟨hn, -⟩ | ⟨-, -, he⟩ | ⟨ms, cs, after, hw', heq, -⟩
  · rw [opensTuple, Bracket.leading?, toList_trim, htrim] at hn
    simp at hn
  · exact he
  · -- a tuple that is complete in the part is all of the text
    have hall : (trim text).toList ++ [] = cs ++ (after ++ (back ++ missing)) := by
      rw [List.append_nil, ← hmissing, hback, ← toList_trim, heq]
      simp
    obtain ⟨-, -, hnil⟩ := hw.unique hw' hall
    have hmissing' : missing = [] := by
      have hback' := (List.append_eq_nil_iff.1 hnil.symm).2
      exact (List.append_eq_nil_iff.1 hback').2
    rw [hmissing', List.append_nil] at hmissing
    exact (hproper (String.toList_inj.1 hmissing)).elim

/-! ## Brackets of the wrong style -/

/-- Text that leaves brackets open takes the scan to the depth where these are open. -/
theorem exists_scan_opened {cs : List Char} (ho : Opened stack cs) :
    ∃ outer inner text, stack = inner ++ [outer] ∧ cs = outer.opener :: text ∧
      ∃ f token, ∀ rest, scan outer [] [] (text ++ rest) = (scan outer inner token rest).map f := by
  induction ho with
  | first b hi =>
    obtain ⟨f, token, hscan⟩ := exists_scan_balanced hi []
    exact ⟨b, [], _, rfl, rfl, Prod.map f id, token, hscan⟩
  | @next b stack cs w _ hi ih =>
    obtain ⟨outer, inner, text, rfl, rfl, f, token, hscan⟩ := ih
    refine ⟨outer, b :: inner, text ++ b.opener :: w, rfl, rfl, ?_⟩
    cases inner with
    | nil =>
      refine ⟨f ∘ Prod.map (flush token) id, w.reverse ++ [b.opener], fun rest => ?_⟩
      rw [List.append_assoc, hscan, List.cons_append, scan_open, scan_balanced hi, Option.map_map]
    | cons j inner =>
      refine ⟨f, w.reverse ++ b.opener :: token, fun rest => ?_⟩
      rw [List.append_assoc, hscan, List.cons_append, scan_open_inside, scan_balanced hi]

theorem members_of_mismatch {cs rest : List Char} (ho : Opened (i :: stack) cs) (hb : b ≠ i)
    (heq : (trim text).toList = cs ++ b.closer :: rest) :
    members text = .error (.unbalanced (trim text)) := by
  obtain ⟨outer, inner, cs', hstack, rfl, f, token, hscan⟩ := exists_scan_opened ho
  have hnone : scan outer inner token (b.closer :: rest) = none := by
    cases inner with
    | nil =>
      obtain ⟨rfl, -⟩ := List.cons.inj hstack
      exact scan_mismatch hb
    | cons j inner =>
      obtain ⟨rfl, -⟩ := List.cons.inj hstack
      exact scan_mismatch_inside hb
  have hall : memberChars (trim text).toList = .error (.unbalanced (trim text)) := by
    rw [heq, List.cons_append, memberChars_opener, hscan, hnone]
    simp only [Option.map_none]
    rw [← List.cons_append, ← heq, String.ofList_toList]
  rw [members, ← toList_trim, hall]
  rfl

/-! ## All rejections -/

/-- A text is no tuple, and reported trimmed, when it opens no bracket. What follows its first
complete tuple is reported when it begins with something other than a closing bracket; there is at
most one way to take the text apart like this. In every other case the brackets of the trimmed text
are unbalanced. This is so when the end of a tuple is missing, when a bracket is closed by the
wrong partner, and when a closing bracket follows the first complete tuple. -/
theorem rejections_classified (text : String) :
    (∀ shown, members text = .error (.notTuple shown) ↔
      opensTuple (trim text) = false ∧ shown = trim text) ∧
    (∀ rest, members text = .error (.trailing rest) ↔ ∃ tuple gap next,
      GoesOn (trim text) tuple gap rest next ∧ Bracket.ofCloser? next = none) ∧
    (∀ tuple gap rest next tuple' gap' rest' next', GoesOn (trim text) tuple gap rest next →
      GoesOn (trim text) tuple' gap' rest' next' →
      tuple = tuple' ∧ gap = gap' ∧ rest = rest') ∧
    (∀ err, members text = .error err → opensTuple (trim text) = true →
      (∀ tuple gap rest next, GoesOn (trim text) tuple gap rest next →
        Bracket.ofCloser? next ≠ none) → err = .unbalanced (trim text)) ∧
    (∀ ts part, members text = .ok ts → part.toList <+: (trim text).toList → part ≠ "" →
      part ≠ trim text → members part = .error (.unbalanced (trim part))) ∧
    (∀ i stack cs b rest, Opened (i :: stack) cs → b ≠ i →
      (trim text).toList = cs ++ b.closer :: rest →
      members text = .error (.unbalanced (trim text))) ∧
    ∀ tuple gap rest (b : Bracket), GoesOn (trim text) tuple gap rest b.closer →
      members text = .error (.unbalanced (trim text)) := by
  refine ⟨fun _ => members_eq_notTuple_iff, fun _ => members_eq_trailing_iff,
    fun _ _ _ _ _ _ _ _ h h' => h.unique h', fun _ h ho hon => eq_unbalanced_of_members h ho hon,
    fun _ _ h hpart hne hproper => members_of_prefix h hpart hne hproper,
    fun _ _ _ _ _ ho hb heq => members_of_mismatch ho hb heq, fun _ _ _ b h => ?_⟩
  rw [members_of_goesOn h, Bracket.ofCloser?_closer]
  rfl

end Stepwise.Token
