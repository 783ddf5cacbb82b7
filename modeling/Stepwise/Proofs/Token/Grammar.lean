import Stepwise.Token.Members
/-!
# The grammar of tokens

A token is an atom, or a pair of matching brackets with balanced text between them. The members of
a tuple are tokens (`isToken_of_mem_members`), a token that opens a bracket has members of its own
(`exists_members_of_isToken`), and tokens that are written one after the other between brackets
are the members of what is written (`members_enclose`).
-/

namespace Stepwise.Token

/-- Text in which the brackets of both styles nest and match. -/
inductive Balanced : List Char → Prop
  | nil : Balanced []
  | cons {c : Char} {cs : List Char} : isBracket c = false → Balanced cs → Balanced (c :: cs)
  | tuple (b : Bracket) {inner after : List Char} : Balanced inner → Balanced after →
      Balanced (b.opener :: (inner ++ b.closer :: after))

/-- A character that can be part of an atom. -/
def IsPlain (c : Char) : Prop :=
  isBlank c = false ∧ isBracket c = false

/-- At least one character, and neither a blank nor a bracket among them. -/
def IsAtom (cs : List Char) : Prop :=
  cs ≠ [] ∧ ∀ c ∈ cs, IsPlain c

/-- What can be a member of a tuple. -/
inductive IsToken : List Char → Prop
  | atom {cs : List Char} : IsAtom cs → IsToken cs
  | tuple (b : Bracket) {inner : List Char} : Balanced inner →
      IsToken (b.opener :: (inner ++ [b.closer]))

theorem isBracket_eq_false_iff {c : Char} :
    isBracket c = false ↔ Bracket.ofOpener? c = none ∧ Bracket.ofCloser? c = none := by
  simp [isBracket]

@[simp]
theorem isBlank_opener (b : Bracket) : isBlank b.opener = false := by
  cases b <;> decide

@[simp]
theorem isBlank_closer (b : Bracket) : isBlank b.closer = false := by
  cases b <;> decide

@[simp]
theorem isBracket_opener (b : Bracket) : isBracket b.opener = true := by
  simp [isBracket]

@[simp]
theorem isBracket_closer (b : Bracket) : isBracket b.closer = true := by
  simp [isBracket]

theorem IsPlain.ofOpener?_eq_none {c : Char} (h : IsPlain c) : Bracket.ofOpener? c = none :=
  (isBracket_eq_false_iff.1 h.2).1

theorem not_isPlain_of_isBlank (hc : isBlank c = true) : ¬ IsPlain c := by
  intro h
  rw [h.1] at hc
  cases hc

theorem not_isPlain_of_isBracket (hc : isBracket c = true) : ¬ IsPlain c := by
  intro h
  rw [h.2] at hc
  cases hc

theorem exists_bracket_of_isBracket {c : Char} (hc : isBracket c = true) :
    ∃ b : Bracket, c = b.opener ∨ c = b.closer := by
  rcases Bool.or_eq_true_iff.1 hc with ho | hk
  · obtain ⟨b, hb⟩ := Option.isSome_iff_exists.1 ho
    exact ⟨b, .inl (Bracket.ofOpener?_eq_some_iff.1 hb)⟩
  · obtain ⟨b, hb⟩ := Option.isSome_iff_exists.1 hk
    exact ⟨b, .inr (Bracket.ofCloser?_eq_some_iff.1 hb)⟩

/-! ## Balanced text -/

namespace Balanced

variable {v w : List Char}

theorem append (hv : Balanced v) (hw : Balanced w) : Balanced (v ++ w) := by
  induction hv with
  | nil => exact hw
  | cons hc _ ih => exact .cons hc ih
  | tuple b hi _ _ ih =>
    rw [List.cons_append, List.append_assoc, List.cons_append]
    exact .tuple b hi ih

theorem enclosed (b : Bracket) (hw : Balanced w) : Balanced (b.opener :: (w ++ [b.closer])) :=
  .tuple b hw .nil

end Balanced

/-- Text that begins a token and leaves the brackets of `stack` open, innermost first. -/
inductive Opened : List Bracket → List Char → Prop
  | first (b : Bracket) {inner : List Char} : Balanced inner → Opened [b] (b.opener :: inner)
  | next (b : Bracket) {stack : List Bracket} {text inner : List Char} : Opened stack text →
      Balanced inner → Opened (b :: stack) (text ++ b.opener :: inner)

namespace Opened

variable {b i : Bracket} {stack : List Bracket} {text w : List Char}

theorem append (h : Opened stack text) (hw : Balanced w) : Opened stack (text ++ w) := by
  cases h with
  | first b hi => exact .first b (hi.append hw)
  | next b h hi =>
    rw [List.append_assoc, List.cons_append]
    exact .next b h (hi.append hw)

theorem ne_nil (h : Opened stack text) : stack ≠ [] := by
  cases h with
  | first => exact List.cons_ne_nil _ _
  | next => exact List.cons_ne_nil _ _

theorem close (h : Opened (b :: stack) text) (hs : stack ≠ []) :
    Opened stack (text ++ [b.closer]) := by
  cases h with
  | first => exact (hs rfl).elim
  | next b h hi =>
    rw [List.append_assoc, List.cons_append]
    exact h.append (hi.enclosed b)

theorem complete (h : Opened [b] text) : IsToken (text ++ [b.closer]) := by
  cases h with
  | first b hi => exact .tuple b hi
  | next b h hi => exact (h.ne_nil rfl).elim

end Opened

/-! ## What a scan finds -/

/-- What a scan has read of the current member, backwards: part of an atom while no bracket is
open, and otherwise text that leaves these brackets open. -/
inductive Begun : List Bracket → List Char → Prop
  | atom {token : List Char} : (∀ c ∈ token, IsPlain c) → Begun [] token
  | opened {inner : List Bracket} {token : List Char} : Opened inner token.reverse →
      Begun inner token

theorem Begun.plain {token : List Char} (h : Begun [] token) : ∀ c ∈ token, IsPlain c := by
  cases h with
  | atom h => exact h
  | opened h => exact (h.ne_nil rfl).elim

theorem Begun.reverse {inner : List Bracket} {token : List Char} (h : Begun inner token)
    (hi : inner ≠ []) : Opened inner token.reverse := by
  cases h with
  | atom => exact (hi rfl).elim
  | opened h => exact h

theorem flush_cons (c : Char) (token : List Char) (after : List (List Char)) :
    flush (c :: token) after = (c :: token).reverse :: after :=
  rfl

/-- What has been read of an atom is flushed as a token. -/
theorem isToken_of_mem_flush {token m : List Char} {after : List (List Char)} (ht : Begun [] token)
    (ha : ∀ m ∈ after, IsToken m) (hm : m ∈ flush token after) : IsToken m := by
  cases token with
  | nil => exact ha m hm
  | cons c rest =>
    rw [flush_cons] at hm
    rcases List.mem_cons.1 hm with rfl | hm
    · exact .atom ⟨by simp, fun d hd => ht.plain d (List.mem_reverse.1 hd)⟩
    · exact ha m hm

/-- All members that a scan finds are tokens. -/
theorem isToken_of_mem_scan {outer : Bracket} {inner : List Bracket} {token cs : List Char}
    {ms : List (List Char)} {r : List Char} (h : scan outer inner token cs = some (ms, r))
    (ht : Begun inner token) : ∀ m ∈ ms, IsToken m := by
  -- on the text still to come; each case is one kind of character at one depth
  fun_induction scan outer inner token cs generalizing ms r with
  | case1 => cases h
  | case2 token c rest b hb ih =>
    obtain ⟨⟨ns, r'⟩, hs, he⟩ := Option.map_eq_some_iff.1 h
    cases he
    rw [Bracket.ofOpener?_eq_some_iff.1 hb] at hs ih
    have hfirst : Begun [b] [b.opener] := .opened (.first b .nil)
    exact fun m hm => isToken_of_mem_flush ht (ih hs hfirst) hm
  | case3 token c rest b inner hne hb ih =>
    rw [Bracket.ofOpener?_eq_some_iff.1 hb] at h ih
    refine ih h (.opened ?_)
    rw [List.reverse_cons]
    exact .next b (ht.reverse hne) .nil
  | case4 token c rest ho hc =>
    cases h
    exact fun m hm => isToken_of_mem_flush ht (by simp) hm
  | case6 token c rest i ho hc ih =>
    obtain ⟨⟨ns, r'⟩, hs, he⟩ := Option.map_eq_some_iff.1 h
    cases he
    have htoken : IsToken (c :: token).reverse := by
      rw [List.reverse_cons, Bracket.ofCloser?_eq_some_iff.1 hc]
      exact (ht.reverse (List.cons_ne_nil _ _)).complete
    intro m hm
    rcases List.mem_cons.1 hm with rfl | hm
    · exact htoken
    · exact ih hs (.atom (by simp)) m hm
  | case8 token c rest i inner hne ho hc ih =>
    refine ih h (.opened ?_)
    rw [List.reverse_cons, Bracket.ofCloser?_eq_some_iff.1 hc]
    exact (ht.reverse (List.cons_ne_nil _ _)).close hne
  | case10 token c rest hc ho hblank ih =>
    obtain ⟨⟨ns, r'⟩, hs, he⟩ := Option.map_eq_some_iff.1 h
    cases he
    exact fun m hm => isToken_of_mem_flush ht (ih hs (.atom (by simp))) hm
  | case11 token c rest hc ho hblank ih =>
    have hplain : IsPlain c := ⟨by simpa using hblank, isBracket_eq_false_iff.2 ⟨ho, hc⟩⟩
    refine ih h (.atom fun d hd => ?_)
    rcases List.mem_cons.1 hd with rfl | hd
    · exact hplain
    · exact ht.plain d hd
  | case12 token c rest inner hne hc ho ih =>
    refine ih h (.opened ?_)
    rw [List.reverse_cons]
    exact (ht.reverse hne).append (.cons (isBracket_eq_false_iff.2 ⟨ho, hc⟩) .nil)
  | case5 | case7 | case9 => cases h

/-! ## Blanks -/

theorem isBracket_of_isBlank {c : Char} (h : isBlank c = true) : isBracket c = false := by
  refine isBracket_eq_false_iff.2 ⟨?_, ?_⟩
  · refine Option.eq_none_iff_forall_ne_some.2 fun b hb => ?_
    rw [Bracket.ofOpener?_eq_some_iff.1 hb, isBlank_opener] at h
    cases h
  · refine Option.eq_none_iff_forall_ne_some.2 fun b hb => ?_
    rw [Bracket.ofCloser?_eq_some_iff.1 hb, isBlank_closer] at h
    cases h

/-- Trimming takes away blanks in front and behind. -/
theorem exists_blanks_around (cs : List Char) :
    ∃ front back, cs = front ++ trimChars cs ++ back ∧ (∀ c ∈ front, isBlank c = true) ∧
      ∀ c ∈ back, isBlank c = true := by
  refine ⟨cs.takeWhile isBlank, ((cs.dropWhile isBlank).reverse.takeWhile isBlank).reverse, ?_,
    fun c hc => ?_, fun c hc => ?_⟩
  · rw [trimChars, List.append_assoc, ← List.reverse_append, List.takeWhile_append_dropWhile,
      List.reverse_reverse, List.takeWhile_append_dropWhile]
  · exact List.all_eq_true.1 List.all_takeWhile c hc
  · exact List.all_eq_true.1 List.all_takeWhile c (List.mem_reverse.1 hc)

/-! ## Scanning what is well formed -/

section Scan

variable {outer b i : Bracket} {inner : List Bracket} {token rest w t : List Char} {c : Char}

theorem scan_plain (hc : IsPlain c) :
    scan outer [] token (c :: rest) = scan outer [] (c :: token) rest := by
  obtain ⟨ho, hk⟩ := isBracket_eq_false_iff.1 hc.2
  rw [scan.eq_def]
  simp only [ho, hk, hc.1, Bool.false_eq_true, if_false]

theorem scan_blank (hb : isBlank c = true) (hc : isBracket c = false) :
    scan outer [] token (c :: rest) = (scan outer [] [] rest).map (Prod.map (flush token) id) := by
  obtain ⟨ho, hk⟩ := isBracket_eq_false_iff.1 hc
  rw [scan.eq_def]
  simp only [ho, hk, hb, if_true]

theorem scan_inside (hc : isBracket c = false) :
    scan outer (i :: inner) token (c :: rest) = scan outer (i :: inner) (c :: token) rest := by
  obtain ⟨ho, hk⟩ := isBracket_eq_false_iff.1 hc
  rw [scan.eq_def]
  simp only [ho, hk]

theorem scan_open (b : Bracket) : scan outer [] token (b.opener :: rest) =
    (scan outer [b] [b.opener] rest).map (Prod.map (flush token) id) := by
  rw [scan.eq_def]
  simp only [Bracket.ofOpener?_opener]

theorem scan_open_inside (b : Bracket) : scan outer (i :: inner) token (b.opener :: rest) =
    scan outer (b :: i :: inner) (b.opener :: token) rest := by
  rw [scan.eq_def]
  simp only [Bracket.ofOpener?_opener]

theorem scan_close : scan outer [] token (outer.closer :: rest) = some (flush token [], rest) := by
  rw [scan.eq_def]
  simp only [Bracket.ofOpener?_closer, Bracket.ofCloser?_closer, if_true]

theorem scan_close_member : scan outer [b] token (b.closer :: rest) =
    (scan outer [] [] rest).map (Prod.map (flush (b.closer :: token)) id) := by
  rw [scan.eq_def]
  simp only [Bracket.ofOpener?_closer, Bracket.ofCloser?_closer, if_true]

theorem scan_close_inside : scan outer (b :: i :: inner) token (b.closer :: rest) =
    scan outer (i :: inner) (b.closer :: token) rest := by
  rw [scan.eq_def]
  simp only [Bracket.ofOpener?_closer, Bracket.ofCloser?_closer, if_true]

theorem scan_mismatch (hb : b ≠ outer) : scan outer [] token (b.closer :: rest) = none := by
  rw [scan.eq_def]
  simp only [Bracket.ofOpener?_closer, Bracket.ofCloser?_closer, hb, if_false]

theorem scan_mismatch_inside (hb : b ≠ i) :
    scan outer (i :: inner) token (b.closer :: rest) = none := by
  rw [scan.eq_def]
  cases inner with
  | nil => simp only [Bracket.ofOpener?_closer, Bracket.ofCloser?_closer, hb, if_false]
  | cons j inner => simp only [Bracket.ofOpener?_closer, Bracket.ofCloser?_closer, hb, if_false]

/-- Inside a bracket, balanced text is read letter for letter. -/
theorem scan_balanced (hw : Balanced w) :
    scan outer (i :: inner) token (w ++ rest) =
      scan outer (i :: inner) (w.reverse ++ token) rest := by
  induction hw generalizing i inner token rest with
  | nil => rfl
  | cons hc _ ih => rw [List.cons_append, scan_inside hc, ih]; simp
  | tuple b _ _ ih ih' =>
    rw [List.cons_append, scan_open_inside, List.append_assoc, ih, List.cons_append,
      scan_close_inside, ih']
    simp

/-- Outside, a nested tuple becomes one member. -/
theorem scan_tuple (b : Bracket) (hw : Balanced w) :
    scan outer [] token (b.opener :: (w ++ b.closer :: rest)) =
      (scan outer [] [] rest).map
        (Prod.map (fun ms => flush token ((b.opener :: (w ++ [b.closer])) :: ms)) id) := by
  rw [scan_open, scan_balanced hw, scan_close_member, Option.map_map, Prod.map_comp_map]
  congr 2
  funext ms
  simp [flush]

theorem scan_atom (hw : ∀ c ∈ w, IsPlain c) :
    scan outer [] token (w ++ rest) = scan outer [] (w.reverse ++ token) rest := by
  induction w generalizing token with
  | nil => rfl
  | cons c w ih =>
    rw [List.cons_append, scan_plain (hw c (by simp)), ih fun d hd => hw d (by simp [hd])]
    simp

/-- An atom ends where a character follows that cannot be part of it. -/
theorem scan_flush (token : List Char) (hc : ∀ c ∈ rest.head?, ¬ IsPlain c) :
    scan outer [] token rest = (scan outer [] [] rest).map (Prod.map (flush token) id) := by
  cases rest with
  | nil => rfl
  | cons c rest =>
    cases hbracket : isBracket c with
    | false =>
      have hblank : isBlank c = true := by
        cases hb : isBlank c with
        | true => rfl
        | false => exact (hc c rfl ⟨hb, hbracket⟩).elim
      rw [scan_blank hblank hbracket, scan_blank hblank hbracket, Option.map_map, Prod.map_comp_map]
      rfl
    | true =>
      obtain ⟨b, rfl | rfl⟩ := exists_bracket_of_isBracket hbracket
      · rw [scan_open, scan_open, Option.map_map, Prod.map_comp_map]
        rfl
      · by_cases hb : b = outer
        · subst hb
          rw [scan_close, scan_close]
          rfl
        · rw [scan_mismatch hb, scan_mismatch hb]
          rfl

/-- A token is the first member, unless it is an atom and goes on behind. -/
theorem scan_token (ht : IsToken t) (hc : IsAtom t → ∀ c ∈ rest.head?, ¬ IsPlain c) :
    scan outer [] [] (t ++ rest) = (scan outer [] [] rest).map (Prod.map (t :: ·) id) := by
  cases ht with
  | atom h =>
    rw [scan_atom h.2, scan_flush _ (hc h)]
    congr 2
    funext ms
    simp [flush, h.1]
  | tuple b hi =>
    rw [List.cons_append, List.append_assoc, List.cons_append, scan_tuple b hi]
    rfl

/-- Blanks in front of a member are passed over. -/
theorem scan_blanks (hw : ∀ c ∈ w, isBlank c = true) :
    scan outer [] [] (w ++ rest) = scan outer [] [] rest := by
  induction w with
  | nil => rfl
  | cons c w ih =>
    have hc := hw c (by simp)
    rw [List.cons_append, scan_blank hc (isBracket_of_isBlank hc), ih fun d hd => hw d (by simp [hd])]
    exact Option.map_id_apply

/-- A token with blanks around it is the first member, unless what follows goes on with it. -/
theorem scan_padded (ht : IsToken (trimChars t)) (hc : ∀ c ∈ rest.head?, ¬ IsPlain c) :
    scan outer [] [] (t ++ rest) =
      (scan outer [] [] rest).map (Prod.map (trimChars t :: ·) id) := by
  obtain ⟨front, back, heq, hfront, hback⟩ := exists_blanks_around t
  have hsplit : t ++ rest = front ++ (trimChars t ++ (back ++ rest)) :=
    calc t ++ rest = (front ++ trimChars t ++ back) ++ rest := by rw [← heq]
      _ = front ++ (trimChars t ++ (back ++ rest)) := by simp
  have hbehind : ∀ c ∈ (back ++ rest).head?, ¬ IsPlain c := by
    intro c hmem
    cases back with
    | nil => exact hc c hmem
    | cons d back =>
      obtain rfl : d = c := by simpa using hmem
      exact not_isPlain_of_isBlank (hback d (by simp))
  rw [hsplit, scan_blanks hfront, scan_token ht fun _ => hbehind, scan_blanks hback]

/-- Tokens with a blank between each two of them are the members, whatever blanks there are around
them. -/
theorem scan_intercalate {ts : List (List Char)} (ht : ∀ t ∈ ts, IsToken (trimChars t)) :
    scan outer [] [] (List.intercalate [' '] ts ++ outer.closer :: rest) =
      some (ts.map trimChars, rest) := by
  induction ts with
  | nil => exact scan_close
  | cons t ts ih =>
    have hrest := ih fun u hu => ht u (by simp [hu])
    cases ts with
    | nil =>
      have hclose : ∀ c ∈ (outer.closer :: rest).head?, ¬ IsPlain c := by
        rintro c ⟨⟩
        exact not_isPlain_of_isBracket (isBracket_closer outer)
      rw [List.intercalate_singleton, scan_padded (ht t (by simp)) hclose, scan_close]
      rfl
    | cons u us =>
      have hspace : isBlank ' ' = true := by decide
      have hblank : ∀ c ∈ [' '], isBlank c = true := by simpa using hspace
      rw [List.intercalate_cons_cons, List.append_assoc, List.append_assoc,
        scan_padded (ht t (by simp)), scan_blanks hblank, hrest]
      · rfl
      · rintro c ⟨⟩
        exact not_isPlain_of_isBlank hspace

/-- Balanced text keeps the scan at its depth, whatever comes then. -/
theorem exists_scan_balanced (hw : Balanced w) (token : List Char) : ∃ f token', ∀ rest,
    scan outer [] token (w ++ rest) = (scan outer [] token' rest).map (Prod.map f id) := by
  induction hw generalizing token with
  | nil => exact ⟨id, token, fun rest => by simp⟩
  | @cons c cs hc _ ih =>
    cases hb : isBlank c with
    | true =>
      obtain ⟨f, token', hscan⟩ := ih []
      refine ⟨flush token ∘ f, token', fun rest => ?_⟩
      rw [List.cons_append, scan_blank hb hc, hscan, Option.map_map, Prod.map_comp_map]
      rfl
    | false =>
      obtain ⟨f, token', hscan⟩ := ih (c :: token)
      refine ⟨f, token', fun rest => ?_⟩
      rw [List.cons_append, scan_plain ⟨hb, hc⟩, hscan]
  | @tuple b inner after hi _ _ ih =>
    obtain ⟨f, token', hscan⟩ := ih []
    refine ⟨fun ms => flush token ((b.opener :: (inner ++ [b.closer])) :: f ms), token',
      fun rest => ?_⟩
    rw [List.cons_append, List.append_assoc, List.cons_append, scan_tuple b hi, hscan,
      Option.map_map, Prod.map_comp_map]
    rfl

end Scan

/-! ## Members -/

theorem IsToken.trimChars {t : List Char} (ht : IsToken t) : trimChars t = t := by
  cases ht with
  | atom h =>
    refine trimChars_eq_self (fun c hc => ?_) fun c hc => ?_
    · exact (h.2 c (List.mem_of_head? hc)).1
    · exact (h.2 c (List.mem_of_getLast? hc)).1
  | tuple b hi =>
    refine trimChars_eq_self (fun c hc => ?_) fun c hc => ?_
    · obtain rfl : b.opener = c := by simpa using hc
      exact isBlank_opener b
    · rw [← List.cons_append, List.getLast?_append] at hc
      obtain rfl : b.closer = c := by simpa using hc
      exact isBlank_closer b

theorem memberChars_of_scan {b : Bracket} {cs : List Char} {ms : List (List Char)}
    (h : scan b [] [] cs = some (ms, [])) : memberChars (b.opener :: cs) = .ok ms := by
  simp [memberChars, h]

/-- The text between brackets is scanned to its end. -/
theorem exists_memberChars_of_balanced (b : Bracket) {inner : List Char} (hi : Balanced inner) :
    ∃ ms, memberChars (b.opener :: (inner ++ [b.closer])) = .ok ms := by
  obtain ⟨f, token, hscan⟩ := exists_scan_balanced hi []
  refine ⟨f (flush token []), memberChars_of_scan ?_⟩
  rw [hscan, scan_close]
  rfl

theorem isToken_of_mem_memberChars {text : List Char} {ms : List (List Char)}
    (h : memberChars text = .ok ms) : ∀ m ∈ ms, IsToken m := by
  unfold memberChars at h
  split at h
  · cases h
  · split at h
    · cases h
    · split at h
      · cases h
      · rename_i hs
        split at h
        · cases h
          exact isToken_of_mem_scan hs (.atom (by simp))
        · split at h <;> cases h

/-- The members of a tuple are tokens. -/
theorem isToken_of_mem_members {text : String} {ms : List String} (h : members text = .ok ms) :
    ∀ m ∈ ms, IsToken m.toList := by
  unfold members at h
  cases hc : memberChars (trimChars text.toList) with
  | error err =>
    rw [hc] at h
    cases h
  | ok cs =>
    rw [hc] at h
    cases h
    intro m hm
    obtain ⟨t, ht, rfl⟩ := List.mem_map.1 hm
    rw [String.toList_ofList]
    exact isToken_of_mem_memberChars hc t ht

section Text

variable {text : String}

theorem trim_of_isToken (ht : IsToken text.toList) : trim text = text := by
  rw [trim, ht.trimChars, String.ofList_toList]

/-- A token that opens no bracket is an atom. -/
theorem isAtom_of_isToken (ht : IsToken text.toList) (ho : opensTuple text = false) :
    IsAtom text.toList := by
  generalize hcs : text.toList = cs at ht
  cases ht with
  | atom h => exact h
  | tuple b hi => simp [opensTuple, Bracket.leading?, hcs] at ho

theorem opensTuple_of_isAtom (h : IsAtom text.toList) : opensTuple text = false := by
  unfold opensTuple Bracket.leading?
  cases hcs : text.toList with
  | nil => rfl
  | cons c rest => simp [(h.2 c (by simp [hcs])).ofOpener?_eq_none]

/-- A token that opens a bracket has members of its own. -/
theorem exists_members_of_isToken (ht : IsToken text.toList) (ho : opensTuple text = true) :
    ∃ ms, members text = .ok ms := by
  have htrim := ht.trimChars
  unfold members
  rw [htrim]
  generalize hcs : text.toList = cs at ht
  cases ht with
  | atom h =>
    rw [opensTuple_of_isAtom (hcs ▸ h)] at ho
    cases ho
  | tuple b hi =>
    obtain ⟨ms, hms⟩ := exists_memberChars_of_balanced b hi
    rw [hms]
    exact ⟨_, rfl⟩

end Text

/-! ## Tokens between brackets -/

theorem IsToken.balanced {t : List Char} (ht : IsToken t) : Balanced t := by
  cases ht with
  | tuple b hi => exact hi.enclosed b
  | atom h =>
    obtain ⟨-, hplain⟩ := h
    induction t with
    | nil => exact .nil
    | cons c rest ih =>
      exact .cons (hplain c (by simp)).2 (ih fun d hd => hplain d (by simp [hd]))

theorem balanced_of_isBlank {w : List Char} (hw : ∀ c ∈ w, isBlank c = true) : Balanced w := by
  induction w with
  | nil => exact .nil
  | cons c w ih =>
    exact .cons (isBracket_of_isBlank (hw c (by simp))) (ih fun d hd => hw d (by simp [hd]))

/-- Blanks around a token do not unbalance it. -/
theorem balanced_of_trimChars {t : List Char} (ht : IsToken (trimChars t)) : Balanced t := by
  obtain ⟨front, back, heq, hfront, hback⟩ := exists_blanks_around t
  rw [heq]
  exact ((balanced_of_isBlank hfront).append ht.balanced).append (balanced_of_isBlank hback)

theorem balanced_intercalate {ts : List (List Char)} (ht : ∀ t ∈ ts, Balanced t) :
    Balanced (List.intercalate [' '] ts) := by
  induction ts with
  | nil => exact .nil
  | cons t ts ih =>
    have hrest := ih fun u hu => ht u (by simp [hu])
    have hfirst := ht t (by simp)
    cases ts with
    | nil =>
      rw [List.intercalate_singleton]
      exact hfirst
    | cons u us =>
      rw [List.intercalate_cons_cons]
      exact (hfirst.append (.cons (by decide) .nil)).append hrest

section Enclose

variable {ts : List String}

theorem toList_enclose (b : Bracket) (ts : List String) :
    (b.enclose (" ".intercalate ts)).toList =
      b.opener :: (List.intercalate [' '] (ts.map String.toList) ++ [b.closer]) := by
  simp [Bracket.enclose, String.toList_intercalate]

theorem isToken_enclose_padded (b : Bracket) (ht : ∀ t ∈ ts, IsToken (trim t).toList) :
    IsToken (b.enclose (" ".intercalate ts)).toList := by
  rw [toList_enclose]
  refine .tuple b (balanced_intercalate fun cs hcs => ?_)
  obtain ⟨t, hmem, rfl⟩ := List.mem_map.1 hcs
  exact balanced_of_trimChars (toList_trim t ▸ ht t hmem)

theorem isToken_trim (ht : ∀ t ∈ ts, IsToken t.toList) : ∀ t ∈ ts, IsToken (trim t).toList := by
  intro t hmem
  rw [trim_of_isToken (ht t hmem)]
  exact ht t hmem

theorem isToken_enclose (b : Bracket) (ht : ∀ t ∈ ts, IsToken t.toList) :
    IsToken (b.enclose (" ".intercalate ts)).toList :=
  isToken_enclose_padded b (isToken_trim ht)

@[simp]
theorem leading?_enclose (b : Bracket) (ts : List String) :
    Bracket.leading? (b.enclose (" ".intercalate ts)) = some b := by
  simp [Bracket.leading?, toList_enclose]

/-- Tokens written between brackets, with blanks around them, are the members of what is
written. -/
theorem members_enclose_padded (b : Bracket) (ht : ∀ t ∈ ts, IsToken (trim t).toList) :
    members (b.enclose (" ".intercalate ts)) = .ok (ts.map trim) := by
  have htokens : ∀ cs ∈ ts.map String.toList, IsToken (trimChars cs) := by
    intro cs hcs
    obtain ⟨t, hmem, rfl⟩ := List.mem_map.1 hcs
    exact toList_trim t ▸ ht t hmem
  have hscan : scan b [] [] (List.intercalate [' '] (ts.map String.toList) ++ [b.closer]) =
      some ((ts.map String.toList).map trimChars, []) := scan_intercalate htokens
  rw [members, (isToken_enclose_padded b ht).trimChars, toList_enclose, memberChars_of_scan hscan]
  simp [Except.map, Function.comp_def, trim]

/-- Tokens written between brackets are the members of what is written. -/
theorem members_enclose (b : Bracket) (ht : ∀ t ∈ ts, IsToken t.toList) :
    members (b.enclose (" ".intercalate ts)) = .ok ts := by
  rw [members_enclose_padded b (isToken_trim ht),
    List.map_congr_left fun t hmem => trim_of_isToken (ht t hmem), List.map_id']

end Enclose

end Stepwise.Token
