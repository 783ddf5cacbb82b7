import Stepwise.Error.Reading
import Stepwise.Text.Blank
import Stepwise.Token.Bracket
/-!
# The members of a tuple

A tuple's text is split into its top-level members. A nested tuple stays one member, letter for
letter; atoms end at blanks and at brackets. Every member is shorter than the text it was taken
from (`length_lt_of_mem_members`), which is what recursion into nested tuples rests on.
-/

namespace Stepwise.Token

/-- Puts the token read so far, kept backwards, in front of the tokens after it. -/
def flush (token : List Char) (after : List (List Char)) : List (List Char) :=
  if token.isEmpty then after else token.reverse :: after

/--
Reads the members of a tuple from just behind its opening bracket. `inner` holds the brackets
opened since, innermost first, and `token` the characters of the member being read, backwards.
The answer is the members and the text behind the closing bracket, or `none` when a bracket is
closed by the wrong partner or not at all.
-/
def scan (outer : Bracket) (inner : List Bracket) (token : List Char) :
    List Char → Option (List (List Char) × List Char)
  | [] => none
  | c :: rest =>
    match Bracket.ofOpener? c, Bracket.ofCloser? c, inner with
    | some b, _, [] => (scan outer [b] [c] rest).map (Prod.map (flush token) id)
    | some b, _, inner => scan outer (b :: inner) (c :: token) rest
    | none, some b, [] => if b = outer then some (flush token [], rest) else none
    | none, some b, [i] =>
      if b = i then (scan outer [] [] rest).map (Prod.map (flush (c :: token)) id) else none
    | none, some b, i :: inner => if b = i then scan outer inner (c :: token) rest else none
    | none, none, [] =>
      if isBlank c then (scan outer [] [] rest).map (Prod.map (flush token) id)
      else scan outer [] (c :: token) rest
    | none, none, inner => scan outer inner (c :: token) rest

/-- The top-level members of the tuple that `text` holds, as lists of characters. -/
def memberChars (text : List Char) : Except ReadError (List (List Char)) :=
  let whole := String.ofList text
  match text with
  | [] => .error (.notTuple whole)
  | c :: rest =>
    match Bracket.ofOpener? c with
    | none => .error (.notTuple whole)
    | some outer =>
      match scan outer [] [] rest with
      | none => .error (.unbalanced whole)
      | some (ms, after) =>
        match after.dropWhile isBlank with
        | [] => .ok ms
        | d :: junk =>
          if (Bracket.ofCloser? d).isSome then .error (.unbalanced whole)
          else .error (.trailing (String.ofList (d :: junk)))

/-- The top-level members of the tuple that `text` holds between blanks. -/
def members (text : String) : Except ReadError (List String) :=
  (memberChars (trimChars text.toList)).map fun ms => ms.map String.ofList

/-! ## Lengths -/

/-- All the characters of some members, counted. -/
def totalLength : List (List Char) → Nat
  | [] => 0
  | m :: ms => m.length + totalLength ms

@[simp]
theorem totalLength_nil : totalLength [] = 0 :=
  rfl

@[simp]
theorem totalLength_cons (m : List Char) (ms : List (List Char)) :
    totalLength (m :: ms) = m.length + totalLength ms :=
  rfl

theorem length_le_totalLength {m : List Char} {ms : List (List Char)} (h : m ∈ ms) :
    m.length ≤ totalLength ms := by
  induction ms with
  | nil => simp at h
  | cons n ns ih => grind [totalLength_cons]

@[simp]
theorem totalLength_flush (token : List Char) (after : List (List Char)) :
    totalLength (flush token after) = token.length + totalLength after := by
  cases token <;> simp [flush]

/-- The members and the text behind the tuple are made of characters still to come; the closing
bracket belongs to neither. -/
theorem totalLength_scan_lt {outer : Bracket} {inner : List Bracket} {token cs : List Char}
    {ms : List (List Char)} {r : List Char} (h : scan outer inner token cs = some (ms, r)) :
    totalLength ms + r.length < token.length + cs.length := by
  fun_induction scan outer inner token cs generalizing ms r <;>
    grind [Option.map_eq_some_iff, Prod.map, totalLength_flush, totalLength_nil]

theorem totalLength_memberChars_lt {text : List Char} {ms : List (List Char)}
    (h : memberChars text = .ok ms) : totalLength ms < text.length := by
  unfold memberChars at h
  split at h
  · simp at h
  · split at h
    · simp at h
    · split at h
      · simp at h
      · rename_i hs
        have bound := totalLength_scan_lt hs
        split at h
        · cases h
          simp at bound ⊢
          omega
        · split at h <;> simp at h

/-- The members of a tuple are together shorter than its text. -/
theorem totalLength_members_lt {text : String} {ms : List String} (h : members text = .ok ms) :
    totalLength (ms.map String.toList) < text.toList.length := by
  unfold members at h
  cases hc : memberChars (trimChars text.toList) with
  | error e => simp [hc, Except.map] at h
  | ok cs =>
    simp only [hc, Except.map, Except.ok.injEq] at h
    subst h
    have short := totalLength_memberChars_lt hc
    have trimmed := trimChars_length_le text.toList
    simp only [List.map_map, Function.comp_def, String.toList_ofList, List.map_id_fun']
    exact Nat.lt_of_lt_of_le short trimmed

theorem length_lt_of_mem_members {text m : String} {ms : List String} (h : members text = .ok ms)
    (hm : m ∈ ms) : m.toList.length < text.toList.length := by
  have each := length_le_totalLength (List.mem_map_of_mem (f := String.toList) hm)
  have all := totalLength_members_lt h
  omega

end Stepwise.Token
