/-!
# Blank characters

The blanks are the characters of Unicode's `White_Space` property. They separate the atoms of a
tuple, and they are dropped from both ends of every text that is read.
-/

namespace Stepwise

/-- The `White_Space` property of Unicode. -/
def isBlank (c : Char) : Bool :=
  let n := c.toNat
  (0x09 ≤ n && n ≤ 0x0d) || n == 0x20 || n == 0x85 || n == 0xa0 || n == 0x1680 ||
    (0x2000 ≤ n && n ≤ 0x200a) || n == 0x2028 || n == 0x2029 || n == 0x202f || n == 0x205f ||
    n == 0x3000

/-- The characters left when the blanks at both ends are dropped. -/
def trimChars (cs : List Char) : List Char :=
  ((cs.dropWhile isBlank).reverse.dropWhile isBlank).reverse

/-- The text without the blanks at its ends. -/
def trim (text : String) : String :=
  String.ofList (trimChars text.toList)

/-! ## Trimming -/

/-- Trimming never lengthens. -/
theorem trimChars_length_le (cs : List Char) : (trimChars cs).length ≤ cs.length := by
  have inner := (List.dropWhile_suffix isBlank (l := cs)).length_le
  have outer := (List.dropWhile_suffix isBlank (l := (cs.dropWhile isBlank).reverse)).length_le
  simp only [trimChars, List.length_reverse] at *
  omega

/-- Text whose first and last characters are not blank is left as it is. -/
theorem trimChars_eq_self {cs : List Char} (first : ∀ c ∈ cs.head?, isBlank c = false)
    (last : ∀ c ∈ cs.getLast?, isBlank c = false) : trimChars cs = cs := by
  have front : cs.dropWhile isBlank = cs := by
    cases cs with
    | nil => rfl
    | cons c rest => simp [first c (by simp)]
  have back : cs.reverse.dropWhile isBlank = cs.reverse := by
    cases h : cs.reverse with
    | nil => rfl
    | cons c rest =>
      have hc : isBlank c = false := last c (by simp [← List.head?_reverse, h])
      simp [hc]
  simp [trimChars, front, back]

@[simp]
theorem toList_trim (text : String) : (trim text).toList = trimChars text.toList := by
  simp [trim]

theorem isBlank_of_head?_dropWhile {cs : List Char} {c : Char}
    (h : (cs.dropWhile isBlank).head? = some c) : isBlank c = false := by
  have hnot := List.head?_dropWhile_not isBlank cs
  rw [h] at hnot
  exact hnot

theorem isBlank_of_head?_trimChars {cs : List Char} {c : Char}
    (h : (trimChars cs).head? = some c) : isBlank c = false := by
  rw [trimChars, List.head?_reverse] at h
  obtain ⟨blanks, heq⟩ := List.dropWhile_suffix isBlank (l := (cs.dropWhile isBlank).reverse)
  have hlast : (cs.dropWhile isBlank).reverse.getLast? = some c := by
    rw [← heq, List.getLast?_append, h]
    rfl
  rw [List.getLast?_reverse] at hlast
  exact isBlank_of_head?_dropWhile hlast

theorem isBlank_of_getLast?_trimChars {cs : List Char} {c : Char}
    (h : (trimChars cs).getLast? = some c) : isBlank c = false := by
  rw [trimChars, List.getLast?_reverse] at h
  exact isBlank_of_head?_dropWhile h

/-- Trimming leaves nothing to trim. -/
theorem trim_trim (text : String) : trim (trim text) = trim text := by
  have hself : trimChars (trimChars text.toList) = trimChars text.toList :=
    trimChars_eq_self (fun _ hc => isBlank_of_head?_trimChars hc)
      fun _ hc => isBlank_of_getLast?_trimChars hc
  rw [trim, toList_trim, hself, trim]

end Stepwise
