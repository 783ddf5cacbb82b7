/-!
# Brackets

Tuples are written in round or square brackets. The two styles mean the same, but an opening
bracket is closed only by its own partner.
-/

namespace Stepwise

/-- The two styles in which a tuple may be written. -/
inductive Bracket where
  | round
  | square
  deriving DecidableEq, Repr

namespace Bracket

/-- The character that begins a tuple of this style. -/
def opener : Bracket → Char
  | round => '('
  | square => '['

/-- The character that ends a tuple of this style. -/
def closer : Bracket → Char
  | round => ')'
  | square => ']'

/-- The style that `c` opens. -/
def ofOpener? (c : Char) : Option Bracket :=
  if c = '(' then some round else if c = '[' then some square else none

/-- The style that `c` closes. -/
def ofCloser? (c : Char) : Option Bracket :=
  if c = ')' then some round else if c = ']' then some square else none

/-- Puts `inner` between the two brackets of this style. -/
def enclose (b : Bracket) (inner : String) : String :=
  b.opener.toString ++ inner ++ b.closer.toString

/-- The style of the bracket at the start of `text`. -/
def leading? (text : String) : Option Bracket :=
  text.toList.head?.bind ofOpener?

theorem ofOpener?_eq_some_iff {c : Char} {b : Bracket} : ofOpener? c = some b ↔ c = b.opener := by
  cases b <;> simp only [ofOpener?, opener] <;> grind

theorem ofCloser?_eq_some_iff {c : Char} {b : Bracket} : ofCloser? c = some b ↔ c = b.closer := by
  cases b <;> simp only [ofCloser?, closer] <;> grind

@[simp]
theorem ofOpener?_opener (b : Bracket) : ofOpener? b.opener = some b :=
  ofOpener?_eq_some_iff.2 rfl

@[simp]
theorem ofOpener?_closer (b : Bracket) : ofOpener? b.closer = none := by
  cases b <;> rfl

@[simp]
theorem ofCloser?_closer (b : Bracket) : ofCloser? b.closer = some b :=
  ofCloser?_eq_some_iff.2 rfl

end Bracket

/-- Whether `c` is one of the four brackets. -/
def isBracket (c : Char) : Bool :=
  (Bracket.ofOpener? c).isSome || (Bracket.ofCloser? c).isSome

/-- Whether `text` begins like a tuple. -/
def opensTuple (text : String) : Bool :=
  (Bracket.leading? text).isSome

end Stepwise
