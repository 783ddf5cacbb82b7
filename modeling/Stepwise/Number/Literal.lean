import Stepwise.Error.Reading
import Stepwise.Number.Decimal
/-!
# Number literals

A literal is an optional sign, digits with at most one point among, before or behind them, and an
optional exponent. It stands for the nearest number, and it must be in range: there is no literal
for an infinity.
-/

namespace Stepwise

/-- A literal taken apart: its sign, and its digits with the place of the point. -/
structure Literal where
  negative : Bool
  magnitude : Decimal
  deriving DecidableEq, Repr

/-- The value of a row of decimal digits. -/
def digitsValue (ds : List Char) : Nat :=
  ds.foldl (fun n d => 10 * n + (d.toNat - '0'.toNat)) 0

/-- The leading digits of a text and what follows them. -/
def spanDigits (cs : List Char) : List Char × List Char :=
  (cs.takeWhile Char.isDigit, cs.dropWhile Char.isDigit)

/-- Whether a text begins with a minus sign, and the text behind its sign if it has one. -/
def spanSign : List Char → Bool × List Char
  | '-' :: rest => (true, rest)
  | '+' :: rest => (false, rest)
  | cs => (false, cs)

namespace Literal

/-- The power of ten at the end of a literal; nothing stands for zero. -/
def exponent? : List Char → Option Int
  | [] => some 0
  | c :: rest =>
    if c = 'e' ∨ c = 'E' then
      let (negative, rest) := spanSign rest
      match spanDigits rest with
      | ([], _) => none
      | (ds, []) => some (if negative then -(digitsValue ds : Int) else digitsValue ds)
      | (_, _ :: _) => none
    else none

/-- The fraction digits at the head of a text and what follows them. -/
def spanFraction : List Char → List Char × List Char
  | '.' :: rest => spanDigits rest
  | cs => ([], cs)

/-- Takes a literal apart; `none` for any other text. -/
def parse? (cs : List Char) : Option Literal :=
  let (negative, cs) := spanSign cs
  let (whole, cs) := spanDigits cs
  let (fraction, cs) := spanFraction cs
  if whole.isEmpty && fraction.isEmpty then none
  else (exponent? cs).map fun e =>
    ⟨negative, ⟨digitsValue (whole ++ fraction), e - fraction.length⟩⟩

/-- The number nearest to a literal. Values far outside the range of numbers are settled by the
place of their leading digit alone. -/
def toFloat (lit : Literal) : Float :=
  let m := lit.magnitude.digits
  let e := lit.magnitude.exponent
  let lead := (Nat.toDigits 10 m).length + e
  let x : Float :=
    if m = 0 ∨ lead < -400 then 0
    else if 400 < lead then 1 / 0
    else Float.ofScientific m (e < 0) e.natAbs
  if lit.negative then -x else x

end Literal

/-- Reads the whole of `text` as a number in range. -/
def readNumber (text : String) : Except ReadError Float :=
  match Literal.parse? text.toList with
  | none => .error (.malformedNumber text)
  | some lit =>
    let x := lit.toFloat
    if x.isFinite then .ok x else .error (.malformedNumber text)

/-- Whether a token begins like a number: with a digit, or with a sign and a digit. -/
def looksNumeric (token : String) : Bool :=
  match token.toList with
  | c :: rest => c.isDigit || ((c == '-' || c == '+') && (rest.head?.map Char.isDigit).getD false)
  | [] => false

end Stepwise
