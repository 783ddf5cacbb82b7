import Stepwise.Number.Dyadic
/-!
# Decimal text of numbers

A number is written with the fewest decimal digits that identify it among all numbers, always
positionally: no exponent, and no point after an integer. Of two candidates with equally few
digits the nearer is written, and the larger if both are equally near.
-/

namespace Stepwise

/-- The value `digits · 10 ^ exponent`. -/
structure Decimal where
  digits : Nat
  exponent : Int
  deriving DecidableEq, Repr

namespace Dyadic

/-- The factor `2 ^ (exponent - 2) / 10 ^ k` as a quotient of integers. -/
def quarterOver (x : Dyadic) (k : Int) : Nat × Nat :=
  (Nat.pow 10 (-k).toNat <<< (x.exponent - 2).toNat, Nat.pow 10 k.toNat <<< (2 - x.exponent).toNat)

/-- The ends of the interval of reals that round to `x`, in quarters of its last place. Below a
power of two the neighbour is half as far. -/
def bounds (x : Dyadic) : Nat × Nat :=
  let atPower := x.mantissa == hiddenBit && x.exponent != minExponent
  (4 * x.mantissa - (if atPower then 1 else 2), 4 * x.mantissa + 2)

/-- Whether `d · 10 ^ k` rounds to `x`. A tie at an end of the interval goes to the even
mantissa. -/
def identifies (x : Dyadic) (k : Int) (d : Nat) : Bool :=
  let (num, den) := x.quarterOver k
  let (low, high) := x.bounds
  if x.mantissa % 2 = 0 then low * num ≤ d * den && d * den ≤ high * num
  else low * num < d * den && d * den < high * num

/-- The better of the two multiples of `10 ^ k` around `x`, of those that identify it. -/
def onGrid? (x : Dyadic) (k : Int) : Option Decimal :=
  let (num, den) := x.quarterOver k
  let d := 4 * x.mantissa * num / den
  let up := (2 * d + 1) * den ≤ 8 * x.mantissa * num
  match x.identifies k d, x.identifies k (d + 1) with
  | true, true => some ⟨if up then d + 1 else d, k⟩
  | true, false => some ⟨d, k⟩
  | false, true => some ⟨d + 1, k⟩
  | false, false => none

/-- The exponent of the leading decimal digit of a positive `x`. The quotient stands in for the
logarithm of two and is at most one too small. -/
def leadingExponent (x : Dyadic) : Int :=
  let guess := ((x.mantissa.log2 : Int) + x.exponent) * 30103 / 100000
  let (num, den) := x.quarterOver (guess + 1)
  if den ≤ 4 * x.mantissa * num then guess + 1 else guess

/-- All the digits of `x`. -/
def exactDecimal (x : Dyadic) : Decimal :=
  if x.exponent < 0 then ⟨x.mantissa * Nat.pow 5 (-x.exponent).toNat, x.exponent⟩
  else ⟨x.mantissa <<< x.exponent.toNat, 0⟩

/-- The decimal with the fewest digits that identifies a positive `x`. -/
def shortest (x : Dyadic) : Decimal :=
  let lead := x.leadingExponent
  ((List.range 17).findSome? fun (i : Nat) => x.onGrid? (lead - i)).getD x.exactDecimal

end Dyadic

namespace Decimal

/-- The same value without zeros at the end of its digits. -/
def stripZeros (x : Decimal) : Decimal :=
  if _h : x.digits ≠ 0 ∧ x.digits % 10 = 0 then stripZeros ⟨x.digits / 10, x.exponent + 1⟩ else x
termination_by x.digits
decreasing_by omega

/-- The value in positional notation. -/
def text (x : Decimal) : String :=
  let x := x.stripZeros
  let digits := Nat.toDigits 10 x.digits
  if 0 ≤ x.exponent then String.ofList (digits ++ List.replicate x.exponent.toNat '0')
  else
    let places := (-x.exponent).toNat
    let padded := List.replicate (places + 1 - digits.length) '0' ++ digits
    let whole := padded.length - places
    String.ofList (padded.take whole ++ '.' :: padded.drop whole)

end Decimal

/-- The text of a number. Both zeros are written alike. -/
def numberText (x : Float) : String :=
  if x.isNaN then "NaN"
  else if x == 0 then "0"
  else
    let sign := if x < 0 then "-" else ""
    sign ++ if x.isInf then "inf" else (Dyadic.ofFloat x).shortest.text

end Stepwise
