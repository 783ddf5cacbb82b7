/-!
# Exact values of numbers

The numbers of the language are binary64. A finite one has the magnitude `mantissa · 2 ^ exponent`
with integers of bounded size, so its digits and its remainder by another number are computed in
exact integer arithmetic.
-/

namespace Stepwise

/-- The magnitude `mantissa · 2 ^ exponent`. -/
structure Dyadic where
  mantissa : Nat
  exponent : Int
  deriving DecidableEq, Repr

namespace Dyadic

/-- The bit in front of the fraction of a normal number, which is not stored. -/
def hiddenBit : Nat := 0x10000000000000

/-- The least exponent. -/
def minExponent : Int := -1074

/-- The magnitude of a finite number. A number with the least exponent field has no hidden bit. -/
def ofFloat (x : Float) : Dyadic :=
  let fraction := (x.toBits &&& 0xfffffffffffff).toNat
  let field := ((x.toBits >>> 52) &&& 0x7ff).toNat
  if field = 0 then ⟨fraction, minExponent⟩
  else ⟨hiddenBit + fraction, minExponent + (field - 1 : Nat)⟩

/-- The number of this magnitude, exact when the mantissa fits 53 bits and the value is in range. -/
def toFloat (x : Dyadic) : Float :=
  (Float.ofNat x.mantissa).scaleB x.exponent

/-- What is left of `x` after taking away `y` as often as it fits. -/
def remainder (x y : Dyadic) : Dyadic :=
  let scale := min x.exponent y.exponent
  let units := fun z : Dyadic => z.mantissa <<< (z.exponent - scale).toNat
  ⟨units x % units y, scale⟩

end Dyadic

/-! ## Rounding and remainder of numbers -/

/-- The integer next to `x` in the direction of zero; zeros keep the sign of `x`. -/
def truncate (x : Float) : Float :=
  if x < 0 then x.ceil else x.floor

/-- Gives `magnitude` the sign of `x`. -/
def withSignOf (x magnitude : Float) : Float :=
  if x.toBits >>> 63 = 0 then magnitude else -magnitude

/-- The exact remainder of `x` by `y`, with the sign of `x`. An infinite `y` leaves `x` whole. -/
def remainder (x y : Float) : Float :=
  if x.isNaN || y.isNaN || x.isInf || y == 0 then 0 / 0
  else if y.isInf then x
  else withSignOf x ((Dyadic.ofFloat x).remainder (Dyadic.ofFloat y)).toFloat

end Stepwise
