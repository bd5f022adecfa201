import FlowVerifier.Double.Basic

/-!
# Double precision arithmetic

Every finite double is a whole number of *units* of `2 ^ -1074`, the least
positive double.  An arithmetic operation is therefore exact on fractions of
units, followed by one rounding to the nearest double:

* `units` reads a finite double as an integer number of units;
* `roundUnits` takes a fraction of units back to the nearest double, ties going
  to the even significand, and to infinity past the largest one;
* `add`, `sub`, `mul`, `div` round the exact result, and `rem`, whose result is
  always representable, rounds nothing away.
-/

namespace FlowVerifier
namespace Double

/-! ## Units -/

/-- `2 ^ 1074`, the number of units in one. -/
def unitsPerOne : Nat := 1 <<< 1074

/-- How many units of `2 ^ -1074` the absolute value of a finite double is. -/
def absUnits (x : Double) : Nat :=
  let field := x.magnitude / fractionWeight
  let fraction := x.magnitude % fractionWeight
  if field = 0 then fraction else (fractionWeight + fraction) <<< (field - 1)

/-- A finite double as an integer number of units. -/
def units (x : Double) : Int :=
  if x.isNegative then -(x.absUnits : Int) else (x.absUnits : Int)

/-! ## Rounding -/

/-- The whole number nearest to `num / den`, a half going to the even one. -/
def nearestWhole (num den : Nat) : Nat :=
  let q := num / den
  let r := num % den
  if 2 * r < den || (2 * r == den && q % 2 == 0) then q else q + 1

/-- The magnitude of the double nearest to `num / den` units.

The significand keeps 53 binary digits, so a quotient with more digits drops
`shift` of them.  The exponent field and the significand then add up, and a
significand that rounds up to `2 ^ 53` carries into the exponent by itself. -/
def roundUnits (num den : Nat) : Nat :=
  let shift := (num / den).log2 - 52
  min infiniteMagnitude (shift * fractionWeight + nearestWhole num (den <<< shift))

/-- The double nearest to an integer number of units; zero takes the given sign. -/
def ofUnits (zeroSign : Bool) (u : Int) : Double :=
  if u = 0 then ofMagnitude zeroSign 0
  else ofMagnitude (decide (u < 0)) (roundUnits u.natAbs 1)

/-- The double nearest to an integer. -/
def ofInt (n : Int) : Double := ofUnits false (n * unitsPerOne)

/-! ## Operations -/

/-- Sum.  Infinities of opposite sign have none. -/
def add (a b : Double) : Double :=
  if a.isNaN || b.isNaN then nan
  else if a.isInfinite then
    if b.isInfinite && a.isNegative != b.isNegative then nan else a
  else if b.isInfinite then b
  else ofUnits (a.isNegative && b.isNegative) (a.units + b.units)

/-- Difference. -/
def sub (a b : Double) : Double := a.add b.neg

/-- Product.  An infinity times zero has none. -/
def mul (a b : Double) : Double :=
  let negative := a.isNegative != b.isNegative
  if a.isNaN || b.isNaN then nan
  else if a.isInfinite || b.isInfinite then
    if a.isZero || b.isZero then nan else ofMagnitude negative infiniteMagnitude
  else ofMagnitude negative (roundUnits (a.absUnits * b.absUnits) unitsPerOne)

/-- Quotient.  Zero by zero and infinity by infinity have none. -/
def div (a b : Double) : Double :=
  let negative := a.isNegative != b.isNegative
  if a.isNaN || b.isNaN then nan
  else if a.isInfinite then
    if b.isInfinite then nan else ofMagnitude negative infiniteMagnitude
  else if b.isInfinite then ofMagnitude negative 0
  else if b.isZero then
    if a.isZero then nan else ofMagnitude negative infiniteMagnitude
  else ofMagnitude negative (roundUnits (a.absUnits * unitsPerOne) b.absUnits)

/-- Remainder of the quotient cut toward zero; it has the sign of `a`. -/
def rem (a b : Double) : Double :=
  if a.isNaN || b.isNaN || a.isInfinite || b.isZero then nan
  else if b.isInfinite then a
  else ofMagnitude a.isNegative (roundUnits (a.absUnits % b.absUnits) 1)

/-! ## Whole numbers -/

/-- The greatest integer that is not above a finite double. -/
def floor (x : Double) : Int := x.units.fdiv unitsPerOne

/-- The least integer that is not below a finite double. -/
def ceil (x : Double) : Int := -((-x.units).fdiv unitsPerOne)

end Double
end FlowVerifier
