import FlowVerifier.Double.Arithmetic

/-!
# Decimal text of a double

A finite double is written with the fewest decimal digits that read back as the
same double, the nearest such decimal if there are several and the larger of
two that are equally near, always in positional notation.

The decimals that read back as `x` fill an interval around it whose ends are the
midpoints to its neighbours; the ends themselves belong to it when the
significand of `x` is even.  A decimal with few digits is a multiple of a large
power of ten, so `shortest` goes down the powers of ten and stops at the first
one that has a multiple in the interval.  At `10 ^ -1074` the number itself is a
multiple, which ends the descent.
-/

namespace FlowVerifier
namespace Double

/-- A positive decimal `digits * 10 ^ exponent`. -/
structure Decimal where
  /-- The significant digits as a natural number. -/
  digits : Nat
  /-- The power of ten they are multiplied with. -/
  exponent : Int

namespace Decimal

/-- Positional notation: no exponent, no point after a whole number. -/
def text (d : Decimal) : String :=
  let ds := Nat.toDigits 10 d.digits
  if 0 ≤ d.exponent then
    String.ofList (ds ++ List.replicate d.exponent.toNat '0')
  else
    let places := (-d.exponent).toNat
    if places < ds.length then
      String.ofList (ds.take (ds.length - places) ++ '.' :: ds.drop (ds.length - places))
    else
      String.ofList ('0' :: '.' :: (List.replicate (places - ds.length) '0' ++ ds))

end Decimal

/-- The interval of values that read back as one double, in half units. -/
structure ReadBack where
  /-- Midpoint to the neighbour below. -/
  low : Nat
  /-- The double itself. -/
  mid : Nat
  /-- Midpoint to the neighbour above. -/
  high : Nat
  /-- Do the midpoints themselves read back as the double? -/
  closed : Bool

namespace ReadBack

/-- The interval of a finite double other than zero. -/
def ofDouble (x : Double) : ReadBack :=
  let m := x.magnitude
  let below := (ofMagnitude false (m - 1)).absUnits
  let above := (ofMagnitude false (m + 1)).absUnits
  { low := below + x.absUnits
    mid := 2 * x.absUnits
    high := x.absUnits + above
    closed := m % 2 == 0 }

/-- Is `candidate / scale` half units inside the interval? -/
def contains (r : ReadBack) (scale candidate : Nat) : Bool :=
  if r.closed then decide (r.low * scale ≤ candidate) && decide (candidate ≤ r.high * scale)
  else decide (r.low * scale < candidate) && decide (candidate < r.high * scale)

/-- The multiple of `10 ^ exponent` in the interval that is nearest to its
middle, if there is one. -/
def multiple? (r : ReadBack) (exponent : Int) : Option Decimal :=
  let scale := if 0 ≤ exponent then 1 else Nat.pow 10 (-exponent).toNat
  let step := 2 * unitsPerOne * (if 0 ≤ exponent then Nat.pow 10 exponent.toNat else 1)
  let mid := r.mid * scale
  let down := mid / step
  let up := down + 1
  let downHit := decide (0 < down) && r.contains scale (down * step)
  let upHit := r.contains scale (up * step)
  if downHit && upHit then
    if mid - down * step < up * step - mid then some ⟨down, exponent⟩ else some ⟨up, exponent⟩
  else if downHit then some ⟨down, exponent⟩
  else if upHit then some ⟨up, exponent⟩
  else none

/-- Descends from `10 ^ (n - 1074)` to the first power of ten with a multiple in
the interval. -/
def shortestFrom (r : ReadBack) : Nat → Decimal
  | 0 => (r.multiple? (-1074)).getD ⟨0, 0⟩
  | n + 1 =>
    match r.multiple? ((n : Int) + 1 - 1074) with
    | some d => d
    | none => r.shortestFrom n

/-- A power of ten above the whole interval, counted up from `10 ^ -1074`. -/
def start (r : ReadBack) : Nat :=
  let bits := r.high.log2
  if 1075 ≤ bits then 1074 + (bits - 1075) / 3 + 1 else 1074 - (1075 - bits - 1) * 3 / 10

end ReadBack

/-- The shortest decimal that reads back as a finite double other than zero. -/
def shortest (x : Double) : Decimal :=
  let r := ReadBack.ofDouble x
  r.shortestFrom r.start

/-- The text of a double. -/
def text (x : Double) : String :=
  if x.isNaN then "NaN"
  else
    let body :=
      if x.isInfinite then "inf"
      else if x.isZero then "0"
      else x.shortest.text
    if x.isNegative then "-" ++ body else body

instance : ToString Double := ⟨text⟩

end Double
end FlowVerifier
