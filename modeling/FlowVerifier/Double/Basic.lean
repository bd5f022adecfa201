/-!
# Double precision numbers: patterns, order and neighbours

A number of the analysed language is an IEEE 754 binary64 value, held here as
its 64-bit pattern.  Nothing is delegated to the machine: every operation is a
computation on natural numbers and integers, so it can be reasoned about.

* `magnitude` is the pattern without its sign bit.  On patterns that are not
  NaN it grows with the absolute value, which is the one fact that makes the
  format convenient.
* `rank` is the magnitude with the sign put back as an integer.  Both zeros
  have rank `0`, and two patterns that are not NaN compare as their ranks do.
* `next` and `prev` are the neighbours of a number among all doubles.
-/

namespace FlowVerifier

/-- An IEEE 754 binary64 value, given by its bit pattern. -/
structure Double where
  /-- The 64 bits: sign, eleven bits of exponent, fifty-two of fraction. -/
  bits : UInt64
  deriving Inhabited

namespace Double

/-! ## Fields of the pattern -/

/-- `2 ^ 63`, the weight of the sign bit. -/
def signWeight : Nat := 9223372036854775808

/-- `2 ^ 52`, the weight of the lowest exponent bit. -/
def fractionWeight : Nat := 4503599627370496

/-- The magnitude of the infinities: all exponent bits set and no fraction. -/
def infiniteMagnitude : Nat := 9218868437227405312

/-- The pattern without its sign bit. -/
def magnitude (x : Double) : Nat := x.bits.toNat % signWeight

/-- Is the sign bit set?  A zero and a NaN have a sign too. -/
def isNegative (x : Double) : Bool := decide (signWeight ≤ x.bits.toNat)

/-- The double with the given sign and magnitude. -/
def ofMagnitude (negative : Bool) (m : Nat) : Double :=
  ⟨UInt64.ofNat (if negative then signWeight + m else m)⟩

/-! ## Constants -/

/-- Positive zero. -/
def zero : Double := ofMagnitude false 0

/-- The number one. -/
def one : Double := ofMagnitude false 4607182418800017408

/-- Positive infinity, above every finite number. -/
def infinity : Double := ofMagnitude false infiniteMagnitude

/-- Negative infinity, below every finite number. -/
def negInfinity : Double := ofMagnitude true infiniteMagnitude

/-- The NaN that arithmetic produces. -/
def nan : Double := ofMagnitude false 9221120237041090560

/-! ## Classes -/

/-- Not a number: the magnitude lies above that of the infinities. -/
def isNaN (x : Double) : Bool := decide (infiniteMagnitude < x.magnitude)

/-- One of the two infinities. -/
def isInfinite (x : Double) : Bool := x.magnitude == infiniteMagnitude

/-- One of the two zeros. -/
def isZero (x : Double) : Bool := x.magnitude == 0

/-! ## Order -/

/-- The position of a double on the number line, counted in representable
numbers from zero. -/
def rank (x : Double) : Int :=
  if x.isNegative then -(x.magnitude : Int) else (x.magnitude : Int)

/-- How two doubles compare; `none` if one of them is NaN. -/
def compare? (a b : Double) : Option Ordering :=
  if a.isNaN || b.isNaN then none else some (compare a.rank b.rank)

/-- Strictly below.  False whenever a NaN is involved. -/
def lt (a b : Double) : Bool := !a.isNaN && !b.isNaN && decide (a.rank < b.rank)

/-- Below or equal.  False whenever a NaN is involved. -/
def le (a b : Double) : Bool := !a.isNaN && !b.isNaN && decide (a.rank ≤ b.rank)

/-- Numeric equality: the zeros are equal and NaN equals nothing. -/
def beq (a b : Double) : Bool := !a.isNaN && !b.isNaN && decide (a.rank = b.rank)

instance : BEq Double := ⟨beq⟩

/-! ## Sign and neighbours -/

/-- Flips the sign bit. -/
def neg (x : Double) : Double := ofMagnitude (!x.isNegative) x.magnitude

/-- Clears the sign bit. -/
def abs (x : Double) : Double := ofMagnitude false x.magnitude

/-- The least double above `x`.  Positive infinity and NaN have none and are
left alone. -/
def next (x : Double) : Double :=
  if x.isNaN || (!x.isNegative && x.isInfinite) then x
  else if x.isZero then ofMagnitude false 1
  else if x.isNegative then ofMagnitude true (x.magnitude - 1)
  else ofMagnitude false (x.magnitude + 1)

/-- The greatest double below `x`. -/
def prev (x : Double) : Double := x.neg.next.neg

end Double

end FlowVerifier
