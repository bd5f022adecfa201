import FlowVerifier.Operator
import FlowVerifier.Double.Arithmetic

/-!
# Closed intervals

The possible values of a scalar are described by a closed interval.  The
intervals are generic in the type of their bounds, an order with a least and a
greatest element in which every bound has a neighbour on each side or is its own
neighbour.

* A pair of bounds in the wrong order is an empty interval.  Emptiness is how a
  branch that cannot be taken shows, so empty intervals come in many shapes and
  every operation copes with all of them.
* `canMeet` decides a relation between two intervals, and `clip` keeps the part
  of an interval that can satisfy one.
* `join`, `meet`, `widen` and `subsumes` are the lattice.
* Numeric intervals have arithmetic, text intervals have concatenation.
-/

namespace FlowVerifier
namespace Symbolic

/-! ## Bounds -/

/-- What an interval needs to know about its bounds. -/
class Bound (α : Type) where
  /-- Strictly below. -/
  lt : α → α → Bool
  /-- Below or equal. -/
  le : α → α → Bool
  /-- The same point of the order. -/
  eq : α → α → Bool
  /-- The least bound. -/
  lowest : α
  /-- The greatest bound. -/
  highest : α
  /-- The neighbour above, or the bound itself. -/
  next : α → α
  /-- The neighbour below, or the bound itself. -/
  prev : α → α
  /-- A bound as it is shown. -/
  text : α → String

instance : Bound Double where
  lt := Double.lt
  le := Double.le
  eq := Double.beq
  lowest := Double.negInfinity
  highest := Double.infinity
  next := Double.next
  prev := Double.prev
  text := Double.text

/-- A bound of a set of strings. -/
inductive TextBound where
  /-- A string. -/
  | str (value : String)
  /-- Above every string. -/
  | top
  deriving DecidableEq, Inhabited

namespace TextBound

/-- The string, unless the bound is `top`. -/
def str? : TextBound → Option String
  | str s => some s
  | top => none

/-- Strings are ordered by their code points, and `top` is above them. -/
def lt : TextBound → TextBound → Bool
  | str s, str t => decide (s < t)
  | str _, top => true
  | top, _ => false

/-- Below or equal. -/
def le (a b : TextBound) : Bool := !b.lt a

/-- A string is shown in quotes. -/
def text : TextBound → String
  | str s => Text.quoted s
  | top => "top"

end TextBound

instance : Bound TextBound where
  lt := TextBound.lt
  le := TextBound.le
  eq a b := decide (a = b)
  lowest := .str ""
  highest := .top
  next := id
  prev := id
  text := TextBound.text

/-! ## Verdicts on relations -/

/-- Whether a relation holds between the members of two sets. -/
inductive Satisfiability where
  /-- It holds for every pair. -/
  | must
  /-- It holds for some pairs and fails for others. -/
  | may
  /-- It holds for no pair. -/
  | cant
  deriving DecidableEq, Inhabited

namespace Satisfiability

/-- The verdict on the negated relation. -/
def negate : Satisfiability → Satisfiability
  | must => cant
  | may => may
  | cant => must

end Satisfiability

/-! ## Intervals -/

/-- The closed interval from `lo` to `hi`. -/
structure Interval (α : Type) where
  /-- Lower bound. -/
  lo : α
  /-- Upper bound. -/
  hi : α
  deriving Inhabited

namespace Interval

variable {α : Type} [Bound α]

/-- Bounds are compared as points of the order. -/
def beq (a b : Interval α) : Bool := Bound.eq a.lo b.lo && Bound.eq a.hi b.hi

instance : BEq (Interval α) := ⟨beq⟩

/-- The interval of a single value. -/
def point (a : α) : Interval α := ⟨a, a⟩

/-- The interval of all values. -/
def full : Interval α := ⟨Bound.lowest, Bound.highest⟩

/-- The interval without values that operations produce. -/
def empty : Interval α := ⟨Bound.highest, Bound.lowest⟩

/-- Are the bounds in the wrong order or incomparable? -/
def isEmpty (a : Interval α) : Bool := !Bound.le a.lo a.hi

/-- Do the bounds coincide? -/
def isDeterminate (a : Interval α) : Bool := Bound.eq a.lo a.hi

/-- The only value of a determinate interval. -/
def point? (a : Interval α) : Option α := if a.isDeterminate then some a.lo else none

/-- Is the single value of the interval the point `v`? -/
def isPoint (a : Interval α) (v : α) : Bool := a.isDeterminate && Bound.eq a.lo v

/-- Does the interval cover all values? -/
def isFull (a : Interval α) : Bool :=
  Bound.eq a.lo Bound.lowest && Bound.eq a.hi Bound.highest

/-- Is `v` a member? -/
def contains (a : Interval α) (v : α) : Bool := Bound.le a.lo v && Bound.le v a.hi

/-- The smaller of two bounds, the first of equal ones. -/
def lesser (a b : α) : α := if Bound.lt b a then b else a

/-- The larger of two bounds, the first of equal ones. -/
def greater (a b : α) : α := if Bound.lt a b then b else a

/-! ### Relations -/

/-- Must the members of two intervals that are not empty be related? -/
def mustMeet (op : RelOp) (a b : Interval α) : Bool :=
  match op with
  | .lt => Bound.lt a.hi b.lo
  | .le => Bound.le a.hi b.lo
  | .gt => Bound.lt b.hi a.lo
  | .ge => Bound.le b.hi a.lo
  | .eq => a.isDeterminate && b.isDeterminate && Bound.eq a.lo b.lo
  | .ne => Bound.lt a.hi b.lo || Bound.lt b.hi a.lo

/-- Decides whether `x op y` holds for `x` in `a` and `y` in `b`. -/
def canMeet (op : RelOp) (a b : Interval α) : Satisfiability :=
  if a.isEmpty || b.isEmpty then .cant
  else if a.mustMeet op b then .must
  else if a.mustMeet op.negate b then .cant
  else .may

/-! ### Lattice -/

/-- The least interval containing both. -/
def join (a b : Interval α) : Interval α :=
  if a.isEmpty then b
  else if b.isEmpty then a
  else ⟨lesser a.lo b.lo, greater a.hi b.hi⟩

/-- The greatest interval contained in both. -/
def meet (a b : Interval α) : Interval α := ⟨greater a.lo b.lo, lesser a.hi b.hi⟩

/-- Like `join`, but a bound of `a` that `b` exceeds moves to the end of the
order at once, so that a bound can move only once. -/
def widen (a b : Interval α) : Interval α :=
  if a.isEmpty then b
  else if b.isEmpty then a
  else
    ⟨if Bound.lt b.lo a.lo then Bound.lowest else a.lo,
      if Bound.lt a.hi b.hi then Bound.highest else a.hi⟩

/-- Is every value of `b` a value of `a`? -/
def subsumes (a b : Interval α) : Bool :=
  b.isEmpty || (!a.isEmpty && Bound.le a.lo b.lo && Bound.le b.hi a.hi)

/-! ### Clipping -/

/-- Keeps the members `x` of `a` for which some `y` in `b` satisfies `x op y`.
Where bounds have no neighbours a strict relation clips like its weak form. -/
def clip (op : RelOp) (a b : Interval α) : Interval α :=
  if b.isEmpty then empty
  else
    match op with
    | .lt => ⟨a.lo, lesser a.hi (Bound.prev b.hi)⟩
    | .le => ⟨a.lo, lesser a.hi b.hi⟩
    | .gt => ⟨greater a.lo (Bound.next b.lo), a.hi⟩
    | .ge => ⟨greater a.lo b.lo, a.hi⟩
    | .eq => a.meet b
    | .ne =>
      match b.point? with
      | none => a
      | some v =>
        if Bound.eq v a.lo && Bound.eq v a.hi then empty
        else if Bound.eq v a.lo then ⟨Bound.next a.lo, a.hi⟩
        else if Bound.eq v a.hi then ⟨a.lo, Bound.prev a.hi⟩
        else a

/-- An interval as it is shown: one value, or both bounds in brackets. -/
def text (a : Interval α) : String :=
  if a.isEmpty then "empty"
  else if a.isDeterminate then Bound.text a.lo
  else "[" ++ Bound.text a.lo ++ ", " ++ Bound.text a.hi ++ "]"

instance : ToString (Interval α) := ⟨text⟩

/-! ### Numbers -/

/-- The interval spanned by candidate bounds.  A candidate that is not a number
makes the result unknown. -/
def hull (candidates : List Double) : Interval Double :=
  if candidates.any Double.isNaN then full
  else ⟨candidates.foldl lesser Double.infinity, candidates.foldl greater Double.negInfinity⟩

/-- The product of two bounds, where zero times infinity is zero: an infinite
bound stands for numbers as large as one likes, not for infinity itself. -/
def mulBound (a b : Double) : Double :=
  if a.isZero || b.isZero then Double.zero else a.mul b

/-- Is zero a member? -/
def containsZero (a : Interval Double) : Bool := a.contains Double.zero

/-- Are all members above zero, and is there one? -/
def isPositive (a : Interval Double) : Bool := !a.isEmpty && Double.zero.lt a.lo

/-- Are all members below zero, and is there one? -/
def isNegative (a : Interval Double) : Bool := !a.isEmpty && a.hi.lt Double.zero

/-- All sums of two members. -/
def add (a b : Interval Double) : Interval Double :=
  if a.isEmpty || b.isEmpty then empty
  else
    let lo := a.lo.add b.lo
    let hi := a.hi.add b.hi
    if lo.isNaN || hi.isNaN then full else ⟨lo, hi⟩

/-- All members with the sign changed. -/
def neg (a : Interval Double) : Interval Double := ⟨a.hi.neg, a.lo.neg⟩

/-- All differences of two members. -/
def sub (a b : Interval Double) : Interval Double := a.add b.neg

/-- All products of two members. -/
def mul (a b : Interval Double) : Interval Double :=
  if a.isEmpty || b.isEmpty then empty
  else hull [mulBound a.lo b.lo, mulBound a.lo b.hi, mulBound a.hi b.lo, mulBound a.hi b.hi]

/-- All quotients of two members; anything if the divisor can be zero. -/
def div (a b : Interval Double) : Interval Double :=
  if a.isEmpty || b.isEmpty then empty
  else if b.containsZero then full
  else hull [a.lo.div b.lo, a.lo.div b.hi, a.hi.div b.lo, a.hi.div b.hi]

/-- All remainders of two members.  A remainder has the sign of the dividend and
is smaller than the divisor in absolute value, and never larger than the
dividend. -/
def rem (a b : Interval Double) : Interval Double :=
  if a.isEmpty || b.isEmpty then empty
  else if a.isDeterminate && b.isDeterminate && !b.lo.isZero then point (a.lo.rem b.lo)
  else
    let m := greater b.lo.abs b.hi.abs
    if Double.zero.le a.lo then ⟨Double.zero, lesser a.hi m⟩
    else if a.hi.le Double.zero then ⟨greater a.lo m.neg, Double.zero⟩
    else ⟨greater a.lo m.neg, lesser a.hi m⟩

/-! ### Integers -/

/-- The largest index there is, `2 ^ 63 - 1`. -/
def maxIndex : Int := 9223372036854775807

/-- The smallest index there is, `-2 ^ 63`. -/
def minIndex : Int := -9223372036854775808

/-- Brings an integer into the range of indices. -/
def saturate (n : Int) : Int := max minIndex (min maxIndex n)

/-- The least index that is not below a bound. -/
def firstIndex (x : Double) : Int :=
  if x.isInfinite then (if x.isNegative then minIndex else maxIndex) else saturate x.ceil

/-- The greatest index that is not above a bound. -/
def lastIndex (x : Double) : Int :=
  if x.isInfinite then (if x.isNegative then minIndex else maxIndex) else saturate x.floor

/-- The first and the last integer of the interval, brought into the range of
indices; `none` if it holds no integer. -/
def integerRange (a : Interval Double) : Option (Int × Int) :=
  if a.isEmpty then none
  else if a.lo.isInfinite || a.hi.isInfinite || decide (a.lo.ceil ≤ a.hi.floor) then
    some (firstIndex a.lo, lastIndex a.hi)
  else none

/-! ### Strings -/

/-- All concatenations of two members.  A concatenation starts with its left
part, so it is not below it. -/
def concat (a b : Interval TextBound) : Interval TextBound :=
  if a.isEmpty || b.isEmpty then empty
  else
    match a.point?, b.point? with
    | some (.str s), some (.str t) => point (.str (s ++ t))
    | _, _ => ⟨a.lo, .top⟩

end Interval

end Symbolic
end FlowVerifier
