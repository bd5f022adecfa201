import FlowVerifier.Symbolic.Value

/-!
# Trends

How a variable moved along a stretch of a path.  A trend starts untouched; each
write contributes its own direction, and directions that disagree cancel to
`unpredictable`.  `ofStep` finds the direction of `x = x op r` from the possible
values of `x` and `r`.
-/

namespace FlowVerifier
namespace Symbolic

/-- How a variable moved. -/
inductive Trend where
  /-- It was not written. -/
  | untouched
  /-- It was written with the value it had. -/
  | unchanged
  /-- It only ever increased. -/
  | increasing
  /-- It only ever decreased. -/
  | decreasing
  /-- It moved both ways or was overwritten. -/
  | unpredictable
  deriving DecidableEq, Inhabited

namespace Trend

/-- A trend in words. -/
def text : Trend → String
  | untouched => "untouched"
  | unchanged => "unchanged"
  | increasing => "increasing"
  | decreasing => "decreasing"
  | unpredictable => "changing unpredictably"

instance : ToString Trend := ⟨text⟩

/-- Did the variable stay where it was? -/
def isNeutral : Trend → Bool
  | untouched => true
  | unchanged => true
  | _ => false

/-- One stretch followed by another. -/
def andThen : Trend → Trend → Trend
  | untouched, t => t
  | t, untouched => t
  | unchanged, t => t
  | t, unchanged => t
  | increasing, increasing => increasing
  | decreasing, decreasing => decreasing
  | _, _ => unpredictable

/-- The opposite direction. -/
def reversed : Trend → Trend
  | increasing => decreasing
  | decreasing => increasing
  | t => t

/-- The direction of a sum with `r`. -/
def ofAddend (r : Interval Double) : Trend :=
  if r.isPositive then increasing
  else if r.isNegative then decreasing
  else if r.isPoint Double.zero then unchanged
  else unpredictable

/-- Do all factors lie strictly between two positive limits? -/
def isBetween (r : Interval Double) (low high : Double) : Bool :=
  r.isPositive && low.lt r.lo && r.hi.lt high

/-- The direction of a number `x` that is moved away from zero or toward it. -/
def ofScaling (x : Interval Double) (away toward : Bool) : Trend :=
  if (x.isPositive && away) || (x.isNegative && toward) then increasing
  else if (x.isPositive && toward) || (x.isNegative && away) then decreasing
  else unpredictable

/-- The direction of `x` under multiplication by a factor or division by one. -/
def ofFactor (op : ArithOp) (x r : Interval Double) : Trend :=
  let grows := isBetween r Double.one Double.infinity
  let shrinks := isBetween r Double.zero Double.one
  if r.isPoint Double.one then unchanged
  else if op = .mul then ofScaling x grows shrinks
  else ofScaling x shrinks grows

/-- The direction of a string to which members of `r` are appended. -/
def ofAppended (r : Interval TextBound) : Trend :=
  match r.point?.bind TextBound.str? with
  | some s => if s = "" then unchanged else increasing
  | none => if r.lo.str?.any (· != "") then increasing else unpredictable

/-- The direction of `x = x op r`. -/
def ofStep (op : ArithOp) (x r : Value) : Trend :=
  match x, r with
  | .number a, .number b =>
    match op with
    | .add => ofAddend b
    | .sub => (ofAddend b).reversed
    | .mul => ofFactor .mul a b
    | .div => ofFactor .div a b
    | .mod => unpredictable
  | .string _, .string b => if op = .add then ofAppended b else unpredictable
  | _, _ => unpredictable

end Trend

/-! ## Sets of trends -/

/-- A set of trends, one binary digit for each. -/
abbrev TrendSet := Nat

/-- The set of a single trend. -/
def TrendSet.single : Trend → TrendSet
  | .untouched => 1
  | .unchanged => 2
  | .increasing => 4
  | .decreasing => 8
  | .unpredictable => 16

end Symbolic
end FlowVerifier
