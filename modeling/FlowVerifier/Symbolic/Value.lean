import FlowVerifier.Error

/-!
# Possible values of a scalar

A `Value` describes the set of values a scalar may have at some point of a path:
an interval of numbers or an interval of strings.  Operations on values of
different types are mistakes of the analysed program; the lattice operations,
which have nobody to complain to, then keep the newer side.
-/

namespace FlowVerifier
namespace Symbolic

/-- The possible values of a scalar. -/
inductive Value where
  /-- The numbers of an interval. -/
  | number (range : Interval Double)
  /-- The strings of an interval. -/
  | string (range : Interval TextBound)
  deriving Inhabited

namespace Value

/-- Values are equal if they are of one type and have the same bounds. -/
def beq : Value → Value → Bool
  | number a, number b => a == b
  | string a, string b => a == b
  | _, _ => false

instance : BEq Value := ⟨beq⟩

/-- All values of a type. -/
def full : ValueType → Value
  | .double => number .full
  | .string => string .full

/-- Exactly one constant. -/
def ofLiteral : Literal → Value
  | .number v => number (.point v)
  | .string s => string (.point (.str s))

/-- The type of the values. -/
def type : Value → ValueType
  | number _ => .double
  | string _ => .string

/-- The interval of numbers. -/
def number? : Value → Option (Interval Double)
  | number a => some a
  | string _ => none

/-- Is no value possible? -/
def isEmpty : Value → Bool
  | number a => a.isEmpty
  | string a => a.isEmpty

/-- Is only one value possible? -/
def isDeterminate : Value → Bool
  | number a => a.isDeterminate
  | string a => a.isDeterminate

/-- The only possible value. -/
def literal? : Value → Option Literal
  | number a => a.point?.map .number
  | string a => (a.point?.bind TextBound.str?).map .string

/-- Is the number `v` the only possible value? -/
def isNumber (v : Double) : Value → Bool
  | number a => a.isPoint v
  | string _ => false

/-! ## Relations -/

/-- Decides `a op b`. -/
def canMeet (op : RelOp) (a b : Value) : Except ProgramError Satisfiability :=
  match a, b with
  | number x, number y => .ok (x.canMeet op y)
  | string x, string y => .ok (x.canMeet op y)
  | _, _ => .error (.typeMismatch (.compareValues a.type b.type))

/-- Keeps the values of `a` that stand in a relation to some value of `b`. -/
def clip (op : RelOp) (a b : Value) : Except ProgramError Value :=
  match a, b with
  | number x, number y => .ok (number (x.clip op y))
  | string x, string y => .ok (string (x.clip op y))
  | _, _ => .error (.typeMismatch (.compareValues a.type b.type))

/-! ## Arithmetic -/

/-- The possible results of an operator.  It is a mistake to divide by what is
always zero, not by what may be zero. -/
def apply (op : ArithOp) (a b : Value) : Except ProgramError Value :=
  match a, b with
  | number x, number y =>
    match op with
    | .add => .ok (number (x.add y))
    | .sub => .ok (number (x.sub y))
    | .mul => .ok (number (x.mul y))
    | .div => if y.isPoint Double.zero then .error .divisionByZero else .ok (number (x.div y))
    | .mod => if y.isPoint Double.zero then .error .moduloByZero else .ok (number (x.rem y))
  | string x, string y =>
    match op with
    | .add => .ok (string (x.concat y))
    | _ => .error (.typeMismatch (.onStrings op))
  | _, _ => .error (.typeMismatch (.apply op a.type b.type))

/-! ## Lattice -/

/-- The values of either side. -/
def join (a b : Value) : Value :=
  match a, b with
  | number x, number y => number (x.join y)
  | string x, string y => string (x.join y)
  | _, _ => b

/-- The values of both sides. -/
def meet (a b : Value) : Value :=
  match a, b with
  | number x, number y => number (x.meet y)
  | string x, string y => string (x.meet y)
  | _, _ => b

/-- The values of either side, every bound that moved going to its extreme. -/
def widen (a b : Value) : Value :=
  match a, b with
  | number x, number y => number (x.widen y)
  | string x, string y => string (x.widen y)
  | _, _ => b

/-- Is every value of `b` a value of `a`? -/
def subsumes (a b : Value) : Bool :=
  match a, b with
  | number x, number y => x.subsumes y
  | string x, string y => x.subsumes y
  | _, _ => false

/-- Values as they are shown. -/
def text : Value → String
  | number a => a.text
  | string a => a.text

instance : ToString Value := ⟨text⟩

end Value

end Symbolic
end FlowVerifier
