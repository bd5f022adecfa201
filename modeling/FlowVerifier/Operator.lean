import FlowVerifier.Value

/-!
# Operators and comparisons

The arithmetic operators, the six relations between values, and the tests that
guard branches.  A relation is an object of study here and not only something
to evaluate: it can be negated, turned around, weakened and chained, and these
operations are what a search knows about two variables it cannot evaluate.

* `RelOp.holds` reads a relation off the order of two values.
* `RelOp.negate`, `RelOp.flip`, `RelOp.implies` and `RelOp.compose` are the
  calculus, each in agreement with `holds`.
-/

namespace FlowVerifier

/-! ## Arithmetic -/

/-- An arithmetic operator. -/
inductive ArithOp where
  /-- Sum of numbers, concatenation of strings. -/
  | add
  /-- Difference. -/
  | sub
  /-- Product. -/
  | mul
  /-- Quotient. -/
  | div
  /-- Remainder, with the sign of the dividend. -/
  | mod
  deriving DecidableEq, Inhabited

namespace ArithOp

/-- The sign of an operator. -/
def text : ArithOp → String
  | add => "+"
  | sub => "-"
  | mul => "*"
  | div => "/"
  | mod => "%"

instance : ToString ArithOp := ⟨text⟩

end ArithOp

/-! ## Relations -/

/-- A relation between two values of one type. -/
inductive RelOp where
  /-- Below. -/
  | lt
  /-- Below or equal. -/
  | le
  /-- Above. -/
  | gt
  /-- Above or equal. -/
  | ge
  /-- Equal. -/
  | eq
  /-- Different. -/
  | ne
  deriving DecidableEq, Inhabited

namespace RelOp

/-- The sign of a relation. -/
def text : RelOp → String
  | lt => "<"
  | le => "<="
  | gt => ">"
  | ge => ">="
  | eq => "=="
  | ne => "!="

instance : ToString RelOp := ⟨text⟩

/-- Does the relation hold between two values in the given order? -/
def holds : RelOp → Ordering → Bool
  | lt, .lt => true
  | le, .lt => true
  | le, .eq => true
  | gt, .gt => true
  | ge, .gt => true
  | ge, .eq => true
  | eq, .eq => true
  | ne, .lt => true
  | ne, .gt => true
  | _, _ => false

/-- The relation that holds exactly where this one does not. -/
def negate : RelOp → RelOp
  | lt => ge
  | le => gt
  | gt => le
  | ge => lt
  | eq => ne
  | ne => eq

/-- The relation seen from the other side. -/
def flip : RelOp → RelOp
  | lt => gt
  | le => ge
  | gt => lt
  | ge => le
  | eq => eq
  | ne => ne

/-- Is the second relation weaker than the first? -/
def implies : RelOp → RelOp → Bool
  | lt, lt => true
  | lt, le => true
  | lt, ne => true
  | le, le => true
  | gt, gt => true
  | gt, ge => true
  | gt, ne => true
  | ge, ge => true
  | eq, eq => true
  | eq, le => true
  | eq, ge => true
  | ne, ne => true
  | _, _ => false

/-- What follows for the ends of a chain `a r b`, `b s c`.  Steps in opposite
directions and chains through a difference say nothing. -/
def compose : RelOp → RelOp → Option RelOp
  | eq, s => some s
  | r, eq => some r
  | lt, lt => some lt
  | lt, le => some lt
  | le, lt => some lt
  | le, le => some le
  | gt, gt => some gt
  | gt, ge => some gt
  | ge, gt => some gt
  | ge, ge => some ge
  | _, _ => none

end RelOp

/-! ## Comparisons -/

/-- A test `lhs op rhs` that guards a branch. -/
structure Comparison where
  /-- Left operand. -/
  lhs : Operand
  /-- The relation tested. -/
  op : RelOp
  /-- Right operand. -/
  rhs : Operand
  deriving BEq, Inhabited

namespace Comparison

/-- The same operands under another relation. -/
def withOp (c : Comparison) (op : RelOp) : Comparison := { c with op }

/-- The test that holds exactly where this one does not. -/
def negated (c : Comparison) : Comparison := c.withOp c.op.negate

/-- The variables a test reads, left before right. -/
def readNames (c : Comparison) : List String :=
  c.lhs.var?.toList ++ c.rhs.var?.toList

/-- A test as it is shown. -/
def text (c : Comparison) : String := s!"{c.lhs} {c.op} {c.rhs}"

instance : ToString Comparison := ⟨text⟩

end Comparison

end FlowVerifier
