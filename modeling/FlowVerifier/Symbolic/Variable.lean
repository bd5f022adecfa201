import FlowVerifier.Symbolic.Trend

/-!
# Variables on a path

What a path knows about one scalar variable: its type, its possible values,
whether it was written for certain, how it moved, and its relations to other
variables.

A relation is known for as long as neither side is written.  Every write gives a
variable a new *version* and forgets its own relations, and a relation remembers
the version of the other side it was recorded against; it counts only while that
is still the current one.  Versions have 64 bits, and the largest is followed by
zero.
-/

namespace FlowVerifier
namespace Symbolic

/-- The number of a write, counted modulo `2 ^ 64`. -/
abbrev Version := UInt64

/-- A relation of a variable to another. -/
structure Relation where
  /-- How the variable relates to the other. -/
  op : RelOp
  /-- The other variable. -/
  other : String
  /-- The version of the other variable that is meant. -/
  version : Version
  deriving DecidableEq, Inhabited

namespace Relation

/-- A relation as it is shown. -/
def text (r : Relation) : String := s!"{r.op} {r.other} @{r.version}"

end Relation

/-- A scalar variable on one path. -/
structure Variable where
  /-- The declared type. -/
  type : ValueType
  /-- The possible values. -/
  value : Value
  /-- Was the variable written on every way here? -/
  defined : Bool
  /-- How the variable moved. -/
  trend : Trend
  /-- The number of the last write. -/
  version : Version
  /-- The relations to other variables, oldest first. -/
  relations : List Relation
  deriving BEq, Inhabited

namespace Variable

/-- A variable that was declared and not written. -/
def declared (type : ValueType) : Variable where
  type
  value := .full type
  defined := false
  trend := .untouched
  version := 0
  relations := []

/-- A variable that holds one of the given values. -/
def ofValue (value : Value) : Variable where
  type := value.type
  value
  defined := true
  trend := .untouched
  version := 0
  relations := []

/-- Has the variable a possible value? -/
def isFeasible (v : Variable) : Bool := !v.value.isEmpty

/-- Overwrites the value. -/
def write (v : Variable) (value : Value) (change : Trend) : Variable :=
  { v with
    value
    defined := true
    trend := v.trend.andThen change
    version := v.version + 1
    relations := [] }

/-- Records a relation in place of an older one to the same variable. -/
def relate (v : Variable) (op : RelOp) (other : String) (version : Version) : Variable :=
  { v with relations := v.relations.filter (·.other != other) ++ [⟨op, other, version⟩] }

/-- What is known if the variable comes from one of two paths. -/
def join (v w : Variable) : Variable where
  type := v.type
  value := v.value.join w.value
  defined := v.defined && w.defined
  trend := if v.trend = w.trend then v.trend else .unpredictable
  version := max v.version w.version
  relations := v.relations.filter (w.relations.contains ·)

/-- Does `v` describe everything that `w` describes? -/
def subsumes (v w : Variable) : Bool :=
  v.type == w.type && v.value.subsumes w.value && (!v.defined || w.defined)

/-- A variable as it is shown: its type and its possible values. -/
def text (v : Variable) : String :=
  s!"{v.type} {v.value}" ++ if v.defined then "" else " (undefined)"

instance : ToString Variable := ⟨text⟩

end Variable

end Symbolic
end FlowVerifier
