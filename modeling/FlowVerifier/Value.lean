import FlowVerifier.Double.Decimal
import FlowVerifier.Text.Quoted

/-!
# Values of the analysed language

A program computes with two kinds of scalars, double precision numbers and
strings.  This file has the kinds, the constants and the operands of
instructions, which are constants or reads of a variable, and how each of them
is shown.
-/

namespace FlowVerifier

/-! ## Types -/

/-- The type of a scalar. -/
inductive ValueType where
  /-- Double precision numbers. -/
  | double
  /-- Character strings. -/
  | string
  deriving DecidableEq, Inhabited

namespace ValueType

/-- The keyword of a type. -/
def text : ValueType → String
  | double => "double"
  | string => "string"

instance : ToString ValueType := ⟨text⟩

end ValueType

/-! ## Constants -/

/-- A constant. -/
inductive Literal where
  /-- A number. -/
  | number (value : Double)
  /-- A string. -/
  | string (value : String)
  deriving BEq, Inhabited

namespace Literal

/-- The type of a constant. -/
def type : Literal → ValueType
  | number _ => .double
  | string _ => .string

/-- The number, if the constant is one. -/
def number? : Literal → Option Double
  | number v => some v
  | string _ => none

/-- Is the constant numerically equal to `value`? -/
def isNumber (value : Double) : Literal → Bool
  | number v => v == value
  | string _ => false

/-- A number is shown in decimal and a string in quotes. -/
def text : Literal → String
  | number v => v.text
  | string s => Text.quoted s

instance : ToString Literal := ⟨text⟩

end Literal

/-! ## Operands -/

/-- An operand of an instruction. -/
inductive Operand where
  /-- A constant. -/
  | literal (value : Literal)
  /-- The current value of a variable. -/
  | var (name : String)
  deriving BEq, Inhabited

namespace Operand

/-- The variable an operand reads. -/
def var? : Operand → Option String
  | var name => some name
  | literal _ => none

/-- The constant an operand is. -/
def literal? : Operand → Option Literal
  | literal value => some value
  | var _ => none

/-- Does the operand read the variable `name`? -/
def reads (name : String) (o : Operand) : Bool := o.var? == some name

/-- A variable is shown by its bare name. -/
def text : Operand → String
  | literal value => value.text
  | var name => name

instance : ToString Operand := ⟨text⟩

end Operand

end FlowVerifier
