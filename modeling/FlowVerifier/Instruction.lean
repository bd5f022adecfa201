import FlowVerifier.Operator

/-!
# Instructions

A block is a list of instructions.  All but the last three kinds are its
straight-line body; `jumpIf`, `jump` and `ret` are *control* instructions, which
may only end a block.  A called routine finds its arguments on a runtime stack,
above a marker that names the block where the caller goes on.
-/

namespace FlowVerifier

/-- One instruction of a block. -/
inductive Instruction where
  /-- Declares a scalar variable without giving it a value. -/
  | declare (name : String) (type : ValueType)
  /-- Copies a value into a variable. -/
  | assign (target : String) (value : Operand)
  /-- Stores the result of an operation. -/
  | evaluate (target : String) (op : ArithOp) (lhs rhs : Operand)
  /-- Writes a value to the output. -/
  | print (value : Operand)
  /-- Reads any value of the type of the target. -/
  | input (target : String)
  /-- Pushes a value on the runtime stack. -/
  | push (value : Operand)
  /-- Pushes a marker naming the block where a caller goes on. -/
  | pushState (block : String)
  /-- Pops the top value into a variable, or drops it. -/
  | pop (target : Option String)
  /-- Declares an array. -/
  | declareArray (name : String) (type : ValueType) (size : Operand)
  /-- Copies an element of an array into a variable. -/
  | readArray (target array : String) (index : Operand)
  /-- Stores a value in an element of an array. -/
  | writeArray (array : String) (index value : Operand)
  /-- Goes to a block if a test holds; a `jump` for the other case follows. -/
  | jumpIf (test : Comparison) (block : String)
  /-- Goes to a block. -/
  | jump (block : String)
  /-- Returns to the caller, possibly with a value. -/
  | ret (value : Option Operand)
  deriving BEq, Inhabited

namespace Instruction

/-- Control instructions decide where execution goes on. -/
def isControl : Instruction → Bool
  | jumpIf _ _ => true
  | jump _ => true
  | ret _ => true
  | _ => false

/-- The scalar variable an instruction writes.  A declaration counts. -/
def definedVariable : Instruction → Option String
  | declare name _ => some name
  | assign target _ => some target
  | evaluate target _ _ _ => some target
  | input target => some target
  | readArray target _ _ => some target
  | pop target => target
  | _ => none

/-- The operands an instruction reads, in the order it is written. -/
def operands : Instruction → List Operand
  | assign _ value => [value]
  | evaluate _ _ lhs rhs => [lhs, rhs]
  | print value => [value]
  | push value => [value]
  | declareArray _ _ size => [size]
  | readArray _ _ index => [index]
  | writeArray _ index value => [index, value]
  | jumpIf test _ => [test.lhs, test.rhs]
  | ret value => value.toList
  | _ => []

/-- Replaces every operand. -/
def mapOperands (f : Operand → Operand) : Instruction → Instruction
  | assign target value => assign target (f value)
  | evaluate target op lhs rhs => evaluate target op (f lhs) (f rhs)
  | print value => print (f value)
  | push value => push (f value)
  | declareArray name type size => declareArray name type (f size)
  | readArray target array index => readArray target array (f index)
  | writeArray array index value => writeArray array (f index) (f value)
  | jumpIf test block => jumpIf { test with lhs := f test.lhs, rhs := f test.rhs } block
  | ret value => ret (value.map f)
  | i => i

/-- The names an instruction reads: variables first, then the array. -/
def readNames (i : Instruction) : List String :=
  i.operands.filterMap Operand.var? ++
    match i with
    | readArray _ array _ => [array]
    | writeArray array _ _ => [array]
    | _ => []

/-- An instruction as it is shown. -/
def text : Instruction → String
  | declare name type => s!"{type} {name}"
  | assign target value => s!"{target} = {value}"
  | evaluate target op lhs rhs => s!"{target} = {lhs} {op} {rhs}"
  | print value => s!"print {value}"
  | input target => s!"input {target}"
  | push value => s!"push {value}"
  | pushState block => s!"pushstate {block}"
  | pop (some target) => s!"pop {target}"
  | pop none => "pop"
  | declareArray name type size => s!"{type} {name}[{size}]"
  | readArray target array index => s!"{target} = {array}[{index}]"
  | writeArray array index value => s!"{array}[{index}] = {value}"
  | jumpIf test block => s!"jumpif {test} {block}"
  | jump block => s!"jump {block}"
  | ret (some value) => s!"return {value}"
  | ret none => "return"

instance : ToString Instruction := ⟨text⟩

end Instruction

end FlowVerifier
