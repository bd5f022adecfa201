import FlowVerifier.Identifier
import FlowVerifier.Instruction
import FlowVerifier.Symbolic.Interval

/-!
# Errors

Three groups of errors with three different fates.

* A `ProgramError` is a mistake in the analysed program.  It ends the execution
  path it occurs on and is reported, but the analysis goes on.
* The structural errors (`Error.nodeExists` to `Error.unknownFunction`) refuse
  an edit of a flow graph.
* A `Defect`, and `Error.notLaminar`, mean that a graph or an analysis broke a
  rule that it is supposed to keep.

Errors are causes; their wording is in the functions called `message`.
-/

namespace FlowVerifier

open Symbolic (Interval)

/-! ## Mistakes of the analysed program -/

/-- Why operands do not fit together. -/
inductive Mismatch where
  /-- An operator was applied to operands of different types. -/
  | apply (op : ArithOp) (lhs rhs : ValueType)
  /-- An operator other than concatenation was applied to strings. -/
  | onStrings (op : ArithOp)
  /-- Two constants of different types were compared. -/
  | compareLiterals (lhs rhs : ValueType)
  /-- Two possible values of different types were compared. -/
  | compareValues (lhs rhs : ValueType)
  /-- An array was indexed, or its size given, by a string. -/
  | index (operand : Operand)

namespace Mismatch

/-- What does not fit. -/
def message : Mismatch → String
  | apply op lhs rhs => s!"cannot apply '{op}' to {lhs} and {rhs}"
  | onStrings op => s!"operator '{op}' is not defined for strings"
  | compareLiterals lhs rhs => s!"cannot compare {lhs} with {rhs}"
  | compareValues lhs rhs => s!"cannot compare {lhs} and {rhs}"
  | index operand => s!"index '{operand}' is not a double"

end Mismatch

/-- A mistake in the analysed program. -/
inductive ProgramError where
  /-- Operands do not fit together. -/
  | typeMismatch (cause : Mismatch)
  /-- A divisor is always zero. -/
  | divisionByZero
  /-- The divisor of a remainder is always zero. -/
  | moduloByZero
  /-- Every possible index lies outside the array. -/
  | outOfBounds (array : String) (index size : Interval Double)
  /-- No possible index is an integer. -/
  | nonIntegralIndex (array : String) (index : Interval Double)
  /-- A name is used that was never declared on this path. -/
  | undeclared (name : String)
  /-- Control goes to a block that was never defined. -/
  | undeclaredState (block : String)
  /-- A value is assigned to a variable of another type. -/
  | assignmentMismatch (name : String) (expected found : ValueType)
  /-- No possible size of an array is a positive integer. -/
  | invalidArraySize (array : String) (size : Interval Double)

namespace ProgramError

/-- The wording of a mistake. -/
def message : ProgramError → String
  | typeMismatch cause => "type mismatch: " ++ cause.message
  | divisionByZero => "division by zero"
  | moduloByZero => "modulo by zero"
  | outOfBounds array index size =>
    s!"index {index} is out of bounds for array '{array}' of size {size}"
  | nonIntegralIndex array index => s!"index {index} into array '{array}' is not an integer"
  | undeclared name => s!"use of undeclared identifier '{name}'"
  | undeclaredState block => s!"jump to undeclared state '{block}'"
  | assignmentMismatch name expected found =>
    s!"cannot assign a {found} value to '{name}' of type {expected}"
  | invalidArraySize array size => s!"invalid size {size} for array '{array}'"

end ProgramError

/-! ## Refused edits -/

/-- What is wrong with the control instructions of a block. -/
inductive BlockFault where
  /-- A conditional jump ends the list. -/
  | noFallThrough
  /-- Something follows a control instruction that may not follow it. -/
  | controlInside
  /-- Instructions follow the final jump. -/
  | afterJump
  /-- A conditional jump is appended after another. -/
  | twoConditionals
  /-- A return is appended after a conditional jump. -/
  | returnAfterConditional
  /-- A body instruction is appended after a conditional jump. -/
  | bodyAfterConditional
  /-- An instruction is given before any block was opened. -/
  | outside (instruction : Instruction)

namespace BlockFault

/-- The wording of a fault. -/
def message : BlockFault → String
  | noFallThrough => "conditional jump without a fall-through jump"
  | controlInside => "control instructions must end the block"
  | afterJump => "instructions after the final jump"
  | twoConditionals => "two conditional jumps in a row"
  | returnAfterConditional => "return after a conditional jump"
  | bodyAfterConditional => "instruction after a conditional jump"
  | outside instruction => s!"'{instruction}' outside of any block"

end BlockFault

/-! ## Broken rules -/

/-- A broken rule of a graph or an analysis. -/
inductive Defect where
  /-- A block is to be merged into itself. -/
  | selfMerge (block : BlockId)
  /-- An edge leads to a block that was removed. -/
  | deadEdge (source : String) (target : BlockId)
  /-- An edge is not listed at its target. -/
  | missingPredecessor (block predecessor : String)
  /-- A block lists a predecessor that has no edge to it. -/
  | strayPredecessor (block predecessor : String)
  /-- Both sides of a branch lead to the same block. -/
  | degenerateBranch (block : String)
  /-- A block returns that belongs to no function. -/
  | strayReturn (block : String)
  /-- A block with a role was removed. -/
  | deadDesignation (block : BlockId)
  /-- A control instruction stands in the body of a block. -/
  | controlInBody (instruction : Instruction) (block : String)
  /-- The empty stack is popped. -/
  | emptyStack (block : String)
  /-- A marker is popped as if it were a value. -/
  | markerAsValue (marker : BlockId) (block : String)
  /-- The search came to a block that was removed. -/
  | searchedRemoved (block : BlockId)
  /-- A block returns while the stack holds no marker. -/
  | returnWithoutMarker (block : String)
  /-- A block is entered recursively while the stack holds no marker. -/
  | recursionWithoutMarker (block : String)
  /-- A block calls while the stack holds no marker. -/
  | callWithoutMarker (block : String)
  /-- There is no loop with this index. -/
  | noSuchLoop (index : Nat)

namespace Defect

/-- The wording of a defect. -/
def message : Defect → String
  | selfMerge block => s!"cannot merge block {BlockId.text block} into itself"
  | deadEdge source target => s!"edge from '{source}' to removed block {BlockId.text target}"
  | missingPredecessor block predecessor => s!"'{block}' is missing predecessor '{predecessor}'"
  | strayPredecessor block predecessor =>
    s!"'{block}' lists '{predecessor}' as predecessor without an edge"
  | degenerateBranch block => s!"branch in '{block}' has identical targets"
  | strayReturn block => s!"'{block}' returns outside of a function"
  | deadDesignation block => s!"designated block {BlockId.text block} is not live"
  | controlInBody instruction block =>
    s!"control instruction '{instruction}' in the body of '{block}'"
  | emptyStack block => s!"bad stack use: pop from an empty stack in '{block}'"
  | markerAsValue marker block =>
    s!"bad stack use: return marker {BlockId.text marker} popped as a value in '{block}'"
  | searchedRemoved block => s!"search reached removed node {BlockId.text block}"
  | returnWithoutMarker block =>
    s!"bad stack use: return from '{block}' without a return marker"
  | recursionWithoutMarker block =>
    s!"bad stack use: recursive entry into '{block}' without a return marker"
  | callWithoutMarker block => s!"bad stack use: call in '{block}' without a return marker"
  | noSuchLoop index => s!"loop index {index} out of range"

end Defect

/-! ## All errors -/

/-- Anything that can go wrong. -/
inductive Error where
  /-- A block of this name exists. -/
  | nodeExists (name : String)
  /-- There is no such block, or it was removed. -/
  | unknownNode (label : String)
  /-- The block already ends in a control instruction. -/
  | blockClosed (name : String)
  /-- The control instructions of the block are not well formed. -/
  | malformedBlock (block : String) (fault : BlockFault)
  /-- An exit block cannot be removed while several blocks lead to it. -/
  | ambiguousExit (name : String)
  /-- A block returns, or is an exit, outside of any function. -/
  | returnOutsideFunction (block : String)
  /-- There is no such function. -/
  | unknownFunction (label : String)
  /-- The analysed program is wrong. -/
  | program (cause : ProgramError)
  /-- Two loops overlap although neither lies inside the other. -/
  | notLaminar (outer inner : String)
  /-- A rule is broken. -/
  | internal (cause : Defect)

namespace Error

/-- The wording of an error. -/
def message : Error → String
  | nodeExists name => s!"node '{name}' already exists"
  | unknownNode label => s!"unknown node '{label}'"
  | blockClosed name => s!"block '{name}' is already closed by a control instruction"
  | malformedBlock block fault => s!"malformed block '{block}': " ++ fault.message
  | ambiguousExit name =>
    s!"cannot remove exit node '{name}': it has more than one predecessor"
  | returnOutsideFunction block =>
    s!"return in block '{block}' which does not belong to a function"
  | unknownFunction label => s!"unknown function '{label}'"
  | program cause => cause.message
  | notLaminar outer inner =>
    s!"loop bodies of '{outer}' and '{inner}' overlap without nesting (not laminar)"
  | internal cause => cause.message

/-- Does the error concern only one path of the analysed program? -/
def isRecoverable : Error → Bool
  | program _ => true
  | _ => false

/-- Does the error mean that a rule was broken? -/
def isInternal : Error → Bool
  | internal _ => true
  | notLaminar _ _ => true
  | _ => false

end Error

end FlowVerifier
