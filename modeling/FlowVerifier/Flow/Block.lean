import FlowVerifier.Identifier
import FlowVerifier.Instruction

/-!
# Blocks and functions

A block is a straight-line body and a *terminator*, which says how control
leaves it.  The edges of a flow graph are the targets of terminators; a block
that returns has an edge to each place its function was called from.  Every
block also lists its predecessors, so that edges can be followed backward.
-/

namespace FlowVerifier

/-! ## Terminators -/

/-- How control leaves a block. -/
inductive Terminator where
  /-- The program ends, or the block is still being written. -/
  | finish
  /-- Control goes to one block. -/
  | jump (target : BlockId)
  /-- Control goes to one of two blocks, as a test says. -/
  | branch (test : Comparison) (onTrue onFalse : BlockId)
  /-- Control returns to the caller. -/
  | ret (value : Option Operand)
  deriving BEq, Inhabited

namespace Terminator

/-- The blocks a terminator names. -/
def targets : Terminator → List BlockId
  | jump target => [target]
  | branch _ onTrue onFalse => [onTrue, onFalse]
  | finish => []
  | ret _ => []

/-- Does the block return? -/
def isReturn : Terminator → Bool
  | ret _ => true
  | _ => false

/-- Does the block branch? -/
def isBranch : Terminator → Bool
  | branch _ _ _ => true
  | _ => false

/-- A branch both of whose sides lead to one block is a jump. -/
def normalize : Terminator → Terminator
  | branch test onTrue onFalse =>
    if onTrue = onFalse then jump onTrue else branch test onTrue onFalse
  | t => t

/-- Leads the edges to `old` to `new` instead. -/
def retarget (old new : BlockId) : Terminator → Terminator
  | jump target => jump (if target = old then new else target)
  | branch test onTrue onFalse =>
    normalize (branch test (if onTrue = old then new else onTrue)
      (if onFalse = old then new else onFalse))
  | t => t

/-- The variables a terminator reads. -/
def readNames : Terminator → List String
  | branch test _ _ => test.readNames
  | ret value => (value.bind Operand.var?).toList
  | _ => []

end Terminator

/-! ## Blocks -/

/-- A block. -/
structure Block where
  /-- The name, unique in its graph. -/
  name : String
  /-- The instructions before the control instructions. -/
  body : List Instruction := []
  /-- How control leaves the block. -/
  terminator : Terminator := .finish
  /-- The blocks with an edge to this one, ascending. -/
  predecessors : List BlockId := []
  /-- The function the block belongs to; none for the main program. -/
  function : Option FunctionId := none
  /-- Is the block the exit of its function? -/
  isExit : Bool := false
  /-- Was the block defined, and not only referred to? -/
  populated : Bool := true
  /-- Do control instructions end the block already? -/
  closed : Bool := false
  /-- A conditional jump that waits for the jump of its other side. -/
  pending : Option (Comparison × BlockId) := none
  /-- The source line of the block. -/
  line : Option Nat := none
  deriving Inhabited

namespace Block

/-- The test of a branch. -/
def test? (b : Block) : Option Comparison :=
  match b.terminator with
  | .branch test _ _ => some test
  | _ => none

/-- Has the block no body? -/
def isEmpty (b : Block) : Bool := b.body.isEmpty

/-- The names of the blocks to which the block pushes markers. -/
def pushedStates (b : Block) : List String :=
  b.body.filterMap fun
    | .pushState block => some block
    | _ => none

/-- The control instructions of the block, given names for blocks. -/
def controlSuffix (b : Block) (nameOf : BlockId → String) : List Instruction :=
  match b.terminator with
  | .finish => []
  | .jump target => [.jump (nameOf target)]
  | .branch test onTrue onFalse => [.jumpIf test (nameOf onTrue), .jump (nameOf onFalse)]
  | .ret value => [.ret value]

/-- Adds a predecessor. -/
def addPredecessor (id : BlockId) (b : Block) : Block :=
  if b.predecessors.contains id then b
  else
    { b with
      predecessors :=
        b.predecessors.filter (· < id) ++ id :: b.predecessors.filter (id < ·) }

/-- Takes a predecessor out. -/
def erasePredecessor (id : BlockId) (b : Block) : Block :=
  { b with predecessors := b.predecessors.filter (· != id) }

end Block

/-! ## Functions -/

/-- A call of a function. -/
structure Call where
  /-- The block that goes to the entry of the function. -/
  caller : BlockId
  /-- The block where the caller goes on. -/
  returnTo : BlockId
  /-- How many variables the caller saved on the stack. -/
  saved : Nat
  deriving Inhabited

/-- A function of the program. -/
structure FunctionInfo where
  /-- The name. -/
  name : String
  /-- The parameters, in order. -/
  params : List (String × ValueType) := []
  /-- The type of the result; none for a procedure. -/
  returnType : Option ValueType := none
  /-- The block that callers go to. -/
  entry : Option BlockId := none
  /-- The block that returns. -/
  exit : Option BlockId := none
  /-- The calls of the function. -/
  calls : List Call := []
  deriving Inhabited

namespace FunctionInfo

/-- The blocks where callers go on, each once and ascending. -/
def returnSites (f : FunctionInfo) : List BlockId :=
  ((f.calls.map Call.returnTo).mergeSort (· ≤ ·)).eraseDups

/-- The call made by a block. -/
def callFrom? (f : FunctionInfo) (caller : BlockId) : Option Call :=
  f.calls.find? (·.caller == caller)

/-- The signature of a function as it is shown. -/
def text (f : FunctionInfo) : String :=
  let result := f.returnType.elim "void" ValueType.text
  let params := f.params.map fun (name, type) => s!"{type} {name}"
  result ++ " " ++ f.name ++ "(" ++ ", ".intercalate params ++ ")"

end FunctionInfo

end FlowVerifier
