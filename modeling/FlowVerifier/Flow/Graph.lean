import FlowVerifier.Flow.Block
import FlowVerifier.Graph.DepthFirst

/-!
# Flow graphs

A program is a graph of named blocks with a table of functions.  A removed block
leaves its slot empty; its identifier is never given to another block.

This file has the queries; edits are in `FlowVerifier.Flow.Edit` and the rules
that a graph has to keep in `FlowVerifier.Flow.Valid`.
-/

namespace FlowVerifier

/-- A flow graph. -/
structure FlowGraph where
  /-- The blocks by identifier; `none` where a block was removed. -/
  slots : Array (Option Block) := #[]
  /-- The functions by identifier. -/
  functions : Array FunctionInfo := #[]
  /-- The block the program starts with. -/
  first : Option BlockId := none
  /-- The block the program ends with. -/
  last : Option BlockId := none
  deriving Inhabited

namespace FlowGraph

/-- The graph without blocks. -/
def empty : FlowGraph := {}

/-! ## Blocks -/

/-- The block of an identifier, if it was not removed. -/
def block? (g : FlowGraph) (id : BlockId) : Option Block := g.slots[id]?.join

/-- Is there a block of this identifier? -/
def contains (g : FlowGraph) (id : BlockId) : Bool := (g.block? id).isSome

/-- The blocks with their identifiers, ascending. -/
def blocks (g : FlowGraph) : List (BlockId × Block) :=
  (List.range g.slots.size).filterMap fun id => (g.block? id).map (id, ·)

/-- The identifiers of the blocks, ascending. -/
def ids (g : FlowGraph) : List BlockId := g.blocks.map (·.1)

/-- The number of blocks. -/
def size (g : FlowGraph) : Nat := g.blocks.length

/-- The block of a name. -/
def idOf? (g : FlowGraph) (name : String) : Option BlockId :=
  (List.range g.slots.size).find? fun id => (g.block? id).any (·.name == name)

/-- The name of a block. -/
def name? (g : FlowGraph) (id : BlockId) : Option String := (g.block? id).map Block.name

/-- The name of a block for messages; a removed block goes by its identifier. -/
def label (g : FlowGraph) (id : BlockId) : String := (g.name? id).getD (BlockId.text id)

/-- The source line of a block. -/
def line? (g : FlowGraph) (id : BlockId) : Option Nat := (g.block? id).bind Block.line

/-! ## Functions -/

/-- The function of an identifier. -/
def function? (g : FlowGraph) (id : FunctionId) : Option FunctionInfo := g.functions[id]?

/-- The function of a name, the first if there are several. -/
def functionOf? (g : FlowGraph) (name : String) : Option FunctionId :=
  (List.range g.functions.size).find? fun id => (g.function? id).any (·.name == name)

/-- The call a block makes, with the function called. -/
def callAt? (g : FlowGraph) (caller : BlockId) : Option (FunctionId × Call) :=
  (List.range g.functions.size).findSome? fun id =>
    ((g.function? id).bind (·.callFrom? caller)).map (id, ·)

/-- The type of the result of a function. -/
def returnType? (g : FlowGraph) (id : FunctionId) : Option ValueType :=
  (g.function? id).bind FunctionInfo.returnType

/-- The blocks at which routines start: the program's first block, then the
entries of the functions. -/
def routineEntries (g : FlowGraph) : List BlockId :=
  (g.first.toList ++ g.functions.toList.filterMap FunctionInfo.entry).filter g.contains

/-! ## Edges -/

/-- Where a function returns to. -/
def returnSitesOf (g : FlowGraph) (function : Option FunctionId) : List BlockId :=
  ((function.bind g.function?).map FunctionInfo.returnSites).getD []

/-- The blocks to which control can go from a block. -/
def successors (g : FlowGraph) (id : BlockId) : List BlockId :=
  match g.block? id with
  | none => []
  | some b => if b.terminator.isReturn then g.returnSitesOf b.function else b.terminator.targets

/-- The blocks a block lists as its predecessors. -/
def predecessors (g : FlowGraph) (id : BlockId) : List BlockId :=
  ((g.block? id).map Block.predecessors).getD []

/-- The edges of the graph. -/
def adjacency (g : FlowGraph) : Adjacency := ⟨(Array.range g.slots.size).map g.successors⟩

/-! ## Instructions and variables -/

/-- All instructions of a block, control instructions included. -/
def listing (g : FlowGraph) (id : BlockId) : List Instruction :=
  match g.block? id with
  | none => []
  | some b => b.body ++ b.controlSuffix g.label

/-- The blocks that push a marker to the block `name`. -/
def stateReferences (g : FlowGraph) (name : String) : List BlockId :=
  (g.blocks.filter fun (_, b) => b.pushedStates.contains name).map (·.1)

/-- The names a block reads. -/
def readNamesOf (b : Block) : List String :=
  b.body.flatMap Instruction.readNames ++ b.terminator.readNames

/-- The names read anywhere, each once and sorted. -/
def readVariables (g : FlowGraph) : List String :=
  ((g.blocks.flatMap fun (_, b) => readNamesOf b).mergeSort fun x y => !decide (y < x)).eraseDups

/-- The scalar variables written anywhere, each once and sorted. -/
def writtenVariables (g : FlowGraph) : List String :=
  ((g.blocks.flatMap fun (_, b) => b.body.filterMap Instruction.definedVariable).mergeSort
    fun x y => !decide (y < x)).eraseDups

/-- The blocks that write a variable, ascending. -/
def writersOf (g : FlowGraph) (name : String) : List BlockId :=
  (g.blocks.filter fun (_, b) => b.body.any (·.definedVariable == some name)).map (·.1)

end FlowGraph

end FlowVerifier
