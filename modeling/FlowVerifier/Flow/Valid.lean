import FlowVerifier.Error
import FlowVerifier.Flow.Graph

/-!
# Valid flow graphs

The rules that edits keep: edges and lists of predecessors agree, both sides of
a branch differ, only blocks of functions return, and every block with a role
exists.  `validate` finds the first rule that is broken.
-/

namespace FlowVerifier
namespace FlowGraph

/-- What is wrong with an edge. -/
def edgeDefect? (g : FlowGraph) (id : BlockId) (b : Block) (target : BlockId) : Option Defect :=
  match g.block? target with
  | none => some (.deadEdge b.name target)
  | some t =>
    if t.predecessors.contains id then none else some (.missingPredecessor t.name b.name)

/-- What is wrong with an entry in the list of predecessors. -/
def predecessorDefect? (g : FlowGraph) (id : BlockId) (b : Block) (pred : BlockId) :
    Option Defect :=
  if (g.successors pred).contains id then none else some (.strayPredecessor b.name (g.label pred))

/-- What is wrong with a terminator by itself. -/
def terminatorDefect? (b : Block) : Option Defect :=
  match b.terminator with
  | .branch _ onTrue onFalse => if onTrue = onFalse then some (.degenerateBranch b.name) else none
  | .ret _ => if b.function.isNone then some (.strayReturn b.name) else none
  | _ => none

/-- What is wrong with a block. -/
def blockDefect? (g : FlowGraph) (id : BlockId) (b : Block) : Option Defect :=
  (g.successors id).findSome? (g.edgeDefect? id b)
    <|> b.predecessors.findSome? (g.predecessorDefect? id b)
    <|> terminatorDefect? b

/-- The blocks with a role in a function. -/
def designatedBy (f : FunctionInfo) : List BlockId := f.entry.toList ++ f.exit.toList

/-- All blocks with a role. -/
def designated (g : FlowGraph) : List BlockId :=
  g.first.toList ++ g.last.toList ++ g.functions.toList.flatMap designatedBy ++
    g.functions.toList.flatMap fun f => f.calls.flatMap fun c => [c.caller, c.returnTo]

/-- The first rule that is broken. -/
def defect? (g : FlowGraph) : Option Defect :=
  (g.blocks.findSome? fun (id, b) => g.blockDefect? id b)
    <|> (g.designated.find? (!g.contains ·)).map .deadDesignation

/-- Fails if a rule is broken. -/
def validate (g : FlowGraph) : Except Error Unit :=
  match g.defect? with
  | some d => .error (.internal d)
  | none => .ok ()

end FlowGraph
end FlowVerifier
