import FlowVerifier.Workspace

/-!
# Fusion of blocks

A block whose only predecessor jumps to it is appended to that predecessor.  A
block that can be entered in another way stays as it is: the first block of the
program, the entry of a function, and a block where a caller goes on.
-/

namespace FlowVerifier
namespace Simplify

/-- Can the block be entered without following an edge of its routine? -/
def isEnteredElsewhere (g : FlowGraph) (id : BlockId) (b : Block) : Bool :=
  (g.functions.any fun f => f.entry == some id || f.calls.any (·.returnTo == id)) ||
    !(g.stateReferences b.name).isEmpty

/-- May the block `id` be appended to the block `pred`? -/
def canAbsorb (g : FlowGraph) (pred id : BlockId) (b : Block) : Bool :=
  pred != id &&
    (g.block? pred).any fun p =>
      p.populated && p.function == b.function && p.terminator == .jump id

/-- The predecessor to which a block can be appended. -/
def fusionTarget? (g : FlowGraph) (id : BlockId) : Option BlockId :=
  match g.block? id with
  | none => none
  | some b =>
    if !b.populated || g.first == some id then none
    else
      match b.predecessors with
      | [pred] =>
        if canAbsorb g pred id b && !isEnteredElsewhere g id b then some pred else none
      | _ => none

/-- The name of the pass. -/
def fusionName : String := "fuse-blocks"

/-- Appends a block to its only predecessor.  Returns the blocks that may have
become simpler. -/
def fuseBlock (id : BlockId) : Transform (List BlockId) := do
  let g ← Transform.graph
  match fusionTarget? g id with
  | none => return []
  | some pred =>
    let name := g.label id
    let predName := g.label pred
    Transform.edit (FlowGraph.mergeInto pred id)
    Transform.record
      { kind := .blockMerged
        node := some predName
        line := g.line? pred
        message := s!"merged '{name}' into '{predName}'"
        pass := some fusionName }
    return pred :: (← Transform.graph).successors pred

end Simplify
end FlowVerifier
