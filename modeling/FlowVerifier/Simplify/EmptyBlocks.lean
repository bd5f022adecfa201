import FlowVerifier.Workspace

/-!
# Empty blocks

A block without instructions that jumps to another block is a detour.  Whatever
refers to it, be it an edge, a marker, a call, a function or the start of the
program, is led to its target, and the block is removed.
-/

namespace FlowVerifier
namespace Simplify

/-- The target of a block that does nothing but jump to another. -/
def detourTarget? (g : FlowGraph) (id : BlockId) : Option BlockId :=
  match g.block? id with
  | none => none
  | some b =>
    if !b.populated || !b.isEmpty || g.last == some id then none
    else
      match b.terminator with
      | .jump target => if target = id then none else some target
      | _ => none

/-- The name of the pass. -/
def emptyBlocksName : String := "elide-empty-blocks"

/-- Removes a block that is only a detour.  Returns the blocks that may have
become simpler. -/
def elideEmptyBlock (id : BlockId) : Transform (List BlockId) := do
  let g ← Transform.graph
  match detourTarget? g id with
  | none => return []
  | some target =>
    let name := g.label id
    let targetName := g.label target
    Transform.edit (FlowGraph.redirect id target)
    Transform.edit (FlowGraph.removeNode id)
    Transform.record
      { kind := .edgeRedirected
        node := some name
        line := g.line? id
        message := s!"elided '{name}', edges now go to '{targetName}'"
        pass := some emptyBlocksName }
    return (g.predecessors id ++ [target]).filter (· != id)

end Simplify
end FlowVerifier
