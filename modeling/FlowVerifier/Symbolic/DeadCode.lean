import FlowVerifier.Symbolic.Search

/-!
# Dead code

After a search that was not cut short, a block that no path entered is dead and
can be removed.  Kept are the first block and the blocks that were entered, and
with every block that is kept the blocks it jumps to and the blocks it pushes
markers for: where a path ended at a mistake, the code behind the mistake stays.

Exit blocks are removed last.  One that has several predecessors left cannot
hand its role on, and stays.
-/

namespace FlowVerifier
namespace Symbolic

/-! ## What is kept -/

/-- The blocks that are kept together with a block. -/
def keptWith (g : FlowGraph) (id : BlockId) : List BlockId :=
  match g.block? id with
  | none => []
  | some b =>
    b.pushedStates.filterMap g.idOf? ++
      match b.terminator with
      | .jump target => [target]
      | _ => []

/-- The blocks that are kept by themselves. -/
def keptAnyway (g : FlowGraph) (s : SearchSummary) : List BlockId :=
  g.ids.filter s.isReached ++ g.first.toList

/-- The graph of what is kept with what, with one more node that leads to the
blocks that are kept by themselves. -/
def keeping (g : FlowGraph) (s : SearchSummary) : Adjacency :=
  ⟨((Array.range g.slots.size).map (keptWith g)).push (keptAnyway g s)⟩

/-- The blocks that are kept: those to which the additional node leads. -/
def kept (g : FlowGraph) (s : SearchSummary) : SpanningTree :=
  (keeping g s).depthFirst g.slots.size

/-- The dead blocks, exit blocks last. -/
def deadBlocks (g : FlowGraph) (s : SearchSummary) : List BlockId :=
  let tree := kept g s
  let dead := g.ids.filter fun id => !tree.isReached id
  let isExit := fun id => (g.block? id).any Block.isExit
  dead.filter (fun id => !isExit id) ++ dead.filter isExit

/-! ## Removal -/

/-- Removes a block if its role can be handed on; says whether it was. -/
def tryRemove (id : BlockId) : Transform Bool := do
  let w ← get
  let (result, graph) := (FlowGraph.removeNode id).runOn w.graph
  set { w with graph }
  match result with
  | .ok () => return true
  | .error (.ambiguousExit _) => return false
  | .error e => throw e

/-- Removes a dead block and reports it; returns its name. -/
def removeDead (id : BlockId) : Transform (Option String) := do
  match (← Transform.graph).block? id with
  | none => return none
  | some b =>
    if ← tryRemove id then
      Transform.record
        { kind := .blockRemoved
          node := some b.name
          line := b.line
          message := "removed unreachable block" }
      Transform.recordOnce .warning b.name b.line "unreachable code"
      return some b.name
    else return none

/-- Removes the dead blocks after a search; returns their names.  Nothing is
concluded from a search that was cut short. -/
def eliminateDeadCode (s : SearchSummary) : Transform (List String) := do
  if s.truncated then return []
  (deadBlocks (← Transform.graph) s).filterMapM removeDead

end Symbolic
end FlowVerifier
