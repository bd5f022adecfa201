import FlowVerifier.Flow.Graph

/-!
# Routines

One routine of a program, seen without the routines it calls: a block that makes
a call leads straight to the block where it goes on, and returning blocks lead
nowhere.  A loop whose body makes a call is a loop of its routine in this view,
however many other callers the function has.

Blocks are taken from a stack, starting with the entry; each block is put on the
stack once, when an edge first leads to it.
-/

namespace FlowVerifier
namespace FlowGraph

/-- Where control goes from a block within its routine. -/
def localSuccessors (g : FlowGraph) (id : BlockId) : List BlockId :=
  match g.callAt? id with
  | some (_, call) => [call.returnTo]
  | none =>
    match g.block? id with
    | none => []
    | some b => b.terminator.targets.filter g.contains

/-- The blocks still unmet after edges to `met` were followed. -/
def stillUnmet (unmet met : List BlockId) : List BlockId := unmet.filter fun u => !met.contains u

/-- Meeting a block leaves fewer to meet. -/
theorem length_stillUnmet_lt {unmet met : List BlockId} {id : BlockId} (hu : id ∈ unmet)
    (hm : id ∈ met) : (stillUnmet unmet met).length < unmet.length :=
  List.length_filter_lt_length_iff_exists.2 ⟨id, hu, by simpa using hm⟩

/-- The order in which blocks are taken from the stack.  `unmet` are the blocks
to which no edge was met so far. -/
def visitOrder (g : FlowGraph) (stack unmet : List BlockId) : List BlockId :=
  match stack with
  | [] => []
  | id :: rest =>
    match _h : ((g.localSuccessors id).filter (unmet.contains ·)).eraseDups with
    | [] => id :: g.visitOrder rest unmet
    | fresh :: more =>
      id :: g.visitOrder ((fresh :: more).reverse ++ rest) (stillUnmet unmet (fresh :: more))
termination_by (unmet.length, stack.length)
decreasing_by
  · exact Prod.Lex.right _ (by simp)
  · have hm : fresh ∈ ((g.localSuccessors id).filter (unmet.contains ·)).eraseDups := by
      rw [_h]
      exact List.mem_cons_self
    have hu : fresh ∈ unmet := by
      simpa using (List.mem_filter.1 (List.mem_eraseDups.1 hm)).2
    exact Prod.Lex.left _ _ (length_stillUnmet_lt hu List.mem_cons_self)

end FlowGraph

/-- The blocks and edges of one routine. -/
structure RoutineView where
  /-- The block the routine starts with. -/
  entry : BlockId
  /-- The edges of the routine, over all slots of the graph. -/
  edges : Adjacency
  /-- The sources of the edges to each block, in the order they were met. -/
  sources : Array (List BlockId)
  deriving Inhabited

namespace RoutineView

/-- The routine that starts with a block. -/
def ofEntry (g : FlowGraph) (entry : BlockId) : RoutineView :=
  let order :=
    if g.contains entry then
      g.visitOrder [entry] ((List.range g.slots.size).filter (· != entry))
    else []
  { entry
    edges := ⟨(Array.range g.slots.size).map fun id =>
      if order.contains id then g.localSuccessors id else []⟩
    sources := (Array.range g.slots.size).map fun id =>
      order.flatMap fun u => ((g.localSuccessors u).filter (· == id)).map fun _ => u }

end RoutineView

end FlowVerifier
