/-!
# Graphs and depth-first traversal

A graph is given by the list of successors of each of its nodes, which are the
numbers below its size.  A depth-first traversal visits successors in the order
of these lists, so the numbering it yields is determined by the graph.

The traversal keeps the open nodes on a stack, each with the successors it has
not looked at yet.  Every step either discovers a node, of which there are
finitely many, or shortens what is left on the stack; this pair of quantities is
the measure by which it ends.
-/

namespace FlowVerifier

/-- A graph on the numbers below the size of the array. -/
structure Adjacency where
  /-- The successors of each node, in the order in which they are visited. -/
  lists : Array (List Nat)
  deriving Inhabited

namespace Adjacency

/-- The number of nodes. -/
def size (g : Adjacency) : Nat := g.lists.size

/-- The successors of a node; none if it is not a node of the graph. -/
def successors (g : Adjacency) (v : Nat) : List Nat := g.lists[v]?.getD []

/-- The graph with the given edges; edges of nodes outside it are left out. -/
def ofEdges (size : Nat) (edges : List (Nat × Nat)) : Adjacency :=
  ⟨edges.foldr (fun (source, target) lists => lists.modify source (target :: ·))
    (Array.replicate size [])⟩

/-- The edges of some nodes turned around: each node leads to those of its
predecessors that are in the list. -/
def reversedFrom (g : Adjacency) (nodes : List Nat) : Adjacency :=
  .ofEdges g.size (nodes.flatMap fun u => (g.successors u).map fun v => (v, u))

/-- The graph without the edges to nodes that fail a test. -/
def restrict (g : Adjacency) (p : Nat → Bool) : Adjacency := ⟨g.lists.map (·.filter p)⟩

end Adjacency

/-- A depth-first spanning tree of the nodes reachable from a start node. -/
structure SpanningTree where
  /-- The nodes in the order they were discovered. -/
  preorder : Array Nat := #[]
  /-- The nodes in the order they were finished. -/
  postorder : Array Nat := #[]
  /-- The node from which each node was discovered. -/
  parent : Array (Option Nat)
  /-- The position of each node in preorder, counted from one; zero for nodes
  that were not reached. -/
  number : Array Nat
  deriving Inhabited

namespace SpanningTree

/-- The tree of a traversal that has not started. -/
def empty (size : Nat) : SpanningTree where
  parent := Array.replicate size none
  number := Array.replicate size 0

/-- Was the node reached? -/
def isReached (t : SpanningTree) (v : Nat) : Bool := t.number[v]?.any (· != 0)

/-- Is `v` a node that was not reached yet? -/
def isUnseen (t : SpanningTree) (v : Nat) : Bool := t.number[v]?.any (· == 0)

/-- The number of a node; zero for nodes that were not reached. -/
def numberOf (t : SpanningTree) (v : Nat) : Nat := t.number[v]?.getD 0

/-- How many nodes were not reached yet. -/
def unseen (t : SpanningTree) : Nat := t.number.count 0

/-- Enters a node coming from `parent`. -/
def discover (t : SpanningTree) (v : Nat) (parent : Option Nat) : SpanningTree :=
  let position := t.preorder.size + 1
  { t with
    preorder := t.preorder.push v
    parent := t.parent.setIfInBounds v parent
    number := t.number.setIfInBounds v position }

/-- Leaves a node for good. -/
def finish (t : SpanningTree) (v : Nat) : SpanningTree :=
  { t with postorder := t.postorder.push v }

/-- Discovering a node leaves fewer to discover. -/
theorem unseen_discover_lt {t : SpanningTree} {v : Nat} (p : Option Nat)
    (h : t.isUnseen v = true) : (t.discover v p).unseen < t.unseen := by
  simp only [isUnseen, Option.any_eq_true] at h
  obtain ⟨n, hn, hz⟩ := h
  obtain ⟨hv, hnv⟩ := Array.getElem?_eq_some_iff.1 hn
  have hmem : 0 ∈ t.number := by
    rw [← beq_iff_eq.1 hz, ← hnv]
    exact Array.getElem_mem hv
  have hpos : 0 < t.number.count 0 := Array.count_pos_iff.2 hmem
  have hnew : (t.preorder.size + 1 == 0) = false := rfl
  simp only [unseen, discover, Array.setIfInBounds, hv, dite_true, Array.count_set hv, hnv, hz,
    hnew, if_true, Bool.false_eq_true, if_false]
  omega

end SpanningTree

namespace Adjacency

/-- What is left to look at on a stack of open nodes. -/
def pendingWork : List (Nat × List Nat) → Nat
  | [] => 0
  | (_, successors) :: rest => successors.length + 1 + pendingWork rest

/-- Carries a traversal on.  The stack holds the open nodes, innermost first,
with the successors they have not looked at. -/
def traverse (g : Adjacency) (stack : List (Nat × List Nat)) (t : SpanningTree) : SpanningTree :=
  match stack with
  | [] => t
  | (v, []) :: rest => g.traverse rest (t.finish v)
  | (v, w :: ws) :: rest =>
    if _h : t.isUnseen w = true then
      g.traverse ((w, g.successors w) :: (v, ws) :: rest) (t.discover w (some v))
    else g.traverse ((v, ws) :: rest) t
termination_by (t.unseen, pendingWork stack)
decreasing_by
  · exact Prod.Lex.right _ (by simp [pendingWork])
  · exact Prod.Lex.left _ _ (SpanningTree.unseen_discover_lt _ _h)
  · exact Prod.Lex.right _ (by simp [pendingWork])

/-- The depth-first tree of the nodes reachable from `start`; empty if `start`
is not a node. -/
def depthFirst (g : Adjacency) (start : Nat) : SpanningTree :=
  let t := SpanningTree.empty g.size
  if t.isUnseen start then g.traverse [(start, g.successors start)] (t.discover start none)
  else t

/-- The nodes reachable from `start`, each before its successors except along
edges that close a cycle. -/
def reversePostorder (g : Adjacency) (start : Nat) : List Nat :=
  (g.depthFirst start).postorder.toList.reverse

end Adjacency

end FlowVerifier
