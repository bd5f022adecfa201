import FlowVerifier.Graph.DepthFirst

/-!
# Immediate dominators by semidominators

A node leads *past* others to `w` if it leads there over nodes only that were
discovered after `w`.  The *semidominator* of `w` is the first discovered node
that does.  It lies above `w` in the depth-first tree, and the immediate
dominator lies no lower.

The nodes are processed from the last discovered to the first.  Processed nodes
hang in a forest made of tree edges, and `eval` finds, on the way up from a node
to the root of its forest tree, the node with the earliest semidominator.  This
serves twice:

* the semidominator of `w` is the earliest one among its predecessors and what
  `eval` finds above them (`improve`);
* a node waits at its semidominator until everything between the two is
  processed.  Then `eval` finds the node between them with the earliest
  semidominator.  If that is no earlier than its own, the semidominator is the
  immediate dominator, and otherwise the two nodes share theirs, which is looked
  up in a last pass (`settle`, `resolve`).

`eval` shortens the ways it has gone: afterwards every node on the way hangs
directly below the root, and remembers the best node it has skipped.
-/

namespace FlowVerifier

/-- The tables that the immediate dominators are computed with. -/
structure DominatorTables where
  /-- The semidominator of a processed node; every other node itself, or the
  earliest candidate so far. -/
  semi : Array Nat
  /-- The node above a processed node in the forest; none above the roots. -/
  above : Array (Option Nat)
  /-- The node with the earliest semidominator from a node up to the one below
  `above`. -/
  best : Array Nat
  /-- The nodes that wait at each node. -/
  waiting : Array (List Nat)
  /-- The immediate dominator, or a node that has the same one. -/
  immediate : Array (Option Nat)

namespace DominatorTables

/-- The tables before any node is processed. -/
def initial (size : Nat) : DominatorTables where
  semi := Array.range size
  above := Array.replicate size none
  best := Array.range size
  waiting := Array.replicate size []
  immediate := Array.replicate size none

/-! ## Looking up -/

/-- The semidominator of a node as far as known. -/
def semiOf (s : DominatorTables) (v : Nat) : Nat := s.semi[v]?.getD v

/-- The node above a node in the forest. -/
def aboveOf (s : DominatorTables) (v : Nat) : Option Nat := s.above[v]?.join

/-- The best node that a node knows of. -/
def bestOf (s : DominatorTables) (v : Nat) : Nat := s.best[v]?.getD v

/-- The nodes that wait at a node. -/
def waitingAt (s : DominatorTables) (v : Nat) : List Nat := s.waiting[v]?.getD []

/-- The entry of a node among the immediate dominators. -/
def immediateOf (s : DominatorTables) (v : Nat) : Option Nat := s.immediate[v]?.join

/-- The number of the semidominator of a node, by which nodes are compared. -/
def rank (t : SpanningTree) (s : DominatorTables) (v : Nat) : Nat := t.numberOf (s.semiOf v)

/-! ## The forest -/

/-- The way from `v` up the forest, without the root and the node below it.  A
node is numbered after the one above it. -/
def wayUp (t : SpanningTree) (s : DominatorTables) (v : Nat) : List Nat :=
  match s.aboveOf v with
  | none => []
  | some a =>
    if _h : (s.aboveOf a).isSome ∧ t.numberOf a < t.numberOf v then v :: wayUp t s a else []
termination_by t.numberOf v
decreasing_by exact _h.2

/-- Lets a node skip the one above it, which is looked at once more. -/
def shorten (t : SpanningTree) (v : Nat) (s : DominatorTables) : DominatorTables :=
  match s.aboveOf v with
  | none => s
  | some a =>
    { s with
      best :=
        if s.rank t (s.bestOf a) < s.rank t (s.bestOf v) then
          s.best.setIfInBounds v (s.bestOf a)
        else s.best
      above := s.above.setIfInBounds v (s.aboveOf a) }

/-- Shortens the way from `v` up the forest, from its upper end downward. -/
def compress (t : SpanningTree) (v : Nat) (s : DominatorTables) : DominatorTables :=
  (s.wayUp t v).foldr (shorten t) s

/-- The node with the earliest semidominator from `v` up to the node below the
root; the root itself if `v` is one. -/
def eval (t : SpanningTree) (v : Nat) (s : DominatorTables) : Nat × DominatorTables :=
  if (s.aboveOf v).isNone then (v, s) else ((s.compress t v).bestOf v, s.compress t v)

/-! ## Processing a node -/

/-- Takes a predecessor of `w` into account for the semidominator of `w`. -/
def improve (t : SpanningTree) (w : Nat) (s : DominatorTables) (v : Nat) : DominatorTables :=
  let found := s.eval t v
  if found.2.rank t found.1 < found.2.rank t w then
    { found.2 with semi := found.2.semi.setIfInBounds w (found.2.semiOf found.1) }
  else found.2

/-- Hangs `w` below its parent in the forest, and lets it wait at its
semidominator. -/
def link (w parent : Nat) (s : DominatorTables) : DominatorTables :=
  { s with
    waiting := s.waiting.modify (s.semiOf w) (· ++ [w])
    above := s.above.setIfInBounds w (some parent) }

/-- Enters the immediate dominator of a node that has waited at `parent`, or the
node that shares it. -/
def settle (t : SpanningTree) (parent : Nat) (s : DominatorTables) (v : Nat) :
    DominatorTables :=
  let found := s.eval t v
  { found.2 with
    immediate := found.2.immediate.setIfInBounds v
      (some (if found.2.rank t found.1 = found.2.rank t v then parent else found.1)) }

/-- Settles all nodes that wait at `parent`. -/
def release (t : SpanningTree) (parent : Nat) (s : DominatorTables) : DominatorTables :=
  (s.waitingAt parent).foldl (settle t parent)
    { s with waiting := s.waiting.setIfInBounds parent [] }

/-- Processes a node, with the predecessors that are given. -/
def process (t : SpanningTree) (incoming : Adjacency) (w : Nat) (s : DominatorTables) :
    DominatorTables :=
  match t.parent[w]?.join with
  | none => s
  | some parent =>
    (((incoming.successors w).foldl (improve t w) s).link w parent).release t parent

/-! ## The last pass -/

/-- Replaces a node that shares the immediate dominator of `w` by that one. -/
def resolve (s : DominatorTables) (w : Nat) : DominatorTables :=
  if s.immediateOf w = some (s.semiOf w) then s
  else
    { s with
      immediate := s.immediate.setIfInBounds w ((s.immediateOf w).bind s.immediateOf) }

/-- The tables when all nodes but the first are processed. -/
def processed (g : Adjacency) (t : SpanningTree) : DominatorTables :=
  t.preorder.toList.tail.foldr (process t (g.reversedFrom t.preorder.toList)) (initial g.size)

/-- The tables in the end. -/
def finished (g : Adjacency) (t : SpanningTree) : DominatorTables :=
  t.preorder.toList.tail.foldl resolve (processed g t)

end DominatorTables

end FlowVerifier
