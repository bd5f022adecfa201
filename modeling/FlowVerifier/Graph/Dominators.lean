import FlowVerifier.Graph.Semidominators

/-!
# Dominators

A node `a` dominates a node `b` if every path from the entry to `b` visits `a`.
The *immediate* dominator of `b` is the closest one other than `b` itself.  Every
node below its immediate dominator makes the *dominator tree*, and the dominators
of a node are the nodes on its way up this tree.
-/

namespace FlowVerifier

/-- What dominates what among the nodes reachable from an entry. -/
structure Dominators where
  /-- The node all paths start from. -/
  entry : Nat
  /-- The traversal from the entry. -/
  tree : SpanningTree
  /-- The immediate dominator of each node; the entry has itself, and a node that
  is not reachable has none. -/
  links : Array (Option Nat)
  deriving Inhabited

namespace Dominators

/-! ## Computation -/

/-- The dominators of the nodes reachable from `entry`. -/
def compute (g : Adjacency) (entry : Nat) : Dominators :=
  let tree := g.depthFirst entry
  { entry, tree
    links := (DominatorTables.finished g tree).immediate.setIfInBounds entry (some entry) }

/-! ## Queries -/

/-- Is the node reachable from the entry? -/
def isReachable (d : Dominators) (v : Nat) : Bool := d.tree.isReached v

/-- The reachable nodes, in the order they were discovered. -/
def reachable (d : Dominators) : List Nat := d.tree.preorder.toList

/-- The position of a reachable node in that order, counted from one. -/
def number? (d : Dominators) (v : Nat) : Option Nat :=
  d.tree.number[v]?.bind fun n => if n = 0 then none else some n

/-- The node above a node in the dominator tree, from which the entry leads to
itself. -/
def link? (d : Dominators) (v : Nat) : Option Nat := d.links[v]?.join

/-- The closest dominator of a node other than itself. -/
def immediate? (d : Dominators) (b : Nat) : Option Nat :=
  if b = d.entry ∨ d.isReachable b = false then none else d.link? b

/-- The way from a node up the dominator tree to the entry.  A node is numbered
after the one above it. -/
def wayUp (d : Dominators) (b : Nat) : List Nat :=
  if b = d.entry then [b]
  else
    match d.link? b with
    | none => [b]
    | some a =>
      if _h : d.tree.numberOf a < d.tree.numberOf b then b :: wayUp d a else [b]
termination_by d.tree.numberOf b

/-- The dominators of a node, from the node itself up to the entry. -/
def dominators (d : Dominators) (b : Nat) : List Nat :=
  if d.isReachable b then d.wayUp b else []

/-- Does every path from the entry to `b` visit `a`? -/
def dominates (d : Dominators) (a b : Nat) : Bool :=
  d.isReachable a && d.isReachable b && (d.dominators b).contains a

/-- Does `a` dominate `b` and differ from it? -/
def strictlyDominates (d : Dominators) (a b : Nat) : Bool := a != b && d.dominates a b

/-- How many dominators a node has besides itself. -/
def depth (d : Dominators) (b : Nat) : Nat := (d.dominators b).length - 1

/-- The nodes a node immediately dominates, in the order of their discovery. -/
def children (d : Dominators) (a : Nat) : List Nat :=
  d.reachable.filter fun b => b != d.entry && d.link? b == some a

end Dominators

end FlowVerifier
