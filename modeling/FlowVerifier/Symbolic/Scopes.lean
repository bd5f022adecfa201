import FlowVerifier.Symbolic.Variable
import FlowVerifier.Table

/-!
# Variables visible on a path

The variables of a path live in a chain of scopes.  When a path forks, both
sides open an empty scope on top of the chain they share, and write only there;
a name is looked up from the innermost scope outward.  A chain that has grown
too long is collapsed into a single scope.

`relation` asks what is known about two variables.  It follows the relations
that are current from one variable to the next, composing them on the way, and
keeps a record of the pairs of a variable and a relation that it has not met
yet.  The record only shrinks, which is why the search ends even on circular and
contradictory relations.
-/

namespace FlowVerifier
namespace Symbolic

/-- The variables visible on one path. -/
structure Scopes where
  /-- The innermost scope. -/
  inner : Table String Variable := .empty
  /-- The scopes around it, from the inside out. -/
  outer : List (Table String Variable) := []
  deriving Inhabited

namespace Scopes

/-- The number of scopes around the innermost one at which a chain is
collapsed. -/
def maxDepth : Nat := 32

/-- No variables. -/
def empty : Scopes := {}

/-- The number of scopes around the innermost one. -/
def depth (s : Scopes) : Nat := s.outer.length

/-- All visible variables, inner ones hiding outer ones of the same name. -/
def visible (s : Scopes) : Table String Variable := s.outer.foldl Table.orElse s.inner

/-- Collapses the chain. -/
def flatten (s : Scopes) : Scopes := ⟨s.visible, []⟩

/-- Opens an empty scope on top of the chain, which both sides of a fork do. -/
def fork (s : Scopes) : Scopes :=
  let child : Scopes := ⟨.empty, s.inner :: s.outer⟩
  if maxDepth < child.depth then child.flatten else child

/-! ## Looking up and binding -/

/-- The variable of a name. -/
def get? (s : Scopes) (name : String) : Option Variable :=
  (s.inner :: s.outer).findSome? (·.get? name)

/-- Is there a variable of this name? -/
def contains (s : Scopes) (name : String) : Bool := (s.get? name).isSome

/-- Binds a name in the innermost scope and leaves its version alone. -/
def bind (s : Scopes) (name : String) (v : Variable) : Scopes :=
  { s with inner := s.inner.insert name v }

/-- Changes a variable, if it is visible. -/
def modify (s : Scopes) (name : String) (f : Variable → Variable) : Scopes :=
  match s.get? name with
  | some v => s.bind name (f v)
  | none => s

/-- Binds a name.  A name that was bound before gets a version past the old one,
so that relations to the old variable do not count for the new one. -/
def insert (s : Scopes) (name : String) (v : Variable) : Scopes :=
  match s.get? name with
  | some old => s.bind name { v with version := max v.version (old.version + 1) }
  | none => s.bind name v

/-- The visible names, sorted. -/
def names (s : Scopes) : List String := s.visible.keys.mergeSort fun a b => !decide (b < a)

/-- Changes every visible variable. -/
def mapAll (s : Scopes) (f : String → Variable → Variable) : Scopes :=
  { s with inner := s.visible.map f }

/-! ## Relations -/

/-- Records a relation on both variables, if they are visible and distinct. -/
def relate (s : Scopes) (lhs : String) (op : RelOp) (rhs : String) : Scopes :=
  if lhs = rhs then s
  else
    match s.get? lhs, s.get? rhs with
    | some l, some r =>
      (s.modify lhs (·.relate op rhs r.version)).modify rhs (·.relate op.flip lhs l.version)
    | _, _ => s

/-- The relations of a variable that are current. -/
def currentRelations (s : Scopes) (name : String) : List Relation :=
  match s.get? name with
  | some v => v.relations.filter fun r => (s.get? r.other).map (·.version) == some r.version
  | none => []

/-- The variables one step on from `name`, related to the start of the chain by
the composition of `via` and the step. -/
def stepsFrom (s : Scopes) (name : String) (via : RelOp) : List (String × RelOp) :=
  (s.currentRelations name).filterMap fun r => (via.compose r.op).map fun op => (r.other, op)

/-- The stronger of what is known and what was found, if they can be compared. -/
def strengthen (known : Option RelOp) (op : RelOp) : Option RelOp :=
  match known with
  | some prev => if prev.implies op then some prev else some op
  | none => some op

/-- Follows relations breadth first.  `unmet` are the pairs not met yet. -/
def follow (s : Scopes) (goal : String) (unmet : List (String × RelOp))
    (queue : List (String × RelOp)) (known : Option RelOp) : Option RelOp :=
  match queue with
  | [] => known
  | (name, op) :: queue =>
    if _h : (name, op) ∈ unmet then
      if name = goal then
        s.follow goal (unmet.erase (name, op)) queue (strengthen known op)
      else
        s.follow goal (unmet.erase (name, op)) (queue ++ s.stepsFrom name op) known
    else s.follow goal unmet queue known
termination_by (unmet.length, queue.length)
decreasing_by
  · exact Prod.Lex.left _ _ (by
      rw [List.length_erase_of_mem _h]
      exact Nat.sub_lt (List.length_pos_of_mem _h) Nat.one_pos)
  · exact Prod.Lex.left _ _ (by
      rw [List.length_erase_of_mem _h]
      exact Nat.sub_lt (List.length_pos_of_mem _h) Nat.one_pos)
  · exact Prod.Lex.right _ (by simp)

/-- Every pair of a visible variable and a relation. -/
def allPairs (s : Scopes) : List (String × RelOp) :=
  s.visible.keys.flatMap fun name =>
    [RelOp.lt, .le, .gt, .ge, .eq, .ne].map fun op => (name, op)

/-- The strongest relation known between two variables. -/
def relation (s : Scopes) (lhs rhs : String) : Option RelOp :=
  if lhs = rhs then some .eq
  else s.follow rhs s.allPairs (s.stepsFrom lhs .eq) none

end Scopes

end Symbolic
end FlowVerifier
