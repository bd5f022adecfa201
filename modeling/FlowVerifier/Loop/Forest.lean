import FlowVerifier.Error
import FlowVerifier.Flow.RoutineView
import FlowVerifier.Graph.NaturalLoop

/-!
# The loops of a program

The loops of a program are the natural loops of its routines.  Sorted by their
bodies as numbers, largest first, every loop comes after the loops around it;
so its parent is the nearest earlier loop that has a block in common with it.
Two loops that have blocks in common although neither lies inside the other
break a rule, and are reported.

* `Loop` is one loop with its blocks, its parent and its exit test.
* `LoopForest` is the list of all loops.
* `LoopForest.ofGraph` finds them, `LoopForest.report` describes one in words.
-/

namespace FlowVerifier

/-! ## Loops -/

/-- The test on which a loop is left. -/
structure LoopCondition where
  /-- The block that branches, the header or a tail. -/
  block : BlockId
  /-- The test as it is written. -/
  test : Comparison
  /-- Does the loop go on if the test holds? -/
  continuesOnTrue : Bool
  deriving Inhabited

namespace LoopCondition

/-- The test that holds for as long as the loop goes on. -/
def continuation (c : LoopCondition) : Comparison :=
  if c.continuesOnTrue then c.test else c.test.negated

end LoopCondition

/-- A block of a loop. -/
structure LoopMember where
  /-- The block. -/
  block : BlockId
  /-- Its name. -/
  name : String
  /-- The innermost loop it belongs to. -/
  owner : Nat
  deriving Inhabited

/-- A loop of a program. -/
structure Loop where
  /-- The block through which the loop is entered. -/
  header : BlockId
  /-- The sources of the edges back to the header, ascending. -/
  tails : List BlockId
  /-- The blocks of the loop as a set. -/
  body : BitSet
  /-- The blocks of the loop, ascending. -/
  members : List LoopMember
  /-- The test on which the loop is left, if the header or a tail has one. -/
  condition : Option LoopCondition
  /-- The function the loop belongs to. -/
  function : Option FunctionId
  /-- The loop around this one. -/
  parent : Option Nat
  /-- The loops directly inside this one. -/
  children : List Nat := []
  /-- The number of loops around this one. -/
  depth : Nat
  deriving Inhabited

namespace Loop

/-- Is the block in the loop? -/
def contains (l : Loop) (id : BlockId) : Bool := l.body.contains id

/-- The number of blocks. -/
def size (l : Loop) : Nat := l.members.length

/-- A block as a member of the loop. -/
def member? (l : Loop) (id : BlockId) : Option LoopMember := l.members.find? (·.block == id)

/-- The name of a member. -/
def nameOf (l : Loop) (id : BlockId) : String := (l.member? id).elim "?" LoopMember.name

/-- The name of the header. -/
def headerName (l : Loop) : String := l.nameOf l.header

end Loop

/-! ## Forests -/

/-- The loops of a program, every loop after the loops around it. -/
structure LoopForest where
  /-- The loops. -/
  loops : Array Loop := #[]
  deriving Inhabited

namespace LoopForest

/-- The number of loops. -/
def size (f : LoopForest) : Nat := f.loops.size

/-- Are there no loops? -/
def isEmpty (f : LoopForest) : Bool := f.loops.isEmpty

/-- The loop of an index. -/
def get? (f : LoopForest) (k : Nat) : Option Loop := f.loops[k]?

/-- The loop of an index as a result. -/
def get (f : LoopForest) (k : Nat) : Except Error Loop :=
  match f.get? k with
  | some l => .ok l
  | none => .error (.internal (.noSuchLoop k))

/-- The loops around which there is no other. -/
def roots (f : LoopForest) : List Nat :=
  (List.range f.size).filter fun k => (f.get? k).any (·.parent.isNone)

/-- The loops directly inside a loop. -/
def children (f : LoopForest) (k : Nat) : List Nat := (f.get? k).elim [] Loop.children

/-- The loop of a header. -/
def ofHeader? (f : LoopForest) (id : BlockId) : Option Loop :=
  f.loops.toList.find? (·.header == id)

/-- The innermost loop a block belongs to. -/
def innermost? (f : LoopForest) (id : BlockId) : Option Nat :=
  (List.range f.size).reverse.find? fun k => (f.get? k).any (·.contains id)

/-- The number of loops a block belongs to. -/
def depthOf (f : LoopForest) (id : BlockId) : Nat :=
  ((f.innermost? id).bind f.get?).elim 0 (·.depth + 1)

/-! ## Reports -/

/-- The line on the exit test of a loop. -/
def conditionText (l : Loop) : String :=
  match l.condition with
  | some c => s!"  condition in '{l.nameOf c.block}': {c.continuation}"
  | none => "  no condition"

/-- A member of the loop `k` as it is shown. -/
def memberText (f : LoopForest) (k : Nat) (m : LoopMember) : String :=
  match f.get? m.owner with
  | some owner => if m.owner = k then m.name else s!"{m.name} (in loop '{owner.headerName}')"
  | none => m.name

/-- The lines on one loop by itself. -/
def ownLines (f : LoopForest) (k : Nat) : List String :=
  match f.get? k with
  | none => []
  | some l =>
    [s!"loop at '{l.headerName}'", conditionText l,
      "  members: " ++ ", ".intercalate (l.members.map (f.memberText k))]

/-- The lines on a loop and on the loops inside it, which come after it. -/
def reportLines (f : LoopForest) (k : Nat) : List String :=
  f.ownLines k ++
    (f.children k).flatMap fun j =>
      if _h : k < j ∧ j < f.size then (f.reportLines j).map ("    " ++ ·) else []
termination_by f.size - k

/-- A loop in words: header, exit test, members, and the loops inside it. -/
def report (f : LoopForest) (k : Nat) : String :=
  String.join ((f.reportLines k).map (· ++ "\n"))

end LoopForest

/-! ## Nesting -/

namespace NaturalLoop

/-- The branch of a block as the exit test of a loop, if just one side of it
stays in the loop. -/
def conditionAt? (g : FlowGraph) (l : NaturalLoop) (id : BlockId) : Option LoopCondition :=
  match (g.block? id).map Block.terminator with
  | some (.branch test onTrue onFalse) =>
    if l.body.contains onTrue = l.body.contains onFalse then none
    else some ⟨id, test, l.body.contains onTrue⟩
  | _ => none

/-- The exit test of a loop: that of the header, or else of the first tail that
has one. -/
def condition? (g : FlowGraph) (l : NaturalLoop) : Option LoopCondition :=
  (l.header :: l.tails).findSome? (l.conditionAt? g)

/-- Sorts loops by their bodies, largest first. -/
def sorted (loops : List NaturalLoop) : List NaturalLoop :=
  (BitSet.radixSortDescending (loops.map NaturalLoop.body).toArray).filterMap (loops[·]?)

/-- The indices of the loops before `k` that have a block in common with it, the
nearest first. -/
def meeting (loops : List NaturalLoop) (k : Nat) (l : NaturalLoop) : List Nat :=
  (List.range k).reverse.filter fun j => loops[j]?.any fun o => l.body.intersects o.body

/-- The nearest earlier loop that has a block in common with `l` without
containing it. -/
def clash? (loops : List NaturalLoop) (k : Nat) (l : NaturalLoop) : Option NaturalLoop :=
  ((meeting loops k l).filterMap (loops[·]?)).find? fun o => !l.body.isSubset o.body

/-- The parent of the loop `l` at index `k`. -/
def parent? (loops : List NaturalLoop) (k : Nat) (l : NaturalLoop) : Option Nat :=
  (meeting loops k l).head?

/-- The last loop that contains a block. -/
def lastContaining? (loops : List NaturalLoop) (id : BlockId) : Option Nat :=
  (List.range loops.length).reverse.find? fun k => loops[k]?.any (·.body.contains id)

end NaturalLoop

namespace LoopForest

/-- Makes the loop `k` a child of its parent. -/
def addChild (f : LoopForest) (k : Nat) (parent : Option Nat) : Array Loop :=
  match parent with
  | some p => f.loops.modify p fun o => { o with children := o.children ++ [k] }
  | none => f.loops

/-- Adds the next loop of a sorted list. -/
def addLoop (g : FlowGraph) (sorted : List NaturalLoop) (f : LoopForest) (l : NaturalLoop) :
    LoopForest :=
  let k := f.size
  let parent := NaturalLoop.parent? sorted k l
  { loops := (f.addChild k parent).push
      { header := l.header
        tails := l.tails
        body := l.body
        members := l.body.toList.map fun id =>
          ⟨id, g.label id, (NaturalLoop.lastContaining? sorted id).getD k⟩
        condition := l.condition? g
        function := (g.block? l.header).bind Block.function
        parent
        depth := (parent.bind f.get?).elim 0 (·.depth + 1) } }

/-- The first two loops, in sorted order, that overlap without nesting. -/
def overlap? (sorted : List NaturalLoop) : Option (NaturalLoop × NaturalLoop) :=
  (List.range sorted.length).findSome? fun k =>
    sorted[k]?.bind fun inner =>
      (NaturalLoop.clash? sorted k inner).map fun outer => (outer, inner)

/-- Nests loops. -/
def nest (g : FlowGraph) (loops : List NaturalLoop) : Except Error LoopForest :=
  let sorted := NaturalLoop.sorted loops
  match overlap? sorted with
  | some (outer, inner) => .error (.notLaminar (g.label outer.header) (g.label inner.header))
  | none => .ok (sorted.foldl (addLoop g sorted) {})

/-- The natural loops of the routine that starts with a block. -/
def ofRoutine (g : FlowGraph) (entry : BlockId) : List NaturalLoop :=
  let view := RoutineView.ofEntry g entry
  NaturalLoop.find view.edges ⟨view.sources⟩ (Dominators.compute view.edges entry)

/-- Adds the loops of a routine whose headers have no loop yet. -/
def addRoutine (g : FlowGraph) (found : List NaturalLoop) (entry : BlockId) : List NaturalLoop :=
  found ++ (ofRoutine g entry).filter fun l => found.all (·.header != l.header)

/-- The loops of a program. -/
def ofGraph (g : FlowGraph) : Except Error LoopForest :=
  nest g (g.routineEntries.foldl (addRoutine g) [])

end LoopForest

end FlowVerifier
