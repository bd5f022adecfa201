import FlowVerifier.BitSet
import FlowVerifier.Graph.Dominators

/-!
# Natural loops

An edge from `u` to `h` closes a loop if `h` dominates `u`; then `h` is the
*header* of the loop and `u` one of its *tails*.  The body of the loop consists
of the header and of every reachable node from which a tail can be reached
without passing the header.  Edges to one header make one loop.

The edges are taken in the order in which their sources were discovered.  The
first one that leads to a header opens a loop with the header as its body; each
one adds its source to the body, and with it everything that leads there.  The
header belongs to the body from the start, so nothing is added for the sake of
leading to the header.
-/

namespace FlowVerifier

namespace BitSet

/-- How many numbers below the capacity are not members. -/
def lacking (s : BitSet) : Nat := ((List.range s.capacity).filter (!s.contains ·)).length

/-- A new member leaves fewer numbers that are not members. -/
theorem lacking_lt {s t : BitSet} {i : Nat} (h : s.insert? i = some t)
    (hnew : s.contains i = false) : t.lacking < s.lacking := by
  unfold insert? at h
  split at h
  · rename_i hi
    obtain rfl := Option.some.inj h
    unfold lacking
    -- the numbers still lacking are the ones lacking before, without the new member
    have hstill : (List.range s.capacity).filter (fun j => !(s.mask ||| (1 <<< i)).testBit j) =
        ((List.range s.capacity).filter (!s.contains ·)).filter
          (fun j => !(1 <<< i).testBit j) := by
      rw [List.filter_filter]
      refine List.filter_congr fun j _ => ?_
      rw [Nat.testBit_or, Bool.not_or, Bool.and_comm]
      rfl
    have hmem : i ∈ (List.range s.capacity).filter (!s.contains ·) :=
      List.mem_filter.2 ⟨List.mem_range.2 hi, by rw [hnew]; rfl⟩
    have hlt := List.length_filter_lt_length_iff_exists (p := fun j => !(1 <<< i).testBit j).2
      ⟨i, hmem, by simp [Nat.one_shiftLeft]⟩
    rw [← hstill] at hlt
    exact hlt
  · cases h

end BitSet

/-- The loop of one header. -/
structure NaturalLoop where
  /-- The node through which the loop is entered. -/
  header : Nat
  /-- The sources of the edges back to the header, ascending. -/
  tails : List Nat
  /-- The nodes of the loop. -/
  body : BitSet
  deriving Inhabited

namespace NaturalLoop

/-! ## Filling the body -/

/-- The nodes whose predecessors were not looked at yet, and the body so far. -/
structure Filling where
  /-- The nodes to look at, the last one added first. -/
  stack : List Nat
  /-- The body so far. -/
  body : BitSet

namespace Filling

/-- Adds a node to the body, and to the stack if it is new. -/
def enter (s : Filling) (v : Nat) : Filling :=
  if s.body.contains v then s
  else
    match s.body.insert? v with
    | some body => { stack := v :: s.stack, body }
    | none => s

/-- Adds a node that counts as reachable. -/
def enterReachable (d : Dominators) (s : Filling) (v : Nat) : Filling :=
  if d.isReachable v then s.enter v else s

/-- How many steps may be left. -/
def work (s : Filling) : Nat := s.body.lacking + s.stack.length

theorem work_enter_le (s : Filling) (v : Nat) : (s.enter v).work ≤ s.work := by
  unfold enter
  split
  · exact Nat.le_refl _
  · rename_i hnew
    split
    · rename_i body hbody
      have hlt := BitSet.lacking_lt hbody (Bool.eq_false_iff.2 hnew)
      simp only [work, List.length_cons]
      omega
    · exact Nat.le_refl _

theorem work_foldl_le (d : Dominators) (l : List Nat) (s : Filling) :
    (l.foldl (enterReachable d) s).work ≤ s.work := by
  induction l generalizing s with
  | nil => exact Nat.le_refl _
  | cons v l ih =>
      refine Nat.le_trans (ih _) ?_
      unfold enterReachable
      split
      · exact work_enter_le s v
      · exact Nat.le_refl _

/-- Adds the reachable nodes that lead to a node on the stack, and the nodes that
lead there, until the stack is empty.  `sources` gives the predecessors of each
node. -/
def complete (sources : Adjacency) (d : Dominators) (s : Filling) : BitSet :=
  match _h : s.stack with
  | [] => s.body
  | v :: rest =>
    complete sources d
      ((sources.successors v).foldl (enterReachable d) { stack := rest, body := s.body })
termination_by s.work
decreasing_by
  refine Nat.lt_of_le_of_lt (work_foldl_le d _ _) ?_
  simp only [work, _h, List.length_cons]
  omega

end Filling

/-! ## Finding the loops -/

/-- A loop that consists of its header. -/
def atHeader (size header : Nat) : NaturalLoop where
  header
  tails := []
  body := (BitSet.empty size).insert header

/-- Adds the edge from `u` back to the header. -/
def addTail (sources : Adjacency) (d : Dominators) (u : Nat) (l : NaturalLoop) : NaturalLoop where
  header := l.header
  tails := if l.tails.contains u then l.tails else l.tails ++ [u]
  body := (Filling.enter { stack := [], body := l.body } u).complete sources d

/-- Adds an edge from `u` back to `header` to the loops found so far. -/
def addEdge (size : Nat) (sources : Adjacency) (d : Dominators) (loops : List NaturalLoop)
    (edge : Nat × Nat) : List NaturalLoop :=
  match loops.findIdx? (·.header == edge.2) with
  | some k => loops.modify k (addTail sources d edge.1)
  | none => loops ++ [addTail sources d edge.1 (atHeader size edge.2)]

/-- The edges that close a loop, in the order of the discovery of their sources. -/
def backEdges (g : Adjacency) (d : Dominators) : List (Nat × Nat) :=
  d.reachable.flatMap fun u =>
    ((g.successors u).filter (d.dominates · u)).map fun header => (u, header)

/-- Puts the tails in order. -/
def sortTails (l : NaturalLoop) : NaturalLoop := { l with tails := l.tails.mergeSort }

/-- The natural loops of a graph, by ascending header.  `sources` gives the
predecessors of each node. -/
def find (g sources : Adjacency) (d : Dominators) : List NaturalLoop :=
  (((backEdges g d).foldl (addEdge g.size sources d) []).map sortTails).mergeSort
    fun a b => decide (a.header ≤ b.header)

/-- The natural loops of a graph of which only the successors are listed. -/
def all (g : Adjacency) (d : Dominators) : List NaturalLoop :=
  find g (g.reversedFrom (List.range g.size)) d

end NaturalLoop

end FlowVerifier
