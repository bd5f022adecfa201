import FlowVerifier.Flow.Valid
import FlowVerifier.Settings
import FlowVerifier.Simplify.Constants
import FlowVerifier.Simplify.EmptyBlocks
import FlowVerifier.Simplify.Fusion

/-!
# The simplifier

The passes are offered one block after the other from a worklist.  Every block
is on the list once to begin with, those of the main program in the order in
which control comes to them; a block comes back on the list when a pass reports
that it may have become simpler.  The simplifier ends when the list is empty, or
when it has made as many visits as it may.
-/

namespace FlowVerifier
namespace Simplify

/-! ## Passes -/

/-- A local simplification. -/
inductive Pass where
  /-- Constants within a block. -/
  | constants (removeUnused : Bool)
  /-- Empty blocks. -/
  | emptyBlocks
  /-- Fusion of blocks. -/
  | fusion
  deriving DecidableEq, Inhabited

namespace Pass

/-- The name of a pass. -/
def name : Pass → String
  | constants _ => constantsName
  | emptyBlocks => emptyBlocksName
  | fusion => fusionName

/-- A pass in words. -/
def description : Pass → String
  | constants _ => "Substitutes and folds block-local constants, collapsing constant branches"
  | emptyBlocks => "Redirects edges around blocks that only jump elsewhere"
  | fusion => "Merges blocks into a sole unconditional predecessor"

/-- Offers a block to a pass.  Returns the blocks that may have become simpler,
none if nothing changed. -/
def apply : Pass → BlockId → Transform (List BlockId)
  | constants removeUnused => propagateConstants removeUnused
  | emptyBlocks => elideEmptyBlock
  | fusion => fuseBlock

/-- The passes that are wanted, in the order they are applied: constant branches
leave empty blocks, and these leave chains of blocks. -/
def enabled (s : SimplifySettings) : List Pass :=
  (if s.constantPropagation then [constants s.removeUnusedAssignments] else []) ++
    (if s.elideEmptyBlocks then [emptyBlocks] else []) ++
    if s.fuseBlocks then [fusion] else []

end Pass

/-! ## The worklist -/

/-- How a simplification went. -/
structure Stats where
  /-- The number of blocks taken from the worklist. -/
  visits : Nat := 0
  /-- The number of times a pass changed the graph. -/
  changes : Nat := 0
  /-- Was the worklist emptied? -/
  converged : Bool := true
  deriving Inhabited

/-- Puts blocks on the worklist that exist and are not on it. -/
def enqueue (g : FlowGraph) (queue changed : List BlockId) : List BlockId :=
  changed.foldl (fun q id => if g.contains id && !q.contains id then q ++ [id] else q) queue

/-- Offers a block to the passes for as long as it exists.  Returns the worklist
and the number of changes. -/
def visit (id : BlockId) : List Pass → List BlockId × Nat → Transform (List BlockId × Nat)
  | [], state => return state
  | pass :: rest, (queue, changes) => do
    if (← Transform.graph).contains id then
      let changed ← pass.apply id
      if changed.isEmpty then visit id rest (queue, changes)
      else visit id rest (enqueue (← Transform.graph) queue changed, changes + 1)
    else return (queue, changes)

/-- Works through the worklist, making at most `left` more visits. -/
def drain (cap : Nat) (passes : List Pass) (left : Nat) (queue : List BlockId) (stats : Stats) :
    Transform Stats :=
  match queue, left with
  | [], _ => return stats
  | _ :: _, 0 => do
    Transform.record
      { kind := .warning, message := s!"simplification stopped after {cap} node visits" }
    return { stats with converged := false }
  | id :: rest, left + 1 => do
    let (queue, changes) ← visit id passes (rest, stats.changes)
    drain cap passes left queue { stats with visits := stats.visits + 1, changes }

/-- The worklist to begin with. -/
def initialQueue (g : FlowGraph) : List BlockId :=
  let main := g.first.elim [] g.adjacency.reversePostorder
  (main ++ g.ids).eraseDups

/-- Fails if the graph breaks a rule. -/
def checkValid : Transform Unit := do
  match (← Transform.graph).validate with
  | .ok () => return
  | .error e => throw e

/-- Applies passes until nothing changes any more or `cap` visits were made. -/
def run (cap : Nat) (passes : List Pass) : Transform Stats := do
  if passes.isEmpty then return {}
  for pass in passes do
    Transform.record
      { kind := .passStarted, message := pass.description, pass := some pass.name }
  let stats ← drain cap passes cap (initialQueue (← Transform.graph)) {}
  checkValid
  for pass in passes do
    Transform.record
      { kind := .passCompleted
        message := s!"{stats.changes} changes in {stats.visits} visits"
        pass := some pass.name }
  return stats

/-- Simplifies a graph as the settings say. -/
def simplify (s : SimplifySettings) : Transform Stats := run s.maxIterations (Pass.enabled s)

end Simplify
end FlowVerifier
