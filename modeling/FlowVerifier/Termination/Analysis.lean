import FlowVerifier.Termination.Replay

/-!
# Termination of loops

`analyze` looks for an argument that a loop terminates, given the loops of a
program and a search of it; `validate` also reports the verdict.
-/

namespace FlowVerifier
namespace Termination

open Symbolic (SearchSummary)

/-- The result of looking for an argument. -/
structure LoopAnalysis where
  /-- The verdict. -/
  verdict : LoopVerdict
  /-- The record of the replay. -/
  replay : Replay := {}
  deriving Inhabited

/-- How many ways through a loop are replayed if nothing else is said. -/
def defaultMaxPaths : Nat := 10000

/-- The state in which the replay of a loop starts, if the search entered it. -/
def startState? (g : FlowGraph) (summary : SearchSummary) (l : Loop) : Option Symbolic.Path :=
  if g.contains l.header && summary.isReached l.header then
    (summary.state? l.header).map Symbolic.Path.restart
  else none

/-- Looks for an argument that a loop terminates.  If the block of the exit test
was removed although the header was not, no iteration is ever completed. -/
def analyze (g : FlowGraph) (forest : LoopForest) (summary : SearchSummary) (maxPaths k : Nat) :
    Except Error LoopAnalysis := do
  let loop ← forest.get k
  match loop.condition with
  | none => return { verdict := .noCondition }
  | some condition =>
    match startState? g summary loop with
    | none => return { verdict := .unreached }
    | some start =>
      if g.contains condition.block then
        let replay ← replay g ⟨k, loop, condition⟩ maxPaths start
        return { verdict := .conclude replay.paths replay.truncated, replay }
      else return { verdict := .terminates }

/-- Looks for an argument that a loop terminates, and reports the verdict. -/
def validate (forest : LoopForest) (summary : SearchSummary) (maxPaths k : Nat) :
    Transform LoopVerdict := do
  let g ← Transform.graph
  let loop ← forest.get k
  let analysis ← analyze g forest summary maxPaths k
  Transform.record
    { kind := if analysis.verdict.isWarning then .warning else .info
      node := some loop.headerName
      line := g.line? loop.header
      message := analysis.verdict.message loop.headerName }
  return analysis.verdict

/-- Validates all loops, outer loops first. -/
def validateAll (forest : LoopForest) (summary : SearchSummary) (maxPaths : Nat) :
    Transform (List LoopVerdict) :=
  (List.range forest.size).mapM (validate forest summary maxPaths)

end Termination
end FlowVerifier
