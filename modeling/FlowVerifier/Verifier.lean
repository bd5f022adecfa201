import FlowVerifier.Simplify.Worklist
import FlowVerifier.Symbolic.DeadCode
import FlowVerifier.Termination.Analysis

/-!
# Verification of a program

`verify` runs all stages on one flow graph:

1. it simplifies the graph;
2. it finds the loops and reports the outermost ones;
3. it searches all paths and removes the blocks that none of them enters;
4. it looks for a termination argument for each loop found before;
5. it may simplify what is left once more.
-/

namespace FlowVerifier

/-- The outcome of a verification. -/
structure Report where
  /-- Everything that was done and found. -/
  log : Log
  /-- The loops of the simplified program, before dead code was removed. -/
  loops : LoopForest
  /-- The verdicts on the loops, in order. -/
  verdicts : List Termination.LoopVerdict
  /-- The search. -/
  search : Symbolic.SearchSummary
  /-- The first simplification. -/
  simplify : Simplify.Stats
  /-- The second simplification. -/
  postSimplify : Option Simplify.Stats
  deriving Inhabited

namespace Report

/-- Was no mistake of the program found? -/
def isClean (r : Report) : Bool := !r.log.has .error

/-- The number of loops that terminate. -/
def terminating (r : Report) : Nat :=
  r.verdicts.countP fun
    | .terminates => true
    | _ => false

/-- The number of loops with a warning. -/
def flagged (r : Report) : Nat := r.verdicts.countP (·.isWarning)

/-- The report in one line; `elapsed` is the time it took. -/
def summary (r : Report) (elapsed : String) : String :=
  s!"{r.search.paths} paths" ++ (if r.search.truncated then " (truncated)" else "") ++
    s!", {r.search.removed.length} blocks removed, {r.loops.size} loops " ++
    s!"({r.terminating} terminating, {r.flagged} flagged), " ++
    s!"{r.log.count .warning} warnings, {r.log.count .error} errors in {elapsed}"

end Report

/-! ## Stages -/

/-- Reports the outermost loops. -/
def reportLoops (forest : LoopForest) : Transform Unit := do
  let g ← Transform.graph
  for k in forest.roots do
    if let some l := forest.get? k then
      Transform.record
        { kind := .loopReport
          node := some l.headerName
          line := g.line? l.header
          message := forest.report k }

/-- Searches the program, and removes dead code if that is wanted. -/
def searchAndPrune (s : SearchSettings) : Transform Symbolic.SearchSummary := do
  let summary ← Symbolic.search s
  if s.eliminateDeadCode then
    return { summary with removed := ← Symbolic.eliminateDeadCode summary }
  else return summary

/-- All stages of a verification. -/
def verifyStages (s : Settings) : Transform Report := do
  let simplify ← Simplify.simplify s.simplify
  let loops ← LoopForest.ofGraph (← Transform.graph)
  reportLoops loops
  let search ← searchAndPrune s.search
  let verdicts ←
    if s.validateTermination then
      Termination.validateAll loops search s.search.maxPaths
    else pure []
  let postSimplify ←
    if s.postSimplify then some <$> Simplify.simplify s.simplify else pure none
  return { log := (← get).log, loops, verdicts, search, simplify, postSimplify }

/-- Verifies a program.  The graph is changed also if the verification fails. -/
def verify (s : Settings) (g : FlowGraph) : Except Error Report × FlowGraph :=
  let (result, w) := (verifyStages s).runOn { graph := g }
  (result, w.graph)

end FlowVerifier
