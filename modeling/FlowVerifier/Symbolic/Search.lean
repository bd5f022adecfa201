import FlowVerifier.Settings
import FlowVerifier.Symbolic.Frontier
import FlowVerifier.Symbolic.Transfer
import FlowVerifier.Workspace

/-!
# Search of all paths

The search follows every path that is possible from the first block of a
program.  In each block it applies the instructions and then leaves it as the
terminator says.  A branch whose test is decided is followed one way; any other
branch splits the path, and each side is narrowed to what its test allows.  An
equality splits three ways, so that both sides of a test narrow the operands.

A path ends at the end of the program, at a mistake of the program, which is
reported, or where it shows nothing new.  Limits on the number of paths, on
their length and on widening may end it before; then the search is *truncated*,
and says so.

`search` returns what is known about every block: how often it was entered, and
a state that describes every entry.
-/

namespace FlowVerifier
namespace Symbolic

open Exec

/-! ## Results -/

/-- What a search has found out about one block. -/
structure BlockResult where
  /-- How often the block was entered. -/
  visits : Nat
  /-- A state that describes all entries. -/
  state : Path
  deriving Inhabited

/-- The outcome of a search. -/
structure SearchSummary where
  /-- The number of paths followed. -/
  paths : Nat := 0
  /-- Did a limit cut the search short? -/
  truncated : Bool := false
  /-- The blocks removed since because no path enters them. -/
  removed : List String := []
  /-- The results by block. -/
  results : Table BlockId BlockResult := .empty
  deriving Inhabited

namespace SearchSummary

/-- Did a path enter the block? -/
def isReached (s : SearchSummary) (id : BlockId) : Bool :=
  (s.results.get? id).any (0 < ·.visits)

/-- A state that describes all entries into a block. -/
def state? (s : SearchSummary) (id : BlockId) : Option Path :=
  (s.results.get? id).map BlockResult.state

end SearchSummary

/-- A limit of the search. -/
inductive Limit where
  /-- The length of a path. -/
  | depth
  /-- The number of widenings at one block. -/
  | widenings
  /-- The number of paths. -/
  | paths

/-- A limit in words. -/
def Limit.text : Limit → String
  | depth => "path depth limit reached"
  | widenings => "widening limit reached"
  | paths => "path limit reached"

/-- What a search has found out so far. -/
structure Findings where
  /-- The results by block. -/
  results : Table BlockId BlockResult := .empty
  /-- Was the search cut short? -/
  truncated : Bool := false
  /-- The diagnostics. -/
  log : Log
  deriving Inhabited

namespace Findings

/-- Notes that a path enters a block. -/
def enter (f : Findings) (id : BlockId) (p : Path) : Findings :=
  let result :=
    match f.results.get? id with
    | some r => ⟨r.visits + 1, r.state.join p⟩
    | none => ⟨1, p.detached⟩
  { f with results := f.results.insert id result }

/-- Notes that a limit was met at a block. -/
def truncate (f : Findings) (b : Block) (limit : Limit) : Findings :=
  { f with
    truncated := true
    log := f.log.recordOnce .warning b.name none ("analysis incomplete: " ++ limit.text) }

/-- Notes a mistake of the program in a block. -/
def mistake (f : Findings) (b : Block) (e : ProgramError) : Findings :=
  { f with log := f.log.recordOnce .error b.name b.line e.message }

/-- Notes the warnings raised in a block. -/
def warn (f : Findings) (b : Block) (warnings : Array String) : Findings :=
  { f with log := f.log.warn b.name b.line warnings }

end Findings

/-! ## Leaving a block -/

/-- A path together with the block it goes to. -/
abbrev Side := BlockId × Path

/-- Goes on to a block with the current path. -/
def goTo (target : BlockId) : Exec (List Side) := return [(target, ← path)]

/-- Drops the frame of the running routine and hands a result to its caller. -/
def returnToCaller (result : Option Value) (unmarked : Defect) : Exec BlockId := do
  match (← path).stack.unwind? with
  | none => throw (.internal unmarked)
  | some (site, stack) =>
    modifyPath fun p => { p with stack := result.elim stack stack.pushValue }
    return site

/-- The side of a branch on which a test holds, if that is possible. -/
def sideOf (node : String) (test : Comparison) (target : BlockId) : Exec (Option Side) := do
  let before ← path
  modifyPath Path.fork
  let possible ← constrain test
  let side := (← path).assume node test
  modifyPath fun _ => before
  return if possible then some (target, side) else none

/-- The possible ones among several sides, in order. -/
def possibleSides (node : String) (tests : List (Comparison × BlockId)) : Exec (List Side) :=
  tests.filterMapM fun (test, target) => sideOf node test target

/-- How an undecided test splits a path. -/
def splitOf (test : Comparison) (onTrue onFalse : BlockId) : List (Comparison × BlockId) :=
  match test.op with
  | .eq =>
    [({ test with op := .lt }, onFalse), ({ test with op := .gt }, onFalse), (test, onTrue)]
  | .ne =>
    [({ test with op := .eq }, onFalse), ({ test with op := .lt }, onTrue),
      ({ test with op := .gt }, onTrue)]
  | _ => [(test.negated, onFalse), (test, onTrue)]

/-- Leaves a block by a branch. -/
def takeBranch (node : String) (test : Comparison) (onTrue onFalse : BlockId) :
    Exec (List Side) := do
  match ← decideTest test with
  | .must =>
    modifyPath (·.assume node test)
    goTo onTrue
  | .cant =>
    modifyPath (·.assume node test.negated)
    goTo onFalse
  | .may => possibleSides node (splitOf test onTrue onFalse)

/-- Leaves a block by a return. -/
def takeReturn (node : String) (value : Option Operand) : Exec (List Side) := do
  let result ← value.mapM operand
  goTo (← returnToCaller result (.returnWithoutMarker node))

/-- Goes through a block and leaves it. -/
def runBlock (g : FlowGraph) (b : Block) : Exec (List Side) := do
  executeAll g.idOf? b.name b.body
  match b.terminator with
  | .finish => return []
  | .jump target => goTo target
  | .branch test onTrue onFalse => takeBranch b.name test onTrue onFalse
  | .ret value => takeReturn b.name value

/-- Skips a call that repeats one that is still running.  Nothing is known about
what it does. -/
def skipCall (g : FlowGraph) (b : Block) : Exec (List Side) := do
  let result := (b.function.bind g.returnType?).map Value.full
  let site ← returnToCaller result (.recursionWithoutMarker b.name)
  modifyPath Path.clobber
  goTo site

/-! ## One step -/

/-- A path that is about to enter a block. -/
structure Prospect where
  /-- The block. -/
  block : BlockId
  /-- The path. -/
  path : Path
  /-- How many more blocks the path may enter. -/
  left : Nat
  deriving Inhabited

/-- Takes down what happened in a block.  A mistake of the program ends only the
path it occurs on. -/
def Findings.conclude (f : Findings) (b : Block) (outcome : Except Error (List Side) × Trace) :
    Except Error (List Side) × Findings :=
  let f := f.warn b outcome.2.warnings
  match outcome.1 with
  | .ok sides => (.ok sides, f)
  | .error (.program e) => (.ok [], f.mistake b e)
  | .error e => (.error e, f)

/-- Lets a path enter a block.  Returns the ways on which it leaves the block. -/
def visit (g : FlowGraph) (limits : SearchSettings) (b : Block) (id : BlockId) (p : Path)
    (f : Findings) : Except Error (List Side) × Findings :=
  if b.populated then
    let f := f.enter id p
    match p.enter id limits.maxWidenings with
    | (.subsumed, _) => (.ok [], f)
    | (.exhausted, _) => (.ok [], f.truncate b .widenings)
    | (.recursion, p) => f.conclude b ((skipCall g b).runOn p)
    | (_, p) => f.conclude b ((runBlock g b).runOn p)
  else (.ok [], f.mistake b (.undeclaredState b.name))

/-- Ends a path that may enter no more blocks. -/
def stopBefore (b : Block) (f : Findings) : Findings :=
  if b.populated then f.truncate b .depth else f.mistake b (.undeclaredState b.name)

/-! ## The search -/

/-- The ways that continue a path. -/
def prospects (left : Nat) (sides : List Side) : List Prospect :=
  sides.map fun (block, path) => ⟨block, path, left⟩

theorem left_lt_of_mem_prospects {left : Nat} {sides : List Side} {p : Prospect}
    (h : p ∈ prospects left sides) : p.left < left + 1 := by
  simp only [prospects, List.mem_map] at h
  obtain ⟨_, _, rfl⟩ := h
  exact Nat.lt_succ_self left

/-- Follows all paths of a frontier.  Returns the number of paths started. -/
def explore (g : FlowGraph) (limits : SearchSettings) (frontier : Frontier Prospect)
    (f : Findings) : Except Error Nat × Findings :=
  match _hp : frontier.pending with
  | [] => (.ok frontier.started, f)
  | p :: rest =>
    match g.block? p.block with
    | none => (.error (.internal (.searchedRemoved p.block)), f)
    | some b =>
      match _hl : p.left with
      | 0 => explore g limits { frontier with pending := rest } (stopBefore b f)
      | left + 1 =>
        match visit g limits b p.block p.path f with
        | (.error e, f) => (.error e, f)
        | (.ok sides, f) =>
          let others : Frontier Prospect := { frontier with pending := rest }
          let next := others.advance limits.maxPaths (prospects left sides)
          if others.overflows limits.maxPaths (prospects left sides) then
            explore g limits next.narrowed (f.truncate b .paths)
          else explore g limits next f
termination_by frontier.progress Prospect.left limits.maxPaths
decreasing_by
  · simp only [Frontier.progress, _hp]
    exact Prod.Lex.right _ (by simp [Frontier.work])
  · simp only [Frontier.progress, _hp]
    exact Frontier.narrowed_le (Frontier.advance_lt fun side hs =>
      _hl ▸ left_lt_of_mem_prospects hs)
  · simp only [Frontier.progress, _hp]
    exact Frontier.advance_lt fun side hs => _hl ▸ left_lt_of_mem_prospects hs

/-- Searches a program from its first block. -/
def searchFrom (g : FlowGraph) (limits : SearchSettings) (log : Log) :
    Except Error SearchSummary × Log :=
  match g.first with
  | none => (.ok {}, log)
  | some first =>
    match explore g limits ⟨[⟨first, .start, limits.maxDepth⟩], 1⟩ { log } with
    | (.error e, f) => (.error e, f.log)
    | (.ok paths, f) => (.ok { paths, truncated := f.truncated, results := f.results }, f.log)

/-- Searches the program of the workspace. -/
def search (limits : SearchSettings) : Transform SearchSummary := do
  let w ← get
  let (result, log) := searchFrom w.graph limits w.log
  set { w with log }
  match result with
  | .ok summary => return summary
  | .error e => throw e

end Symbolic
end FlowVerifier
