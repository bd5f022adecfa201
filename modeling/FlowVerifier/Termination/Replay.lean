import FlowVerifier.Loop.Forest
import FlowVerifier.Symbolic.Search
import FlowVerifier.Termination.Verdict

/-!
# Replay of one iteration

To find an argument for the termination of a loop, one iteration of it is
replayed on every way from the header to the exit test.  The replay starts in a
state that describes all states in which a search entered the header, and
forgets how variables moved before.  At the exit test each way is judged by how
it moved the operands of the test.

A way ends before that where it leaves the loop or meets a mistake.  It is
judged good where it enters an inner loop, which is judged by itself, and
possibly bad where it comes back to a block without meeting the exit test.  A
call is skipped, as its blocks are outside the loop.

Every way passes a block of the loop at most once: `Walk.unseen` are the blocks
it has not passed, and a way that goes on leaves one of them behind.
-/

namespace FlowVerifier
namespace Termination

open Symbolic

/-! ## The record of a replay -/

/-- What a replay has found so far. -/
structure Replay where
  /-- The judged ways, oldest first. -/
  paths : List (Verdict × Example) := []
  /-- How variables moved from the header to the end of each block. -/
  changes : Table BlockId (Table String TrendSet) := .empty
  /-- Were some ways not followed? -/
  truncated : Bool := false
  deriving Inhabited

namespace Replay

/-- Adds a judged way. -/
def judge (r : Replay) (verdict : Verdict) (e : Example) : Replay :=
  { r with paths := r.paths ++ [(verdict, e)] }

/-- Adds how a variable moved. -/
def addTrend (moved : Table String TrendSet) (name : String) (t : Trend) :
    Table String TrendSet :=
  moved.insert name ((moved.get? name).getD 0 ||| TrendSet.single t)

/-- Notes how the variables of a path have moved at the end of a block. -/
def note (r : Replay) (id : BlockId) (p : Path) : Replay :=
  let moved := p.vars.visible.entries.foldl (fun m (name, v) => addTrend m name v.trend)
    ((r.changes.get? id).getD .empty)
  { r with changes := r.changes.insert id moved }

end Replay

/-- A loop to be replayed. -/
structure Subject where
  /-- The index of the loop. -/
  index : Nat
  /-- The loop. -/
  loop : Loop
  /-- Its exit test. -/
  condition : LoopCondition

namespace Subject

/-- The example of a path through the loop. -/
def exampleOf (s : Subject) (p : Path) : Example := .ofPath p s.condition.continuation

/-- Is the exit test in the header? -/
def testsFirst (s : Subject) : Bool := s.condition.block == s.loop.header

/-- Does the block belong to an inner loop? -/
def isInner (s : Subject) (id : BlockId) : Bool :=
  (s.loop.member? id).any (·.owner != s.index)

end Subject

/-! ## One block -/

/-- How an operand has moved. -/
def operandTrend (p : Path) (o : Operand) : Trend := o.var?.elim .untouched (Example.trendOf p)

/-- Judges the path at the exit test.  A path that cannot go on leaves the
loop. -/
def judgePath (continuation : Comparison) : Exec Verdict := do
  match ← decideTest continuation with
  | .cant => return .good
  | _ =>
    let p ← Exec.path
    return judgeProgress continuation.op (operandTrend p continuation.lhs)
      (operandTrend p continuation.rhs)

/-- The side of the exit test on which the loop goes on. -/
def continuingTarget? (c : LoopCondition) : Terminator → Option BlockId
  | .branch _ onTrue onFalse => some (if c.continuesOnTrue then onTrue else onFalse)
  | .jump target => some target
  | _ => none

/-- Enters the loop at an exit test in the header. -/
def enterLoop (c : LoopCondition) (b : Block) : Exec (List Side) := do
  match continuingTarget? c b.terminator with
  | none => return []
  | some target =>
    if ← constrain c.continuation then
      Exec.modifyPath (·.assume b.name c.continuation)
      goTo target
    else return []

/-- The sides of a branch that are possible as far as its test is decided. -/
def sidesOf (test : Comparison) (onTrue onFalse : BlockId) :
    Satisfiability → List (Comparison × BlockId)
  | .must => [(test, onTrue)]
  | .cant => [(test.negated, onFalse)]
  | .may => [(test.negated, onFalse), (test, onTrue)]

/-- Leaves a block other than that of the exit test. -/
def leaveBlock (g : FlowGraph) (id : BlockId) (b : Block) : Exec (List Side) := do
  match g.callAt? id with
  | some (function, call) =>
    let result := (g.returnType? function).map Value.full
    let _ ← returnToCaller result (.callWithoutMarker b.name)
    goTo call.returnTo
  | none =>
    match b.terminator with
    | .jump target => goTo target
    | .branch test onTrue onFalse =>
      possibleSides b.name (sidesOf test onTrue onFalse (← decideTest test))
    | _ => return []

/-- Applies the body of a block; none if it makes a mistake. -/
def runBody (g : FlowGraph) (b : Block) (p : Path) : Except Error (Option Path) :=
  match (executeAll g.idOf? b.name b.body).runOn p with
  | (.ok (), trace) => .ok (some trace.path)
  | (.error (.program _), _) => .ok none
  | (.error e, _) => .error e

/-- Judges a way that has come to the exit test and passed the body of its
block. -/
def judgeAt (s : Subject) (p : Path) (r : Replay) : Except Error Replay := do
  let verdict ← ((judgePath s.condition.continuation).runOn p).1
  return r.judge verdict (s.exampleOf p)

/-- Passes a block for the first time.  Returns the sides on which the way goes
on. -/
def passBlock (g : FlowGraph) (s : Subject) (id : BlockId) (p : Path) (r : Replay) :
    Except Error (List Side × Replay) := do
  match g.block? id with
  | none => return ([], r)
  | some b =>
    if s.isInner id then return ([], r.judge .good (s.exampleOf p))
    match ← runBody g b p with
    | none => return ([], r)
    | some p =>
      let r := r.note id p
      if id = s.condition.block then
        if id = s.loop.header then
          return (← ((enterLoop s.condition b).runOn p).1, r)
        else return ([], ← judgeAt s p r)
      else return (← ((leaveBlock g id b).runOn p).1, r)

/-- Comes back to a block that was passed before. -/
def comeBack (g : FlowGraph) (s : Subject) (id : BlockId) (p : Path) (r : Replay) :
    Except Error Replay := do
  if id = s.loop.header ∧ s.testsFirst then
    match g.block? id with
    | none => return r
    | some b =>
      match ← runBody g b p with
      | none => return r
      | some p => judgeAt s p (r.note id p)
  else return r.judge .potential (s.exampleOf p)

/-! ## All ways -/

/-- A way through the loop in the making. -/
structure Walk where
  /-- The block the way has come to. -/
  block : BlockId
  /-- What is known on the way. -/
  path : Path
  /-- The blocks of the loop it has not passed. -/
  unseen : List BlockId
  deriving Inhabited

/-- The ways that continue a walk. -/
def continuations (unseen : List BlockId) (sides : List Side) : List Walk :=
  sides.map fun (block, path) => ⟨block, path, unseen⟩

theorem unseen_of_mem_continuations {unseen : List BlockId} {sides : List Side} {w : Walk}
    (h : w ∈ continuations unseen sides) : w.unseen = unseen := by
  simp only [continuations, List.mem_map] at h
  obtain ⟨_, _, rfl⟩ := h
  rfl

/-- Follows all ways of a frontier. -/
def replayAll (g : FlowGraph) (s : Subject) (maxPaths : Nat) (frontier : Frontier Walk)
    (r : Replay) : Except Error Replay :=
  match _hp : frontier.pending with
  | [] => .ok r
  | w :: rest =>
    let others : Frontier Walk := { frontier with pending := rest }
    if _hw : w.block ∈ w.unseen then
      match passBlock g s w.block w.path r with
      | .error e => .error e
      | .ok (sides, r) =>
        let ways := continuations (w.unseen.erase w.block) sides
        replayAll g s maxPaths (others.advance maxPaths ways)
          { r with truncated := r.truncated || others.overflows maxPaths ways }
    else if s.loop.contains w.block then
      match comeBack g s w.block w.path r with
      | .error e => .error e
      | .ok r => replayAll g s maxPaths others r
    else replayAll g s maxPaths others r
termination_by frontier.progress (fun w : Walk => w.unseen.length) maxPaths
decreasing_by
  · simp only [Frontier.progress, _hp]
    refine Frontier.advance_lt fun way hm => ?_
    rw [unseen_of_mem_continuations hm, List.length_erase_of_mem _hw]
    exact Nat.sub_lt (List.length_pos_of_mem _hw) Nat.one_pos
  · simp only [Frontier.progress, _hp]
    exact Prod.Lex.right _ (by simp [Frontier.work])
  · simp only [Frontier.progress, _hp]
    exact Prod.Lex.right _ (by simp [Frontier.work])

/-- Replays one iteration of a loop on every way from its header. -/
def replay (g : FlowGraph) (s : Subject) (maxPaths : Nat) (start : Path) :
    Except Error Replay :=
  replayAll g s maxPaths ⟨[⟨s.loop.header, start, s.loop.body.toList⟩], 1⟩ {}

end Termination
end FlowVerifier
