import FlowVerifier.Symbolic.Trend

/-!
# Progress of one iteration

A loop goes on while `a op b` holds.  One way through its body is judged by how
it moved `a` and `b`: an order test makes progress if a side moved toward the
other and none moved away, and an equality stops holding as soon as one side
moves while the other stays.  No movement ever makes a difference test fail for
certain.
-/

namespace FlowVerifier
namespace Termination

open Symbolic (Trend)

/-- The judgement of one way through a loop; later is worse. -/
inductive Verdict where
  /-- It moves toward the exit or leaves the loop. -/
  | good
  /-- It may or may not make progress. -/
  | potential
  /-- It makes no progress. -/
  | bad
  deriving DecidableEq, Inhabited

namespace Verdict

/-- A judgement in words. -/
def text : Verdict → String
  | good => "good"
  | potential => "potentially bad"
  | bad => "bad"

/-- How bad a judgement is. -/
def severity : Verdict → Nat
  | good => 0
  | potential => 1
  | bad => 2

/-- The judgement of a test with a side to move to and a side to move away from. -/
def directed (toward away : Bool) : Verdict :=
  if !toward then bad else if away then potential else good

end Verdict

/-- Judges an iteration that goes on while `a op b`, given how the sides moved. -/
def judgeProgress (op : RelOp) (a b : Trend) : Verdict :=
  if a = .unpredictable || b = .unpredictable then .potential
  else
    let closing := a == .increasing || b == .decreasing
    let parting := a == .decreasing || b == .increasing
    match op with
    | .lt => .directed closing parting
    | .le => .directed closing parting
    | .gt => .directed parting closing
    | .ge => .directed parting closing
    | .eq =>
      match a.isNeutral, b.isNeutral with
      | true, true => .bad
      | false, false => .potential
      | _, _ => .good
    | .ne => if a.isNeutral && b.isNeutral then .bad else .potential

end Termination
end FlowVerifier
