import FlowVerifier.Symbolic.Path
import FlowVerifier.Termination.Progress

/-!
# Verdicts on loops

The ways through a loop are judged one by one, and the loop by the worst of
them.  A verdict against a loop comes with an example: the branches taken on the
way, and how the variables of the exit test moved.
-/

namespace FlowVerifier
namespace Termination

open Symbolic (Path PathCondition Trend)

/-! ## Examples -/

/-- One way through a loop. -/
structure Example where
  /-- The branches taken, from the header on. -/
  conditions : List PathCondition
  /-- The variables of the exit test and how they moved. -/
  movements : List (String × Trend)
  deriving Inhabited

namespace Example

/-- How a variable has moved on a path. -/
def trendOf (p : Path) (name : String) : Trend :=
  ((p.var? name).map Symbolic.Variable.trend).getD .untouched

/-- The example of a path through a loop that goes on while a test holds. -/
def ofPath (p : Path) (continuation : Comparison) : Example where
  conditions := p.conditions.toList
  movements := continuation.readNames.map fun name => (name, trendOf p name)

/-- An example in words. -/
def text (e : Example) : String :=
  let conditions := ", ".intercalate (e.conditions.map PathCondition.text)
  let movements := ", ".intercalate (e.movements.map fun (name, t) => s!"{name} {t.text}")
  match e.conditions.isEmpty, e.movements.isEmpty with
  | true, true => "an empty path"
  | true, false => movements
  | false, true => conditions
  | false, false => conditions ++ "; " ++ movements

end Example

/-! ## Verdicts -/

/-- The verdict on a loop. -/
inductive LoopVerdict where
  /-- Every way through the loop makes progress. -/
  | terminates
  /-- No way makes progress, and one certainly does not. -/
  | onlyBadPaths (worst : Example)
  /-- Some way may not make progress. -/
  | potentialBadPath (worst : Example)
  /-- The loop has no exit test. -/
  | noCondition
  /-- The loop is never entered. -/
  | unreached
  /-- No way through the loop was found. -/
  | inconclusive
  /-- Some ways were not looked at, and no bad one was found. -/
  | incomplete
  deriving Inhabited

namespace LoopVerdict

/-- Does the verdict speak against the loop? -/
def isWarning : LoopVerdict → Bool
  | onlyBadPaths _ => true
  | potentialBadPath _ => true
  | noCondition => true
  | incomplete => true
  | _ => false

/-- The example that comes with a verdict. -/
def example? : LoopVerdict → Option Example
  | onlyBadPaths e => some e
  | potentialBadPath e => some e
  | _ => none

/-- The verdict on the loop of a header in words. -/
def message (header : String) : LoopVerdict → String
  | terminates => s!"loop at '{header}' terminates"
  | onlyBadPaths e => s!"could only find bad paths in loop at '{header}', e.g. {e.text}"
  | potentialBadPath e => s!"found a potentially bad path in loop at '{header}': {e.text}"
  | noCondition => "cannot argue termination: no condition"
  | unreached => s!"loop at '{header}' is never entered"
  | inconclusive => s!"no iteration of loop at '{header}' could be replayed"
  | incomplete => s!"analysis incomplete: iteration path limit reached in loop at '{header}'"

/-- The worse of two judged ways, the later of equally bad ones. -/
def worse (a b : Verdict × Example) : Verdict × Example :=
  if a.1.severity ≤ b.1.severity then b else a

/-- The verdict that follows from the judged ways. -/
def conclude (paths : List (Verdict × Example)) (truncated : Bool) : LoopVerdict :=
  match paths with
  | [] => if truncated then incomplete else inconclusive
  | first :: rest =>
    let worst := rest.foldl worse first
    match worst.1 with
    | .good => if truncated then incomplete else terminates
    | .bad =>
      if paths.any (·.1 == .good) then potentialBadPath worst.2 else onlyBadPaths worst.2
    | .potential => potentialBadPath worst.2

end LoopVerdict

end Termination
end FlowVerifier
