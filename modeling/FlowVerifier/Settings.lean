/-!
# Settings

What each stage of a verification may do and how much work it may spend.  A
search that meets one of its limits stops early, and then nothing is concluded
from what it did not see.
-/

namespace FlowVerifier

/-- Settings of the simplifier. -/
structure SimplifySettings where
  /-- How many visits of blocks are made before the simplifier stops. -/
  maxIterations : Nat := 10000
  /-- Substitute and fold constants. -/
  constantPropagation : Bool := true
  /-- Redirect edges around blocks without instructions. -/
  elideEmptyBlocks : Bool := true
  /-- Merge a block into its only predecessor. -/
  fuseBlocks : Bool := true
  /-- Drop declarations and constant assignments of variables nobody reads. -/
  removeUnusedAssignments : Bool := true
  deriving Inhabited

namespace SimplifySettings

/-- Nothing is simplified. -/
def disabled : SimplifySettings where
  constantPropagation := false
  elideEmptyBlocks := false
  fuseBlocks := false
  removeUnusedAssignments := false

/-- Is anything to be simplified? -/
def anyEnabled (s : SimplifySettings) : Bool :=
  s.constantPropagation || s.elideEmptyBlocks || s.fuseBlocks || s.removeUnusedAssignments

end SimplifySettings

/-- Settings of the symbolic search. -/
structure SearchSettings where
  /-- How many paths are explored. -/
  maxPaths : Nat := 100000
  /-- How many blocks one path enters. -/
  maxDepth : Nat := 10000
  /-- How often one path is widened at one block. -/
  maxWidenings : Nat := 2
  /-- Remove the blocks that no path enters. -/
  eliminateDeadCode : Bool := true
  deriving Inhabited

/-- Settings of a whole verification. -/
structure Settings where
  /-- Simplification before the analyses. -/
  simplify : SimplifySettings := {}
  /-- The symbolic search. -/
  search : SearchSettings := {}
  /-- Look for a termination argument for every loop. -/
  validateTermination : Bool := true
  /-- Simplify once more at the end. -/
  postSimplify : Bool := false
  deriving Inhabited

namespace Settings

/-- Analyse only: the graph stays as it is. -/
def analysis : Settings where
  simplify := .disabled
  search := { eliminateDeadCode := false }

/-- Do everything. -/
def full : Settings where
  postSimplify := true

end Settings

end FlowVerifier
