/-!
# Identifiers of blocks and functions

A flow graph keeps its blocks and its functions in tables and refers to them by
their position.  A position is never used again for another block, so that an
identifier stays good for as long as anything may remember it.
-/

namespace FlowVerifier

/-- The position of a block in its graph. -/
abbrev BlockId := Nat

/-- The position of a function in its graph. -/
abbrev FunctionId := Nat

/-- How a block without a name is referred to in texts. -/
def BlockId.text (id : BlockId) : String := "n" ++ toString id

/-- How a function without a name is referred to in texts. -/
def FunctionId.text (id : FunctionId) : String := "f" ++ toString id

end FlowVerifier
