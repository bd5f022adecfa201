import FlowVerifier.Folding
import FlowVerifier.Workspace
import FlowVerifier.Table

/-!
# Constants within a block

The instructions of a block are gone through in order with a table of variables
that are known to hold a constant.  Known constants are substituted into
operands, and an operation on constants is replaced by its result.  A branch
whose test becomes constant becomes a jump.  Nothing is assumed about the values
with which a block is entered.

Afterwards the declarations and constant assignments of variables that are
written in this block only, and read nowhere, may be dropped.

A test that compares a number with a string is a mistake of the program: it is
reported, and the block is left alone.
-/

namespace FlowVerifier
namespace Simplify

/-- The variables known to hold a constant. -/
abbrev Constants := Table String Literal

/-! ## Substitution -/

/-- The constant an operand is known to be without being written as one. -/
def known? (env : Constants) (o : Operand) : Option Literal := o.var?.bind env.get?

/-- Replaces a variable by its known constant. -/
def substitute (env : Constants) (o : Operand) : Operand :=
  match known? env o with
  | some l => .literal l
  | none => o

/-- Is there anything to replace? -/
def isAffected (env : Constants) (operands : List Operand) : Bool :=
  operands.any fun o => (known? env o).isSome

/-- The result of an operation on constants, if it has one. -/
def folded? : Instruction → Option Instruction
  | .evaluate target op (.literal a) (.literal b) =>
    match op.fold a b with
    | .ok value => some (.assign target (.literal value))
    | .error _ => none
  | _ => none

/-- An instruction with known constants substituted and operations on constants
carried out. -/
def simplified (env : Constants) (i : Instruction) : Instruction :=
  let i := i.mapOperands (substitute env)
  (folded? i).getD i

/-- Does simplification change the instruction? -/
def isSimplifiable (env : Constants) (i : Instruction) : Bool :=
  isAffected env i.operands || (folded? (i.mapOperands (substitute env))).isSome

/-- What is known after an instruction. -/
def Constants.after (env : Constants) : Instruction → Constants
  | .assign target (.literal value) => env.insert target value
  | i => i.definedVariable.elim env env.erase

/-- A body after simplification. -/
structure Propagation where
  /-- The simplified instructions. -/
  body : List Instruction
  /-- What is known at the end. -/
  known : Constants
  /-- What was changed, in words. -/
  notes : List String

/-- Simplifies a body from the front. -/
def propagate (env : Constants) : List Instruction → Propagation
  | [] => ⟨[], env, []⟩
  | i :: rest =>
    let j := simplified env i
    let tail := propagate (env.after j) rest
    { body := j :: tail.body
      known := tail.known
      notes := if isSimplifiable env i then s!"{i} -> {j}" :: tail.notes else tail.notes }

/-! ## Terminators -/

/-- What becomes of a terminator. -/
inductive Rewiring where
  /-- It stays a terminator of its kind, with a note if it changed. -/
  | keep (terminator : Terminator) (note : Option String)
  /-- A branch whose test is constant becomes a jump to `target`. -/
  | collapse (test : Comparison) (taken : Bool) (target dropped : BlockId)
  /-- The test is a mistake. -/
  | mistake (message : String)

/-- The message of a mistake in a constant test. -/
def mistakeMessage : ProgramError → String
  | .typeMismatch cause => cause.message
  | e => e.message

/-- Substitutes known constants into a terminator. -/
def rewire (env : Constants) : Terminator → Rewiring
  | .branch test onTrue onFalse =>
    let after := { test with lhs := substitute env test.lhs, rhs := substitute env test.rhs }
    match after.fold with
    | .ok (some true) => .collapse test true onTrue onFalse
    | .ok (some false) => .collapse test false onFalse onTrue
    | .ok none =>
      .keep (.branch after onTrue onFalse)
        (if isAffected env [test.lhs, test.rhs] then some s!"{test} -> {after}" else none)
    | .error e => .mistake (mistakeMessage e)
  | .ret (some value) =>
    let after := substitute env value
    .keep (.ret (some after))
      (if isAffected env [value] then some s!"return {value} -> return {after}" else none)
  | t => .keep t none

/-! ## Unused variables -/

/-- Does the instruction give its variable nothing but a constant? -/
def isPlainDefinition : Instruction → Bool
  | .declare _ _ => true
  | .assign _ (.literal _) => true
  | _ => false

/-- Can the definitions of a variable in a block be dropped? -/
def isUnused (g : FlowGraph) (id : BlockId) (b : Block) (name : String) : Bool :=
  !g.readVariables.contains name &&
    g.writersOf name == [id] &&
    b.body.all fun i => isPlainDefinition i || i.definedVariable != some name

/-- Does the instruction define a variable that nobody needs? -/
def isIdle (g : FlowGraph) (id : BlockId) (b : Block) (i : Instruction) : Bool :=
  i.definedVariable.any (isUnused g id b)

/-- Drops the definitions of variables that nobody needs, and returns them. -/
def dropUnused (id : BlockId) : Transform (List Instruction) := do
  let g ← Transform.graph
  match g.block? id with
  | none => return []
  | some b =>
    let (dropped, kept) := b.body.partition (isIdle g id b)
    unless dropped.isEmpty do Transform.edit (FlowGraph.setBody id kept)
    return dropped

/-! ## The pass -/

/-- The name of the pass. -/
def constantsName : String := "constant-propagation"

/-- Drops elements equal to the one before them. -/
def dropRepeats : List BlockId → List BlockId
  | a :: b :: rest => if a = b then dropRepeats (b :: rest) else a :: dropRepeats (b :: rest)
  | l => l

/-- Records a change that this pass made to a block. -/
def recordConstant (b : Block) (kind : EventKind) (message : String) : Transform Unit :=
  Transform.record
    { kind, node := some b.name, line := b.line, message, pass := some constantsName }

/-- Writes the simplified body; returns the block if anything changed. -/
def writeBody (id : BlockId) (b : Block) (body : List Instruction) (notes : List String) :
    Transform (List BlockId) := do
  if notes.isEmpty then return []
  Transform.edit (FlowGraph.setBody id body)
  for note in notes do recordConstant b .constantFolded note
  return [id]

/-- Drops unused variables, if that is wanted; returns the blocks changed. -/
def writeDropped (id : BlockId) (b : Block) (changed : List BlockId) :
    Transform (List BlockId) := do
  let dropped ← dropUnused id
  for i in dropped do recordConstant b .instructionRemoved s!"removed unused '{i}'"
  return if dropped.isEmpty || changed.contains id then changed else changed ++ [id]

/-- Propagates constants through a block.  Returns the blocks that may have
become simpler. -/
def propagateConstants (removeUnused : Bool) (id : BlockId) : Transform (List BlockId) := do
  match (← Transform.graph).block? id with
  | none => return []
  | some b =>
    let p := propagate .empty b.body
    match rewire p.known b.terminator with
    | .mistake message =>
      Transform.recordOnce .error b.name b.line message
      return []
    | .collapse test taken target dropped =>
      let changed ← writeBody id b p.body p.notes
      Transform.edit (FlowGraph.setTerminator id (.jump target))
      let label := (← Transform.graph).label target
      recordConstant b .branchSimplified s!"'{test}' is always {taken}, jumping to '{label}'"
      finish b (changed ++ [id, target, dropped])
    | .keep terminator note =>
      let changed ← writeBody id b p.body (p.notes ++ note.toList)
      unless changed.isEmpty do Transform.edit (FlowGraph.setTerminator id terminator)
      finish b changed
where
  /-- The last part of the pass: unused variables. -/
  finish (b : Block) (changed : List BlockId) : Transform (List BlockId) := do
    let changed ← if removeUnused then writeDropped id b changed else pure changed
    return dropRepeats changed

end Simplify
end FlowVerifier
