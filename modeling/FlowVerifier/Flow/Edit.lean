import FlowVerifier.Error
import FlowVerifier.Flow.Graph

/-!
# Edits of a flow graph

An edit changes a graph or fails; what it did before failing stays done.  The
edges of a graph change in one place, `setTerminator`, which keeps the lists of
predecessors in step.  The edges of returning blocks change with the calls on
record, in `editCalls`.
-/

namespace FlowVerifier

/-- An edit of a flow graph.  Its changes survive a failure. -/
abbrev Edit (α : Type) := ExceptT Error (StateM FlowGraph) α

namespace Edit

/-- Runs an edit on a graph. -/
def runOn {α : Type} (e : Edit α) (g : FlowGraph) : Except Error α × FlowGraph :=
  StateT.run (ExceptT.run e) g

/-- The block of an identifier. -/
def block (id : BlockId) : Edit Block := do
  match (← get).block? id with
  | some b => return b
  | none => throw (.unknownNode (BlockId.text id))

/-- The function of an identifier. -/
def function (id : FunctionId) : Edit FunctionInfo := do
  match (← get).function? id with
  | some f => return f
  | none => throw (.unknownFunction (FunctionId.text id))

end Edit

namespace FlowGraph

/-! ## Slots -/

/-- Changes a block, if there is one. -/
def modifyBlock (g : FlowGraph) (id : BlockId) (f : Block → Block) : FlowGraph :=
  { g with slots := g.slots.modify id (Option.map f) }

/-- Changes a function, if there is one. -/
def modifyFunction (g : FlowGraph) (id : FunctionId) (f : FunctionInfo → FunctionInfo) :
    FlowGraph :=
  { g with functions := g.functions.modify id f }

/-- Adds a block in a new slot. -/
def addBlock (g : FlowGraph) (b : Block) : FlowGraph := { g with slots := g.slots.push (some b) }

/-- Empties a slot. -/
def dropBlock (g : FlowGraph) (id : BlockId) : FlowGraph :=
  { g with slots := g.slots.setIfInBounds id none }

/-! ## Lists of predecessors -/

/-- Enters a block in the lists of its successors. -/
def attach (g : FlowGraph) (id : BlockId) : FlowGraph :=
  (g.successors id).foldl (fun g s => g.modifyBlock s (Block.addPredecessor id)) g

/-- Takes a block out of the lists of its successors. -/
def detach (g : FlowGraph) (id : BlockId) : FlowGraph :=
  (g.successors id).foldl (fun g s => g.modifyBlock s (Block.erasePredecessor id)) g

/-- The returning blocks of a function. -/
def returningBlocks (g : FlowGraph) (function : FunctionId) : List BlockId :=
  (g.blocks.filter fun (_, b) => b.function == some function && b.terminator.isReturn).map (·.1)

/-- Changes the calls on record for a function, and with them the edges of its
returning blocks. -/
def editCalls (g : FlowGraph) (function : FunctionId) (f : List Call → List Call) : FlowGraph :=
  let returning := g.returningBlocks function
  let g := returning.foldl detach g
  let g := g.modifyFunction function fun info => { info with calls := f info.calls }
  returning.foldl attach g

/-! ## Creating blocks -/

/-- Finds the block of a name; one that is not there is created to be defined
later. -/
def placeholder (name : String) : Edit BlockId := do
  let g ← get
  match g.idOf? name with
  | some id => return id
  | none =>
    set (g.addBlock { name, populated := false })
    return g.slots.size

/-- Finds or creates the block of a name for `createNode`. -/
def findOrCreate (name : String) (overwrite isExit : Bool) (function : Option FunctionId) :
    Edit BlockId := do
  let g ← get
  match g.idOf? name with
  | some id =>
    let b ← Edit.block id
    if b.populated && !overwrite then throw (.nodeExists name)
    set (g.modifyBlock id fun b =>
      { b with
        populated := true
        isExit := b.isExit || isExit
        function := function.or b.function })
    return id
  | none =>
    set (g.addBlock { name, isExit, function })
    return g.slots.size

/-- Creates a block.  A block that was only referred to so far is taken over,
and so is any other of this name if `overwrite` says so.  The first block
created becomes the first of the program. -/
def createNode (name : String) (overwrite isExit : Bool) (function : Option FunctionId) :
    Edit BlockId := do
  if let some f := function then
    let _ ← Edit.function f
  let id ← findOrCreate name overwrite isExit function
  modify fun g => { g with first := g.first.or (some id) }
  if isExit then
    if let some f := function then
      modify (·.modifyFunction f fun info => { info with exit := some id })
  return id

/-! ## Designations -/

/-- Makes a block the first of the program. -/
def setFirst (id : BlockId) : Edit Unit := do
  let _ ← Edit.block id
  modify fun g => { g with first := some id }

/-- Makes a block the last of the program. -/
def setLast (id : BlockId) : Edit Unit := do
  let _ ← Edit.block id
  modify fun g => { g with last := some id }

/-- Notes the source line of a block. -/
def setLine (id : BlockId) (line : Nat) : Edit Unit := do
  let _ ← Edit.block id
  modify (·.modifyBlock id fun b => { b with line := some line })

/-! ## Terminators and bodies -/

/-- Gives a block another terminator. -/
def setTerminator (id : BlockId) (terminator : Terminator) : Edit Unit := do
  let terminator := terminator.normalize
  for target in terminator.targets do
    let _ ← Edit.block target
  modify (·.detach id)
  let _ ← Edit.block id
  modify (·.modifyBlock id fun b => { b with terminator })
  modify (·.attach id)

/-- Gives a block another body. -/
def setBody (id : BlockId) (body : List Instruction) : Edit Unit := do
  let _ ← Edit.block id
  modify (·.modifyBlock id fun b => { b with body })

/-- The control instructions at the end of a list, with their targets by name. -/
inductive Suffix where
  /-- No control instruction. -/
  | none
  /-- A jump. -/
  | jump (target : String)
  /-- A conditional jump and the jump of its other side. -/
  | branch (test : Comparison) (onTrue onFalse : String)
  /-- A return. -/
  | ret (value : Option Operand)

/-- Reads the control instructions that start a list. -/
def parseSuffix : List Instruction → Except BlockFault Suffix
  | [] => .ok .none
  | [.jump target] => .ok (.jump target)
  | [.ret value] => .ok (.ret value)
  | [.jumpIf _ _] => .error .noFallThrough
  | [.jumpIf test onTrue, .jump onFalse] => .ok (.branch test onTrue onFalse)
  | .jumpIf _ _ :: .jump _ :: _ => .error .afterJump
  | _ => .error .controlInside

/-- The terminator that control instructions stand for.  Blocks they name are
created if need be. -/
def resolveSuffix (owner : Block) : Suffix → Edit Terminator
  | .none => return .finish
  | .jump target => return .jump (← placeholder target)
  | .branch test onTrue onFalse => do
    let onTrue ← placeholder onTrue
    let onFalse ← placeholder onFalse
    return .branch test onTrue onFalse
  | .ret value => do
    if owner.function.isNone then throw (.returnOutsideFunction owner.name)
    return .ret value

/-- Replaces all instructions of a block. -/
def setInstructions (id : BlockId) (instructions : List Instruction) : Edit Unit := do
  let owner ← Edit.block id
  let body := instructions.takeWhile (!·.isControl)
  match parseSuffix (instructions.dropWhile (!·.isControl)) with
  | .error fault => throw (.malformedBlock owner.name fault)
  | .ok suffix =>
    let terminator ← resolveSuffix owner suffix
    setTerminator id terminator
    modify (·.modifyBlock id fun b =>
      { b with body, closed := terminator != .finish, pending := none })

/-- Closes a block. -/
def closeBlock (id : BlockId) : Edit Unit := do
  let _ ← Edit.block id
  modify (·.modifyBlock id fun b => { b with closed := true })

/-- Appends one instruction to a block.  A conditional jump waits for the jump
that has to follow it. -/
def pushInstruction (id : BlockId) (instruction : Instruction) : Edit Unit := do
  let owner ← Edit.block id
  if owner.closed then throw (.blockClosed owner.name)
  let waiting := owner.pending.isSome
  match instruction with
  | .jumpIf test target =>
    if waiting then throw (.malformedBlock owner.name .twoConditionals)
    let target ← placeholder target
    modify (·.modifyBlock id fun b => { b with pending := some (test, target) })
  | .jump target =>
    let target ← placeholder target
    modify (·.modifyBlock id fun b => { b with pending := none })
    setTerminator id <|
      match owner.pending with
      | some (test, onTrue) => .branch test onTrue target
      | none => .jump target
    closeBlock id
  | .ret value =>
    if waiting then throw (.malformedBlock owner.name .returnAfterConditional)
    if owner.function.isNone then throw (.returnOutsideFunction owner.name)
    setTerminator id (.ret value)
    closeBlock id
  | other =>
    if waiting then throw (.malformedBlock owner.name .bodyAfterConditional)
    modify (·.modifyBlock id fun b => { b with body := b.body ++ [other] })

/-! ## Functions and calls -/

/-- Adds a function. -/
def addFunction (name : String) (params : List (String × ValueType))
    (returnType : Option ValueType) : Edit FunctionId := do
  let g ← get
  set { g with functions := g.functions.push { name, params, returnType } }
  return g.functions.size

/-- Makes a block the entry of a function. -/
def setFunctionEntry (function : FunctionId) (entry : BlockId) : Edit Unit := do
  let _ ← Edit.function function
  let _ ← Edit.block entry
  modify (·.modifyFunction function fun info => { info with entry := some entry })

/-- Records a call, after which the function also returns to `returnTo`. -/
def registerCall (function : FunctionId) (caller returnTo : BlockId) (saved : Nat) :
    Edit Unit := do
  let _ ← Edit.function function
  let _ ← Edit.block caller
  let _ ← Edit.block returnTo
  modify (·.editCalls function fun calls => calls ++ [⟨caller, returnTo, saved⟩])

end FlowGraph

end FlowVerifier
