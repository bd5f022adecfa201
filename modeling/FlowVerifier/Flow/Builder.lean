import FlowVerifier.Flow.Edit
import FlowVerifier.Flow.Valid

/-!
# Drafts of programs

A program is drafted block by block: opening a block and then giving its
instructions.  Blocks opened after a function was started belong to it, and the
first of them pops the parameters.  A call saves variables, pushes a marker and
the arguments, and leaves the jump to be filled in when the program is built, so
that a function may be called before it is drafted.

A draft remembers the first mistake made; `build` then fails with it.
-/

namespace FlowVerifier

/-- A call whose target is not known yet. -/
structure CallDraft where
  /-- The name of the function called. -/
  function : String
  /-- The name of the block where the caller goes on. -/
  returnTo : String
  /-- How many variables were saved. -/
  saved : Nat
  deriving Inhabited

/-- A function that was started. -/
structure FunctionDraft where
  /-- The name. -/
  name : String
  /-- The parameters, in order. -/
  params : List (String × ValueType)
  /-- The type of the result. -/
  returnType : Option ValueType
  deriving Inhabited

/-- A block that was opened. -/
structure BlockDraft where
  /-- The name. -/
  name : String
  /-- The function the block belongs to. -/
  function : Option FunctionId
  /-- Is it the exit of its function? -/
  isExit : Bool
  /-- The source line. -/
  line : Option Nat := none
  /-- The instructions so far. -/
  instructions : List Instruction
  /-- The call that ends the block. -/
  call : Option CallDraft := none
  deriving Inhabited

/-- A program being drafted. -/
structure Draft where
  /-- The functions started. -/
  functions : Array FunctionDraft := #[]
  /-- The blocks opened, the last of which is still open. -/
  blocks : Array BlockDraft := #[]
  /-- The function that blocks are opened in. -/
  current : Option FunctionId := none
  /-- The position of the block the program ends with. -/
  last : Option Nat := none
  /-- The first mistake. -/
  error : Option Error := none
  deriving Inhabited

namespace Draft

/-- The empty draft. -/
def empty : Draft := {}

/-- Remembers a mistake, unless there was one before. -/
def fail (d : Draft) (e : Error) : Draft := { d with error := d.error.or (some e) }

/-- Changes the open block. -/
def modifyOpen (d : Draft) (f : BlockDraft → BlockDraft) : Draft :=
  { d with blocks := d.blocks.modify (d.blocks.size - 1) f }

/-! ## Blocks and functions -/

/-- The instructions with which a new block starts: the entry of a function pops
the parameters, the last first. -/
def prologue (d : Draft) : List Instruction :=
  match d.current with
  | none => []
  | some f =>
    if d.blocks.any (·.function == some f) then []
    else ((d.functions[f]?.map FunctionDraft.params).getD []).reverse.map fun (name, _) =>
      .pop (some name)

/-- Opens a block.  Only a function has an exit. -/
def openBlock (d : Draft) (name : String) (isExit : Bool) : Draft :=
  let d := if isExit && d.current.isNone then d.fail (.returnOutsideFunction name) else d
  { d with
    blocks := d.blocks.push { name, function := d.current, isExit, instructions := d.prologue } }

/-- Starts a function. -/
def function (d : Draft) (name : String) (params : List (String × ValueType))
    (returnType : Option ValueType) : Draft :=
  { d with
    functions := d.functions.push { name, params, returnType }
    current := some d.functions.size }

/-- Goes back to the main program. -/
def mainProgram (d : Draft) : Draft := { d with current := none }

/-- Notes the source line of the open block. -/
def line (d : Draft) (n : Nat) : Draft := d.modifyOpen fun b => { b with line := some n }

/-- Lets the program end with the open block. -/
def finish (d : Draft) : Draft :=
  if d.blocks.isEmpty then d else { d with last := some (d.blocks.size - 1) }

/-! ## Instructions -/

/-- Appends an instruction to the open block. -/
def instr (d : Draft) (i : Instruction) : Draft :=
  if d.blocks.isEmpty then d.fail (.malformedBlock "" (.outside i))
  else d.modifyOpen fun b => { b with instructions := b.instructions ++ [i] }

/-- Ends the open block with a branch. -/
def branch (d : Draft) (test : Comparison) (onTrue onFalse : String) : Draft :=
  (d.instr (.jumpIf test onTrue)).instr (.jump onFalse)

/-- Ends the open block with a call. -/
def call (d : Draft) (function : String) (saved : List String) (args : List Operand)
    (returnTo : String) : Draft :=
  let pushes :=
    (saved.map fun name => Instruction.push (.var name)) ++
      [.pushState returnTo] ++ args.map .push
  let d := pushes.foldl instr d
  if d.blocks.isEmpty then d.fail (.unknownFunction function)
  else d.modifyOpen fun b => { b with call := some ⟨function, returnTo, saved.length⟩ }

/-! ## Building -/

/-- Creates a drafted block. -/
def createBlock (b : BlockDraft) : Edit BlockId := do
  let id ← FlowGraph.createNode b.name false b.isExit b.function
  if let some line := b.line then FlowGraph.setLine id line
  return id

/-- The first drafted block of a function. -/
def entryOf? (d : Draft) (ids : List BlockId) (f : FunctionId) : Option (BlockDraft × BlockId) :=
  (d.blocks.toList.zip ids).find? fun (b, _) => b.function == some f

/-- The function of a name and the name of its entry. -/
def callee? (d : Draft) (ids : List BlockId) (name : String) : Option (FunctionId × String) :=
  ((List.range d.functions.size).find? fun f => d.functions[f]?.any (·.name == name)).bind
    fun f => (d.entryOf? ids f).map fun (b, _) => (f, b.name)

/-- Writes the instructions of a drafted block; a call goes to the entry of its
function. -/
def writeBlock (d : Draft) (ids : List BlockId) (b : BlockDraft) (id : BlockId) : Edit Unit := do
  match b.call with
  | none => FlowGraph.setInstructions id b.instructions
  | some call =>
    match d.callee? ids call.function with
    | none => throw (.unknownFunction call.function)
    | some (_, entry) => FlowGraph.setInstructions id (b.instructions ++ [.jump entry])

/-- Records the call of a drafted block. -/
def recordCall (d : Draft) (ids : List BlockId) (b : BlockDraft) (id : BlockId) : Edit Unit := do
  if let some call := b.call then
    if let some (f, _) := d.callee? ids call.function then
      match (← get).idOf? call.returnTo with
      | none => throw (.unknownNode call.returnTo)
      | some site => FlowGraph.registerCall f id site call.saved

/-- Builds the program. -/
def assemble (d : Draft) : Edit Unit := do
  if let some e := d.error then throw e
  for f in d.functions do
    let _ ← FlowGraph.addFunction f.name f.params f.returnType
  let ids ← d.blocks.toList.mapM createBlock
  for f in List.range d.functions.size do
    if let some (_, id) := d.entryOf? ids f then FlowGraph.setFunctionEntry f id
  let drafted := d.blocks.toList.zip ids
  for (b, id) in drafted do d.writeBlock ids b id
  for (b, id) in drafted do d.recordCall ids b id
  if let some id := d.last.bind (ids[·]?) then FlowGraph.setLast id

/-- The flow graph of a draft, or the first mistake. -/
def build (d : Draft) : Except Error FlowGraph :=
  match d.assemble.runOn .empty with
  | (.error e, _) => .error e
  | (.ok (), g) =>
    match g.validate with
    | .error e => .error e
    | .ok () => .ok g

end Draft

end FlowVerifier
