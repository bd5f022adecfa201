import FlowVerifier.Folding
import FlowVerifier.Flow.Graph

/-!
# Running a program

The concrete meaning of a flow graph: a machine with scalars, arrays and a stack
of values and markers, which runs one block after the other.

* `State.exec` runs one instruction, `State.execAll` a body.
* `leave` follows a terminator: a branch goes where its test says, and a return
  unwinds the stack to the innermost marker.
* `step` runs the block a configuration is at; `run` makes several steps from the
  first block of the program.

What lies outside the program is an `Environment`: the inputs, and what variables
hold before they are written.  It also says whether assignments are checked, that
is, whether a variable has to keep the type of the value it holds.
-/

namespace FlowVerifier
namespace Run

/-! ## What ends a run -/

/-- The kinds of faults that stop a run. -/
inductive Fault where
  /-- Operands do not fit together. -/
  | typeMismatch
  /-- A divisor is zero. -/
  | divisionByZero
  /-- The divisor of a remainder is zero. -/
  | moduloByZero
  /-- An index lies outside the array. -/
  | outOfBounds
  /-- An index is no integer. -/
  | nonIntegralIndex
  /-- A name is read that holds nothing. -/
  | undeclared
  /-- Control goes, or is to go, to a block that was never defined. -/
  | undeclaredState
  /-- A value is assigned to a variable of another type. -/
  | assignmentMismatch
  /-- The size of an array is no positive integer, or too large. -/
  | invalidArraySize
  /-- The empty stack is popped. -/
  | emptyStack
  /-- A marker is popped as if it were a value. -/
  | markerAsValue
  /-- A block returns while the stack holds no marker. -/
  | returnWithoutMarker
  /-- A control instruction stands in a body. -/
  | controlInBody
  /-- Control goes to a block that was removed. -/
  | missingBlock
  /-- No suitable input is left. -/
  | starved
  deriving DecidableEq

/-- The kind of a mistake. -/
def Fault.ofMistake : ProgramError → Fault
  | .typeMismatch _ => typeMismatch
  | .divisionByZero => divisionByZero
  | .moduloByZero => moduloByZero
  | .outOfBounds _ _ _ => outOfBounds
  | .nonIntegralIndex _ _ => nonIntegralIndex
  | .undeclared _ => undeclared
  | .undeclaredState _ => undeclaredState
  | .assignmentMismatch _ _ _ => assignmentMismatch
  | .invalidArraySize _ _ => invalidArraySize

/-- How a run ends. -/
inductive Ending where
  /-- The end of the program is reached. -/
  | finished
  /-- An instruction or a return fails. -/
  | faulted (fault : Fault)
  /-- The test of a branch fails. -/
  | badTest (fault : Fault)
  deriving DecidableEq

/-! ## States -/

/-- One slot of the stack. -/
inductive Entry where
  /-- A value, with the variable it was pushed from. -/
  | value (source : Option String) (content : Literal)
  /-- A marker, which names the block where a caller goes on. -/
  | marker (block : BlockId)

/-- An array of a running program. -/
structure Cells where
  /-- The type of the elements. -/
  type : ValueType
  /-- The number of elements. -/
  size : Int
  /-- The elements; none where nothing was written yet. -/
  element : Int → Option Literal

/-- The state of a running program. -/
structure State where
  /-- What the scalar variables hold. -/
  vars : String → Option Literal := fun _ => none
  /-- The arrays. -/
  arrays : String → Option Cells := fun _ => none
  /-- The stack, topmost slot first. -/
  stack : List Entry := []
  /-- What was printed, oldest first. -/
  printed : List Literal := []
  /-- How many inputs were read. -/
  consumed : Nat := 0

/-- What a program finds when it runs. -/
structure Environment where
  /-- The inputs, in the order they are read; none from where they have run out. -/
  inputs : Nat → Option Literal
  /-- What a variable holds after its declaration; nothing, if it must not be read
  before it is written. -/
  scalar : String → ValueType → Option Literal
  /-- What an element of an array holds after its declaration. -/
  element : String → ValueType → Int → Option Literal
  /-- Are assignments checked? -/
  checked : Bool

namespace State

variable (env : Environment) (resolve : String → Option BlockId)

/-- Gives a name another content. -/
def bind (s : State) (name : String) (content : Option Literal) : State :=
  { s with vars := fun other => if other = name then content else s.vars other }

/-- Gives a name another array. -/
def bindArray (s : State) (name : String) (cells : Cells) : State :=
  { s with arrays := fun other => if other = name then some cells else s.arrays other }

/-- Puts a slot on the stack. -/
def push (s : State) (e : Entry) : State := { s with stack := e :: s.stack }

/-- The value of an operand. -/
def read (s : State) : Operand → Except Fault Literal
  | .literal l => .ok l
  | .var name =>
    match s.vars name with
    | some l => .ok l
    | none => .error .undeclared

/-- The value of an operand that has to be a number. -/
def readNumber (s : State) (o : Operand) : Except Fault Double := do
  match ← s.read o with
  | .number v => return v
  | .string _ => throw .typeMismatch

/-- Writes a variable, which comes into being with its first value. -/
def write (s : State) (target : String) (value : Literal) : Except Fault State :=
  match s.vars target with
  | some old =>
    if env.checked && old.type != value.type then .error .assignmentMismatch
    else .ok (s.bind target (some value))
  | none => .ok (s.bind target (some value))

/-- Reads the next input into a variable.  With checked assignments the input has
to be of the type of the variable, which is a number if it holds nothing. -/
def receive (s : State) (target : String) : Except Fault State :=
  match env.inputs s.consumed with
  | some value =>
    if env.checked && value.type != ((s.vars target).map Literal.type).getD .double then
      .error .starved
    else .ok { s.bind target (some value) with consumed := s.consumed + 1 }
  | none => .error .starved

/-- The slot for an operand.  The variable it was read from is of use to checked
assignments only. -/
def slot (s : State) (o : Operand) : Except Fault Entry := do
  let value ← s.read o
  return .value (if env.checked then o.var? else none) value

/-- Pops a value.  A variable that gets back what was pushed from it takes it as it
is. -/
def pop (s : State) (target : Option String) : Except Fault State :=
  match s.stack with
  | [] => .error .emptyStack
  | .marker _ :: _ => .error .markerAsValue
  | .value source value :: rest =>
    let s := { s with stack := rest }
    match target with
    | none => .ok s
    | some target =>
      if source = some target then .ok (s.bind target (some value))
      else s.write env target value

/-- The integer a number is. -/
def whole? (v : Double) : Option Int :=
  if v.isNaN || v.isInfinite || v.ceil != v.floor then none else some v.floor

/-- The array of a name. -/
def cells (s : State) (name : String) : Except Fault Cells :=
  match s.arrays name with
  | some a => .ok a
  | none => .error .undeclared

/-- The element of an array that a number stands for. -/
def place (a : Cells) (index : Double) : Except Fault Int :=
  match whole? index with
  | none => .error .nonIntegralIndex
  | some i => if 0 ≤ i ∧ i < a.size then .ok i else .error .outOfBounds

/-- Declares an array, which has at most as many elements as there are indices. -/
def declareArray (s : State) (name : String) (type : ValueType) (size : Operand) :
    Except Fault State := do
  match whole? (← s.readNumber size) with
  | some n =>
    if 1 ≤ n ∧ n ≤ Symbolic.Interval.maxIndex then
      return s.bindArray name ⟨type, n, env.element name type⟩
    else throw .invalidArraySize
  | none => throw .invalidArraySize

/-- Copies an element of an array into a variable. -/
def readArray (s : State) (target array : String) (index : Operand) : Except Fault State := do
  let index ← s.readNumber index
  let a ← s.cells array
  match a.element (← place a index) with
  | some value => s.write env target value
  | none => throw .undeclared

/-- Stores a value in an element of an array. -/
def writeArray (s : State) (array : String) (index value : Operand) : Except Fault State := do
  let index ← s.readNumber index
  let value ← s.read value
  let a ← s.cells array
  if env.checked && value.type != a.type then throw .assignmentMismatch
  let i ← place a index
  return s.bindArray array
    { a with element := fun j => if j = i then some value else a.element j }

/-- The result of an operation. -/
def apply (op : ArithOp) (a b : Literal) : Except Fault Literal :=
  match op.fold a b with
  | .ok value => .ok value
  | .error e => .error (.ofMistake e)

/-- Runs one instruction; `resolve` finds blocks by name. -/
def exec (s : State) : Instruction → Except Fault State
  | .declare name type => .ok (s.bind name (env.scalar name type))
  | .assign target value => do s.write env target (← s.read value)
  | .evaluate target op lhs rhs => do
    let a ← s.read lhs
    let b ← s.read rhs
    s.write env target (← apply op a b)
  | .print value => do return { s with printed := s.printed ++ [← s.read value] }
  | .input target => s.receive env target
  | .push value => do return s.push (← s.slot env value)
  | .pushState block =>
    match resolve block with
    | some id => .ok (s.push (.marker id))
    | none => .error .undeclaredState
  | .pop target => s.pop env target
  | .declareArray name type size => s.declareArray env name type size
  | .readArray target array index => s.readArray env target array index
  | .writeArray array index value => s.writeArray env array index value
  | .jumpIf _ _ => .error .controlInBody
  | .jump _ => .error .controlInBody
  | .ret _ => .error .controlInBody

/-- Runs instructions one after the other.  A fault leaves the state before the
instruction that failed. -/
def execAll : State → List Instruction → Except (Fault × State) State
  | s, [] => .ok s
  | s, i :: rest =>
    match s.exec env resolve i with
    | .ok s => s.execAll rest
    | .error fault => .error (fault, s)

/-- Does a test hold? -/
def holds (s : State) (test : Comparison) : Except Fault Bool := do
  let a ← s.read test.lhs
  let b ← s.read test.rhs
  match test.op.fold a b with
  | .ok value => return value
  | .error e => throw (.ofMistake e)

/-- A test holds as its operands do. -/
theorem holds_eq_ok {s : State} {test : Comparison} {l m : Literal} {b : Bool}
    (hl : s.read test.lhs = .ok l) (hm : s.read test.rhs = .ok m)
    (hb : test.op.fold l m = .ok b) : s.holds test = .ok b := by
  simp only [holds, hl, hm, hb, Bind.bind, Except.bind]
  rfl

/-- The block that the innermost marker names, and the stack below it. -/
def unwind? : List Entry → Option (BlockId × List Entry)
  | [] => none
  | .marker block :: rest => some (block, rest)
  | .value _ _ :: rest => unwind? rest

end State

/-! ## Steps -/

/-- Where a run is. -/
inductive Config where
  /-- It is about to enter a block. -/
  | at (block : BlockId) (state : State)
  /-- It has ended. -/
  | ended (ending : Ending) (state : State)

namespace Config

/-- The state of a configuration. -/
def state : Config → State
  | .at _ s => s
  | ended _ s => s

/-- How the run has ended. -/
def ending? : Config → Option Ending
  | .at _ _ => none
  | ended e _ => some e

end Config

/-- Leaves a block by a return. -/
def leaveByReturn (s : State) (value : Option Operand) : Config :=
  match value.mapM s.read with
  | .error fault => .ended (.faulted fault) s
  | .ok result =>
    match State.unwind? s.stack with
    | none => .ended (.faulted .returnWithoutMarker) s
    | some (block, rest) =>
      .at block { s with stack := (result.map (Entry.value none)).toList ++ rest }

/-- Leaves a block as its terminator says. -/
def leave (s : State) : Terminator → Config
  | .finish => .ended .finished s
  | .jump target => .at target s
  | .branch test onTrue onFalse =>
    match s.holds test with
    | .error fault => .ended (.badTest fault) s
    | .ok true => .at onTrue s
    | .ok false => .at onFalse s
  | .ret value => leaveByReturn s value

/-- Runs a block and leaves it. -/
def runBlock (env : Environment) (resolve : String → Option BlockId) (b : Block) (s : State) :
    Config :=
  if b.populated then
    match s.execAll env resolve b.body with
    | .error (fault, s) => .ended (.faulted fault) s
    | .ok s => leave s b.terminator
  else .ended (.faulted .undeclaredState) s

/-- Runs the block a configuration is at. -/
def step (env : Environment) (g : FlowGraph) : Config → Config
  | .at id s =>
    match g.block? id with
    | some b => runBlock env g.idOf? b s
    | none => .ended (.faulted .missingBlock) s
  | .ended e s => .ended e s

/-- Where a program starts. -/
def start (g : FlowGraph) : Config :=
  match g.first with
  | some id => .at id {}
  | none => .ended .finished {}

/-- Makes a number of steps. -/
def steps (env : Environment) (g : FlowGraph) : Nat → Config → Config
  | 0, c => c
  | n + 1, c => steps env g n (step env g c)

/-- The configuration of a program after a number of steps. -/
def after (env : Environment) (g : FlowGraph) (n : Nat) : Config := steps env g n (start g)

end Run
end FlowVerifier
