import FlowVerifier.Symbolic.Path

/-!
# Effect of instructions on a path

`execute` is the abstract meaning of the straight-line instructions.  It changes
the path, collects warnings, and fails in two ways: with a mistake that the
analysed program makes on every execution this path stands for, or with a defect
if the stack is misused, which no well-formed program does.  What an instruction
did before it failed stays done.

`decideTest` and `constrain` are the two questions a branch asks: whether its test
holds on the path, and what is left of the path if it does.
-/

namespace FlowVerifier
namespace Symbolic

/-! ## Executions -/

/-- What an execution changes: the path, and the warnings it has raised. -/
structure Trace where
  /-- The path. -/
  path : Path
  /-- The warnings, oldest first. -/
  warnings : Array String := #[]
  deriving Inhabited

/-- An execution on a path.  Its changes survive a failure. -/
abbrev Exec (α : Type) := ExceptT Error (StateM Trace) α

namespace Exec

/-- The current path. -/
def path : Exec Path := return (← get).path

/-- Changes the path. -/
def modifyPath (f : Path → Path) : Exec Unit := modify fun t => { t with path := f t.path }

/-- Raises a warning. -/
def warn (message : String) : Exec Unit :=
  modify fun t => { t with warnings := t.warnings.push message }

/-- Fails with a mistake of the analysed program. -/
def mistake {α : Type} (e : ProgramError) : Exec α := throw (.program e)

/-- Fails with the mistake of a computation. -/
def lift {α : Type} : Except ProgramError α → Exec α
  | .ok a => pure a
  | .error e => mistake e

/-- Runs an execution on a path. -/
def runOn {α : Type} (x : Exec α) (p : Path) : Except Error α × Trace :=
  StateT.run (ExceptT.run x) { path := p }

end Exec

open Exec

/-! ## Operands -/

/-- The possible values of an operand. -/
def operand : Operand → Exec Value
  | .literal l => return .ofLiteral l
  | .var name => do
    match (← path).var? name with
    | none => mistake (.undeclared name)
    | some v =>
      unless v.defined do warn s!"'{name}' may be used before initialization"
      return v.value

/-- The possible values of an operand that has to be a number. -/
def numericOperand (o : Operand) : Exec (Interval Double) := do
  match ← operand o with
  | .number range => return range
  | .string _ => mistake (.typeMismatch (.index o))

/-! ## Assignments -/

/-- Writes a variable, which comes into being with its first value. -/
def assign (target : String) (value : Value) (change : Trend) : Exec Unit := do
  match (← path).var? target with
  | some v =>
    if v.type = value.type then modifyPath (·.modifyVar target (·.write value change))
    else mistake (.assignmentMismatch target v.type value.type)
  | none => modifyPath (·.insertVar target ((Variable.declared value.type).write value change))

/-- Is the operand the number `v`? -/
def isConstant (v : Double) (o : Operand) : Bool := o.literal?.any (·.isNumber v)

/-- Does an operation leave its other operand as it is? -/
def isUseless (op : ArithOp) (lhs rhs : Operand) : Bool :=
  match op with
  | .add => isConstant Double.zero lhs || isConstant Double.zero rhs
  | .sub => isConstant Double.zero rhs
  | .mul => isConstant Double.one lhs || isConstant Double.one rhs
  | .div => isConstant Double.one rhs
  | .mod => false

/-- May an operation divide by zero, without being bound to? -/
def mayDivideByZero (op : ArithOp) (divisor : Value) : Bool :=
  (op == .div || op == .mod) &&
    divisor.number?.any fun d => d.containsZero && !d.isDeterminate

/-- How `target = lhs op rhs` moves its target. -/
def changeOf (target : String) (op : ArithOp) (lhs rhs : Operand) (a b : Value) : Trend :=
  if lhs.reads target then .ofStep op a b
  else if rhs.reads target && (op == .add || op == .mul) then .ofStep op b a
  else .unpredictable

/-- Copies a value into a variable, which then equals the variable it was read
from. -/
def executeAssign (target : String) (value : Operand) : Exec Unit := do
  if value.reads target then
    warn s!"useless assignment '{Instruction.assign target value}'"
    assign target (← operand value) .unchanged
  else
    let new ← operand value
    let same := ((← path).var? target).any fun old =>
      old.defined && old.value.isDeterminate && old.value == new
    assign target new (if same then .unchanged else .unpredictable)
    match value with
    | .var source => modifyPath fun p => { p with vars := p.vars.relate target .eq source }
    | .literal _ => return

/-- Stores the result of an operation. -/
def executeEvaluate (target : String) (op : ArithOp) (lhs rhs : Operand) : Exec Unit := do
  let a ← operand lhs
  let b ← operand rhs
  if isUseless op lhs rhs then
    warn s!"useless operation '{Instruction.evaluate target op lhs rhs}'"
  if mayDivideByZero op b then
    warn s!"possible division by zero in '{Instruction.evaluate target op lhs rhs}'"
  let result ← lift (a.apply op b)
  assign target result (changeOf target op lhs rhs a b)

/-! ## The stack -/

/-- Pushes a value, remembering the variable it was read from. -/
def executePush : Operand → Exec Unit
  | .literal l => modifyPath fun p => { p with stack := p.stack.pushValue (.ofLiteral l) }
  | .var name => do
    match (← path).var? name with
    | none => mistake (.undeclared name)
    | some v => modifyPath fun p => { p with stack := p.stack.push (.value (some name) v) }

/-- Pops a value.  A variable that gets back what was pushed from it is restored
with all that was known about it. -/
def executePop (node : String) (target : Option String) : Exec Unit := do
  let stack := (← path).stack
  modifyPath fun p => { p with stack := p.stack.pop }
  match stack.top? with
  | none => throw (.internal (.emptyStack node))
  | some (.marker block) => throw (.internal (.markerAsValue block node))
  | some (.value source v) =>
    match target with
    | none => return
    | some target =>
      if source = some target then modifyPath (·.insertVar target v)
      else
        assign target v.value .unpredictable
        modifyPath (·.modifyVar target fun w => { w with defined := v.defined })

/-! ## Arrays -/

/-- The array of a name. -/
def arrayNamed (name : String) : Exec ArrayValue := do
  match (← path).arrays.get? name with
  | some a => return a
  | none => mistake (.undeclared name)

/-- Warns of an index that may miss the array. -/
def warnOverflow (array : String) (index : Interval Double) (range : IndexRange) : Exec Unit :=
  if range.mayOverflow then warn s!"index {index} may be out of bounds for '{array}'"
  else return

/-- Declares an array. -/
def executeDeclareArray (name : String) (type : ValueType) (size : Operand) : Exec Unit := do
  let size ← numericOperand size
  let array ← lift (ArrayValue.declare name type size)
  if size.integerRange.any (·.1 < 1) then
    warn s!"possibly invalid array size {size} for '{name}'"
  modifyPath fun p => { p with arrays := p.arrays.insert name array }

/-- Copies an element into a variable. -/
def executeReadArray (target array : String) (index : Operand) : Exec Unit := do
  let place ← numericOperand index
  let a ← arrayNamed array
  let range ← lift (a.checkIndex place)
  warnOverflow array place range
  let (value, defined) := a.read range
  unless defined do warn s!"element of '{array}' may be used before initialization"
  assign target value .unpredictable

/-- Stores a value in an element. -/
def executeWriteArray (array : String) (index value : Operand) : Exec Unit := do
  let place ← numericOperand index
  let value ← operand value
  let a ← arrayNamed array
  if value.type ≠ a.type then mistake (.assignmentMismatch array a.type value.type)
  let range ← lift (a.checkIndex place)
  modifyPath fun p => { p with arrays := p.arrays.insert array (a.write range value) }
  warnOverflow array place range

/-! ## Instructions -/

/-- Applies an instruction of the block `node`; `resolve` finds blocks by name. -/
def execute (resolve : String → Option BlockId) (node : String) : Instruction → Exec Unit
  | .declare name type => modifyPath (·.insertVar name (.declared type))
  | .assign target value => executeAssign target value
  | .evaluate target op lhs rhs => executeEvaluate target op lhs rhs
  | .print value => do let _ ← operand value
  | .input target => do
    let type := (((← path).var? target).map Variable.type).getD .double
    assign target (.full type) .unpredictable
  | .push value => executePush value
  | .pushState block =>
    match resolve block with
    | some id => modifyPath fun p => { p with stack := p.stack.push (.marker id) }
    | none => mistake (.undeclaredState block)
  | .pop target => executePop node target
  | .declareArray name type size => executeDeclareArray name type size
  | .readArray target array index => executeReadArray target array index
  | .writeArray array index value => executeWriteArray array index value
  | .jumpIf test block => throw (.internal (.controlInBody (.jumpIf test block) node))
  | .jump block => throw (.internal (.controlInBody (.jump block) node))
  | .ret value => throw (.internal (.controlInBody (.ret value) node))

/-- Applies instructions one after the other. -/
def executeAll (resolve : String → Option BlockId) (node : String)
    (instructions : List Instruction) : Exec Unit :=
  instructions.forM (execute resolve node)

theorem executeAll_cons (resolve : String → Option BlockId) (node : String) (i : Instruction)
    (rest : List Instruction) :
    executeAll resolve node (i :: rest) =
      (execute resolve node i >>= fun _ => executeAll resolve node rest) := rfl

/-! ## Branches -/

/-- Does a test hold on the path?  What is known about two variables is asked
before their values are compared. -/
def decideTest (test : Comparison) : Exec Satisfiability := do
  let lhs ← operand test.lhs
  let rhs ← operand test.rhs
  let vars := (← path).vars
  let known :=
    match test.lhs, test.rhs with
    | .var a, .var b => vars.relation a b
    | _, _ => none
  if known.any (·.implies test.op) then return .must
  else if known.any (·.implies test.op.negate) then return .cant
  else lift (lhs.canMeet test.op rhs)

/-- Narrows the values of a variable operand. -/
def narrow (o : Operand) (value : Value) : Exec Unit :=
  match o with
  | .var name => modifyPath (·.modifyVar name fun v => { v with value })
  | .literal _ => return

/-- Narrows the path to the executions on which a test holds; false if there are
none. -/
def constrain (test : Comparison) : Exec Bool := do
  let lhs ← operand test.lhs
  let rhs ← operand test.rhs
  let left ← lift (lhs.clip test.op rhs)
  let right ← lift (rhs.clip test.op.flip lhs)
  if left.isEmpty || right.isEmpty then
    modifyPath fun p => { p with feasible := false }
    return false
  else
    narrow test.lhs left
    narrow test.rhs right
    match test.lhs, test.rhs with
    | .var a, .var b => modifyPath fun p => { p with vars := p.vars.relate a test.op b }
    | _, _ => pure ()
    return true

end Symbolic
end FlowVerifier
