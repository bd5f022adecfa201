import FlowVerifier.Symbolic.ArrayValue
import FlowVerifier.Symbolic.Scopes
import FlowVerifier.Symbolic.Stack

/-!
# Paths

A `Path` is one way through the program in the making: what is known about
variables, arrays and the stack, the branches taken so far, and a record of the
state in which each block was entered before.

Entering a block again is where a search of a program with loops is brought to
an end.  `enter` compares the state with the one on record for the same block
and the same caller.  A state that was covered before shows nothing new.  Any
other state is widened, and since a bound can be widened only once, a bounded
number of widenings is enough to get past every state.  Recursive calls are
recognised by the height of the stack: a deeper entry covered by the record is a
repetition of the call that is still running.
-/

namespace FlowVerifier
namespace Symbolic

/-! ## Conditions and revisits -/

/-- A branch taken on a path. -/
structure PathCondition where
  /-- The name of the block that branches. -/
  node : String
  /-- The test that held. -/
  test : Comparison
  deriving Inhabited

namespace PathCondition

/-- A condition as it is shown. -/
def text (c : PathCondition) : String := s!"{c.test} at '{c.node}'"

end PathCondition

/-- What entering a block means for a path. -/
inductive Revisit where
  /-- The block is entered for the first time from this caller. -/
  | first
  /-- The state on record covers the current one: nothing new. -/
  | subsumed
  /-- The state was widened against the one on record. -/
  | widened
  /-- The state would have to be widened more often than allowed. -/
  | exhausted
  /-- A recursive entry that the state on record covers. -/
  | recursion
  /-- The path comes back to an enclosing call of the same routine. -/
  | unwound
  deriving DecidableEq, Inhabited

/-- A state of a path that later states are compared with. -/
structure Snapshot where
  /-- The visible variables. -/
  vars : Table String Variable
  /-- The arrays. -/
  arrays : Table String ArrayValue
  /-- The stack. -/
  stack : Stack
  deriving Inhabited

namespace Snapshot

/-- Does the first state describe everything that the second describes?  For a
recursive entry, whose stack is higher, the innermost frames stand for the whole
stacks. -/
def subsumes (old new : Snapshot) (wholeStack : Bool) : Bool :=
  (new.vars.entries.all fun (name, v) => (old.vars.get? name).any (·.subsumes v)) &&
    (new.arrays.entries.all fun (name, a) => (old.arrays.get? name).any (·.subsumes a)) &&
    if wholeStack then old.stack.subsumes new.stack else old.stack.frameSubsumes new.stack

end Snapshot

/-- The record of the entries into a block from one caller. -/
structure VisitRecord where
  /-- The state in which the block was last entered. -/
  snapshot : Snapshot
  /-- How often the state was widened. -/
  widenings : Nat
  /-- The number of calls that were running. -/
  callDepth : Nat
  deriving Inhabited

/-! ## Paths -/

/-- One way through the program in the making. -/
structure Path where
  /-- The scalar variables. -/
  vars : Scopes := .empty
  /-- The runtime stack. -/
  stack : Stack := .empty
  /-- The declared arrays. -/
  arrays : Table String ArrayValue := .empty
  /-- Is the path possible as far as is known? -/
  feasible : Bool := true
  /-- The branches taken, oldest first. -/
  conditions : Array PathCondition := #[]
  /-- The number of blocks entered. -/
  depth : Nat := 0
  /-- The records of the entries, by block and caller. -/
  visits : Table (BlockId × Option BlockId) VisitRecord := .empty
  deriving Inhabited

namespace Path

/-- The path on which nothing has happened. -/
def start : Path := {}

/-- Either side of a fork. -/
def fork (p : Path) : Path := { p with vars := p.vars.fork }

/-- The variable of a name. -/
def var? (p : Path) (name : String) : Option Variable := p.vars.get? name

/-- Changes a variable, if it is visible. -/
def modifyVar (p : Path) (name : String) (f : Variable → Variable) : Path :=
  { p with vars := p.vars.modify name f }

/-- Binds a variable. -/
def insertVar (p : Path) (name : String) (v : Variable) : Path :=
  { p with vars := p.vars.insert name v }

/-- Notes a branch that was taken. -/
def assume (p : Path) (node : String) (test : Comparison) : Path :=
  { p with conditions := p.conditions.push ⟨node, test⟩ }

/-- The state of the path. -/
def snapshot (p : Path) : Snapshot := ⟨p.vars.visible, p.arrays, p.stack⟩

/-! ### Widening -/

/-- Widens a variable against its older state. -/
def widenVar (old new : Variable) : Variable :=
  if old.type = new.type then
    let widened := old.value.widen new.value
    let moved :=
      if widened == new.value then new
      else { new with value := widened, version := new.version + 1, relations := [] }
    { moved with defined := new.defined && old.defined }
  else new

/-- Widens everything that moved since an older state. -/
def widenFrom (p : Path) (old : Snapshot) : Path :=
  { p with
    vars := p.vars.mapAll fun name v => (old.vars.get? name).elim v (widenVar · v)
    stack := p.stack.widenFrame old.stack
    arrays := p.arrays.map fun name a => (old.arrays.get? name).elim a (·.widen a) }

/-- Enters a block. -/
def enter (p : Path) (block : BlockId) (maxWidenings : Nat) : Revisit × Path :=
  let p := { p with depth := p.depth + 1 }
  let key := (block, p.stack.topMarker?)
  let callDepth := p.stack.callDepth
  match p.visits.get? key with
  | none => (.first, { p with visits := p.visits.insert key ⟨p.snapshot, 0, callDepth⟩ })
  | some record =>
    if callDepth < record.callDepth then (.unwound, p)
    else
      let recursive := decide (record.callDepth < callDepth)
      if record.snapshot.subsumes p.snapshot (!recursive) then
        (if recursive then .recursion else .subsumed, p)
      else if maxWidenings ≤ record.widenings then (.exhausted, p)
      else
        let p := p.widenFrom record.snapshot
        let renewed := ⟨p.snapshot, record.widenings + 1, min record.callDepth callDepth⟩
        (.widened, { p with visits := p.visits.insert key renewed })

/-! ### States without history -/

/-- Forgets all values of variables and arrays, but not whether they were
written. -/
def clobber (p : Path) : Path :=
  { p with
    vars := p.vars.mapAll fun _ v =>
      { v.write (.full v.type) .unpredictable with defined := v.defined }
    arrays := p.arrays.map fun _ a => a.clobber }

/-- The state of a path without its history. -/
def detached (p : Path) : Path where
  vars := p.vars.flatten
  stack := p.stack
  arrays := p.arrays
  feasible := p.feasible

/-- A new path that starts in the state of this one. -/
def restart (p : Path) : Path :=
  { p.detached with
    vars := p.vars.flatten.mapAll fun _ v => { v with trend := .untouched }
    feasible := true }

/-- What is known of a variable that one of two paths may lack. -/
def joinVar (v : Variable) (other : Option Variable) : Variable :=
  match other with
  | some w => if w.type = v.type then v.join w else { v with defined := false }
  | none => { v with defined := false }

/-- What is known of the arrays of one of two paths. -/
def joinArrays (arrays others : Table String ArrayValue) : Table String ArrayValue :=
  (arrays.map fun name a => (others.get? name).elim a a.join).orElse others

/-- The states of either path, without history. -/
def join (p q : Path) : Path where
  vars :=
    ⟨(p.vars.visible.map fun name v => joinVar v (q.vars.get? name)).orElse
      (q.vars.visible.map fun _ v => { v with defined := false }), []⟩
  stack := p.stack.join q.stack
  arrays := joinArrays p.arrays q.arrays
  feasible := p.feasible || q.feasible

/-- The state of a path as it is shown: variables and arrays by name, and the
stack. -/
def text (p : Path) : String :=
  let vars := p.vars.names.filterMap fun name => (p.var? name).map fun v => s!"{name}: {v}"
  let arrays := (p.arrays.values.mergeSort fun a b => !decide (b.name < a.name)).map (·.text)
  let stack := if p.stack.isEmpty then [] else ["stack " ++ p.stack.text]
  ", ".intercalate (vars ++ arrays ++ stack)

end Path

end Symbolic
end FlowVerifier
