import FlowVerifier.Flow.Edit

/-!
# Removing blocks

Three ways to take a block out of a flow graph.

* `removeNode` cuts it out.  Predecessors lose their edge to it; if it was the
  exit of a function, its only predecessor takes over its role.
* `redirect` leads everything that refers to a block to another one, after which
  the block can be removed without loss.
* `mergeInto` appends a block to its predecessor.
-/

namespace FlowVerifier
namespace FlowGraph

/-! ## Cutting out -/

/-- What becomes of the terminator of a predecessor when the block `id` goes;
`none` if nothing does.  The flag says whether the predecessor becomes the heir
of an exit block. -/
def severed (id : BlockId) (gone : Block) (pred : BlockId) (p : Block) :
    Option (Terminator × Bool) :=
  match p.terminator with
  | .jump target =>
    if target = id then
      if gone.isExit && p.function == gone.function then
        some (if gone.terminator == .jump pred then .finish else gone.terminator, true)
      else some (.finish, false)
    else none
  | .branch _ onTrue onFalse => some (.jump (if onTrue = id then onFalse else onTrue), false)
  | _ => none

/-- Takes the edge to `id` from a predecessor; returns the heir, if it is one. -/
def severPredecessor (id : BlockId) (gone : Block) (heir : Option BlockId) (pred : BlockId) :
    Edit (Option BlockId) := do
  match ((← get).block? pred).bind (severed id gone pred) with
  | none => return heir
  | some (terminator, inherits) =>
    setTerminator pred terminator
    return if inherits then some pred else heir

/-- Takes a block out of the record of a function. -/
def forgetIn (id : BlockId) (heir : Option BlockId) (g : FlowGraph) (function : FunctionId) :
    FlowGraph :=
  let concerned := (g.function? function).any fun info =>
    info.calls.any fun c => c.caller == id || c.returnTo == id
  let g :=
    if concerned then
      g.editCalls function fun calls =>
        calls.filter fun c => c.caller != id && c.returnTo != id
    else g
  g.modifyFunction function fun info =>
    { info with
      entry := if info.entry = some id then none else info.entry
      exit := if info.exit = some id then heir else info.exit }

/-- Makes the heir of an exit block an exit, if it returns. -/
def installHeir (function : Option FunctionId) (heir : BlockId) : Edit Unit := do
  let returning := (← Edit.block heir).terminator.isReturn
  modify (·.modifyBlock heir fun b => { b with isExit := returning })
  if !returning then
    if let some f := function then
      modify (·.modifyFunction f fun info => { info with exit := none })

/-- Removes a block.  An exit block with several predecessors has no heir and is
not removed. -/
def removeNode (id : BlockId) : Edit Unit := do
  let gone ← Edit.block id
  let preds := gone.predecessors.filter (· != id)
  if gone.isExit && preds.length > 1 then throw (.ambiguousExit gone.name)
  modify (·.detach id)
  let heir ← preds.foldlM (severPredecessor id gone) none
  modify fun g => (List.range g.functions.size).foldl (forgetIn id heir) g
  if let some h := heir then installHeir gone.function h
  modify fun g =>
    { g with
      first := if g.first = some id then none else g.first
      last :=
        if g.last = some id then (match preds with | [only] => some only | _ => none)
        else g.last }
  modify (·.dropBlock id)

/-! ## Redirecting -/

/-- Leads markers for one block to another. -/
def retargetMarker (old new : String) : Instruction → Instruction
  | .pushState block => .pushState (if block = old then new else block)
  | i => i

/-- Leads the calls of a function that return to `old`, and its entry, to `new`. -/
def redirectIn (old new : BlockId) (g : FlowGraph) (function : FunctionId) : FlowGraph :=
  let concerned := (g.function? function).any fun info =>
    info.calls.any (·.returnTo == old)
  let g :=
    if concerned then
      g.editCalls function fun calls =>
        calls.map fun c => if c.returnTo = old then { c with returnTo := new } else c
    else g
  g.modifyFunction function fun info =>
    { info with entry := if info.entry = some old then some new else info.entry }

/-- Leads everything that refers to a block to another one. -/
def redirect (old new : BlockId) : Edit Unit := do
  let oldName := (← Edit.block old).name
  let newName := (← Edit.block new).name
  for pred in (← get).predecessors old do
    let b ← Edit.block pred
    setTerminator pred (b.terminator.retarget old new)
  modify fun g =>
    { g with
      slots := g.slots.map (Option.map fun b =>
        { b with body := b.body.map (retargetMarker oldName newName) }) }
  modify fun g => (List.range g.functions.size).foldl (redirectIn old new) g
  modify fun g => { g with first := if g.first = some old then some new else g.first }

/-! ## Merging -/

/-- Gives the roles of a block in the functions to another one. -/
def handOver (absorbed into : BlockId) (info : FunctionInfo) : FunctionInfo :=
  { info with
    calls := info.calls.map fun c =>
      if c.caller = absorbed then { c with caller := into } else c
    exit := if info.exit = some absorbed then some into else info.exit }

/-- Appends the block `absorbed` to the block `into`, which has to be the only
one that leads to it. -/
def mergeInto (into absorbed : BlockId) : Edit Unit := do
  if into = absorbed then throw (.internal (.selfMerge into))
  let gone ← Edit.block absorbed
  setTerminator into .finish
  modify (·.detach absorbed)
  modify (·.modifyBlock absorbed fun b => { b with terminator := .finish })
  modify fun g =>
    { g with
      functions := g.functions.map (handOver absorbed into)
      last := if g.last = some absorbed then some into else g.last }
  modify (·.modifyBlock into fun b =>
    { b with body := b.body ++ gone.body, isExit := b.isExit || gone.isExit })
  setTerminator into gone.terminator
  modify (·.dropBlock absorbed)

end FlowGraph
end FlowVerifier
