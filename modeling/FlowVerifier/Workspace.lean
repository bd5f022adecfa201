import FlowVerifier.Event
import FlowVerifier.Flow.Removal

/-!
# The workspace of a transformation

A transformation works on a flow graph and records what it does.  It may fail in
the middle; then the graph stays as far changed as it was, and the log says how
far that is.
-/

namespace FlowVerifier

/-- A graph being transformed, with the record of what was done to it. -/
structure Workspace where
  /-- The graph. -/
  graph : FlowGraph
  /-- The record. -/
  log : Log := .empty
  deriving Inhabited

/-- A transformation.  Its changes survive a failure. -/
abbrev Transform (α : Type) := ExceptT Error (StateM Workspace) α

namespace Transform

/-- Runs a transformation. -/
def runOn {α : Type} (t : Transform α) (w : Workspace) : Except Error α × Workspace :=
  StateT.run (ExceptT.run t) w

/-- The graph. -/
def graph : Transform FlowGraph := return (← get).graph

/-- Makes an edit of the graph. -/
def edit {α : Type} (e : Edit α) : Transform α := do
  let w ← get
  let (result, graph) := e.runOn w.graph
  set { w with graph }
  match result with
  | .ok a => return a
  | .error cause => throw cause

/-- Records an event. -/
def record (event : Event) : Transform Unit :=
  modify fun w => { w with log := w.log.record event }

/-- Records a diagnostic unless it was recorded before. -/
def recordOnce (kind : EventKind) (node : String) (line : Option Nat) (message : String) :
    Transform Unit :=
  modify fun w => { w with log := w.log.recordOnce kind node line message }

end Transform

end FlowVerifier
