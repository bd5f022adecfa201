/-!
# Events

Everything a transformation changes and everything an analysis has to say is
recorded as an event.  A `Log` is the list of events so far; it only ever grows,
and a diagnostic that many paths would repeat can be recorded just once.
-/

namespace FlowVerifier

/-! ## Kinds -/

/-- The kind of an event. -/
inductive EventKind where
  /-- An instruction was folded to a constant. -/
  | constantFolded
  /-- A branch was replaced by a jump. -/
  | branchSimplified
  /-- An instruction was removed. -/
  | instructionRemoved
  /-- A block was removed. -/
  | blockRemoved
  /-- A block was merged into its predecessor. -/
  | blockMerged
  /-- The edges into a block were redirected past it. -/
  | edgeRedirected
  /-- A loop was found. -/
  | loopReport
  /-- A pass started. -/
  | passStarted
  /-- A pass completed. -/
  | passCompleted
  /-- Something worth knowing. -/
  | info
  /-- Something suspicious. -/
  | warning
  /-- The program is wrong wherever control passes this point. -/
  | error
  deriving DecidableEq, Inhabited

namespace EventKind

/-- All kinds, in the order in which they are summarised. -/
def all : List EventKind :=
  [constantFolded, branchSimplified, instructionRemoved, blockRemoved, blockMerged,
    edgeRedirected, loopReport, passStarted, passCompleted, info, warning, error]

/-- A kind in words. -/
def description : EventKind → String
  | constantFolded => "constant folded"
  | branchSimplified => "branch simplified"
  | instructionRemoved => "instruction removed"
  | blockRemoved => "block removed"
  | blockMerged => "block merged"
  | edgeRedirected => "edge redirected"
  | loopReport => "loop report"
  | passStarted => "pass started"
  | passCompleted => "pass completed"
  | info => "info"
  | warning => "warning"
  | error => "error"

/-- Does the event report a change of the graph? -/
def isTransformation : EventKind → Bool
  | constantFolded => true
  | branchSimplified => true
  | instructionRemoved => true
  | blockRemoved => true
  | blockMerged => true
  | edgeRedirected => true
  | _ => false

/-- Does the event report on the analysed program? -/
def isDiagnostic : EventKind → Bool
  | info => true
  | warning => true
  | error => true
  | _ => false

/-- Is the kind named in summaries? -/
def isSummarised (kind : EventKind) : Bool :=
  kind.isTransformation || kind == warning || kind == error

end EventKind

/-! ## Events -/

/-- A recorded event. -/
structure Event where
  /-- What happened. -/
  kind : EventKind
  /-- The name of the block concerned. -/
  node : Option String := none
  /-- The source line of that block. -/
  line : Option Nat := none
  /-- What happened, in words. -/
  message : String := kind.description
  /-- The pass that made the change. -/
  pass : Option String := none
  deriving Inhabited

namespace Event

/-- An event as it is shown: kind, line, block and message. -/
def text (e : Event) : String :=
  "[" ++ e.kind.description ++ "]" ++
    (e.line.elim "" fun line => s!" line {line}:") ++
    (e.node.elim "" fun node => s!" {node}:") ++
    " " ++ e.message

end Event

/-! ## Logs -/

/-- The events recorded so far. -/
structure Log where
  /-- The events, oldest first. -/
  events : Array Event := #[]
  deriving Inhabited

namespace Log

/-- The log without events. -/
def empty : Log := {}

/-- The number of events. -/
def size (log : Log) : Nat := log.events.size

/-- Is nothing recorded? -/
def isEmpty (log : Log) : Bool := log.events.isEmpty

/-- Appends an event. -/
def record (log : Log) (event : Event) : Log := ⟨log.events.push event⟩

/-- Is a diagnostic of this kind, on this block and with this message recorded? -/
def contains (log : Log) (kind : EventKind) (node message : String) : Bool :=
  log.events.any fun e => e.kind == kind && e.node == some node && e.message == message

/-- Appends a diagnostic unless the log contains it. -/
def recordOnce (log : Log) (kind : EventKind) (node : String) (line : Option Nat)
    (message : String) : Log :=
  if log.contains kind node message then log
  else log.record { kind, node := some node, line, message }

/-- Records warnings on one block, each once. -/
def warn (log : Log) (node : String) (line : Option Nat) (messages : Array String) : Log :=
  messages.foldl (fun log message => log.recordOnce .warning node line message) log

/-- Appends all events of another log. -/
def append (log other : Log) : Log := ⟨log.events ++ other.events⟩

/-- The events of one kind. -/
def ofKind (log : Log) (kind : EventKind) : Array Event :=
  log.events.filter (·.kind == kind)

/-- The events on one block. -/
def ofNode (log : Log) (node : String) : Array Event :=
  log.events.filter (·.node == some node)

/-- How many events of a kind there are. -/
def count (log : Log) (kind : EventKind) : Nat := (log.ofKind kind).size

/-- Is there an event of a kind? -/
def has (log : Log) (kind : EventKind) : Bool := log.events.any (·.kind == kind)

/-- The events recorded after the first `n`. -/
def since (log : Log) (n : Nat) : Array Event := log.events.extract n log.events.size

/-- How often each change and each diagnostic occurred. -/
def summary (log : Log) : String :=
  if log.isEmpty then "no events"
  else
    let kinds := EventKind.all.filter fun k => k.isSummarised && log.has k
    if kinds.isEmpty then s!"{log.size} events"
    else ", ".intercalate (kinds.map fun k => s!"{log.count k} {k.description}")

end Log

end FlowVerifier
