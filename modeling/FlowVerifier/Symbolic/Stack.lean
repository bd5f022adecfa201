import FlowVerifier.Identifier
import FlowVerifier.Symbolic.Variable

/-!
# The runtime stack of a path

The stack carries saved variables, arguments and results between routines.  A
marker on it names the block where a caller goes on; the entries above the
innermost marker are the *frame* of the running routine.
-/

namespace FlowVerifier
namespace Symbolic

/-- One slot of the stack. -/
inductive StackEntry where
  /-- A value, with the variable it was pushed from. -/
  | value (source : Option String) (content : Variable)
  /-- A marker. -/
  | marker (block : BlockId)
  deriving BEq, Inhabited

namespace StackEntry

/-- The block a marker names. -/
def marker? : StackEntry → Option BlockId
  | marker block => some block
  | value _ _ => none

/-- Is the slot a value? -/
def isValue : StackEntry → Bool
  | value _ _ => true
  | marker _ => false

/-- A slot as it is shown. -/
def text : StackEntry → String
  | value (some name) v => s!"{name}={v.value}"
  | value none v => v.value.text
  | marker block => "@" ++ BlockId.text block

/-- What is known of a slot that comes from one of two paths. -/
def join : StackEntry → StackEntry → StackEntry
  | value s v, value t w =>
    if v.type = w.type then value (if s = t then s else none) (v.join w) else value s v
  | e, _ => e

/-- Does the first slot describe all values of the second? -/
def subsumes : StackEntry → StackEntry → Bool
  | marker b, marker c => b == c
  | value _ v, value _ w => v.value.subsumes w.value
  | _, _ => false

/-- Does the first slot describe all values of the second, both being values of
one type? -/
def covers : StackEntry → StackEntry → Bool
  | value _ v, value _ w => v.type == w.type && v.value.subsumes w.value
  | _, _ => false

/-- Widens a value against an older one. -/
def widen (old new : StackEntry) : StackEntry :=
  match old, new with
  | value _ v, value s w =>
    if v.type = w.type then value s { w with value := v.value.widen w.value, relations := [] }
    else new
  | _, _ => new

end StackEntry

/-- The stack of one path. -/
structure Stack where
  /-- The slots, topmost first. -/
  entries : List StackEntry := []
  deriving BEq, Inhabited

namespace Stack

/-- The empty stack. -/
def empty : Stack := {}

/-- The number of slots. -/
def size (s : Stack) : Nat := s.entries.length

/-- Has the stack no slots? -/
def isEmpty (s : Stack) : Bool := s.entries.isEmpty

/-- Puts a slot on top. -/
def push (s : Stack) (e : StackEntry) : Stack := ⟨e :: s.entries⟩

/-- Puts a value on top that was read from no variable. -/
def pushValue (s : Stack) (v : Value) : Stack := s.push (.value none (.ofValue v))

/-- The topmost slot. -/
def top? (s : Stack) : Option StackEntry := s.entries.head?

/-- The stack without its topmost slot. -/
def pop (s : Stack) : Stack := ⟨s.entries.tail⟩

/-! ## Frames -/

/-- The innermost marker: where the running routine returns to. -/
def topMarker? (s : Stack) : Option BlockId := s.entries.findSome? StackEntry.marker?

/-- The number of markers. -/
def callDepth (s : Stack) : Nat := s.entries.countP (!·.isValue)

/-- The slots above the innermost marker, topmost first. -/
def frame (s : Stack) : List StackEntry := s.entries.takeWhile StackEntry.isValue

/-- The innermost marker and the slots below it, topmost first. -/
def belowFrame (s : Stack) : List StackEntry := s.entries.dropWhile StackEntry.isValue

/-- Drops the frame and its marker.  Without a marker there is nothing to return
to. -/
def unwind? (s : Stack) : Option (BlockId × Stack) :=
  s.topMarker?.map fun block => (block, ⟨s.belowFrame.tail⟩)

/-! ## Two stacks -/

/-- What is known of a stack that comes from one of two paths.  Stacks of
different height are not compared, and the first is kept. -/
def join (s t : Stack) : Stack :=
  if s.size = t.size then ⟨List.zipWith StackEntry.join s.entries t.entries⟩ else s

/-- Does `s` describe all values of `t`, slot by slot? -/
def subsumes (s t : Stack) : Bool :=
  s.size == t.size && (s.entries.zip t.entries).all fun (a, b) => a.subsumes b

/-- Does the frame of `s` describe all values of the frame of `t`? -/
def frameSubsumes (s t : Stack) : Bool :=
  s.frame.length == t.frame.length && (s.frame.zip t.frame).all fun (a, b) => a.covers b

/-- Widens the frame against an older frame of the same height. -/
def widenFrame (s old : Stack) : Stack :=
  if s.frame.length = old.frame.length then
    ⟨List.zipWith StackEntry.widen old.frame s.frame ++ s.belowFrame⟩
  else s

/-- The slots as they are shown, from the bottom up. -/
def text (s : Stack) : String :=
  "[" ++ ", ".intercalate (s.entries.reverse.map StackEntry.text) ++ "]"

end Stack

end Symbolic
end FlowVerifier
