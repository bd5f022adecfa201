import FlowVerifier.Symbolic.Value

/-!
# Arrays on a path

The elements of an array are described in *runs* of consecutive indices that
share what is known about them.  The runs cover the indices from zero up to the
greatest possible size, in order and without gaps.

* A write to a single known index is *strong*: it replaces what was known.
* A write to an index that is not known exactly is *weak*: any element it may
  hit keeps its old values as well.
* A read yields the values of all elements it may hit.

Adjacent runs that agree are merged again after every change.
-/

namespace FlowVerifier
namespace Symbolic

/-- Consecutive elements of which the same is known. -/
structure Run where
  /-- The first index. -/
  first : Int
  /-- The last index. -/
  last : Int
  /-- The possible values of each element. -/
  value : Value
  /-- Were all elements written? -/
  defined : Bool
  deriving Inhabited

namespace Run

/-- Is the same known of two runs? -/
def agrees (r s : Run) : Bool := r.value == s.value && r.defined == s.defined

/-- Does the run have an index in the given range? -/
def meets (r : Run) (first last : Int) : Bool :=
  decide (r.first ≤ last) && decide (first ≤ r.last)

/-- Does the run lie within the given range? -/
def within (r : Run) (first last : Int) : Bool :=
  decide (first ≤ r.first) && decide (r.last ≤ last)

/-- Cuts a run in two such that `i` starts the second part. -/
def split (i : Int) (r : Run) : List Run :=
  if r.first < i && i ≤ r.last then [{ r with last := i - 1 }, { r with first := i }] else [r]

/-- Merges a run with the runs that follow it, if they agree. -/
def prepend (r : Run) (rest : List Run) : List Run :=
  match rest with
  | s :: tail => if r.agrees s then { r with last := s.last } :: tail else r :: rest
  | [] => [r]

/-- Merges adjacent runs that agree. -/
def coalesce (runs : List Run) : List Run := runs.foldr prepend []

/-- A run as it is shown. -/
def text (r : Run) : String :=
  (if r.first = r.last then s!"{r.first}: " else s!"{r.first}..={r.last}: ") ++
    if r.defined then r.value.text else "undefined"

/-- Cuts two lists of runs at each other's ends and pairs what covers the same
indices.  Both lists start at the same index. -/
def overlay (runs others : List Run) : List (Run × Run) :=
  match runs, others with
  | r :: rs, s :: ss =>
    let first := max r.first s.first
    let last := min r.last s.last
    ({ r with first, last }, { s with first, last }) ::
      if r.last < s.last then overlay rs (s :: ss)
      else if s.last < r.last then overlay (r :: rs) ss
      else overlay rs ss
  | _, _ => []
termination_by runs.length + others.length

end Run

/-- The elements an access may hit. -/
structure IndexRange where
  /-- The first index within bounds. -/
  first : Int
  /-- The last index within bounds. -/
  last : Int
  /-- May the access miss the array? -/
  mayOverflow : Bool
  deriving Inhabited

namespace IndexRange

/-- Is exactly one element hit? -/
def isDeterminate (r : IndexRange) : Bool := r.first == r.last && !r.mayOverflow

end IndexRange

/-- An array on one path. -/
structure ArrayValue where
  /-- The name of the array. -/
  name : String
  /-- The type of its elements. -/
  type : ValueType
  /-- The possible sizes. -/
  size : Interval Double
  /-- What is known of the elements. -/
  runs : List Run
  deriving Inhabited

namespace ArrayValue

/-- An array of which no element was written. -/
def declare (name : String) (type : ValueType) (size : Interval Double) :
    Except ProgramError ArrayValue :=
  match size.integerRange with
  | some (least, greatest) =>
    if greatest < 1 then .error (.invalidArraySize name size)
    else
      .ok
        { name, type
          size := ⟨Double.ofInt (max least 1), Double.ofInt greatest⟩
          runs := [⟨0, greatest - 1, .full type, false⟩] }
  | none => .error (.invalidArraySize name size)

/-- The elements an index may hit.  It is a mistake if the index can never be an
integer or can never be within bounds. -/
def checkIndex (a : ArrayValue) (index : Interval Double) : Except ProgramError IndexRange :=
  match index.integerRange with
  | none => .error (.nonIntegralIndex a.name index)
  | some (least, greatest) =>
    let minSize := Interval.lastIndex a.size.lo
    let maxSize := Interval.lastIndex a.size.hi
    if greatest < 0 || maxSize ≤ least then .error (.outOfBounds a.name index a.size)
    else
      .ok
        { first := max least 0
          last := min greatest (maxSize - 1)
          mayOverflow := decide (least < 0) || decide (minSize ≤ greatest) }

/-- The values of the elements hit, and whether all of them were written. -/
def read (a : ArrayValue) (range : IndexRange) : Value × Bool :=
  let hit := a.runs.filter (·.meets range.first range.last)
  match hit with
  | [] => (.full a.type, true)
  | r :: rest => (rest.foldl (fun v s => v.join s.value) r.value, hit.all Run.defined)

/-- What a write does to a run that lies within the range. -/
def writeRun (range : IndexRange) (value : Value) (r : Run) : Run :=
  if !r.within range.first range.last then r
  else if range.isDeterminate then { r with value, defined := true }
  else { r with value := r.value.join value }

/-- Writes a value to the elements hit. -/
def write (a : ArrayValue) (range : IndexRange) (value : Value) : ArrayValue :=
  let cut := (a.runs.flatMap (Run.split range.first)).flatMap (Run.split (range.last + 1))
  { a with runs := Run.coalesce (cut.map (writeRun range value)) }

/-- Forgets all values.  Which elements were written stays known. -/
def clobber (a : ArrayValue) : ArrayValue :=
  { a with runs := Run.coalesce (a.runs.map fun r => { r with value := .full a.type }) }

/-! ## Lattice -/

/-- The last index of the runs. -/
def lastIndex? (a : ArrayValue) : Option Int := a.runs.getLast?.map Run.last

/-- Combines two arrays element by element.  Arrays of different type or length
are not compared, and the second is kept. -/
def combine (f : Value → Value → Value) (a b : ArrayValue) : ArrayValue :=
  if a.type = b.type ∧ a.lastIndex? = b.lastIndex? then
    { a with
      size := a.size.join b.size
      runs := Run.coalesce ((Run.overlay a.runs b.runs).map fun (r, s) =>
        { r with value := f r.value s.value, defined := r.defined && s.defined }) }
  else b

/-- The values of either side. -/
def join : ArrayValue → ArrayValue → ArrayValue := combine Value.join

/-- The values of both sides. -/
def meet : ArrayValue → ArrayValue → ArrayValue := combine Value.meet

/-- The values of either side, every bound that moved going to its extreme. -/
def widen : ArrayValue → ArrayValue → ArrayValue := combine Value.widen

/-- Does `a` describe everything that `b` describes? -/
def subsumes (a b : ArrayValue) : Bool :=
  a.type == b.type && a.size.subsumes b.size &&
    (Run.overlay a.runs b.runs).all fun (r, s) =>
      r.value.subsumes s.value && (!r.defined || s.defined)

/-- Has some element no possible value? -/
def isEmpty (a : ArrayValue) : Bool := a.runs.any (·.value.isEmpty)

/-- An array as it is shown. -/
def text (a : ArrayValue) : String :=
  s!"{a.type} {a.name}[{a.size}] = " ++ "\x7b" ++
    ", ".intercalate (a.runs.map Run.text) ++ "\x7d"

end ArrayValue

end Symbolic
end FlowVerifier
