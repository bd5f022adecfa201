import FlowVerifier.Mask

/-!
# Sets of small numbers

A `BitSet` holds numbers below a fixed capacity as the binary digits of one
natural number, its *mask*.  Set operations are bitwise, and the mask orders the
sets: a set has a larger mask than any of its proper subsets.

An operation is refused, with the answer `none`, on a number that is not below
the capacity and on two sets of different capacity.

`radixSortDescending` sorts sets by their masks, looking at one number after the
other from the least; each round is stable, so the last one decides.
-/

namespace FlowVerifier

/-- A set of numbers below `capacity`. -/
structure BitSet where
  /-- The numbers that can be members are those below the capacity. -/
  capacity : Nat
  /-- Digit `i` is one exactly if `i` is a member. -/
  mask : Nat
  /-- No digit at or above the capacity is one. -/
  bounded : ∀ i, capacity ≤ i → mask.testBit i = false
  deriving DecidableEq

namespace BitSet

/-! ## Members -/

/-- The empty set. -/
def empty (capacity : Nat) : BitSet := ⟨capacity, 0, fun i _ => Nat.zero_testBit i⟩

instance : Inhabited BitSet := ⟨empty 0⟩

/-- Is `i` a member? -/
def contains (s : BitSet) (i : Nat) : Bool := s.mask.testBit i

/-- The mask of a single number has no digit at or above a capacity above it. -/
theorem testBit_digit {i capacity : Nat} (h : i < capacity) (j : Nat) (hj : capacity ≤ j) :
    (1 <<< i).testBit j = false := by
  have hij : j ≠ i := by omega
  rw [Nat.one_shiftLeft, Nat.testBit_two_pow_of_ne hij.symm]

/-- Adds a number. -/
def insert? (s : BitSet) (i : Nat) : Option BitSet :=
  if h : i < s.capacity then
    some ⟨s.capacity, s.mask ||| (1 <<< i), fun j hj => by
      rw [Nat.testBit_or, s.bounded j hj, testBit_digit h j hj, Bool.or_false]⟩
  else none

/-- Takes a number out. -/
def erase? (s : BitSet) (i : Nat) : Option BitSet :=
  if h : i < s.capacity then
    if s.contains i then
      some ⟨s.capacity, s.mask ^^^ (1 <<< i), fun j hj => by
        rw [Nat.testBit_xor, s.bounded j hj, testBit_digit h j hj, Bool.xor_false]⟩
    else some s
  else none

/-- Adds a number, if it is below the capacity. -/
def insert (s : BitSet) (i : Nat) : BitSet := (s.insert? i).getD s

/-- The set of the given numbers, those at or above the capacity left out. -/
def ofList (capacity : Nat) (members : List Nat) : BitSet :=
  members.foldl insert (empty capacity)

/-- The members, ascending. -/
def toList (s : BitSet) : List Nat := Mask.ones s.mask

/-- The members are the numbers below the capacity that the set contains. -/
theorem toList_eq (s : BitSet) : s.toList = (List.range s.capacity).filter s.contains :=
  Mask.ones_eq s.bounded

/-- The number of members. -/
def count (s : BitSet) : Nat := s.toList.length

/-- Has the set no members? -/
def isEmpty (s : BitSet) : Bool := s.mask == 0

/-- The members as they are shown. -/
def text (s : BitSet) : String :=
  "\x7b" ++ ", ".intercalate (s.toList.map toString) ++ "\x7d"

/-! ## Two sets -/

/-- The members of either set. -/
def union? (s t : BitSet) : Option BitSet :=
  if h : s.capacity = t.capacity then
    some ⟨s.capacity, s.mask ||| t.mask, fun j hj => by
      rw [Nat.testBit_or, s.bounded j hj, t.bounded j (h ▸ hj), Bool.or_false]⟩
  else none

/-- Is every member of `s` a member of `t`? -/
def isSubset (s t : BitSet) : Bool := s.mask &&& t.mask == s.mask

/-- Have the sets a member in common? -/
def intersects (s t : BitSet) : Bool := s.mask &&& t.mask != 0

/-- Compares two sets as the numbers whose binary digits they are. -/
def compareMask (s t : BitSet) : Ordering := compare s.mask t.mask

/-- The answer of a test on two sets, refused if their capacities differ. -/
def ifComparable {α : Type} (test : BitSet → BitSet → α) (s t : BitSet) : Option α :=
  if s.capacity = t.capacity then some (test s t) else none

/-! ## Sorting -/

/-- One round of the sort: the indices of sets with member `bit` come first. -/
def sortRound (sets : Array BitSet) (order : List Nat) (bit : Nat) : List Nat :=
  let (having, lacking) := order.partition fun i => sets[i]?.any (·.contains bit)
  having ++ lacking

/-- The capacity that sets to be sorted have in common. -/
def commonCapacity (sets : Array BitSet) : Nat := sets[0]?.elim 0 capacity

/-- The order that sorts sets of one capacity by their masks, largest first;
equal sets keep their order. -/
def radixSortDescending (sets : Array BitSet) : List Nat :=
  (List.range (commonCapacity sets)).foldl (sortRound sets) (List.range sets.size)

/-- The sort, refused if the capacities differ. -/
def radixSortDescending? (sets : Array BitSet) : Option (List Nat) :=
  if sets.all fun s => sets[0]?.all (·.capacity == s.capacity) then
    some (radixSortDescending sets)
  else none

end BitSet

end FlowVerifier
