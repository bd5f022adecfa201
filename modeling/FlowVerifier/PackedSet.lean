import FlowVerifier.BitSet

/-!
# Sets packed into words

A `PackedSet` stores numbers below a fixed capacity as the binary digits of words of 64 digits
each, the least first: number `i` is digit `i % 64` of word `i / 64`.  Its operations go through
the words one by one, and never look at the digits of a word singly.

As for `BitSet`, an operation is refused, with the answer `none`, on a number that is not below
the capacity and on two sets of different capacity; `mask` gives the same set as a `BitSet`.

The members are listed by a `Cursor`, which holds the word it is at with the digits that it has
not listed yet.  Every step clears a digit or goes on to the next word, so a cursor comes to its
end.
-/

namespace FlowVerifier

/-- Numbers below `capacity`, packed into words. -/
structure PackedSet where
  /-- The numbers that can be members are those below the capacity. -/
  capacity : Nat
  /-- The digits, 64 to a word, the least word first. -/
  words : Array UInt64
  deriving DecidableEq, Inhabited

namespace PackedSet

/-! ## Members -/

/-- The empty set. -/
def empty (capacity : Nat) : PackedSet := ⟨capacity, Array.replicate ((capacity + 63) / 64) 0⟩

/-- The word in which the digit of `i` is one and the others are zero. -/
def digit (i : Nat) : UInt64 := 1 <<< UInt64.ofNat (i % 64)

/-- Is `i` a member? -/
def contains (s : PackedSet) (i : Nat) : Bool :=
  decide (i < s.capacity) && s.words[i / 64]?.any fun w => w &&& digit i != 0

/-- Changes the word in which the digit of `i` is.  The answer is the new set and the old word. -/
def modifyWord? (s : PackedSet) (i : Nat) (change : UInt64 → UInt64) :
    Option (PackedSet × UInt64) :=
  if i < s.capacity then
    s.words[i / 64]?.map fun w =>
      ({ s with words := s.words.setIfInBounds (i / 64) (change w) }, w)
  else none

/-- Adds a number.  The answer says besides whether it was no member before. -/
def insert? (s : PackedSet) (i : Nat) : Option (PackedSet × Bool) :=
  (s.modifyWord? i (· ||| digit i)).map fun (t, w) => (t, w &&& digit i == 0)

/-- The set of the given numbers. -/
def ofList? (capacity : Nat) (members : List Nat) : Option PackedSet :=
  members.foldlM (fun s i => (s.insert? i).map Prod.fst) (empty capacity)

/-- Takes a number out. -/
def erase? (s : PackedSet) (i : Nat) : Option PackedSet :=
  (s.modifyWord? i (· &&& ~~~digit i)).map Prod.fst

/-- The number of members. -/
def count (s : PackedSet) : Nat :=
  s.words.toList.foldr (fun w n => w.toBitVec.cpop.toNat + n) 0

/-- Has the set no members? -/
def isEmpty (s : PackedSet) : Bool := s.words.toList.all (· == 0)

/-! ## Two sets -/

/-- The answer of a test on the words of two sets, refused if their capacities differ. -/
def ifComparable {α : Type} (test : List UInt64 → List UInt64 → α) (s t : PackedSet) : Option α :=
  if s.capacity = t.capacity then some (test s.words.toList t.words.toList) else none

/-- Adds the digits of the second words to the first, and says whether that changed a word. -/
def uniteWords : List UInt64 → List UInt64 → List UInt64 × Bool
  | a :: as, b :: bs =>
    let (rest, changed) := uniteWords as bs
    ((a ||| b) :: rest, a != a ||| b || changed)
  | as, _ => (as, false)

/-- Adds the members of `t`.  The answer says besides whether there were new ones. -/
def union? (s t : PackedSet) : Option (PackedSet × Bool) :=
  (ifComparable uniteWords s t).map fun (words, changed) =>
    ({ s with words := words.toArray }, changed)

/-- Is every member of `s` a member of `t`? -/
def isSubset? : PackedSet → PackedSet → Option Bool :=
  ifComparable fun as bs => (as.zip bs).all fun p => p.1 &&& ~~~p.2 == 0

/-- Have the sets a member in common? -/
def intersects? : PackedSet → PackedSet → Option Bool :=
  ifComparable fun as bs => (as.zip bs).any fun p => p.1 &&& p.2 != 0

/-- Compares two sets as the numbers whose binary digits they are. -/
def compare? : PackedSet → PackedSet → Option Ordering :=
  ifComparable fun as bs => compare as.reverse bs.reverse

/-! ## Listing the members -/

/-- How far a listing of the members has come. -/
structure Cursor where
  /-- The words of the set. -/
  words : Array UInt64
  /-- The index of the word at which the listing is. -/
  index : Nat
  /-- The digits of this word that were not listed yet. -/
  current : UInt64

/-- The listing that has not begun. -/
def start (s : PackedSet) : Cursor := ⟨s.words, 0, s.words[0]?.getD 0⟩

namespace Cursor

/-- Clearing the lowest one of a word makes it smaller. -/
theorem clear_lt {w : UInt64} (h : w ≠ 0) : (w &&& (w - 1)).toNat < w.toNat := by
  have hpos : 0 < w.toNat := Nat.pos_of_ne_zero fun hz => h (UInt64.toNat_inj.1 hz)
  have hle : (1 : UInt64) ≤ w := UInt64.le_iff_toNat_le.2 hpos
  have hand : w.toNat &&& (w.toNat - 1) ≤ w.toNat - 1 := Nat.and_le_right
  rw [UInt64.toNat_and, UInt64.toNat_sub_of_le _ _ hle]
  exact Nat.lt_of_le_of_lt hand (Nat.sub_lt hpos Nat.one_pos)

/-- The next member, if there is one, and the listing after it. -/
def next? (c : Cursor) : Option (Nat × Cursor) :=
  if c.current ≠ 0 then
    some (c.index * 64 + c.current.toBitVec.ctz.toNat,
      { c with current := c.current &&& (c.current - 1) })
  else
    match _h : c.words[c.index + 1]? with
    | some w => next? { c with index := c.index + 1, current := w }
    | none => none
termination_by c.words.size - c.index
decreasing_by
  have hlt := (Array.getElem?_eq_some_iff.1 _h).1
  show c.words.size - (c.index + 1) < c.words.size - c.index
  omega

/-- A step of a listing clears a digit of the word it is at, or goes on to a later word. -/
theorem next?_lt {c d : Cursor} {i : Nat} (h : c.next? = some (i, d)) :
    Prod.Lex (· < ·) (· < ·) (d.words.size - d.index, d.current.toNat)
      (c.words.size - c.index, c.current.toNat) := by
  fun_induction next? c with
  | case1 c hne =>
      obtain ⟨-, rfl⟩ := Prod.mk.inj (Option.some.inj h)
      exact Prod.Lex.right _ (clear_lt hne)
  | case2 c _ w hw ih =>
      have hlt := (Array.getElem?_eq_some_iff.1 hw).1
      refine Prod.Lex.left _ _ ?_
      rcases Prod.lex_def.1 (ih h) with hless | ⟨heq, -⟩
      · dsimp only at hless
        omega
      · dsimp only at heq
        omega
  | case3 c _ _ => exact absurd h (by simp)

/-- What is left to list. -/
def toList (c : Cursor) : List Nat :=
  match _h : c.next? with
  | some (i, d) => i :: d.toList
  | none => []
termination_by (c.words.size - c.index, c.current.toNat)
decreasing_by exact next?_lt _h

end Cursor

/-- The members, as they are listed. -/
def toList (s : PackedSet) : List Nat := s.start.toList

/-- The set as a mask. -/
def mask (s : PackedSet) : BitSet := BitSet.ofList s.capacity s.toList

/-- The members as they are shown. -/
def text (s : PackedSet) : String :=
  "\x7b" ++ ", ".intercalate (s.toList.map toString) ++ "\x7d"

end PackedSet

end FlowVerifier
