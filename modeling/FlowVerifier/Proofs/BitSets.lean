import FlowVerifier.BitSet
import Mathlib

/-!
# Sets of numbers and their order

A `BitSet` is told apart by its members (`BitSet.ext`), and its operations are
the ones on sets of members (`contains_ofList`, `isSubset_iff`,
`intersects_iff`).  A set has a larger mask than its proper subsets
(`mask_lt_of_ssubset`), so an order by masks puts it before them.

`radixSortDescending_sorts` says what the sort by single digits achieves: the
indices come in the order of the masks, largest first, and indices of equal sets
in their own order.  The invariant is on the digits that were looked at so far:
after the rounds for the digits below `n` the indices are in the order of the
masks modulo `2 ^ n`.
-/

namespace FlowVerifier
namespace BitSet

variable {s t : BitSet}

/-! ## Members -/

/-- Two sets of one capacity with the same members are the same. -/
theorem ext (hcapacity : s.capacity = t.capacity) (h : ∀ i, s.contains i = t.contains i) :
    s = t := by
  obtain ⟨c, m, _⟩ := s
  obtain ⟨d, n, _⟩ := t
  obtain rfl : c = d := hcapacity
  obtain rfl : m = n := Nat.eq_of_testBit_eq h
  rfl

theorem lt_capacity {i : Nat} (h : s.contains i = true) : i < s.capacity := by
  by_contra hi
  rw [contains, s.bounded i (Nat.le_of_not_lt hi)] at h
  exact Bool.false_ne_true h

theorem capacity_insert (s : BitSet) (i : Nat) : (s.insert i).capacity = s.capacity := by
  unfold insert insert?
  split <;> rfl

theorem contains_insert (s : BitSet) (i j : Nat) :
    (s.insert i).contains j = true ↔ s.contains j = true ∨ (j = i ∧ i < s.capacity) := by
  unfold insert insert?
  split
  · rename_i hi
    simp only [Option.getD_some, contains, Nat.testBit_or, Bool.or_eq_true, Nat.one_shiftLeft,
      Nat.testBit_two_pow, decide_eq_true_eq, hi, and_true, @eq_comm _ j i]
  · rename_i hi
    simp [hi]

theorem capacity_foldl_insert (l : List Nat) (s : BitSet) :
    (l.foldl insert s).capacity = s.capacity := by
  induction l generalizing s with
  | nil => rfl
  | cons x l ih => rw [List.foldl_cons, ih, capacity_insert]

/-- The members after the elements of a list were added. -/
theorem contains_foldl_insert (l : List Nat) (s : BitSet) (i : Nat) :
    (l.foldl insert s).contains i = true ↔ s.contains i = true ∨ (i ∈ l ∧ i < s.capacity) := by
  induction l generalizing s with
  | nil => simp
  | cons x l ih =>
      rw [List.foldl_cons, ih, contains_insert, capacity_insert, List.mem_cons]
      constructor
      · rintro ((h | ⟨rfl, h⟩) | ⟨h, hlt⟩)
        · exact Or.inl h
        · exact Or.inr ⟨Or.inl rfl, h⟩
        · exact Or.inr ⟨Or.inr h, hlt⟩
      · rintro (h | ⟨rfl | h, hlt⟩)
        · exact Or.inl (Or.inl h)
        · exact Or.inl (Or.inr ⟨rfl, hlt⟩)
        · exact Or.inr ⟨h, hlt⟩

theorem capacity_ofList (n : Nat) (l : List Nat) : (ofList n l).capacity = n :=
  capacity_foldl_insert l (empty n)

/-- The set of a list holds the elements below the capacity. -/
theorem contains_ofList (n : Nat) (l : List Nat) (i : Nat) :
    (ofList n l).contains i = true ↔ i ∈ l ∧ i < n := by
  have hempty : (empty n).contains i = false := Nat.zero_testBit i
  rw [ofList, contains_foldl_insert, hempty]
  simp [empty]

theorem mem_toList {i : Nat} : i ∈ s.toList ↔ s.contains i = true := by
  rw [toList_eq, List.mem_filter, List.mem_range]
  exact ⟨fun h => h.2, fun h => ⟨lt_capacity h, h⟩⟩

/-- The members are listed in ascending order. -/
theorem pairwise_toList (s : BitSet) : s.toList.Pairwise (· < ·) := by
  rw [toList_eq]
  exact List.pairwise_lt_range.filter _

/-! ## Two sets -/

theorem isSubset_iff :
    s.isSubset t = true ↔ ∀ i, s.contains i = true → t.contains i = true := by
  unfold isSubset contains
  rw [beq_iff_eq]
  constructor
  · intro h i hi
    rw [← h, Nat.testBit_and, Bool.and_eq_true] at hi
    exact hi.2
  · intro h
    refine Nat.eq_of_testBit_eq fun i => ?_
    rw [Nat.testBit_and]
    cases hs : s.mask.testBit i with
    | false => rfl
    | true => rw [h i hs]; rfl

theorem intersects_iff :
    s.intersects t = true ↔ ∃ i, s.contains i = true ∧ t.contains i = true := by
  unfold intersects contains
  rw [bne_iff_ne]
  constructor
  · intro h
    obtain ⟨i, hi⟩ := Nat.exists_testBit_of_ne_zero h
    rw [Nat.testBit_and, Bool.and_eq_true] at hi
    exact ⟨i, hi⟩
  · rintro ⟨i, hs, ht⟩ h
    have hi : (s.mask &&& t.mask).testBit i = true := by rw [Nat.testBit_and, hs, ht]; rfl
    rw [h, Nat.zero_testBit] at hi
    exact Bool.false_ne_true hi

/-- Inclusion of the members. -/
instance : HasSubset BitSet := ⟨fun s t => ∀ i, s.contains i = true → t.contains i = true⟩

/-- Inclusion of sets that differ in their members. -/
instance : HasSSubset BitSet := ⟨fun s t => s ⊆ t ∧ ¬ t ⊆ s⟩

instance (s t : BitSet) : Decidable (s ⊆ t) := decidable_of_iff (s.isSubset t = true) isSubset_iff

instance (s t : BitSet) : Decidable (s ⊂ t) := inferInstanceAs (Decidable (s ⊆ t ∧ ¬ t ⊆ s))

theorem mask_le_of_subset (h : s ⊆ t) : s.mask ≤ t.mask := Nat.le_of_testBit h

theorem mask_lt_of_ssubset (h : s ⊂ t) : s.mask < t.mask := by
  refine Nat.lt_of_le_of_ne (mask_le_of_subset h.1) fun heq => h.2 fun i hi => ?_
  rw [contains, heq]
  exact hi

/-! ## Sorting -/

/-- The mask of the set with an index. -/
def maskAt (sets : Array BitSet) (i : Nat) : Nat := sets[i]?.elim 0 BitSet.mask

/-- The order of indices after the rounds for the digits below `n`: by the masks
modulo `2 ^ n`, largest first, and by the indices where these are equal. -/
def Precedes (sets : Array BitSet) (n i j : Nat) : Prop :=
  maskAt sets j % 2 ^ n < maskAt sets i % 2 ^ n ∨
    maskAt sets j % 2 ^ n = maskAt sets i % 2 ^ n ∧ i < j

theorem mod_two_pow_succ (x n : Nat) :
    x % 2 ^ (n + 1) = x % 2 ^ n + if x.testBit n = true then 2 ^ n else 0 := by
  rw [Nat.mod_pow_succ, Nat.testBit_eq_decide_div_mod_eq]
  rcases Nat.mod_two_eq_zero_or_one (x / 2 ^ n) with h | h <;> simp [h]

/-- A round keeps the order of two indices that agree in its digit. -/
theorem Precedes.succ {sets : Array BitSet} {n i j : Nat} (h : Precedes sets n i j)
    (heq : (maskAt sets i).testBit n = (maskAt sets j).testBit n) :
    Precedes sets (n + 1) i j := by
  unfold Precedes at h ⊢
  rw [mod_two_pow_succ, mod_two_pow_succ, heq]
  omega

/-- An index with the digit comes before one without. -/
theorem precedes_of_digit {sets : Array BitSet} {n i j : Nat}
    (hi : (maskAt sets i).testBit n = true) (hj : (maskAt sets j).testBit n = false) :
    Precedes sets (n + 1) i j := by
  unfold Precedes
  rw [mod_two_pow_succ, mod_two_pow_succ, hi, hj]
  have hlt : maskAt sets j % 2 ^ n < 2 ^ n := Nat.mod_lt _ (Nat.two_pow_pos n)
  simp only [if_true, Bool.false_eq_true, if_false]
  omega

theorem sortRound_eq (sets : Array BitSet) (order : List Nat) (bit : Nat) :
    sortRound sets order bit =
      order.filter (fun i => (maskAt sets i).testBit bit) ++
        order.filter fun i => !(maskAt sets i).testBit bit := by
  have hdigit : ∀ i, sets[i]?.any (·.contains bit) = (maskAt sets i).testBit bit := by
    intro i
    unfold maskAt
    cases sets[i]? with
    | none => simp
    | some s => rfl
  unfold sortRound
  rw [List.partition_eq_filter_filter]
  simp only [hdigit]
  rfl

theorem perm_sortRound (sets : Array BitSet) (order : List Nat) (bit : Nat) :
    (sortRound sets order bit).Perm order := by
  rw [sortRound_eq]
  exact List.filter_append_perm _ order

/-- **One round** of the sort: the order by the digits below `n` becomes the order
by the digits up to `n`. -/
theorem pairwise_sortRound {sets : Array BitSet} {order : List Nat} {n : Nat}
    (h : order.Pairwise (Precedes sets n)) :
    (sortRound sets order n).Pairwise (Precedes sets (n + 1)) := by
  rw [sortRound_eq, List.pairwise_append]
  refine ⟨?_, ?_, ?_⟩
  · refine (h.filter _).imp_of_mem fun {i j} hi hj hij => hij.succ ?_
    rw [(List.mem_filter.1 hi).2, (List.mem_filter.1 hj).2]
  · refine (h.filter _).imp_of_mem fun {i j} hi hj hij => hij.succ ?_
    have hin := (List.mem_filter.1 hi).2
    have hjn := (List.mem_filter.1 hj).2
    rw [Bool.not_eq_true'] at hin hjn
    rw [hin, hjn]
  · intro i hi j hj
    have hjn := (List.mem_filter.1 hj).2
    rw [Bool.not_eq_true'] at hjn
    exact precedes_of_digit (List.mem_filter.1 hi).2 hjn

/-- **The run of rounds**: the indices are permuted, and stand in the order of the
digits that were looked at. -/
theorem rounds_pairwise (sets : Array BitSet) (n : Nat) :
    ((List.range n).foldl (sortRound sets) (List.range sets.size)).Perm (List.range sets.size) ∧
      ((List.range n).foldl (sortRound sets) (List.range sets.size)).Pairwise
        (Precedes sets n) := by
  induction n with
  | zero =>
      refine ⟨.refl _, List.pairwise_lt_range.imp fun {i j} hij => Or.inr ⟨?_, hij⟩⟩
      simp [Nat.mod_one]
  | succ n ih =>
      rw [List.range_succ, List.foldl_append, List.foldl_cons, List.foldl_nil]
      exact ⟨(perm_sortRound sets _ n).trans ih.1, pairwise_sortRound ih.2⟩

theorem perm_radixSortDescending (sets : Array BitSet) :
    (radixSortDescending sets).Perm (List.range sets.size) :=
  (rounds_pairwise sets _).1

/-- Of sets of one capacity all digits are looked at. -/
theorem maskAt_mod {sets : Array BitSet} (h : ∀ s ∈ sets, ∀ t ∈ sets, s.capacity = t.capacity)
    (i : Nat) : maskAt sets i % 2 ^ commonCapacity sets = maskAt sets i := by
  unfold maskAt commonCapacity
  cases hi : sets[i]? with
  | none => exact Nat.zero_mod _
  | some s =>
      obtain ⟨hlt, -⟩ := Array.getElem?_eq_some_iff.1 hi
      have hfirst : sets[0]? = some sets[0] := Array.getElem?_eq_getElem (by omega)
      have hcapacity := h sets[0] (Array.getElem_mem _) s (Array.mem_of_getElem? hi)
      refine Nat.mod_eq_of_lt (Nat.lt_pow_two_of_testBit _ fun j hj => s.bounded j ?_)
      rw [hfirst] at hj
      exact hcapacity ▸ hj

/-- **The sort** of sets of one capacity puts the indices in the order of the masks,
largest first; indices of equal masks keep their order. -/
theorem radixSortDescending_sorts {sets : Array BitSet}
    (h : ∀ s ∈ sets, ∀ t ∈ sets, s.capacity = t.capacity) :
    (radixSortDescending sets).Pairwise fun i j =>
      maskAt sets j < maskAt sets i ∨ maskAt sets j = maskAt sets i ∧ i < j := by
  have hrounds := (rounds_pairwise sets (commonCapacity sets)).2
  unfold Precedes at hrounds
  simp only [maskAt_mod h] at hrounds
  exact hrounds

end BitSet
end FlowVerifier
