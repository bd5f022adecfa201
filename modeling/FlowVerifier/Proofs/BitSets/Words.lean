import FlowVerifier.Proofs.BitSets
import Mathlib

/-!
# Sets as numbers and as words

The mask of a set is the number whose binary digits are the members (`sum_toList`).  Cut into
words of 64 digits, least first, it is compared by the last word in which two sets differ:
`compare_words` says that this is the order of the numbers, for sets of any capacity.

`radixSortDescending_ordered` says what the sort does with sets of one capacity: it succeeds,
and of two sets the one with the larger number comes first, in particular a set before its
proper subsets; equal sets keep their order.
-/

namespace FlowVerifier
namespace BitSet

variable {s t : BitSet}

/-! ## Numbers -/

/-- The digits below `n` make the number modulo `2 ^ n`. -/
theorem sum_digits (m n : Nat) :
    (((List.range n).filter m.testBit).map (2 ^ ·)).sum = m % 2 ^ n := by
  induction n with
  | zero => simp [Nat.mod_one]
  | succ n ih =>
      rw [List.range_succ, List.filter_append, List.map_append, List.sum_append, ih,
        mod_two_pow_succ]
      cases h : m.testBit n <;> simp [h]

theorem mask_lt (s : BitSet) : s.mask < 2 ^ s.capacity := Nat.lt_pow_two_of_testBit _ s.bounded

/-- **The mask** is the number whose binary digits are the members. -/
theorem sum_toList (s : BitSet) : (s.toList.map (2 ^ ·)).sum = s.mask := by
  rw [toList_eq]
  exact (sum_digits s.mask s.capacity).trans (Nat.mod_eq_of_lt (mask_lt s))

/-! ## Words -/

/-- The lowest `n` words of a mask, least first. -/
def wordsOf (n mask : Nat) : List UInt64 :=
  (List.range n).map fun k => UInt64.ofNat (mask >>> (64 * k))

/-- The words of a set, as many as its capacity needs. -/
def words (s : BitSet) : List UInt64 := wordsOf ((s.capacity + 63) / 64) s.mask

theorem wordsOf_succ (n mask : Nat) :
    wordsOf (n + 1) mask = wordsOf n mask ++ [UInt64.ofNat (mask >>> (64 * n))] := by
  rw [wordsOf, List.range_succ, List.map_append]
  rfl

/-- The words below a digit do not depend on it. -/
theorem wordsOf_mod (n mask : Nat) : wordsOf n (mask % 2 ^ (64 * n)) = wordsOf n mask := by
  refine List.map_congr_left fun k hk => UInt64.toNat_inj.1 ?_
  have hk : k < n := List.mem_range.1 hk
  rw [UInt64.toNat_ofNat', UInt64.toNat_ofNat']
  refine Nat.eq_of_testBit_eq fun i => ?_
  simp only [Nat.testBit_mod_two_pow, Nat.testBit_shiftRight]
  by_cases hi : i < 64
  · have hlt : 64 * k + i < 64 * n := by omega
    simp [hlt]
  · simp [hi]

/-- Numbers are compared by their quotients, and by their remainders if these are equal. -/
theorem compare_eq_then (q a b : Nat) :
    compare a b = (compare (a / q) (b / q)).then (compare (a % q) (b % q)) := by
  have ha := Nat.div_add_mod a q
  have hb := Nat.div_add_mod b q
  rcases Nat.lt_trichotomy (a / q) (b / q) with h | h | h
  · rw [Nat.compare_eq_lt.2 h, Nat.compare_eq_lt.2 (Nat.lt_of_div_lt_div h)]
    rfl
  · rw [Nat.compare_eq_eq.2 h, Ordering.eq_then]
    rw [h] at ha
    calc compare a b = compare (q * (b / q) + a % q) (q * (b / q) + b % q) := by rw [ha, hb]
      _ = compare (a % q) (b % q) := by
        simp only [Nat.compare_eq_ite_lt, Nat.add_lt_add_iff_left]
  · rw [Nat.compare_eq_gt.2 h, Nat.compare_eq_gt.2 (Nat.lt_of_div_lt_div h)]
    rfl

/-- Masks are compared word by word, from the last. -/
theorem compare_wordsOf {n : Nat} {a b : Nat} (ha : a < 2 ^ (64 * n)) (hb : b < 2 ^ (64 * n)) :
    compare (wordsOf n a).reverse (wordsOf n b).reverse = compare a b := by
  induction n generalizing a b with
  | zero =>
      obtain rfl : a = 0 := by simpa using ha
      obtain rfl : b = 0 := by simpa using hb
      rfl
  | succ n ih =>
      have hpos : 0 < 2 ^ (64 * n) := Nat.two_pow_pos _
      have hhigh : ∀ c, c < 2 ^ (64 * (n + 1)) →
          (UInt64.ofNat (c >>> (64 * n))).toNat = c / 2 ^ (64 * n) := by
        intro c hc
        rw [UInt64.toNat_ofNat', Nat.shiftRight_eq_div_pow]
        refine Nat.mod_eq_of_lt (Nat.div_lt_of_lt_mul ?_)
        rwa [← Nat.pow_add]
      rw [wordsOf_succ, wordsOf_succ, List.reverse_concat, List.reverse_concat,
        List.compare_cons_cons, UInt64.compare_eq_toNat_compare_toNat, hhigh a ha, hhigh b hb,
        ← wordsOf_mod n a, ← wordsOf_mod n b, ih (Nat.mod_lt _ hpos) (Nat.mod_lt _ hpos),
        ← compare_eq_then]

/-- **Sets are compared word by word**, from the last word on. -/
theorem compare_words (h : s.capacity = t.capacity) :
    compare s.words.reverse t.words.reverse = s.compareMask t := by
  have hwords : ∀ u : BitSet, u.mask < 2 ^ (64 * ((u.capacity + 63) / 64)) := fun u =>
    Nat.lt_of_lt_of_le (mask_lt u) (Nat.pow_le_pow_right (by omega) (by omega))
  unfold words
  rw [← h]
  exact compare_wordsOf (hwords s) (h ▸ hwords t)

/-! ## Sorting -/

theorem maskAt_eq {sets : Array BitSet} {i : Nat} (h : sets[i]? = some s) :
    maskAt sets i = s.mask := by
  rw [maskAt, h]
  rfl

/-- Of two indices of a sorted list the one with the larger mask comes first. -/
theorem idxOf_lt_of_mask_lt {sets : Array BitSet} {order : List Nat} {i j : Nat}
    (hsorted : order.Pairwise fun i j =>
      maskAt sets j < maskAt sets i ∨ maskAt sets j = maskAt sets i ∧ i < j)
    (hi : i ∈ order) (hj : j ∈ order) (h : maskAt sets j < maskAt sets i) :
    order.idxOf i < order.idxOf j := by
  have hilt := List.idxOf_lt_length_iff.2 hi
  have hjlt := List.idxOf_lt_length_iff.2 hj
  rcases Nat.lt_trichotomy (order.idxOf i) (order.idxOf j) with hlt | heq | hgt
  · exact hlt
  · obtain rfl : i = j := (List.idxOf_inj hi).1 heq
    exact absurd h (Nat.lt_irrefl _)
  · have hback := List.pairwise_iff_getElem.1 hsorted _ _ hjlt hilt hgt
    rw [List.getElem_idxOf, List.getElem_idxOf] at hback
    omega

/-- **The sort orders sets of one capacity** by their numbers, largest first.  It succeeds,
lists every index once, keeps the order of equal sets, and lists a set before each of its proper
subsets.  Two sets are compared as the numbers whose binary digits their members are, which is
the same as word by word from the last word on. -/
theorem radixSortDescending_ordered :
    (∀ sets : Array BitSet, (∀ s ∈ sets, ∀ t ∈ sets, s.capacity = t.capacity) →
      ∃ order, radixSortDescending? sets = some order ∧
        order.Perm (List.range sets.size) ∧
        (order.Pairwise fun i j => ∀ s t, sets[i]? = some s → sets[j]? = some t →
          s.compareMask t ≠ .lt ∧ (s = t → i < j)) ∧
        ∀ i j s t, sets[i]? = some s → sets[j]? = some t → t ⊂ s →
          order.idxOf i < order.idxOf j) ∧
    ∀ s t : BitSet, s.capacity = t.capacity →
      s.compareMask t = compare (s.toList.map (2 ^ ·)).sum (t.toList.map (2 ^ ·)).sum ∧
        s.compareMask t = compare s.words.reverse t.words.reverse := by
  refine ⟨fun sets hcapacity => ?_, fun s t h => ⟨?_, (compare_words h).symm⟩⟩
  · have hperm := perm_radixSortDescending sets
    have hsorted := radixSortDescending_sorts hcapacity
    have hmem : ∀ {i s}, sets[i]? = some s → i ∈ radixSortDescending sets := fun h =>
      hperm.mem_iff.2 (List.mem_range.2 (Array.getElem?_eq_some_iff.1 h).1)
    have hcheck : (sets.all fun s => sets[0]?.all (·.capacity == s.capacity)) = true := by
      refine Array.all_eq_true_iff_forall_mem.2 fun s hs => ?_
      cases hfirst : sets[0]? with
      | none => rfl
      | some first =>
          exact beq_iff_eq.2 (hcapacity first (Array.mem_of_getElem? hfirst) s hs)
    refine ⟨_, if_pos hcheck, hperm, hsorted.imp fun {i j} hij s t hs ht => ?_,
      fun i j s t hs ht hsub => ?_⟩
    · rw [maskAt_eq hs, maskAt_eq ht] at hij
      refine ⟨fun hlt => ?_, fun heq => ?_⟩
      · have hlt : s.mask < t.mask := Nat.compare_eq_lt.1 hlt
        omega
      · rw [heq] at hij
        omega
    · refine idxOf_lt_of_mask_lt hsorted (hmem hs) (hmem ht) ?_
      rw [maskAt_eq hs, maskAt_eq ht]
      exact mask_lt_of_ssubset hsub
  · rw [sum_toList, sum_toList, compareMask]

/-- Five sets of two words each. -/
def nested : Array BitSet :=
  ([[10, 11], [1, 2, 10, 11, 70], [70], [1, 2], [1, 2, 10, 11]].map (ofList 80)).toArray

theorem radixSortDescending_ordered_nested :
    (∀ s ∈ nested, ∀ t ∈ nested, s.capacity = t.capacity) ∧
      ∃ order, radixSortDescending? nested = some order ∧ order = [1, 2, 4, 0, 3] ∧
        order.Perm (List.range nested.size) ∧
        ∀ i j s t, nested[i]? = some s → nested[j]? = some t → t ⊂ s →
          order.idxOf i < order.idxOf j := by
  have hcapacity : ∀ s ∈ nested, ∀ t ∈ nested, s.capacity = t.capacity := by decide +kernel
  obtain ⟨order, horder, hperm, -, hsupersets⟩ := radixSortDescending_ordered.1 nested hcapacity
  have hlisted : radixSortDescending? nested = some [1, 2, 4, 0, 3] := by decide +kernel
  exact ⟨hcapacity, order, horder, Option.some.inj (horder.symm.trans hlisted), hperm, hsupersets⟩

end BitSet
end FlowVerifier
