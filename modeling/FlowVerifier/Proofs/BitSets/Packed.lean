import FlowVerifier.PackedSet
import FlowVerifier.Proofs.BitSets.Words

/-!
# Packed sets do what masks do

`BitSet.packed` cuts the mask of a set into words.  Each operation on words gives what the
operation on masks gives, packed: it is refused on the same arguments, and answers the same.

The operations on single digits rest on what a word is digit by digit (`testBit_word`); a change
of one word is followed in `modifyWord?_packed`.  For the listing, `Cursor.remaining` says what a
cursor has not listed yet, and `Cursor.next?_remaining` that a step takes the first of it.
-/

namespace FlowVerifier

/-! ## Digits of words -/

namespace PackedSet

variable {v w : UInt64} {i j : Nat}

/-- Words with the same digits are the same. -/
theorem word_ext (h : ∀ j < 64, v.toNat.testBit j = w.toNat.testBit j) : v = w := by
  refine UInt64.toNat_inj.1 (Nat.eq_of_testBit_eq fun j => ?_)
  by_cases hj : j < 64
  · exact h j hj
  · have hle : 2 ^ 64 ≤ 2 ^ j := Nat.pow_le_pow_right (by decide) (Nat.le_of_not_lt hj)
    rw [Nat.testBit_lt_two_pow (v.toNat_lt.trans_le hle),
      Nat.testBit_lt_two_pow (w.toNat_lt.trans_le hle)]

theorem testBit_and (v w : UInt64) (j : Nat) :
    (v &&& w).toNat.testBit j = (v.toNat.testBit j && w.toNat.testBit j) := by
  rw [UInt64.toNat_and, Nat.testBit_and]

theorem testBit_or (v w : UInt64) (j : Nat) :
    (v ||| w).toNat.testBit j = (v.toNat.testBit j || w.toNat.testBit j) := by
  rw [UInt64.toNat_or, Nat.testBit_or]

theorem testBit_not (w : UInt64) (hj : j < 64) :
    (~~~w).toNat.testBit j = !w.toNat.testBit j := by
  show (~~~w).toBitVec.getLsbD j = !w.toBitVec.getLsbD j
  rw [UInt64.toBitVec_not, BitVec.getLsbD_not, decide_eq_true hj, Bool.true_and]

theorem testBit_digit (i j : Nat) : (digit i).toNat.testBit j = decide (i % 64 = j) := by
  have hi : i % 64 < 2 ^ 64 := by omega
  have hpow : 2 ^ (i % 64) < 2 ^ 64 := Nat.pow_lt_pow_right (by decide) (by omega)
  rw [digit, UInt64.toNat_shiftLeft, UInt64.toNat_ofNat', Nat.mod_eq_of_lt hi, UInt64.toNat_one,
    Nat.mod_mod, Nat.one_shiftLeft, Nat.mod_eq_of_lt hpow, Nat.testBit_two_pow]

theorem eq_zero_iff : w = 0 ↔ ∀ j < 64, w.toNat.testBit j = false := by
  constructor
  · rintro rfl j _
    exact Nat.zero_testBit j
  · intro h
    exact word_ext fun j hj => (h j hj).trans (Nat.zero_testBit j).symm

/-- A word has the digit of a number in common with another one if it is one there. -/
theorem and_digit_eq_zero_iff : w &&& digit i = 0 ↔ w.toNat.testBit (i % 64) = false := by
  rw [eq_zero_iff]
  constructor
  · intro h
    simpa [testBit_and, testBit_digit] using h (i % 64) (by omega)
  · intro h j _
    rw [testBit_and, testBit_digit]
    by_cases hj : i % 64 = j
    · rw [← hj, h, Bool.false_and]
    · rw [decide_eq_false hj, Bool.and_false]

end PackedSet

namespace BitSet

open PackedSet

variable {s t u : BitSet} {i j k : Nat}

/-- Word `k` of a mask. -/
def word (mask k : Nat) : UInt64 := UInt64.ofNat (mask >>> (64 * k))

theorem wordsOf_eq (n mask : Nat) : wordsOf n mask = (List.range n).map (word mask) := rfl

/-- **The digits of a word** are those of the mask from its place on. -/
theorem testBit_word (s : BitSet) (k : Nat) (hj : j < 64) :
    (word s.mask k).toNat.testBit j = s.contains (64 * k + j) := by
  rw [word, UInt64.toNat_ofNat', Nat.testBit_mod_two_pow, Nat.testBit_shiftRight,
    decide_eq_true hj, Bool.true_and, contains]

/-- The digit of a number is in the word where it is looked for. -/
theorem testBit_word_div (s : BitSet) (i : Nat) :
    (word s.mask (i / 64)).toNat.testBit (i % 64) = s.contains i := by
  rw [testBit_word s _ (Nat.mod_lt i (by decide)), Nat.div_add_mod]

/-! ## Operations on masks -/

theorem insert?_of_lt (h : i < s.capacity) : ∃ t, s.insert? i = some t ∧
    t.capacity = s.capacity ∧ ∀ j, t.contains j = (s.contains j || decide (j = i)) := by
  refine ⟨_, dif_pos h, rfl, fun j => ?_⟩
  simp only [contains, Nat.testBit_or, Nat.one_shiftLeft, Nat.testBit_two_pow, @eq_comm _ j i]

theorem erase?_of_lt (h : i < s.capacity) : ∃ t, s.erase? i = some t ∧
    t.capacity = s.capacity ∧ ∀ j, t.contains j = (s.contains j && decide (j ≠ i)) := by
  unfold erase?
  rw [dif_pos h]
  split
  · rename_i hi
    refine ⟨_, rfl, rfl, fun j => ?_⟩
    by_cases hj : j = i
    · subst hj
      simp [contains, Nat.testBit_xor, Nat.one_shiftLeft, show s.mask.testBit j = true from hi]
    · simp [contains, Nat.testBit_xor, Nat.one_shiftLeft,
        Nat.testBit_two_pow_of_ne (Ne.symm hj), hj]
  · rename_i hi
    refine ⟨s, rfl, rfl, fun j => ?_⟩
    by_cases hj : j = i
    · subst hj
      simpa using hi
    · simp [hj]

theorem union?_of_eq (h : s.capacity = t.capacity) : ∃ u, s.union? t = some u ∧
    u.capacity = s.capacity ∧ ∀ j, u.contains j = (s.contains j || t.contains j) :=
  ⟨_, dif_pos h, rfl, fun j => by simp only [contains, Nat.testBit_or]⟩

/-! ## Packing -/

/-- The set in words. -/
def packed (s : BitSet) : PackedSet := ⟨s.capacity, s.words.toArray⟩

theorem getElem?_packed (s : BitSet) (k : Nat) :
    s.packed.words[k]? = if k < (s.capacity + 63) / 64 then some (word s.mask k) else none := by
  simp only [packed, words, wordsOf_eq, List.getElem?_toArray, List.getElem?_map]
  by_cases hk : k < (s.capacity + 63) / 64 <;> simp [hk]

theorem getElem?_packed_div (h : i < s.capacity) :
    s.packed.words[i / 64]? = some (word s.mask (i / 64)) := by
  rw [getElem?_packed, if_pos (by omega)]

/-- Packed sets are told apart as masks are. -/
theorem packed_inj : s.packed = t.packed ↔ s = t := by
  refine ⟨fun h => ?_, fun h => congrArg packed h⟩
  have hcapacity : s.capacity = t.capacity := congrArg PackedSet.capacity h
  refine BitSet.ext hcapacity fun i => ?_
  by_cases hi : i < s.capacity
  · have hword := getElem?_packed_div hi
    rw [h, getElem?_packed_div (hcapacity ▸ hi), Option.some.injEq] at hword
    rw [← testBit_word_div, ← testBit_word_div, hword]
  · have hnot : ∀ {u : BitSet}, ¬ i < u.capacity → u.contains i = false := fun hu =>
      Bool.eq_false_iff.2 fun hc => hu (lt_capacity hc)
    rw [hnot hi, hnot (hcapacity ▸ hi)]

theorem packed_empty (n : Nat) : (empty n).packed = PackedSet.empty n := by
  have hword : ∀ k, word 0 k = 0 := fun k => by rw [word, Nat.zero_shiftRight]; rfl
  simp only [packed, words, wordsOf_eq, empty, PackedSet.empty, PackedSet.mk.injEq, true_and]
  refine Array.ext_getElem? fun k => ?_
  by_cases hk : k < (n + 63) / 64 <;> simp [hk, hword]

/-! ## Operations on words -/

theorem contains_packed (s : BitSet) (i : Nat) : s.packed.contains i = s.contains i := by
  unfold PackedSet.contains
  by_cases hi : i < s.capacity
  · have hdigit : (word s.mask (i / 64) &&& digit i != 0) = s.contains i := by
      rw [← testBit_word_div, Bool.eq_iff_iff, bne_iff_ne, Ne, and_digit_eq_zero_iff,
        Bool.not_eq_false]
    rw [getElem?_packed_div hi, Option.any_some, hdigit]
    exact (congrArg (· && s.contains i) (decide_eq_true hi)).trans (Bool.true_and _)
  · have hnot : s.contains i = false := Bool.eq_false_iff.2 fun hc => hi (lt_capacity hc)
    rw [hnot]
    exact (congrArg (· && _) (decide_eq_false hi)).trans (Bool.false_and _)

/-- A change of the word of a number, with what becomes of its digits. -/
theorem modifyWord?_packed {change : UInt64 → UInt64} (hi : i < s.capacity)
    (hcapacity : t.capacity = s.capacity)
    (hchange : ∀ j < 64, (change (word s.mask (i / 64))).toNat.testBit j =
      t.contains (64 * (i / 64) + j))
    (hframe : ∀ j, j / 64 ≠ i / 64 → t.contains j = s.contains j) :
    s.packed.modifyWord? i change = some (t.packed, word s.mask (i / 64)) := by
  have hword : change (word s.mask (i / 64)) = word t.mask (i / 64) :=
    word_ext fun j hj => (hchange j hj).trans (testBit_word t _ hj).symm
  have hwords : s.packed.words.setIfInBounds (i / 64) (word t.mask (i / 64)) = t.packed.words := by
    refine Array.ext_getElem? fun k => ?_
    rw [Array.getElem?_setIfInBounds, getElem?_packed, getElem?_packed, hcapacity]
    by_cases hk : i / 64 = k
    · subst hk
      have hlt := (Array.getElem?_eq_some_iff.1 (getElem?_packed_div hi)).1
      rw [if_pos rfl, if_pos hlt, if_pos (by omega)]
    · have hsame : word s.mask k = word t.mask k := word_ext fun j hj => by
        rw [testBit_word s k hj, testBit_word t k hj, hframe _ (by omega)]
      rw [if_neg hk, hsame]
  unfold modifyWord?
  rw [if_pos (show i < s.packed.capacity from hi), getElem?_packed_div hi, Option.map_some, hword,
    hwords]
  exact congrArg (fun c => some ((⟨c, t.packed.words⟩ : PackedSet), word s.mask (i / 64)))
    hcapacity.symm

theorem insert?_packed (s : BitSet) (i : Nat) :
    s.packed.insert? i = (s.insert? i).map fun t => (t.packed, !s.contains i) := by
  by_cases hi : i < s.capacity
  · obtain ⟨t, ht, hcapacity, hcontains⟩ := insert?_of_lt hi
    have hmodify : s.packed.modifyWord? i (· ||| digit i) =
        some (t.packed, word s.mask (i / 64)) := by
      refine modifyWord?_packed hi hcapacity (fun j hj => ?_) fun j hj => ?_
      · rw [PackedSet.testBit_or, testBit_word s _ hj, PackedSet.testBit_digit, hcontains]
        congr 1
        rw [decide_eq_decide]
        omega
      · have hne : j ≠ i := fun h => hj (h ▸ rfl)
        rw [hcontains, decide_eq_false hne, Bool.or_false]
    have hflag : (word s.mask (i / 64) &&& digit i == 0) = !s.contains i := by
      rw [← testBit_word_div, Bool.eq_iff_iff, beq_iff_eq, and_digit_eq_zero_iff,
        Bool.not_eq_true']
    rw [PackedSet.insert?, hmodify, ht, Option.map_some, Option.map_some, ← hflag]
  · have hnot : ¬ i < s.packed.capacity := hi
    rw [PackedSet.insert?, modifyWord?, if_neg hnot, insert?, dif_neg hi]
    rfl

theorem erase?_packed (s : BitSet) (i : Nat) :
    s.packed.erase? i = (s.erase? i).map packed := by
  by_cases hi : i < s.capacity
  · obtain ⟨t, ht, hcapacity, hcontains⟩ := erase?_of_lt hi
    have hmodify : s.packed.modifyWord? i (· &&& ~~~digit i) =
        some (t.packed, word s.mask (i / 64)) := by
      refine modifyWord?_packed hi hcapacity (fun j hj => ?_) fun j hj => ?_
      · rw [PackedSet.testBit_and, testBit_word s _ hj, PackedSet.testBit_not _ hj,
          PackedSet.testBit_digit, hcontains, ← decide_not]
        congr 1
        rw [decide_eq_decide]
        omega
      · have hne : j ≠ i := fun h => hj (h ▸ rfl)
        rw [hcontains, decide_eq_true hne, Bool.and_true]
    rw [PackedSet.erase?, hmodify, ht, Option.map_some, Option.map_some]
  · have hnot : ¬ i < s.packed.capacity := hi
    rw [PackedSet.erase?, modifyWord?, if_neg hnot, erase?, dif_neg hi]
    rfl

/-- A word of the first set changes exactly if it gets a digit. -/
theorem uniteWords_snd (as bs : List UInt64) :
    (uniteWords as bs).2 = decide ((uniteWords as bs).1 ≠ as) := by
  fun_induction uniteWords as bs with
  | case1 a as b bs rest changed heq ih =>
      rw [heq] at ih
      dsimp only at ih
      rw [ih, Bool.eq_iff_iff, Bool.or_eq_true, bne_iff_ne, decide_eq_true_iff, decide_eq_true_iff,
        ne_comm, ne_eq (_ :: _), List.cons.injEq, not_and_or]
  | case2 as bs _ => simp

theorem uniteWords_map (l : List Nat) (f h : Nat → UInt64) :
    (uniteWords (l.map f) (l.map h)).1 = l.map fun k => f k ||| h k := by
  induction l with
  | nil => rfl
  | cons k l ih =>
      rw [List.map_cons, List.map_cons, List.map_cons, uniteWords, ← ih]

theorem ifComparable_packed {α : Type} (test : List UInt64 → List UInt64 → α) :
    PackedSet.ifComparable test s.packed t.packed =
      if s.capacity = t.capacity then some (test s.words t.words) else none := rfl

theorem union?_packed (s t : BitSet) :
    s.packed.union? t.packed = (s.union? t).map fun u => (u.packed, decide (u ≠ s)) := by
  by_cases h : s.capacity = t.capacity
  · obtain ⟨u, hu, hcapacity, hcontains⟩ := union?_of_eq h
    have hwords : (uniteWords s.words t.words).1 = u.words := by
      unfold words
      rw [wordsOf_eq, wordsOf_eq, wordsOf_eq, ← h, hcapacity, uniteWords_map]
      refine List.map_congr_left fun k _ => word_ext fun j hj => ?_
      rw [PackedSet.testBit_or, testBit_word s k hj, testBit_word t k hj, testBit_word u k hj,
        hcontains]
    have hpacked : (⟨s.capacity, u.words.toArray⟩ : PackedSet) = u.packed := by
      rw [packed, hcapacity]
    have hchanged : (u.words ≠ s.words) ↔ u ≠ s := by
      refine not_congr ⟨fun hw => packed_inj.1 ?_, fun hw => congrArg words hw⟩
      rw [packed, packed, hcapacity, hw]
    have hunite : uniteWords s.words t.words = (u.words, decide (u ≠ s)) :=
      Prod.ext hwords (by rw [uniteWords_snd, hwords, decide_eq_decide.2 hchanged])
    rw [PackedSet.union?, ifComparable_packed, if_pos h, hu, Option.map_some, Option.map_some,
      hunite]
    exact congrArg (fun p => some (p, decide (u ≠ s))) hpacked
  · rw [PackedSet.union?, ifComparable_packed, if_neg h, union?, dif_neg h]
    rfl

/-! ## Tests -/

/-- Words are all zero if there is no digit in their places, looked for below a bound on them. -/
theorem all_words_zero {n : Nat} {f : Nat → UInt64} {p : Nat → Bool}
    (hdigit : ∀ k j, j < 64 → (f k).toNat.testBit j = p (64 * k + j))
    (hbound : ∀ i, n ≤ i → p i = false) :
    ((List.range ((n + 63) / 64)).all fun k => f k == 0) = true ↔ ∀ i, p i = false := by
  simp only [List.all_eq_true, List.mem_range, beq_iff_eq, eq_zero_iff]
  constructor
  · intro h i
    by_cases hi : i < n
    · have hmod := Nat.mod_lt i (show 0 < 64 by decide)
      rw [← Nat.div_add_mod i 64, ← hdigit _ _ hmod]
      exact h (i / 64) (by omega) (i % 64) hmod
    · exact hbound i (Nat.le_of_not_lt hi)
  · intro h k _ j hj
    rw [hdigit k j hj, h]

theorem contains_of_le (h : s.capacity ≤ i) : s.contains i = false := s.bounded i h

theorem isEmpty_iff : s.isEmpty = true ↔ ∀ i, s.contains i = false := by
  unfold isEmpty contains
  rw [beq_iff_eq]
  exact ⟨fun h i => by rw [h, Nat.zero_testBit], fun h =>
    Nat.eq_of_testBit_eq fun i => (h i).trans (Nat.zero_testBit i).symm⟩

theorem isEmpty_packed (s : BitSet) : s.packed.isEmpty = s.isEmpty := by
  have hall : s.packed.isEmpty = true ↔ ∀ i, s.contains i = false := by
    rw [PackedSet.isEmpty, packed, words, wordsOf_eq, List.toList_toArray, List.all_map]
    exact all_words_zero (fun k j hj => testBit_word s k hj) fun i => contains_of_le
  rw [Bool.eq_iff_iff, hall, isEmpty_iff]

/-- The words of two sets have no digit in common under an operation on words that is, digit by
digit, a test on numbers. -/
theorem all_zip_words_zero (op : UInt64 → UInt64 → UInt64) {p : Nat → Bool}
    (h : s.capacity = t.capacity)
    (hdigit : ∀ k j, j < 64 →
      (op (word s.mask k) (word t.mask k)).toNat.testBit j = p (64 * k + j))
    (hbound : ∀ i, s.capacity ≤ i → p i = false) :
    ((s.words.zip t.words).all fun q => op q.1 q.2 == 0) = true ↔ ∀ i, p i = false := by
  unfold words
  rw [wordsOf_eq, wordsOf_eq, ← h, List.zip_map', List.all_map]
  exact all_words_zero hdigit hbound

theorem isSubset?_packed (s t : BitSet) :
    s.packed.isSubset? t.packed = ifComparable isSubset s t := by
  rw [PackedSet.isSubset?, ifComparable_packed, ifComparable]
  split
  · rename_i h
    have hall : ((s.words.zip t.words).all fun q => q.1 &&& ~~~q.2 == 0) = true ↔
        ∀ i, (s.contains i && !t.contains i) = false := by
      refine all_zip_words_zero (fun a b => a &&& ~~~b) h (fun k j hj => ?_) fun i hi => ?_
      · rw [PackedSet.testBit_and, PackedSet.testBit_not _ hj, testBit_word s k hj,
          testBit_word t k hj]
      · rw [contains_of_le hi, Bool.false_and]
    have htest : ((s.words.zip t.words).all fun q => q.1 &&& ~~~q.2 == 0) = s.isSubset t := by
      rw [Bool.eq_iff_iff, hall, isSubset_iff]
      refine forall_congr' fun i => ?_
      cases s.contains i <;> cases t.contains i <;> decide
    rw [htest]
  · rfl

theorem intersects?_packed (s t : BitSet) :
    s.packed.intersects? t.packed = ifComparable intersects s t := by
  rw [PackedSet.intersects?, ifComparable_packed, ifComparable]
  split
  · rename_i h
    have hall : ((s.words.zip t.words).all fun q => q.1 &&& q.2 == 0) = true ↔
        ∀ i, (s.contains i && t.contains i) = false := by
      refine all_zip_words_zero (fun a b => a &&& b) h (fun k j hj => ?_) fun i hi => ?_
      · rw [PackedSet.testBit_and, testBit_word s k hj, testBit_word t k hj]
      · rw [contains_of_le hi, Bool.false_and]
    have htest : ((s.words.zip t.words).any fun q => q.1 &&& q.2 != 0) = s.intersects t := by
      rw [Bool.eq_iff_iff, intersects_iff, ← not_iff_not, Bool.not_eq_true, List.any_eq_false]
      simp only [Bool.not_eq_true, bne_eq_false_iff_eq]
      rw [List.all_eq_true] at hall
      simp only [beq_iff_eq] at hall
      rw [hall, not_exists]
      refine forall_congr' fun i => ?_
      cases s.contains i <;> cases t.contains i <;> decide
    rw [htest]
  · rfl

theorem compare?_packed (s t : BitSet) :
    s.packed.compare? t.packed = ifComparable compareMask s t := by
  rw [PackedSet.compare?, ifComparable_packed, ifComparable]
  split
  · rename_i h
    rw [compare_words h]
  · rfl

end BitSet

/-! ## Listing -/

namespace PackedSet

variable {w : UInt64} {j k : Nat}

/-- The positions of the ones of a word, ascending. -/
def ones (w : UInt64) : List Nat := (List.range 64).filter w.toNat.testBit

theorem mem_ones : j ∈ ones w ↔ w.toNat.testBit j = true := by
  rw [ones, List.mem_filter, List.mem_range, and_iff_right_iff_imp]
  intro h
  by_contra hj
  have hle : 2 ^ 64 ≤ 2 ^ j := Nat.pow_le_pow_right (by decide) (Nat.le_of_not_lt hj)
  rw [Nat.testBit_lt_two_pow (w.toNat_lt.trans_le hle)] at h
  exact Bool.false_ne_true h

theorem pairwise_ones (w : UInt64) : (ones w).Pairwise (· < ·) := List.pairwise_lt_range.filter _

theorem ones_zero : ones 0 = [] := by decide

/-- The ones of a word are as many as its population count. -/
theorem length_ones (w : UInt64) : (ones w).length = w.toBitVec.cpop.toNat := by
  have hcount : ∀ n, w.toBitVec.cpopNatRec n 0 =
      ((List.range n).filter w.toNat.testBit).length := by
    intro n
    induction n with
    | zero => rfl
    | succ n ih =>
        rw [BitVec.cpopNatRec_succ, BitVec.cpopNatRec_add, ih, List.range_succ,
          List.filter_append, List.length_append]
        congr 1
        show (w.toNat.testBit n).toNat = _
        cases h : w.toNat.testBit n <;> simp [h]
  rw [BitVec.toNat_cpop, hcount, ones]

/-- Taking one off a word flips its lowest one and the zeros below it. -/
theorem testBit_clear {l : Nat} (hl : w.toNat.testBit l = true)
    (hlow : ∀ j < l, w.toNat.testBit j = false) (j : Nat) :
    (w &&& (w - 1)).toNat.testBit j = (w.toNat.testBit j && decide (j ≠ l)) := by
  have hmod : w.toNat % 2 ^ (l + 1) = 2 ^ l := by
    refine Nat.eq_of_testBit_eq fun j => ?_
    rw [Nat.testBit_mod_two_pow, Nat.testBit_two_pow]
    rcases Nat.lt_trichotomy j l with hj | rfl | hj
    · rw [hlow j hj, Bool.and_false, decide_eq_false (by omega)]
    · rw [hl, decide_eq_true (by omega), decide_eq_true rfl, Bool.and_true]
    · rw [decide_eq_false (by omega), decide_eq_false (by omega), Bool.false_and]
  have hsplit : w.toNat = 2 ^ (l + 1) * (w.toNat / 2 ^ (l + 1)) + 2 ^ l := by
    rw [← hmod, Nat.div_add_mod]
  have hpos : 0 < 2 ^ l := Nat.two_pow_pos l
  have hlt : 2 ^ l < 2 ^ (l + 1) := Nat.pow_lt_pow_right (by decide) (Nat.lt_succ_self l)
  have hone : (w - 1).toNat = 2 ^ (l + 1) * (w.toNat / 2 ^ (l + 1)) + (2 ^ l - 1) := by
    have hle : (1 : UInt64) ≤ w := UInt64.le_iff_toNat_le.2 (by
      rw [UInt64.toNat_one]
      omega)
    rw [UInt64.toNat_sub_of_le _ _ hle, UInt64.toNat_one]
    omega
  rw [testBit_and, hone, Nat.testBit_two_pow_mul_add _ (by omega : 2 ^ l - 1 < 2 ^ (l + 1))]
  by_cases hj : j < l + 1
  · rw [if_pos hj, Nat.testBit_two_pow_sub_one]
    rcases Nat.lt_or_eq_of_le (Nat.le_of_lt_succ hj) with hj | rfl
    · rw [hlow j hj, Bool.false_and, Bool.false_and]
    · rw [decide_eq_false (Nat.lt_irrefl j), decide_eq_false (not_not.2 rfl)]
  · have hbit : w.toNat.testBit j = (w.toNat / 2 ^ (l + 1)).testBit (j - (l + 1)) := by
      conv_lhs => rw [hsplit, Nat.testBit_two_pow_mul_add _ hlt, if_neg hj]
    rw [if_neg hj, ← hbit, decide_eq_true (by omega), Bool.and_self, Bool.and_true]

/-- **The lowest one of a word** is taken off the ones when it is cleared. -/
theorem ones_clear (h : w ≠ 0) :
    ones w = w.toBitVec.ctz.toNat :: ones (w &&& (w - 1)) := by
  have hne : w.toBitVec ≠ 0#64 := fun hz => h (UInt64.toBitVec_inj.1 hz)
  have hl : w.toNat.testBit w.toBitVec.ctz.toNat = true := BitVec.getLsbD_true_ctz_of_ne_zero hne
  have hlow : ∀ j < w.toBitVec.ctz.toNat, w.toNat.testBit j = false := fun j hj =>
    BitVec.getLsbD_false_of_lt_ctz hj
  have hmem : ∀ j, j ∈ ones (w &&& (w - 1)) ↔
      w.toNat.testBit j = true ∧ j ≠ w.toBitVec.ctz.toNat := by
    intro j
    rw [mem_ones, testBit_clear hl hlow, Bool.and_eq_true, decide_eq_true_iff]
  refine (pairwise_ones w).eq_of_mem_iff
    (List.pairwise_cons.2 ⟨fun j hj => ?_, pairwise_ones _⟩) fun j => ?_
  · obtain ⟨hbit, hj⟩ := (hmem j).1 hj
    refine Nat.lt_of_le_of_ne (Nat.le_of_not_lt fun hless => ?_) (Ne.symm hj)
    rw [hlow j hless] at hbit
    exact Bool.false_ne_true hbit
  · rw [List.mem_cons, hmem, mem_ones]
    constructor
    · intro hbit
      by_cases hj : j = w.toBitVec.ctz.toNat
      · exact Or.inl hj
      · exact Or.inr ⟨hbit, hj⟩
    · rintro (rfl | ⟨hbit, -⟩)
      · exact hl
      · exact hbit

/-- The members in words of which the first has index `k`. -/
def membersFrom (k : Nat) : List UInt64 → List Nat
  | [] => []
  | w :: ws => (ones w).map (k * 64 + ·) ++ membersFrom (k + 1) ws

theorem membersFrom_append (ws : List UInt64) (k : Nat) (w : UInt64) :
    membersFrom k (ws ++ [w]) =
      membersFrom k ws ++ (ones w).map ((k + ws.length) * 64 + ·) := by
  induction ws generalizing k with
  | nil => simp [membersFrom]
  | cons v ws ih =>
      rw [List.cons_append, membersFrom, ih, membersFrom, List.append_assoc, List.length_cons,
        Nat.add_right_comm, Nat.add_assoc k]

theorem length_membersFrom (ws : List UInt64) (k : Nat) :
    (membersFrom k ws).length = ws.foldr (fun w n => w.toBitVec.cpop.toNat + n) 0 := by
  induction ws generalizing k with
  | nil => rfl
  | cons w ws ih =>
      rw [membersFrom, List.length_append, List.length_map, length_ones, ih, List.foldr_cons]

namespace Cursor

/-- What a cursor has not listed yet. -/
def remaining (c : Cursor) : List Nat :=
  (ones c.current).map (c.index * 64 + ·) ++
    membersFrom (c.index + 1) (c.words.toList.drop (c.index + 1))

/-- **A step of the listing** takes the first member that was not listed yet, and there is no
step if none is left. -/
theorem next?_remaining (c : Cursor) :
    c.remaining = c.next?.elim [] fun (i, d) => i :: d.remaining := by
  fun_induction next? c with
  | case1 c hne =>
      rw [Option.elim_some, remaining, ones_clear hne, List.map_cons, List.cons_append]
      rfl
  | case2 c hz w hw ih =>
      obtain ⟨hlt, rfl⟩ := Array.getElem?_eq_some_iff.1 hw
      rw [← ih, remaining, not_not.1 hz, ones_zero, List.drop_eq_getElem_cons hlt]
      rfl
  | case3 c hz hw =>
      have hle := Array.getElem?_eq_none_iff.1 hw
      rw [Option.elim_none, remaining, not_not.1 hz, ones_zero, List.drop_eq_nil_of_le hle]
      rfl

theorem toList_eq (c : Cursor) : c.toList = c.remaining := by
  fun_induction toList c with
  | case1 c i d h ih => rw [ih, next?_remaining c, h, Option.elim_some]
  | case2 c h => rw [next?_remaining c, h, Option.elim_none]

end Cursor

theorem toList_eq (s : PackedSet) : s.toList = membersFrom 0 s.words.toList := by
  rw [toList, Cursor.toList_eq, Cursor.remaining, start]
  cases h : s.words.toList with
  | nil =>
      have hw : s.words[0]? = none := by rw [← Array.getElem?_toList, h]; rfl
      rw [hw]
      exact congrArg (fun l => List.map _ l ++ []) ones_zero
  | cons w ws =>
      have hw : s.words[0]? = some w := by rw [← Array.getElem?_toList, h]; rfl
      rw [hw]
      rfl

theorem count_eq (s : PackedSet) : s.count = s.toList.length := by
  rw [toList_eq, length_membersFrom, count]

end PackedSet

namespace BitSet

open PackedSet

theorem membersFrom_wordsOf (n mask : Nat) :
    membersFrom 0 (wordsOf n mask) = (List.range (n * 64)).filter mask.testBit := by
  induction n with
  | zero => rfl
  | succ n ih =>
      have hones : ones (word mask n) = (List.range 64).filter (mask.testBit ∘ (n * 64 + ·)) := by
        refine List.filter_congr fun j hj => ?_
        rw [word, UInt64.toNat_ofNat', Nat.testBit_mod_two_pow, Nat.testBit_shiftRight,
          decide_eq_true (List.mem_range.1 hj), Bool.true_and, Function.comp_apply, Nat.mul_comm]
      have hlength : (wordsOf n mask).length = n := by
        rw [wordsOf, List.length_map, List.length_range]
      rw [wordsOf_succ, membersFrom_append, ih, hlength, Nat.zero_add, Nat.add_mul n 1 64,
        List.range_add, List.filter_append, List.filter_map, Nat.one_mul]
      exact congrArg (fun l => _ ++ List.map (n * 64 + ·) l) hones

theorem toList_packed (s : BitSet) : s.packed.toList = s.toList := by
  have hle : s.capacity ≤ (s.capacity + 63) / 64 * 64 := by omega
  rw [PackedSet.toList_eq, packed, List.toList_toArray, words, membersFrom_wordsOf, toList_eq]
  exact Mask.filter_range_eq hle s.bounded

theorem count_packed (s : BitSet) : s.packed.count = s.count := by
  rw [PackedSet.count_eq, toList_packed, count]

end BitSet
end FlowVerifier
