import FlowVerifier.Proofs.Double.Whole
import FlowVerifier.Proofs.Symbolic.IntervalArithmetic
import FlowVerifier.Symbolic.ArrayValue

/-!
# Indices and sizes

An index and a size are intervals of doubles; what counts is which integers they hold.
`Interval.holds` says so in the arithmetic of integers, without rounding.

* `holds_iff`: `firstIndex` and `lastIndex` are the ends of what an interval holds, where
  indices are not at the ends of their range.
* `lastIndex_ofInt_lastIndex`: an end loses nothing when it is made a bound again, as a
  declaration does with the ends of the size.
* `checkIndex_exact`: the check of an index decides for all sizes and all indices at once.
-/

namespace FlowVerifier
namespace Symbolic

open Double

namespace Interval

variable {a : Interval Double} {x y : Double} {n : Int}

/-! ## Integers of an interval -/

/-- Does the interval hold the integer? -/
def holds (a : Interval Double) (n : Int) : Bool := a.lo.notAbove n && a.hi.notBelow n

theorem holds_iff_and : a.holds n = true ↔ a.lo.notAbove n = true ∧ a.hi.notBelow n = true :=
  Bool.and_eq_true_iff

/-- The first index is the least integer that is not below a bound. -/
theorem firstIndex_le_iff (hx : x.isNaN = false) (h₁ : minIndex ≤ n) (h₂ : n < maxIndex) :
    firstIndex x ≤ n ↔ x.notAbove n = true := by
  unfold firstIndex notAbove
  rw [hx]
  cases x.isInfinite with
  | true => cases x.isNegative <;> simp [h₁, h₂]
  | false =>
      simp only [Bool.false_eq_true, if_false, Bool.not_false, Bool.true_and, decide_eq_true_eq]
      rw [← ceil_le_iff, saturate]
      omega

/-- The last index is the greatest integer that is not above a bound. -/
theorem le_lastIndex_iff (hx : x.isNaN = false) (h₁ : minIndex < n) (h₂ : n ≤ maxIndex) :
    n ≤ lastIndex x ↔ x.notBelow n = true := by
  unfold lastIndex notBelow
  rw [hx]
  cases x.isInfinite with
  | true => cases x.isNegative <;> simp [h₁, h₂]
  | false =>
      simp only [Bool.false_eq_true, if_false, Bool.not_false, Bool.true_and, decide_eq_true_eq]
      rw [← le_floor_iff, saturate]
      omega

theorem isNaN_of_holds (h : a.holds n = true) : a.lo.isNaN = false ∧ a.hi.isNaN = false := by
  simp only [holds, notAbove, notBelow, Bool.and_eq_true, Bool.not_eq_true'] at h
  exact ⟨h.1.1, h.2.1⟩

/-- **The integers of an interval** lie between its first and its last index. -/
theorem holds_iff {k : Int} (hk : a.holds k = true) (h₁ : minIndex < n) (h₂ : n < maxIndex) :
    a.holds n = true ↔ firstIndex a.lo ≤ n ∧ n ≤ lastIndex a.hi := by
  obtain ⟨hlo, hhi⟩ := isNaN_of_holds hk
  rw [holds_iff_and, firstIndex_le_iff hlo h₁.le h₂, le_lastIndex_iff hhi h₁ h₂.le]

theorem firstIndex_le_of_notAbove (h : x.notAbove n = true) : firstIndex x ≤ saturate n := by
  rw [notAbove, Bool.and_eq_true] at h
  unfold firstIndex
  split
  · rename_i hinf
    rw [hinf, if_pos rfl] at h
    rw [if_pos h.2]
    exact (saturate_bounds n).1
  · rename_i hfin
    rw [if_neg hfin, decide_eq_true_eq] at h
    exact saturate_mono (ceil_le_iff.2 h.2)

theorem firstIndex_eq_lastIndex (h : x.isInfinite = true) : firstIndex x = lastIndex x := by
  rw [firstIndex, lastIndex, h, if_pos rfl, if_pos rfl]

/-- A range of indices is not empty. -/
theorem le_of_integerRange {least greatest : Int}
    (h : a.integerRange = some (least, greatest)) :
    least ≤ greatest := by
  unfold integerRange at h
  split at h
  · exact absurd h (by simp)
  · rename_i hsome
    split at h
    · rename_i hends
      cases h
      have hle : a.lo.le a.hi = true := by simpa [isEmpty, Bound.le] using hsome
      obtain ⟨hlo, hhi, hrank⟩ := le_iff.1 hle
      cases hl : a.lo.isInfinite with
      | true => exact firstIndex_eq_lastIndex hl ▸ lastIndex_mono hlo hhi hrank
      | false =>
          cases hh : a.hi.isInfinite with
          | true => exact firstIndex_eq_lastIndex hh ▸ firstIndex_mono hlo hhi hrank
          | false =>
              rw [hl, hh, Bool.false_or, Bool.false_or, decide_eq_true_eq] at hends
              rw [firstIndex, hl, if_neg Bool.false_ne_true, lastIndex, hh,
                if_neg Bool.false_ne_true]
              exact saturate_mono hends
    · exact absurd h (by simp)

/-- An interval that holds an integer has a range of indices. -/
theorem integerRange_of_holds (h : a.holds n = true) :
    a.integerRange = some (firstIndex a.lo, lastIndex a.hi) ∧
      firstIndex a.lo ≤ lastIndex a.hi := by
  obtain ⟨hlo, hhi⟩ := holds_iff_and.1 h
  refine (and_iff_left_of_imp le_of_integerRange).2 ?_
  have hsome : a.isEmpty = false := by
    rw [isEmpty, Bool.not_eq_false']
    exact le_of_notAbove hlo hhi
  unfold integerRange
  rw [hsome, if_neg Bool.false_ne_true, if_pos]
  rw [notAbove, Bool.and_eq_true] at hlo
  rw [notBelow, Bool.and_eq_true] at hhi
  cases hl : a.lo.isInfinite with
  | true => rfl
  | false =>
      cases hh : a.hi.isInfinite with
      | true => rfl
      | false =>
          rw [hl, if_neg Bool.false_ne_true, decide_eq_true_eq] at hlo
          rw [hh, if_neg Bool.false_ne_true, decide_eq_true_eq] at hhi
          exact decide_eq_true ((ceil_le_iff.2 hlo.2).trans (le_floor_iff.2 hhi.2))

/-! ## Ends as bounds -/

/-- The greatest double that is not infinite is above all indices. -/
theorem isInfinite_ofInt (h : (ofInt n).units = n * unitsPerOne) (h₁ : minIndex ≤ n)
    (h₂ : n ≤ maxIndex) : (ofInt n).isInfinite = false := by
  rw [Bool.eq_false_iff, ne_eq, isInfinite, beq_iff_eq]
  intro hinf
  have hlarge : 2 ^ 63 * unitsPerOne < unitsOf infiniteMagnitude := by decide +kernel
  have hunits := natAbs_units (ofInt n)
  rw [hinf, h, Int.natAbs_mul, Int.natAbs_natCast] at hunits
  rw [← hunits] at hlarge
  have := lt_of_mul_lt_mul_right hlarge (Nat.zero_le _)
  unfold minIndex at h₁
  unfold maxIndex at h₂
  omega

/-- An integer that is a double and an index is its own last index. -/
theorem lastIndex_ofInt (h : (ofInt n).units = n * unitsPerOne) (h₁ : minIndex ≤ n)
    (h₂ : n ≤ maxIndex) : lastIndex (ofInt n) = n := by
  rw [lastIndex, isInfinite_ofInt h h₁ h₂, if_neg Bool.false_ne_true, floor_ofInt h,
    saturate_eq h₁ h₂]

theorem lastIndex_ofInt_one : lastIndex (ofInt 1) = 1 := by decide +kernel

theorem lastIndex_ofInt_minIndex : lastIndex (ofInt minIndex) = minIndex := by decide +kernel

/-- The greatest index is no double, but it is the last index below the nearest one. -/
theorem lastIndex_ofInt_maxIndex : lastIndex (ofInt maxIndex) = maxIndex := by decide +kernel

/-- An integer next to a double loses nothing when it is brought into the range of indices
and made a bound. -/
theorem lastIndex_ofInt_saturate (h : (ofInt n).units = n * unitsPerOne) :
    lastIndex (ofInt (saturate n)) = saturate n := by
  by_cases h₁ : n < minIndex
  · have hs : saturate n = minIndex := by
      unfold saturate
      omega
    rw [hs, lastIndex_ofInt_minIndex]
  · by_cases h₂ : maxIndex < n
    · have hs : saturate n = maxIndex := by
        unfold saturate minIndex
        unfold maxIndex at *
        omega
      rw [hs, lastIndex_ofInt_maxIndex]
    · rw [saturate_eq (by omega) (by omega), lastIndex_ofInt h (by omega) (by omega)]

/-- **A last index** loses nothing when it is made a bound. -/
theorem lastIndex_ofInt_lastIndex (hx : x.isNaN = false) :
    lastIndex (ofInt (lastIndex x)) = lastIndex x := by
  have heq : lastIndex x = minIndex ∨ lastIndex x = maxIndex ∨ lastIndex x = saturate x.floor := by
    unfold lastIndex
    cases x.isInfinite <;> cases x.isNegative <;> simp
  rcases heq with heq | heq | heq <;> rw [heq]
  · exact lastIndex_ofInt_minIndex
  · exact lastIndex_ofInt_maxIndex
  · exact lastIndex_ofInt_saturate (units_ofInt_floor hx)

/-- **A first index** loses nothing when it is made a bound. -/
theorem lastIndex_ofInt_firstIndex (hx : x.isNaN = false) :
    lastIndex (ofInt (firstIndex x)) = firstIndex x := by
  have heq : firstIndex x = minIndex ∨ firstIndex x = maxIndex ∨
      firstIndex x = saturate x.ceil := by
    unfold firstIndex
    cases x.isInfinite <;> cases x.isNegative <;> simp
  rcases heq with heq | heq | heq <;> rw [heq]
  · exact lastIndex_ofInt_minIndex
  · exact lastIndex_ofInt_maxIndex
  · exact lastIndex_ofInt_saturate (units_ofInt_ceil hx)

end Interval

/-! ## Index checks -/

namespace ArrayValue

variable {size index : Interval Double} {i n : Int} {name : String} {type : ValueType}

/-- The interval of sizes allows for an array of this many elements. -/
def IsSize (size : Interval Double) (n : Int) : Prop :=
  1 ≤ n ∧ n ≤ Interval.maxIndex ∧ size.holds n = true

/-- The sizes that an interval allows for lie between two ends, and both are sizes. -/
theorem isSize_iff {k : Int} (hk : IsSize size k) :
    IsSize size n ↔
      max (Interval.firstIndex size.lo) 1 ≤ n ∧ n ≤ Interval.lastIndex size.hi := by
  obtain ⟨hk₁, hk₂, hholds⟩ := hk
  obtain ⟨hlo, hhi⟩ := Interval.isNaN_of_holds hholds
  have hlast := Interval.lastIndex_le size.hi
  have hmin : Interval.minIndex < 1 := by decide
  unfold IsSize
  constructor
  · rintro ⟨h₁, h₂, h⟩
    obtain ⟨hn, hn'⟩ := Interval.holds_iff_and.1 h
    have hfirst := Interval.firstIndex_le_of_notAbove hn
    rw [Interval.saturate_eq (by omega) h₂] at hfirst
    exact ⟨by omega, (Interval.le_lastIndex_iff hhi (by omega) h₂).2 hn'⟩
  · rintro ⟨h₁, h₂⟩
    refine ⟨by omega, by omega, Interval.holds_iff_and.2 ⟨?_, ?_⟩⟩
    · -- the size that is known may be the greatest index there is
      rcases Int.lt_or_le n k with hlt | hge
      · exact (Interval.firstIndex_le_iff hlo (by omega) (by omega)).1 (by omega)
      · exact Double.notAbove_mono (Interval.holds_iff_and.1 hholds).1 hge
    · exact (Interval.le_lastIndex_iff hhi (by omega) (by omega)).1 h₂

/-- A declaration succeeds if there is a size, and its bounds are the least and the greatest
one. -/
theorem declare_eq_ok (name : String) (type : ValueType) (hn : IsSize size n) :
    declare name type size = .ok {
      name, type
      size := ⟨Double.ofInt (max (Interval.firstIndex size.lo) 1),
        Double.ofInt (Interval.lastIndex size.hi)⟩
      runs := [⟨0, Interval.lastIndex size.hi - 1, .full type, false⟩] } := by
  obtain ⟨-, hle⟩ := (isSize_iff hn).1 hn
  have hpos := hn.1
  rw [declare, (Interval.integerRange_of_holds hn.2.2).1]
  dsimp only
  rw [if_neg (by omega), max_comm]

/-- The check of an index, in terms of the ends of the sizes and of the indices. -/
theorem checkIndex_declared {a : ArrayValue} (hn : IsSize size n) (hi : index.holds i = true)
    (ha : declare name type size = .ok a) :
    a.checkIndex index =
      if Interval.lastIndex index.hi < 0 ∨
          Interval.lastIndex size.hi ≤ Interval.firstIndex index.lo then
        .error (.outOfBounds name index a.size)
      else
        .ok {
          first := max (Interval.firstIndex index.lo) 0
          last := min (Interval.lastIndex index.hi) (Interval.lastIndex size.hi - 1)
          mayOverflow := decide (Interval.firstIndex index.lo < 0) ||
            decide (max (Interval.firstIndex size.lo) 1 ≤ Interval.lastIndex index.hi) } := by
  obtain ⟨hlo, hhi⟩ := Interval.isNaN_of_holds hn.2.2
  have hleast : Interval.lastIndex (Double.ofInt (max (Interval.firstIndex size.lo) 1)) =
      max (Interval.firstIndex size.lo) 1 := by
    rcases max_choice (Interval.firstIndex size.lo) 1 with h | h <;> rw [h]
    · exact Interval.lastIndex_ofInt_firstIndex hlo
    · exact Interval.lastIndex_ofInt_one
  rw [declare_eq_ok name type hn] at ha
  cases ha
  rw [checkIndex, (Interval.integerRange_of_holds hi).1]
  dsimp only
  rw [hleast, Interval.lastIndex_ofInt_lastIndex hhi]
  simp only [Bool.or_eq_true, decide_eq_true_eq]

/-- Some index is within bounds of some size exactly if the last index is not negative and the
first one is below the greatest size. -/
theorem exists_inBounds_iff {i₀ n₀ : Int} (hi₀ : index.holds i₀ = true)
    (hn₀ : IsSize size n₀) :
    (∃ i n, index.holds i = true ∧ IsSize size n ∧ 0 ≤ i ∧ i < n) ↔
      0 ≤ Interval.lastIndex index.hi ∧
        Interval.firstIndex index.lo < Interval.lastIndex size.hi := by
  have hlast := Interval.lastIndex_le size.hi
  have hmin : Interval.minIndex < 0 := by decide
  obtain ⟨-, hends⟩ := Interval.integerRange_of_holds hi₀
  constructor
  · rintro ⟨i, n, hi, hn, h₁, h₂⟩
    have hle := ((isSize_iff hn₀).1 hn).2
    have hbetween := (Interval.holds_iff hi₀ (by omega) (by omega)).1 hi
    omega
  · rintro ⟨h₁, h₂⟩
    have hsome := (isSize_iff hn₀).1 hn₀
    refine ⟨max (Interval.firstIndex index.lo) 0, Interval.lastIndex size.hi, ?_,
      (isSize_iff hn₀).2 ⟨by omega, Int.le_refl _⟩, by omega, by omega⟩
    exact (Interval.holds_iff hi₀ (by omega) (by omega)).2 ⟨by omega, by omega⟩

/-- Every index is within bounds of every size exactly if the first index is not negative and
the last one is below the least size. -/
theorem forall_inBounds_iff {i₀ n₀ : Int} (hi₀ : index.holds i₀ = true)
    (hn₀ : IsSize size n₀) :
    (∀ i n, index.holds i = true → IsSize size n → 0 ≤ i ∧ i < n) ↔
      0 ≤ Interval.firstIndex index.lo ∧
        Interval.lastIndex index.hi < max (Interval.firstIndex size.lo) 1 := by
  have hlast := Interval.lastIndex_le size.hi
  have hmin : Interval.minIndex < -1 := by decide
  have hsome := (isSize_iff hn₀).1 hn₀
  have hleast : IsSize size (max (Interval.firstIndex size.lo) 1) :=
    (isSize_iff hn₀).2 ⟨Int.le_refl _, by omega⟩
  obtain ⟨hlo, hhi⟩ := Interval.isNaN_of_holds hi₀
  constructor
  · intro hall
    obtain ⟨h₁, h₂⟩ := hall i₀ _ hi₀ hleast
    constructor
    · -- otherwise the index before zero is possible
      by_contra hneg
      have hbefore : index.holds (-1) = true := by
        refine Interval.holds_iff_and.2 ⟨?_, ?_⟩
        · exact (Interval.firstIndex_le_iff hlo (by omega) (by omega)).1 (by omega)
        · exact Double.notBelow_anti (Interval.holds_iff_and.1 hi₀).2 (by omega)
      have := (hall _ _ hbefore hleast).1
      omega
    · -- otherwise the index after the elements of the least size is possible
      by_contra hlarge
      have hbehind : index.holds (max (Interval.firstIndex size.lo) 1) = true := by
        refine Interval.holds_iff_and.2 ⟨?_, ?_⟩
        · exact Double.notAbove_mono (Interval.holds_iff_and.1 hi₀).1 (by omega)
        · exact (Interval.le_lastIndex_iff hhi (by omega) (by omega)).1 (by omega)
      have := (hall _ _ hbehind hleast).2
      omega
  · rintro ⟨h₁, h₂⟩ i n hi hn
    obtain ⟨habove, hbelow⟩ := Interval.holds_iff_and.1 hi
    have hle := ((isSize_iff hn₀).1 hn).1
    constructor
    · by_contra hneg
      have := (Interval.firstIndex_le_iff hlo (n := -1) (by omega) (by omega)).2
        (Double.notAbove_mono habove (by omega))
      omega
    · by_contra hlarge
      have := (Interval.le_lastIndex_iff hhi (n := max (Interval.firstIndex size.lo) 1)
        (by omega) (by omega)).2 (Double.notBelow_anti hbelow (by omega))
      omega

/-- There is one index only, and it is within bounds of every size, exactly if moreover the
first index is the last one. -/
theorem single_inBounds_iff {i₀ n₀ : Int} (hi₀ : index.holds i₀ = true)
    (hn₀ : IsSize size n₀) :
    (∃ i, (∀ j, index.holds j = true ↔ j = i) ∧ ∀ n, IsSize size n → 0 ≤ i ∧ i < n) ↔
      (0 ≤ Interval.firstIndex index.lo ∧
        Interval.lastIndex index.hi < max (Interval.firstIndex size.lo) 1) ∧
      Interval.firstIndex index.lo = Interval.lastIndex index.hi := by
  have hlast := Interval.lastIndex_le size.hi
  have hmin : Interval.minIndex < 0 := by decide
  have hsome := (isSize_iff hn₀).1 hn₀
  have hends := (Interval.integerRange_of_holds hi₀).2
  constructor
  · rintro ⟨i, hone, hin⟩
    have hall := (forall_inBounds_iff hi₀ hn₀).1 fun j n hj hn => (hone j).1 hj ▸ hin n hn
    have hfirst := (hone _).1 <|
      (Interval.holds_iff hi₀ (by omega) (by omega)).2 ⟨Int.le_refl _, hends⟩
    have hfinal := (hone _).1 <|
      (Interval.holds_iff hi₀ (by omega) (by omega)).2 ⟨hends, Int.le_refl _⟩
    exact ⟨hall, hfirst.trans hfinal.symm⟩
  · rintro ⟨hbounds, hsame⟩
    have hall := (forall_inBounds_iff hi₀ hn₀).2 hbounds
    have hholds : index.holds (Interval.firstIndex index.lo) = true :=
      (Interval.holds_iff hi₀ (by omega) (by omega)).2 ⟨Int.le_refl _, hends⟩
    refine ⟨Interval.firstIndex index.lo, fun j => ⟨fun hj => ?_, ?_⟩, fun n => hall _ n hholds⟩
    · obtain ⟨h₁, h₂⟩ := hall j n₀ hj hn₀
      have := (Interval.holds_iff hi₀ (by omega) (by omega)).1 hj
      omega
    · rintro rfl
      exact hholds

/-- **Index checks are exact.**  An array is declared with an interval of sizes, and accessed
with an interval of indices.  The access is out of bounds exactly if no index is within bounds
of any size.  Otherwise it may miss the array exactly if some index is out of bounds of some
size; the elements it may hit are there and contain every index that is within bounds of some
size; and it hits exactly one element if there is one index only and that is within bounds of
every size. -/
theorem checkIndex_exact (name : String) (type : ValueType) (hsize : ∃ n, IsSize size n)
    (hindex : ∃ i, index.holds i = true) :
    ∃ a, declare name type size = .ok a ∧
      (a.checkIndex index = .error (.outOfBounds name index a.size) ↔
        ¬ ∃ i n, index.holds i = true ∧ IsSize size n ∧ 0 ≤ i ∧ i < n) ∧
      ((∃ i n, index.holds i = true ∧ IsSize size n ∧ 0 ≤ i ∧ i < n) →
        ∃ range, a.checkIndex index = .ok range ∧
          (range.mayOverflow = false ↔
            ∀ i n, index.holds i = true → IsSize size n → 0 ≤ i ∧ i < n) ∧
          range.first ≤ range.last ∧
          (∀ i, range.first ≤ i → i ≤ range.last → ∃ r ∈ a.runs, r.first ≤ i ∧ i ≤ r.last) ∧
          (∀ i n, index.holds i = true → IsSize size n → 0 ≤ i → i < n →
            range.first ≤ i ∧ i ≤ range.last) ∧
          (range.isDeterminate = true ↔
            ∃ i, (∀ j, index.holds j = true ↔ j = i) ∧ ∀ n, IsSize size n → 0 ≤ i ∧ i < n)) := by
  obtain ⟨n₀, hn₀⟩ := hsize
  obtain ⟨i₀, hi₀⟩ := hindex
  have hlast := Interval.lastIndex_le size.hi
  have hmin : Interval.minIndex < 0 := by decide
  have hsome := (isSize_iff hn₀).1 hn₀
  have hends := (Interval.integerRange_of_holds hi₀).2
  have hsingle := single_inBounds_iff hi₀ hn₀
  have hdeclared := declare_eq_ok name type hn₀
  refine ⟨_, hdeclared, ?_, fun hpair => ?_⟩
  · rw [checkIndex_declared hn₀ hi₀ hdeclared, exists_inBounds_iff hi₀ hn₀]
    split
    · simp only [true_iff]
      omega
    · simp only [reduceCtorEq, false_iff]
      omega
  · rw [exists_inBounds_iff hi₀ hn₀] at hpair
    refine ⟨_, (checkIndex_declared hn₀ hi₀ hdeclared).trans (if_neg (by omega)),
      ?_, ?_, ?_, ?_, ?_⟩
    · rw [forall_inBounds_iff hi₀ hn₀, Bool.or_eq_false_iff, decide_eq_false_iff_not,
        decide_eq_false_iff_not]
      omega
    · show max (Interval.firstIndex index.lo) 0 ≤
        min (Interval.lastIndex index.hi) (Interval.lastIndex size.hi - 1)
      omega
    · intro j h₁ h₂
      refine ⟨_, List.mem_singleton_self _, ?_, ?_⟩
      · show 0 ≤ j
        have : max (Interval.firstIndex index.lo) 0 ≤ j := h₁
        omega
      · show j ≤ Interval.lastIndex size.hi - 1
        have : j ≤ min (Interval.lastIndex index.hi) (Interval.lastIndex size.hi - 1) := h₂
        omega
    · intro j m hj hm h₁ h₂
      have hm := (isSize_iff hn₀).1 hm
      have hj := (Interval.holds_iff hi₀ (by omega) (by omega)).1 hj
      constructor
      · show max (Interval.firstIndex index.lo) 0 ≤ j
        omega
      · show j ≤ min (Interval.lastIndex index.hi) (Interval.lastIndex size.hi - 1)
        omega
    · rw [hsingle, IndexRange.isDeterminate]
      simp only [Bool.and_eq_true, beq_iff_eq, Bool.not_eq_true', Bool.or_eq_false_iff,
        decide_eq_false_iff_not]
      omega

/-- An array of two to five elements that is accessed at an index from three to seven: the
access may be within bounds and may miss the array. -/
theorem checkIndex_exact_partly :
    IsSize ⟨Double.ofInt 2, Double.ofInt 5⟩ 4 ∧
      (⟨Double.ofInt 3, Double.ofInt 7⟩ : Interval Double).holds 3 = true ∧
      ∃ a range, declare "a" .double ⟨Double.ofInt 2, Double.ofInt 5⟩ = .ok a ∧
        a.checkIndex ⟨Double.ofInt 3, Double.ofInt 7⟩ = .ok range ∧
        range.mayOverflow = true ∧ range.isDeterminate = false := by
  have hfour : IsSize ⟨Double.ofInt 2, Double.ofInt 5⟩ 4 :=
    ⟨by decide, by decide, by decide +kernel⟩
  have htwo : IsSize ⟨Double.ofInt 2, Double.ofInt 5⟩ 2 :=
    ⟨by decide, by decide, by decide +kernel⟩
  have hthree : (⟨Double.ofInt 3, Double.ofInt 7⟩ : Interval Double).holds 3 = true := by
    decide +kernel
  obtain ⟨a, ha, -, hsome⟩ := checkIndex_exact "a" .double ⟨4, hfour⟩ ⟨3, hthree⟩
  obtain ⟨range, hrange, hall, -, -, -, hdet⟩ := hsome ⟨3, 4, hthree, hfour, by decide, by decide⟩
  refine ⟨hfour, hthree, a, range, ha, hrange, ?_, ?_⟩
  · rw [← Bool.not_eq_false, hall]
    exact fun h => absurd (h 3 2 hthree htwo).2 (by decide)
  · rw [← Bool.not_eq_true, hdet]
    rintro ⟨i, hone, hin⟩
    obtain rfl := (hone 3).1 hthree
    exact absurd (hin 2 htwo).2 (by decide)

end ArrayValue
end Symbolic
end FlowVerifier
