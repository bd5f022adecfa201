import FlowVerifier.Proofs.Double.Arithmetic
import Mathlib

/-!
# Neighbours among the doubles

`value` reads a pattern as an extended real number.  Comparisons are those of the values
(`lt_iff_value`, `beq_iff_value`), and values are in the order of the ranks (`value_lt_iff`), so a
neighbour in rank is a neighbour in value.

`neighbours_exact` says what `next` and `prev` do with all patterns: there is nothing between a
number and its neighbour, the infinities stay where they are, and the neighbour is found by
adding one to the pattern or taking one off, which stays within 64 bits.
-/

namespace FlowVerifier
namespace Double

variable {x y : Double}

/-! ## Values -/

/-- The value of a number; the infinities lie at the ends, and a NaN has none that counts. -/
noncomputable def value (x : Double) : EReal :=
  if x.isInfinite then if x.isNegative then ⊥ else ⊤
  else ((x.units / unitsPerOne : ℝ) : EReal)

theorem value_eq_top (h : x.rank = infiniteMagnitude) : x.value = ⊤ := by
  have hinf : x.isInfinite = true := isInfinite_iff.2 (Or.inl h)
  have hsign : x.isNegative = false := isNegative_of_rank_pos (h ▸ by decide)
  rw [value, if_pos hinf, hsign, if_neg Bool.false_ne_true]

theorem value_eq_bot (h : x.rank = -(infiniteMagnitude : Int)) : x.value = ⊥ := by
  have hinf : x.isInfinite = true := isInfinite_iff.2 (Or.inr h)
  have hsign : x.isNegative = true := isNegative_of_rank_neg (h ▸ by decide)
  rw [value, if_pos hinf, if_pos hsign]

theorem value_finite (h₁ : x.rank ≠ infiniteMagnitude) (h₂ : x.rank ≠ -(infiniteMagnitude : Int)) :
    x.value = ((x.units / unitsPerOne : ℝ) : EReal) :=
  if_neg fun hinf => (isInfinite_iff.1 hinf).elim h₁ h₂

theorem units_lt (hx : x.isNaN = false) (hy : y.isNaN = false) (h : x.rank < y.rank) :
    x.units < y.units := by
  by_contra hge
  have hround := roundInt_mono one_pos (Int.not_lt.1 hge)
  rw [roundInt_units hx, roundInt_units hy] at hround
  omega

theorem value_lt (hx : x.isNaN = false) (hy : y.isNaN = false) (h : x.rank < y.rank) :
    x.value < y.value := by
  have hbx := rank_bounds hx
  have hby := rank_bounds hy
  have hpos : (0 : ℝ) < unitsPerOne := by exact_mod_cast unitsPerOne_pos
  by_cases hytop : y.rank = infiniteMagnitude
  · rw [value_eq_top hytop]
    by_cases hxbot : x.rank = -(infiniteMagnitude : Int)
    · rw [value_eq_bot hxbot]
      exact bot_lt_top
    · rw [value_finite (by omega) hxbot]
      exact EReal.coe_lt_top _
  · rw [value_finite hytop (by omega)]
    by_cases hxbot : x.rank = -(infiniteMagnitude : Int)
    · rw [value_eq_bot hxbot]
      exact EReal.bot_lt_coe _
    · rw [value_finite (by omega) hxbot, EReal.coe_lt_coe_iff]
      exact div_lt_div_of_pos_right (by exact_mod_cast units_lt hx hy h) hpos

theorem value_eq (hx : x.isNaN = false) (hy : y.isNaN = false) (h : x.rank = y.rank) :
    x.value = y.value := by
  by_cases htop : x.rank = infiniteMagnitude
  · rw [value_eq_top htop, value_eq_top (h ▸ htop)]
  · by_cases hbot : x.rank = -(infiniteMagnitude : Int)
    · rw [value_eq_bot hbot, value_eq_bot (h ▸ hbot)]
    · have hunits : x.units = y.units :=
        Int.le_antisymm (units_mono hx hy h.le) (units_mono hy hx h.ge)
      rw [value_finite htop hbot, value_finite (h ▸ htop) (h ▸ hbot), hunits]

/-- **Values are in the order of the ranks.** -/
theorem value_lt_iff (hx : x.isNaN = false) (hy : y.isNaN = false) :
    x.value < y.value ↔ x.rank < y.rank := by
  refine ⟨fun h => ?_, value_lt hx hy⟩
  rcases Int.lt_trichotomy x.rank y.rank with hlt | heq | hgt
  · exact hlt
  · exact absurd (value_eq hx hy heq) h.ne
  · exact absurd (value_lt hy hx hgt) h.asymm

theorem value_eq_iff (hx : x.isNaN = false) (hy : y.isNaN = false) :
    x.value = y.value ↔ x.rank = y.rank := by
  refine ⟨fun h => ?_, value_eq hx hy⟩
  rcases Int.lt_trichotomy x.rank y.rank with hlt | heq | hgt
  · exact absurd h (value_lt hx hy hlt).ne
  · exact heq
  · exact absurd h (value_lt hy hx hgt).ne'

theorem lt_iff_value :
    x.lt y = true ↔ x.isNaN = false ∧ y.isNaN = false ∧ x.value < y.value := by
  rw [lt_iff]
  exact and_congr_right fun hx => and_congr_right fun hy => (value_lt_iff hx hy).symm

theorem beq_iff_value :
    x.beq y = true ↔ x.isNaN = false ∧ y.isNaN = false ∧ x.value = y.value := by
  rw [beq_iff]
  exact and_congr_right fun hx => and_congr_right fun hy => (value_eq_iff hx hy).symm

theorem lt_top_iff (hx : x.isNaN = false) : x.value < ⊤ ↔ x.rank < infiniteMagnitude := by
  rw [← value_eq_top rank_infinity, value_lt_iff hx isNaN_infinity, rank_infinity]

theorem bot_lt_iff (hx : x.isNaN = false) :
    ⊥ < x.value ↔ -(infiniteMagnitude : Int) < x.rank := by
  rw [← value_eq_bot rank_negInfinity, value_lt_iff isNaN_negInfinity hx, rank_negInfinity]

theorem value_zero : zero.value = 0 := by
  have hunits : zero.units = 0 := by decide
  rw [value_finite (by decide) (by decide), hunits, Int.cast_zero, zero_div, EReal.coe_zero]

/-! ## Patterns -/

/-- The pattern of a positive number is its magnitude, and its neighbour has the next one. -/
theorem bits_next_of_pos (hx : x.isNaN = false) (h₁ : 0 < x.rank)
    (h₂ : x.rank < infiniteMagnitude) :
    x.bits.toNat + 1 < UInt64.size ∧ x.next.bits = x.bits + 1 := by
  have hsign := isNegative_of_rank_pos h₁
  have hm : (x.magnitude : Int) = x.rank := by rw [rank, hsign, if_neg Bool.false_ne_true]
  have hlt : infiniteMagnitude < signWeight := by decide
  have hsize : signWeight < UInt64.size := by decide
  have hbits : x.bits.toNat = x.magnitude :=
    (Nat.mod_eq_of_lt (Nat.not_le.1 (of_decide_eq_false hsign))).symm
  have hbound : x.bits.toNat + 1 < UInt64.size := by omega
  have hinf : x.isInfinite = false := by
    rw [isInfinite, beq_eq_false_iff_ne]
    omega
  have hzero : x.isZero = false := by
    rw [isZero, beq_eq_false_iff_ne]
    omega
  have hnext : x.next = ofMagnitude false (x.magnitude + 1) := by
    simp only [next, hx, hinf, hzero, hsign, Bool.and_false, Bool.or_self, Bool.false_eq_true,
      if_false]
  refine ⟨hbound, UInt64.toNat_inj.1 ?_⟩
  rw [hnext, UInt64.toNat_add, UInt64.toNat_one, hbits]
  exact UInt64.toNat_ofNat'

/-- The pattern of a negative number is its magnitude above the sign, and its neighbour has the
magnitude before. -/
theorem bits_next_of_neg (hx : x.isNaN = false) (h : x.rank < 0) :
    0 < x.bits.toNat ∧ x.next.bits = x.bits - 1 := by
  have hsign := isNegative_of_rank_neg h
  have hm : (x.magnitude : Int) = -x.rank := by
    rw [rank, hsign, if_pos rfl, Int.neg_neg]
  have hle : signWeight ≤ x.bits.toNat := of_decide_eq_true hsign
  have hpos : 0 < signWeight := by decide
  have hlt := x.bits.toNat_lt
  have hbits : x.bits.toNat = signWeight + x.magnitude := by
    unfold magnitude signWeight at *
    omega
  have hzero : x.isZero = false := by
    rw [isZero, beq_eq_false_iff_ne]
    omega
  have hone : (1 : UInt64) ≤ x.bits := UInt64.le_iff_toNat_le.2 (by
    rw [UInt64.toNat_one]
    omega)
  have hnext : x.next = ofMagnitude true (x.magnitude - 1) := by
    simp only [next, hx, hzero, hsign, Bool.not_true, Bool.false_and, Bool.or_self,
      Bool.false_eq_true, if_false, if_true]
  refine ⟨by omega, UInt64.toNat_inj.1 ?_⟩
  rw [hnext, UInt64.toNat_sub_of_le _ _ hone, UInt64.toNat_one, ofMagnitude, if_pos rfl,
    UInt64.toNat_ofNat', Nat.mod_eq_of_lt (by omega)]
  omega

theorem bits_next_of_zero (h : x.rank = 0) : x.next.bits = 1 := by
  have hzero : x.isZero = true := isZero_iff.2 h
  have hm : x.magnitude = 0 := beq_iff_eq.1 hzero
  have hnan : x.isNaN = false := by rw [isNaN, hm]; rfl
  have hinf : x.isInfinite = false := by rw [isInfinite, hm]; rfl
  rw [next, hnan, hinf, hzero, Bool.and_false, Bool.or_self, if_neg Bool.false_ne_true, if_pos rfl]
  rfl

/-! ## Neighbours -/

/-- Two numbers with nothing between them, the first below the second. -/
def Adjacent (x y : Double) : Prop :=
  x.value < y.value ∧ ∀ z : Double, z.isNaN = false → ¬ (x.value < z.value ∧ z.value < y.value)

theorem adjacent_of_rank (hx : x.isNaN = false) (hy : y.isNaN = false)
    (h : y.rank = x.rank + 1) : Adjacent x y := by
  refine ⟨value_lt hx hy (by omega), fun z hz => ?_⟩
  rw [value_lt_iff hx hz, value_lt_iff hz hy]
  omega

/-- **Neighbours among the doubles**, for all patterns.  Above a number that is not infinity, and
below one that is not negative infinity, there is a neighbour with nothing in between; the two
infinities have none on their side and stay where they are.  The neighbour above is found by
adding one to the pattern of a positive number, or taking one off that of a negative one, and
neither leaves the 64 bits; the neighbour below mirrors it.  From the neighbour above a finite
number the way back leads to its value.  All this is in the order by which numbers are compared,
which is that of the values. -/
theorem neighbours_exact :
    (∀ x : Double, x.isNaN = false → x.value < ⊤ →
      x.next.isNaN = false ∧ Adjacent x x.next ∧
      (x.value = 0 → x.next.bits = 1) ∧
      (0 < x.value → x.bits.toNat + 1 < UInt64.size ∧ x.next.bits = x.bits + 1) ∧
      (x.value < 0 → 0 < x.bits.toNat ∧ x.next.bits = x.bits - 1)) ∧
    (∀ x : Double, x.isNaN = false → ⊥ < x.value →
      x.prev.isNaN = false ∧ Adjacent x.prev x ∧ x.neg.value < ⊤ ∧ x.prev = x.neg.next.neg) ∧
    infinity.next = infinity ∧ negInfinity.prev = negInfinity ∧
    (∀ x : Double, x.isNaN = false → x.isInfinite = false → x.next.prev.value = x.value) ∧
    ∀ x y : Double,
      (x.lt y = true ↔ x.isNaN = false ∧ y.isNaN = false ∧ x.value < y.value) ∧
      (x.beq y = true ↔ x.isNaN = false ∧ y.isNaN = false ∧ x.value = y.value) := by
  refine ⟨fun x hx htop => ?_, fun x hx hbot => ?_, by rfl, by rfl, fun x hx hfin => ?_,
    fun x y => ⟨lt_iff_value, beq_iff_value⟩⟩
  · have hlt := (lt_top_iff hx).1 htop
    have hrank : x.next.rank = x.rank + 1 := by
      rw [rank_next hx]
      omega
    refine ⟨isNaN_next hx, adjacent_of_rank hx (isNaN_next hx) hrank, fun h => ?_, fun h => ?_,
      fun h => ?_⟩
    · rw [← value_zero, value_eq_iff hx isNaN_zero, rank_zero] at h
      exact bits_next_of_zero h
    · rw [← value_zero, value_lt_iff isNaN_zero hx, rank_zero] at h
      exact bits_next_of_pos hx h hlt
    · rw [← value_zero, value_lt_iff hx isNaN_zero, rank_zero] at h
      exact bits_next_of_neg hx h
  · have hlt := (bot_lt_iff hx).1 hbot
    have hrank : x.rank = x.prev.rank + 1 := by
      rw [rank_prev hx]
      omega
    refine ⟨isNaN_prev hx, adjacent_of_rank (isNaN_prev hx) hx hrank, ?_, rfl⟩
    rw [lt_top_iff ((isNaN_neg x).trans hx), rank_neg]
    omega
  · have hne : ¬ (x.rank = infiniteMagnitude ∨ x.rank = -(infiniteMagnitude : Int)) := fun h =>
      Bool.false_ne_true (hfin.symm.trans (isInfinite_iff.2 h))
    have hb := rank_bounds hx
    refine value_eq (isNaN_prev (isNaN_next hx)) hx ?_
    rw [rank_prev (isNaN_next hx), rank_next hx]
    omega

/-- Above the largest finite number there is only infinity. -/
theorem neighbours_exact_largest :
    (ofMagnitude false 9218868437227405311).isNaN = false ∧
      (ofMagnitude false 9218868437227405311).value < ⊤ ∧
      Adjacent (ofMagnitude false 9218868437227405311) infinity ∧
      infinity.prev.value = (ofMagnitude false 9218868437227405311).value := by
  have hnan : (ofMagnitude false 9218868437227405311).isNaN = false := by decide
  have htop : (ofMagnitude false 9218868437227405311).value < ⊤ := (lt_top_iff hnan).2 (by decide)
  have hnext : (ofMagnitude false 9218868437227405311).next = infinity := by rfl
  refine ⟨hnan, htop, ?_, ?_⟩
  · rw [← hnext]
    exact (neighbours_exact.1 _ hnan htop).2.1
  · rw [← hnext]
    exact neighbours_exact.2.2.2.2.1 _ hnan (by decide)

end Double
end FlowVerifier
