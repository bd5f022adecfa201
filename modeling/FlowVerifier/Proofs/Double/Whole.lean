import FlowVerifier.Proofs.Double.Arithmetic

/-!
# Whole numbers among the doubles

The integers next to a double are doubles themselves.  A double that is not below `2 ^ 53`
has no digits behind the point; below, an integer has at most fifty-three digits, and every
such integer is a double (`exists_unitsOf`).  So nothing is lost when a double is cut to an
integer and the integer is made a double again (`units_ofInt_of_near`).

`notAbove` and `notBelow` compare a double with an integer.
-/

namespace FlowVerifier
namespace Double

variable {x y : Double} {m n : Int}

/-! ## Integers that are doubles -/

/-- The number of units in one is a power of two. -/
theorem exists_pow_eq_unitsPerOne : ∃ t, t = 1074 ∧ unitsPerOne = 2 ^ t := by
  have heq : ∀ t, 1 <<< t = 2 ^ t := fun t => by rw [Nat.shiftLeft_eq, Nat.one_mul]
  exact ⟨1074, rfl, heq 1074⟩

/-- The units of a double that is given by its significand and its exponent. -/
theorem unitsOf_significand {f s : Nat} (h₁ : fractionWeight ≤ s) (h₂ : s < 2 * fractionWeight) :
    unitsOf (f * fractionWeight + s) = s * 2 ^ f := by
  have hw : 0 < fractionWeight := by decide
  have hsplit : f * fractionWeight + s = s - fractionWeight + (f + 1) * fractionWeight := by
    rw [Nat.add_mul]
    omega
  have hfrac : s - fractionWeight < fractionWeight := by omega
  have hdiv : (f * fractionWeight + s) / fractionWeight = f + 1 := by
    rw [hsplit, Nat.add_mul_div_right _ _ hw, Nat.div_eq_of_lt hfrac, Nat.zero_add]
  have hmod : (f * fractionWeight + s) % fractionWeight = s - fractionWeight := by
    rw [hsplit, Nat.add_mul_mod_self_right, Nat.mod_eq_of_lt hfrac]
  rw [unitsOf, hdiv, hmod, if_neg (Nat.succ_ne_zero f), Nat.add_sub_cancel, Nat.shiftLeft_eq,
    Nat.add_sub_cancel' h₁]

/-- An integer of at most fifty-three digits is a double. -/
theorem exists_unitsOf {n : Nat} (h : n < 2 ^ 53) :
    ∃ m ≤ infiniteMagnitude, unitsOf m = n * unitsPerOne := by
  have hw : fractionWeight = 2 ^ 52 := by decide
  have hi : infiniteMagnitude = 2047 * fractionWeight := by decide
  obtain ⟨t, ht, hu⟩ := exists_pow_eq_unitsPerOne
  rcases Nat.eq_zero_or_pos n with rfl | hpos
  · exact ⟨0, Nat.zero_le _, by simp⟩
  · have hk : n.log2 ≤ 52 := by
      have := (Nat.log2_lt hpos.ne').2 h
      omega
    have hlow := Nat.log2_self_le hpos.ne'
    have hhigh : n < 2 ^ (n.log2 + 1) := Nat.lt_log2_self
    generalize n.log2 = k at hk hlow hhigh
    obtain ⟨d, hd⟩ := Nat.exists_eq_add_of_le hk
    -- the significand has its highest digit in the place of `2 ^ 52`
    have h₁ : fractionWeight ≤ n * 2 ^ d := by
      calc fractionWeight = 2 ^ k * 2 ^ d := by rw [hw, hd, pow_add]
        _ ≤ n * 2 ^ d := Nat.mul_le_mul_right _ hlow
    have h₂ : n * 2 ^ d < 2 * fractionWeight := by
      calc n * 2 ^ d < 2 ^ (k + 1) * 2 ^ d := Nat.mul_lt_mul_of_pos_right hhigh (by positivity)
        _ = 2 * fractionWeight := by rw [hw, hd]; ring
    refine ⟨(1022 + k) * fractionWeight + n * 2 ^ d, ?_, ?_⟩
    · rw [hi]
      have : (1022 + k) * fractionWeight ≤ 1074 * fractionWeight :=
        Nat.mul_le_mul_right _ (by omega)
      omega
    · rw [unitsOf_significand h₁ h₂, Nat.mul_assoc, ← pow_add, hu, show d + (1022 + k) = t by omega]

/-- A double is an integer, or it is below `2 ^ 52`. -/
theorem unitsOf_eq_or_lt (m : Nat) :
    (∃ c, unitsOf m = c * unitsPerOne) ∨ unitsOf m < 2 ^ 52 * unitsPerOne := by
  have hw : fractionWeight = 2 ^ 52 := by decide
  have hfrac : m % fractionWeight < fractionWeight := Nat.mod_lt m (by decide)
  obtain ⟨t, ht, hu⟩ := exists_pow_eq_unitsPerOne
  unfold unitsOf
  split
  · refine .inr (hw ▸ hfrac.trans_le ?_)
    exact Nat.le_mul_of_pos_right _ unitsPerOne_pos
  · rw [Nat.shiftLeft_eq]
    generalize m / fractionWeight = field
    by_cases hbig : 1075 ≤ field
    · obtain ⟨e, rfl⟩ := Nat.exists_eq_add_of_le hbig
      refine .inl ⟨(fractionWeight + m % fractionWeight) * 2 ^ e, ?_⟩
      rw [hu, Nat.mul_assoc, ← pow_add, show 1075 + e - 1 = e + t by omega]
    · refine .inr ?_
      calc (fractionWeight + m % fractionWeight) * 2 ^ (field - 1)
          < 2 ^ 53 * 2 ^ (field - 1) := Nat.mul_lt_mul_of_pos_right (by omega) (by positivity)
        _ = 2 ^ 52 * 2 ^ (field - 1 + 1) := by ring
        _ ≤ 2 ^ 52 * unitsPerOne := by
            rw [hu]
            exact Nat.mul_le_mul_left _ (Nat.pow_le_pow_right (by decide) (by omega))

/-- The integers next to a double are doubles. -/
theorem exists_unitsOf_of_near {m q : Nat} (hm : m ≤ infiniteMagnitude)
    (h₁ : q * unitsPerOne < unitsOf m + unitsPerOne)
    (h₂ : unitsOf m < q * unitsPerOne + unitsPerOne) :
    ∃ k ≤ infiniteMagnitude, unitsOf k = q * unitsPerOne := by
  rcases unitsOf_eq_or_lt m with ⟨c, hc⟩ | hsmall
  · -- the double is an integer, so it is this one
    refine ⟨m, hm, ?_⟩
    rw [hc, ← Nat.succ_mul] at h₁ h₂
    have hle := lt_of_mul_lt_mul_right h₁ (Nat.zero_le _)
    have hge := lt_of_mul_lt_mul_right h₂ (Nat.zero_le _)
    rw [hc, show c = q by omega]
  · refine exists_unitsOf ?_
    have hlt : q * unitsPerOne < (2 ^ 52 + 1) * unitsPerOne := by
      rw [Nat.succ_mul]
      omega
    have := lt_of_mul_lt_mul_right hlt (Nat.zero_le _)
    omega

/-! ## There and back -/

theorem units_ofMagnitude {negative : Bool} {m : Nat} (hm : m < signWeight) :
    (ofMagnitude negative m).units =
      if negative then -(unitsOf m : Int) else unitsOf m := by
  rw [units, isNegative_ofMagnitude hm, absUnits_eq, magnitude_ofMagnitude hm]

/-- **An integer that is a double** is not rounded. -/
theorem units_ofInt (h : ∃ k ≤ infiniteMagnitude, unitsOf k = n.natAbs * unitsPerOne) :
    (ofInt n).units = n * unitsPerOne := by
  obtain ⟨k, hk, hunits⟩ := h
  have hsign : k < signWeight := Nat.lt_of_le_of_lt hk (by decide)
  have hpos : (0 : Int) < unitsPerOne := by exact_mod_cast unitsPerOne_pos
  have habs : (n * (unitsPerOne : Int)).natAbs = unitsOf k := by
    rw [hunits, Int.natAbs_mul, Int.natAbs_natCast]
  unfold ofInt ofUnits
  split
  · rename_i hzero
    rw [hzero, units_ofMagnitude (by decide)]
    simp
  · have hround : roundUnits (unitsOf k) 1 = k := by
      rw [← Nat.mul_one (unitsOf k), roundUnits_unitsOf hk one_pos]
    rw [habs, hround, units_ofMagnitude hsign, ← habs]
    by_cases hneg : n * (unitsPerOne : Int) < 0
    · simp only [hneg, decide_true, if_true]
      omega
    · simp only [hneg, decide_false, Bool.false_eq_true, if_false]
      omega

/-- **The integers next to a double** are not rounded. -/
theorem units_ofInt_of_near (hx : x.isNaN = false)
    (h₁ : n * unitsPerOne < x.units + unitsPerOne) (h₂ : x.units < n * unitsPerOne + unitsPerOne) :
    (ofInt n).units = n * unitsPerOne := by
  have hm := magnitude_le_of_not_isNaN hx
  have hu := natAbs_units x
  have hpos : (0 : Int) < unitsPerOne := by exact_mod_cast unitsPerOne_pos
  have habs : (n * (unitsPerOne : Int)).natAbs = n.natAbs * unitsPerOne := by
    rw [Int.natAbs_mul, Int.natAbs_natCast]
  -- the integer has the sign of the double, or is zero
  have hsign : 0 ≤ n * (unitsPerOne : Int) ∧ 0 ≤ x.units ∨
      n * (unitsPerOne : Int) ≤ 0 ∧ x.units ≤ 0 := by
    rcases Int.le_total 0 x.units with hx | hx
    · have hlt : -1 * (unitsPerOne : Int) < n * unitsPerOne := by omega
      have := lt_of_mul_lt_mul_right hlt hpos.le
      exact .inl ⟨Int.mul_nonneg (by omega) hpos.le, hx⟩
    · have hlt : n * (unitsPerOne : Int) < 1 * unitsPerOne := by omega
      have := lt_of_mul_lt_mul_right hlt hpos.le
      exact .inr ⟨Int.mul_nonpos_of_nonpos_of_nonneg (by omega) hpos.le, hx⟩
  refine units_ofInt (exists_unitsOf_of_near hm ?_ ?_)
  all_goals
    rw [← hu, ← habs]
    omega

theorem le_floor_iff : n ≤ x.floor ↔ n * unitsPerOne ≤ x.units := by
  have hpos : (0 : Int) < unitsPerOne := by exact_mod_cast unitsPerOne_pos
  rw [floor, Int.fdiv_eq_ediv_of_nonneg _ hpos.le]
  exact Int.le_ediv_iff_mul_le hpos

theorem ceil_le_iff : x.ceil ≤ n ↔ x.units ≤ n * unitsPerOne := by
  have hpos : (0 : Int) < unitsPerOne := by exact_mod_cast unitsPerOne_pos
  have hdiv : -n ≤ -x.units / (unitsPerOne : Int) ↔ -n * unitsPerOne ≤ -x.units :=
    Int.le_ediv_iff_mul_le hpos
  rw [ceil, Int.fdiv_eq_ediv_of_nonneg _ hpos.le]
  rw [Int.neg_mul] at hdiv
  omega

theorem units_ofInt_floor (hx : x.isNaN = false) :
    (ofInt x.floor).units = x.floor * unitsPerOne := by
  have hpos : (0 : Int) < unitsPerOne := by exact_mod_cast unitsPerOne_pos
  have hle := le_floor_iff.1 (Int.le_refl x.floor)
  have hlt : ¬ (x.floor + 1) * unitsPerOne ≤ x.units := fun h => by
    have := le_floor_iff.2 h
    omega
  rw [Int.add_mul] at hlt
  exact units_ofInt_of_near hx (by omega) (by omega)

theorem units_ofInt_ceil (hx : x.isNaN = false) :
    (ofInt x.ceil).units = x.ceil * unitsPerOne := by
  have hpos : (0 : Int) < unitsPerOne := by exact_mod_cast unitsPerOne_pos
  have hle := ceil_le_iff.1 (Int.le_refl x.ceil)
  have hlt : ¬ x.units ≤ (x.ceil - 1) * unitsPerOne := fun h => by
    have := ceil_le_iff.2 h
    omega
  rw [Int.sub_mul] at hlt
  exact units_ofInt_of_near hx (by omega) (by omega)

/-- The integer part of an integer that is a double is the integer. -/
theorem floor_ofInt (h : (ofInt n).units = n * unitsPerOne) : (ofInt n).floor = n := by
  have hpos : (0 : Int) < unitsPerOne := by exact_mod_cast unitsPerOne_pos
  rw [floor, h, Int.fdiv_eq_ediv_of_nonneg _ hpos.le]
  exact Int.mul_ediv_cancel n hpos.ne'

/-! ## Comparison with integers -/

/-- Is the double not above the integer? -/
def notAbove (x : Double) (n : Int) : Bool :=
  !x.isNaN && if x.isInfinite then x.isNegative else decide (x.units ≤ n * unitsPerOne)

/-- Is the double not below the integer? -/
def notBelow (x : Double) (n : Int) : Bool :=
  !x.isNaN && if x.isInfinite then !x.isNegative else decide (n * unitsPerOne ≤ x.units)

theorem notAbove_mono (h : x.notAbove m = true) (hmn : m ≤ n) : x.notAbove n = true := by
  unfold notAbove at h ⊢
  cases hinf : x.isInfinite with
  | true => simpa [hinf] using h
  | false =>
      simp only [hinf, Bool.false_eq_true, if_false, Bool.and_eq_true, decide_eq_true_eq] at h ⊢
      exact ⟨h.1, ceil_le_iff.1 ((ceil_le_iff.2 h.2).trans hmn)⟩

theorem notBelow_anti (h : x.notBelow n = true) (hmn : m ≤ n) : x.notBelow m = true := by
  unfold notBelow at h ⊢
  cases hinf : x.isInfinite with
  | true => simpa [hinf] using h
  | false =>
      simp only [hinf, Bool.false_eq_true, if_false, Bool.and_eq_true, decide_eq_true_eq] at h ⊢
      exact ⟨h.1, le_floor_iff.1 (hmn.trans (le_floor_iff.2 h.2))⟩

/-- Doubles on the two sides of an integer are in order. -/
theorem le_of_notAbove (hx : x.notAbove n = true) (hy : y.notBelow n = true) :
    x.le y = true := by
  simp only [notAbove, notBelow, Bool.and_eq_true, Bool.not_eq_true'] at hx hy
  obtain ⟨hxn, hx⟩ := hx
  obtain ⟨hyn, hy⟩ := hy
  have hbx := rank_bounds hxn
  have hby := rank_bounds hyn
  refine le_iff.2 ⟨hxn, hyn, ?_⟩
  split at hx
  · rename_i hinf
    rw [isInfinite, beq_iff_eq] at hinf
    rw [rank, if_pos hx, hinf]
    exact hby.1
  · split at hy
    · rename_i hinf
      rw [isInfinite, beq_iff_eq] at hinf
      have hry : y.rank = infiniteMagnitude := by
        rw [rank, if_neg (by simpa using hy), hinf]
      rw [hry]
      exact hbx.2
    · rw [decide_eq_true_eq] at hx hy
      rw [← roundInt_units hxn, ← roundInt_units hyn]
      exact roundInt_mono one_pos (hx.trans hy)

end Double
end FlowVerifier
