import FlowVerifier.Double.Arithmetic
import FlowVerifier.Proofs.Double.Order
import Mathlib.Tactic.Linarith
import Mathlib.Tactic.Positivity
import Mathlib.Tactic.Ring

/-!
# Rounding

The exact results of arithmetic are fractions of units, and `roundUnits` takes
them to the nearest double.  Two facts carry everything that is said about
arithmetic later:

* rounding keeps the order (`roundUnits_mono`), and
* what is a double already is not changed (`roundUnits_unitsOf`).

`roundInt` is the same for fractions with a sign.
-/

namespace FlowVerifier
namespace Double

variable {num den num' den' : Nat}

/-! ## The nearest whole number -/

/-- Rounding to a whole number keeps the order of fractions. -/
theorem nearestWhole_mono (hd : 0 < den) (hd' : 0 < den') (h : num * den' ≤ num' * den) :
    nearestWhole num den ≤ nearestWhole num' den' := by
  have hn := Nat.div_add_mod num den
  have hn' := Nat.div_add_mod num' den'
  have hr := Nat.mod_lt num hd
  have hr' := Nat.mod_lt num' hd'
  unfold nearestWhole
  generalize num / den = q at *
  generalize num % den = r at *
  generalize num' / den' = q' at *
  generalize num' % den' = r' at *
  dsimp only
  have hq : q ≤ q' := by
    by_contra hlt
    have : (q' + 1) * (den * den') ≤ q * (den * den') := Nat.mul_le_mul_right _ (by omega)
    nlinarith
  rcases Nat.lt_or_ge q q' with hlt | hge
  · split <;> split <;> omega
  · obtain rfl : q = q' := by omega
    -- both have the same whole part, so the remainders compare
    have hrem : r * den' ≤ r' * den := by nlinarith
    have hhalf : den < 2 * r → den' < 2 * r' := by
      intro hlt
      by_contra hge'
      nlinarith
    have hhalf' : den ≤ 2 * r → den' ≤ 2 * r' := by
      intro hle
      by_contra hge'
      nlinarith
    simp only [Bool.or_eq_true, Bool.and_eq_true, decide_eq_true_eq, beq_iff_eq]
    split
    · split <;> omega
    · rename_i hup
      rw [if_neg (by omega)]

/-- A whole number that is not above a fraction is not above what it is rounded to. -/
theorem le_nearestWhole {a : Nat} (hd : 0 < den) (h : a * den ≤ num) :
    a ≤ nearestWhole num den := by
  have hq : a ≤ num / den := (Nat.le_div_iff_mul_le hd).2 h
  unfold nearestWhole
  dsimp only
  split <;> omega

/-- A fraction below a whole number is not rounded above it. -/
theorem nearestWhole_le {a : Nat} (hd : 0 < den) (h : num < a * den) :
    nearestWhole num den ≤ a := by
  have hq : num / den < a := (Nat.div_lt_iff_lt_mul hd).2 h
  unfold nearestWhole
  dsimp only
  split <;> omega

/-- Whole numbers are not changed. -/
theorem nearestWhole_mul (a : Nat) (hd : 0 < den) : nearestWhole (a * den) den = a := by
  have hq : a * den / den = a := Nat.mul_div_cancel a hd
  have hr : a * den % den = 0 := Nat.mul_mod_left a den
  simp [nearestWhole, hq, hr, hd]

/-! ## Rounding to a double -/

theorem roundUnits_le (num den : Nat) : roundUnits num den ≤ infiniteMagnitude :=
  Nat.min_le_left _ _

/-- **Rounding keeps the order** of fractions. -/
theorem roundUnits_mono (hd : 0 < den) (hd' : 0 < den') (h : num * den' ≤ num' * den) :
    roundUnits num den ≤ roundUnits num' den' := by
  have hw : fractionWeight = 2 ^ 52 := by decide
  unfold roundUnits
  dsimp only
  refine le_min (min_le_left _ _) ((min_le_right _ _).trans ?_)
  have hdiv : num / den ≤ num' / den' := by
    rw [Nat.le_div_iff_mul_le hd']
    have hle := Nat.div_mul_le_self num den
    nlinarith [Nat.mul_le_mul_right den' hle]
  generalize hs : (num / den).log2 - 52 = s
  generalize hs' : (num' / den').log2 - 52 = s'
  have hpos : 0 < den <<< s := by
    rw [Nat.shiftLeft_eq]
    positivity
  have hpos' : 0 < den' <<< s' := by
    rw [Nat.shiftLeft_eq]
    positivity
  rcases Nat.lt_trichotomy s s' with hlt | rfl | hgt
  · -- the larger fraction has more digits: its significand is full
    have hne' : num' / den' ≠ 0 := by
      intro hzero
      rw [hzero, Nat.log2_zero] at hs'
      omega
    have hhigh : 2 ^ 52 ≤ nearestWhole num' (den' <<< s') := by
      refine le_nearestWhole hpos' ?_
      have hle : 2 ^ (s' + 52) ≤ num' / den' := (Nat.le_log2 hne').1 (by omega)
      rw [Nat.le_div_iff_mul_le hd'] at hle
      rw [Nat.shiftLeft_eq]
      calc 2 ^ 52 * (den' * 2 ^ s') = 2 ^ (s' + 52) * den' := by ring
        _ ≤ num' := hle
    have hlow : nearestWhole num (den <<< s) ≤ 2 ^ 53 := by
      refine nearestWhole_le hpos ?_
      have hlt53 : num / den < 2 ^ (s + 53) :=
        Nat.lt_of_lt_of_le Nat.lt_log2_self (Nat.pow_le_pow_right (by decide) (by omega))
      rw [Nat.div_lt_iff_lt_mul hd] at hlt53
      rw [Nat.shiftLeft_eq]
      calc num < 2 ^ (s + 53) * den := hlt53
        _ = 2 ^ 53 * (den * 2 ^ s) := by ring
    have hstep : (s + 1) * 2 ^ 52 ≤ s' * 2 ^ 52 := Nat.mul_le_mul_right _ hlt
    rw [hw]
    omega
  · have hnear : nearestWhole num (den <<< s) ≤ nearestWhole num' (den' <<< s) := by
      refine nearestWhole_mono hpos hpos' ?_
      rw [Nat.shiftLeft_eq, Nat.shiftLeft_eq]
      calc num * (den' * 2 ^ s) = num * den' * 2 ^ s := by ring
        _ ≤ num' * den * 2 ^ s := Nat.mul_le_mul_right _ h
        _ = num' * (den * 2 ^ s) := by ring
    omega
  · -- a smaller fraction has no more digits
    exfalso
    have hne : num / den ≠ 0 := by
      intro hzero
      rw [hzero, Nat.log2_zero] at hs
      omega
    have hlog : (num / den).log2 ≤ (num' / den').log2 :=
      (Nat.le_log2 ((Nat.pos_of_ne_zero hne).trans_le hdiv).ne').2
        ((Nat.log2_self_le hne).trans hdiv)
    omega

/-! ## Units -/

/-- The units of a magnitude. -/
def unitsOf (m : Nat) : Nat :=
  if m / fractionWeight = 0 then m % fractionWeight
  else (fractionWeight + m % fractionWeight) <<< (m / fractionWeight - 1)

theorem absUnits_eq (x : Double) : x.absUnits = unitsOf x.magnitude := rfl

/-- **A double is not changed** by rounding. -/
theorem roundUnits_unitsOf {m d : Nat} (hm : m ≤ infiniteMagnitude) (hd : 0 < d) :
    roundUnits (unitsOf m * d) d = m := by
  have hw : fractionWeight = 2 ^ 52 := by decide
  have hsplit := Nat.div_add_mod m fractionWeight
  have hfrac : m % fractionWeight < 2 ^ 52 := hw ▸ Nat.mod_lt m (by decide)
  unfold roundUnits
  dsimp only
  rw [Nat.mul_div_cancel _ hd]
  unfold unitsOf
  split
  · rename_i hfield
    -- a small magnitude is its own number of units
    rw [hfield, Nat.mul_zero, Nat.zero_add] at hsplit
    have hshift : (m % fractionWeight).log2 - 52 = 0 := by
      by_cases hzero : m % fractionWeight = 0
      · rw [hzero]
        rfl
      · have := (Nat.log2_lt hzero).2 hfrac
        omega
    rw [hshift, Nat.shiftLeft_zero, nearestWhole_mul _ hd]
    omega
  · rename_i hfield
    obtain ⟨f, hf⟩ := Nat.exists_eq_succ_of_ne_zero hfield
    rw [hf, Nat.shiftLeft_eq, show f.succ - 1 = f from rfl]
    generalize m % fractionWeight = r at *
    have hlog : ((fractionWeight + r) * 2 ^ f).log2 = 52 + f := by
      rw [hw, Nat.log2_eq_iff (by positivity)]
      constructor
      · calc 2 ^ (52 + f) = 2 ^ 52 * 2 ^ f := by ring
          _ ≤ (2 ^ 52 + r) * 2 ^ f := Nat.mul_le_mul_right _ (by omega)
      · calc (2 ^ 52 + r) * 2 ^ f < (2 ^ 52 + 2 ^ 52) * 2 ^ f :=
              Nat.mul_lt_mul_of_pos_right (by omega) (by positivity)
          _ = 2 ^ (52 + f + 1) := by ring
    have hden : (fractionWeight + r) * 2 ^ f * d = (fractionWeight + r) * (d * 2 ^ f) := by ring
    rw [hlog, Nat.add_sub_cancel_left, hden, Nat.shiftLeft_eq,
      nearestWhole_mul _ (by positivity)]
    rw [hf, hw] at hsplit
    rw [hw]
    rw [Nat.min_eq_right]
    · omega
    · omega

/-- Larger magnitudes have more units. -/
theorem unitsOf_lt {m n : Nat} (hm : m ≤ infiniteMagnitude) (hn : n ≤ infiniteMagnitude)
    (h : m < n) : unitsOf m < unitsOf n := by
  by_contra hge
  have hround : roundUnits (unitsOf n * 1) 1 ≤ roundUnits (unitsOf m * 1) 1 :=
    roundUnits_mono one_pos one_pos (by omega)
  rw [roundUnits_unitsOf hm one_pos, roundUnits_unitsOf hn one_pos] at hround
  omega

theorem unitsOf_le {m n : Nat} (hm : m ≤ infiniteMagnitude) (hn : n ≤ infiniteMagnitude)
    (h : m ≤ n) : unitsOf m ≤ unitsOf n := by
  rcases Nat.eq_or_lt_of_le h with rfl | hlt
  · exact le_rfl
  · exact (unitsOf_lt hm hn hlt).le

@[simp]
theorem unitsOf_zero : unitsOf 0 = 0 := by decide

theorem unitsOf_pos {m : Nat} (hm : m ≤ infiniteMagnitude) (h : 0 < m) : 0 < unitsOf m := by
  have := unitsOf_lt (Nat.zero_le _) hm h
  rwa [unitsOf_zero] at this

/-! ## With a sign -/

/-- The rank of the double nearest to `u / den` units. -/
def roundInt (u : Int) (den : Nat) : Int :=
  if u < 0 then -(roundUnits u.natAbs den : Int) else roundUnits u.natAbs den

theorem roundInt_mono {u v : Int} (hd : 0 < den) (h : u ≤ v) :
    roundInt u den ≤ roundInt v den := by
  unfold roundInt
  split
  · split
    · have hle : roundUnits v.natAbs den ≤ roundUnits u.natAbs den :=
        roundUnits_mono hd hd (Nat.mul_le_mul_right _ (by omega))
      omega
    · omega
  · rw [if_neg (by omega)]
    have hle : roundUnits u.natAbs den ≤ roundUnits v.natAbs den :=
      roundUnits_mono hd hd (Nat.mul_le_mul_right _ (by omega))
    omega

theorem roundInt_bounds (u : Int) (den : Nat) :
    -(infiniteMagnitude : Int) ≤ roundInt u den ∧ roundInt u den ≤ infiniteMagnitude := by
  have h := roundUnits_le u.natAbs den
  unfold roundInt
  split <;> omega

theorem natAbs_units (x : Double) : x.units.natAbs = unitsOf x.magnitude := by
  rw [← absUnits_eq]
  unfold units
  split <;> simp

/-- Units grow with the rank. -/
theorem units_mono {x y : Double} (hx : x.isNaN = false) (hy : y.isNaN = false)
    (h : x.rank ≤ y.rank) : x.units ≤ y.units := by
  have hmx := magnitude_le_of_not_isNaN hx
  have hmy := magnitude_le_of_not_isNaN hy
  unfold rank at h
  unfold units
  rw [absUnits_eq, absUnits_eq]
  split at h <;> split at h <;> rename_i hnx hny <;> simp only [hnx, hny] <;>
    simp only [if_true, if_false, Bool.false_eq_true]
  · have := unitsOf_le hmy hmx (by omega)
    omega
  · omega
  · have hzx : x.magnitude = 0 := by omega
    have hzy : y.magnitude = 0 := by omega
    simp [hzx, hzy]
  · have := unitsOf_le hmx hmy (by omega)
    omega

/-- The double nearest to the units of a double is the double. -/
theorem roundInt_units {x : Double} (hx : x.isNaN = false) : roundInt x.units 1 = x.rank := by
  have hm := magnitude_le_of_not_isNaN hx
  have hround : roundUnits x.units.natAbs 1 = x.magnitude := by
    rw [natAbs_units, ← Nat.mul_one (unitsOf _), roundUnits_unitsOf hm one_pos]
  unfold roundInt
  rw [hround]
  unfold rank units
  have hu := absUnits_eq x
  by_cases hzero : x.magnitude = 0
  · rw [hzero, unitsOf_zero] at hu
    simp [hu, hzero]
  · have hpos := unitsOf_pos hm (Nat.pos_of_ne_zero hzero)
    cases x.isNegative <;> simp only [if_true, if_false, Bool.false_eq_true] <;> split <;> omega

end Double
end FlowVerifier
