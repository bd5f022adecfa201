import FlowVerifier.Double.Basic
import Mathlib.Order.Basic

/-!
# Order of double precision numbers

Numbers compare as their ranks do, and the neighbours of a number are the numbers
of the ranks next to its own.

* `rank_ofMagnitude` and `isNaN_ofMagnitude` read the pattern that is built from a
  sign and a magnitude.
* `lt_iff`, `le_iff` and `beq_iff` take comparisons to ranks.
* `rank_next` and `rank_prev` say where the neighbours are.
-/

namespace FlowVerifier
namespace Double

variable {x y : Double} {negative : Bool} {m : Nat}

/-! ## Patterns -/

theorem magnitude_lt (x : Double) : x.magnitude < signWeight :=
  Nat.mod_lt _ (by decide)

theorem magnitude_ofMagnitude (hm : m < signWeight) :
    (ofMagnitude negative m).magnitude = m := by
  unfold signWeight at hm
  unfold magnitude ofMagnitude signWeight
  cases negative <;> simp only [UInt64.toNat_ofNat', if_true, Bool.false_eq_true, if_false] <;>
    omega

theorem isNegative_ofMagnitude (hm : m < signWeight) :
    (ofMagnitude negative m).isNegative = negative := by
  unfold signWeight at hm
  unfold isNegative ofMagnitude signWeight
  cases negative <;> simp only [UInt64.toNat_ofNat', if_true, Bool.false_eq_true, if_false,
    decide_eq_true_eq, decide_eq_false_iff_not] <;> omega

/-- The rank of a number that is built from its sign and its magnitude. -/
theorem rank_ofMagnitude (hm : m < signWeight) :
    (ofMagnitude negative m).rank = if negative then -(m : Int) else m := by
  rw [rank, isNegative_ofMagnitude hm, magnitude_ofMagnitude hm]

/-- A double is determined by its sign and its magnitude. -/
theorem eq_of_magnitude (hsign : x.isNegative = y.isNegative) (h : x.magnitude = y.magnitude) :
    x = y := by
  have hx := x.bits.toNat_lt
  have hy := y.bits.toNat_lt
  have hbits : x.bits.toNat = y.bits.toNat := by
    simp only [isNegative, decide_eq_decide] at hsign
    simp only [magnitude, signWeight] at h hsign
    omega
  obtain ⟨a⟩ := x
  obtain ⟨b⟩ := y
  exact congrArg _ (UInt64.toNat_inj.1 hbits)

theorem isNaN_ofMagnitude (hm : m ≤ infiniteMagnitude) :
    (ofMagnitude negative m).isNaN = false := by
  have hs : m < signWeight := Nat.lt_of_le_of_lt hm (by decide)
  rw [isNaN, magnitude_ofMagnitude hs]
  exact decide_eq_false (Nat.not_lt.2 hm)

theorem magnitude_le_of_not_isNaN (hx : x.isNaN = false) : x.magnitude ≤ infiniteMagnitude :=
  Nat.not_lt.1 (of_decide_eq_false hx)

/-- The magnitude is the absolute value of the rank. -/
theorem natAbs_rank (x : Double) : x.rank.natAbs = x.magnitude := by
  unfold rank
  split <;> simp

theorem isNegative_of_rank_neg (h : x.rank < 0) : x.isNegative = true := by
  by_contra hn
  rw [rank, if_neg hn] at h
  omega

theorem isNegative_of_rank_pos (h : 0 < x.rank) : x.isNegative = false := by
  by_contra hn
  rw [rank, if_pos (by simpa using hn)] at h
  omega

/-- Where the order has one number, there is one number, zero apart. -/
theorem eq_of_rank (h : x.rank = y.rank) (hx : x.rank ≠ 0) : x = y := by
  refine eq_of_magnitude ?_ (by rw [← natAbs_rank, ← natAbs_rank, h])
  rcases Int.lt_or_gt_of_ne hx with hneg | hpos
  · rw [isNegative_of_rank_neg hneg, isNegative_of_rank_neg (h ▸ hneg)]
  · rw [isNegative_of_rank_pos hpos, isNegative_of_rank_pos (h ▸ hpos)]

/-- The ranks of numbers lie between those of the infinities. -/
theorem rank_bounds (hx : x.isNaN = false) :
    -(infiniteMagnitude : Int) ≤ x.rank ∧ x.rank ≤ infiniteMagnitude := by
  have hm := magnitude_le_of_not_isNaN hx
  have ha := natAbs_rank x
  omega

theorem isZero_iff : x.isZero = true ↔ x.rank = 0 := by
  have ha := natAbs_rank x
  rw [isZero, beq_iff_eq]
  omega

theorem isInfinite_iff :
    x.isInfinite = true ↔ x.rank = infiniteMagnitude ∨ x.rank = -(infiniteMagnitude : Int) := by
  have ha := natAbs_rank x
  rw [isInfinite, beq_iff_eq]
  omega

/-! ## Comparisons -/

theorem lt_iff : x.lt y = true ↔ x.isNaN = false ∧ y.isNaN = false ∧ x.rank < y.rank := by
  simp [lt, and_assoc]

theorem le_iff : x.le y = true ↔ x.isNaN = false ∧ y.isNaN = false ∧ x.rank ≤ y.rank := by
  simp [le, and_assoc]

theorem beq_iff : x.beq y = true ↔ x.isNaN = false ∧ y.isNaN = false ∧ x.rank = y.rank := by
  simp [beq, and_assoc]

protected theorem le_self (hx : x.isNaN = false) : x.le x = true :=
  le_iff.2 ⟨hx, hx, Int.le_refl _⟩

protected theorem le_trans {z : Double} (h₁ : x.le y = true) (h₂ : y.le z = true) :
    x.le z = true := by
  rw [le_iff] at h₁ h₂ ⊢
  exact ⟨h₁.1, h₂.2.1, Int.le_trans h₁.2.2 h₂.2.2⟩

/-! ## Constants -/

@[simp]
theorem rank_zero : zero.rank = 0 := by decide

@[simp]
theorem rank_infinity : infinity.rank = infiniteMagnitude := by decide

@[simp]
theorem rank_negInfinity : negInfinity.rank = -(infiniteMagnitude : Int) := by decide

@[simp]
theorem isNaN_zero : zero.isNaN = false := by decide

@[simp]
theorem isNaN_infinity : infinity.isNaN = false := by decide

@[simp]
theorem isNaN_negInfinity : negInfinity.isNaN = false := by decide

/-! ## Sign -/

theorem magnitude_neg (x : Double) : x.neg.magnitude = x.magnitude :=
  magnitude_ofMagnitude x.magnitude_lt

theorem isNegative_neg (x : Double) : x.neg.isNegative = !x.isNegative :=
  isNegative_ofMagnitude x.magnitude_lt

@[simp]
theorem rank_neg (x : Double) : x.neg.rank = -x.rank := by
  unfold rank
  rw [isNegative_neg, magnitude_neg]
  cases x.isNegative <;> simp

@[simp]
theorem isNaN_neg (x : Double) : x.neg.isNaN = x.isNaN := by
  rw [isNaN, magnitude_neg, isNaN]

@[simp]
theorem rank_abs (x : Double) : x.abs.rank = x.rank.natAbs := by
  rw [abs, rank_ofMagnitude x.magnitude_lt, natAbs_rank]
  rfl

@[simp]
theorem isNaN_abs (x : Double) : x.abs.isNaN = x.isNaN := by
  rw [isNaN, abs, magnitude_ofMagnitude x.magnitude_lt, isNaN]

/-! ## Neighbours -/

/-- The neighbour above a number has the next rank; nothing is above infinity. -/
theorem rank_next (hx : x.isNaN = false) :
    x.next.rank = min (x.rank + 1) infiniteMagnitude := by
  have hm := magnitude_le_of_not_isNaN hx
  have hs : infiniteMagnitude + 1 < signWeight := by decide
  have hone : (1 : Nat) ≤ infiniteMagnitude := by decide
  unfold next
  rw [hx, Bool.false_or]
  cases hn : x.isNegative with
  | false =>
      have hr : x.rank = x.magnitude := by simp [rank, hn]
      cases hi : x.isInfinite with
      | true =>
          rw [isInfinite, beq_iff_eq] at hi
          simp only [Bool.not_false, Bool.and_true, if_true]
          omega
      | false =>
          have hi' : x.magnitude ≠ infiniteMagnitude := by simpa [isInfinite] using hi
          cases hz : x.isZero with
          | true =>
              rw [isZero, beq_iff_eq] at hz
              simp only [Bool.and_false, Bool.false_eq_true, if_false, if_true]
              rw [rank_ofMagnitude (by omega)]
              simp only [Bool.false_eq_true, if_false]
              omega
          | false =>
              simp only [Bool.and_false, Bool.false_eq_true, if_false]
              rw [rank_ofMagnitude (by omega)]
              simp only [Bool.false_eq_true, if_false]
              omega
  | true =>
      have hr : x.rank = -(x.magnitude : Int) := by simp [rank, hn]
      cases hz : x.isZero with
      | true =>
          rw [isZero, beq_iff_eq] at hz
          simp only [Bool.not_true, Bool.false_and, Bool.false_eq_true, if_false, if_true]
          rw [rank_ofMagnitude (by omega)]
          simp only [Bool.false_eq_true, if_false]
          omega
      | false =>
          have hz' : x.magnitude ≠ 0 := by simpa [isZero] using hz
          simp only [Bool.not_true, Bool.false_and, Bool.false_eq_true, if_false, if_true]
          rw [rank_ofMagnitude (by omega)]
          simp only [if_true]
          omega

/-- The neighbour of a number is a number. -/
theorem isNaN_next (hx : x.isNaN = false) : x.next.isNaN = false := by
  have hm := magnitude_le_of_not_isNaN hx
  have hr := rank_next hx
  have hb := rank_bounds hx
  have ha := natAbs_rank x.next
  exact decide_eq_false (by omega)

/-- The neighbour below a number has the rank before. -/
theorem rank_prev (hx : x.isNaN = false) :
    x.prev.rank = max (x.rank - 1) (-(infiniteMagnitude : Int)) := by
  have hn : x.neg.isNaN = false := by rwa [isNaN_neg]
  rw [prev, rank_neg, rank_next hn, rank_neg]
  omega

theorem isNaN_prev (hx : x.isNaN = false) : x.prev.isNaN = false := by
  rw [prev, isNaN_neg]
  exact isNaN_next (by rwa [isNaN_neg])

end Double
end FlowVerifier
