import FlowVerifier.Proofs.Symbolic.Values
import FlowVerifier.Symbolic.Trend

/-!
# What trends say

A trend compares the value of a variable with the value it had before: it is the
same, it is above, it is below, or nothing is said.

* `Trend.Right` is this reading, and `Trend.Right.andThen` says that it is kept where
  one stretch follows another.
* `ofStep_right`: the direction of `x = x op r` is right for all members of the
  intervals it was found from.

A sum with a positive number is never below the other summand, but it need not be
above: the summand may be too small to make a difference, or the other one infinite.
`ArithOp.Absorbs` is what has to be excluded.
-/

namespace FlowVerifier

/-! ## Neutral operands -/

namespace Double

variable {a m : Double}

theorem roundInt_mul (u : Int) {d : Nat} (hd : 0 < d) : roundInt (u * d) d = roundInt u 1 := by
  have hround : ∀ n : Nat, roundUnits (n * d) d = roundUnits n 1 := fun n =>
    Nat.le_antisymm (roundUnits_mono hd one_pos (by rw [Nat.mul_one]))
      (roundUnits_mono one_pos hd (by rw [Nat.mul_one]))
  have hsign : u * d < 0 ↔ u < 0 := by
    have hd' : (0 : Int) < d := Int.natCast_pos.2 hd
    constructor
    · intro h
      by_contra hu
      exact absurd (Int.mul_nonneg (Int.not_lt.1 hu) (Int.le_of_lt hd')) (Int.not_le.2 h)
    · exact fun h => Int.mul_neg_of_neg_of_pos h hd'
  unfold roundInt
  simp only [hsign, Int.natAbs_mul, Int.natAbs_natCast, hround]

/-- Adding zero changes nothing. -/
theorem rank_add_zero (ha : a.isNaN = false) :
    (a.add zero).isNaN = false ∧ (a.add zero).rank = a.rank := by
  have hz : zero.isInfinite = false := by decide
  cases hi : a.isInfinite with
  | true =>
      have hsum : a.add zero = a := by simp [add, ha, hi, hz]
      rw [hsum]
      exact ⟨ha, rfl⟩
  | false =>
      refine ⟨?_, ?_⟩
      · simp only [add, ha, hi, hz, isNaN_zero, Bool.or_self, Bool.false_eq_true, if_false]
        exact isNaN_ofUnits ..
      · rw [rank_add_finite ha isNaN_zero hi hz, show zero.units = 0 by decide, Int.add_zero,
          roundInt_units ha]

theorem rank_le_add (ha : a.isNaN = false) (hm : m.isNaN = false)
    (hn : (a.add m).isNaN = false) (h : 0 ≤ m.rank) : a.rank ≤ (a.add m).rank := by
  obtain ⟨hnan, hzero⟩ := rank_add_zero ha
  have hle := rank_add_le ha isNaN_zero ha hm hnan hn (Int.le_refl _) (by rwa [rank_zero])
  rwa [hzero] at hle

theorem rank_add_le_self (ha : a.isNaN = false) (hm : m.isNaN = false)
    (hn : (a.add m).isNaN = false) (h : m.rank ≤ 0) : (a.add m).rank ≤ a.rank := by
  obtain ⟨hnan, hzero⟩ := rank_add_zero ha
  have hle := rank_add_le ha hm ha isNaN_zero hn hnan (Int.le_refl _) (by rwa [rank_zero])
  rwa [hzero] at hle

@[simp]
theorem isNaN_one : one.isNaN = false := by decide

theorem rank_one_pos : 0 < one.rank := by decide

theorem units_one : one.units = unitsPerOne := by decide

theorem absUnits_one : one.absUnits = unitsPerOne := by decide

/-! ## Factors and divisors -/

/-- The number `n` is `a`, or lies beyond it as seen from zero. -/
def Outward (a n : Double) : Prop :=
  (0 < a.rank → a.rank ≤ n.rank) ∧ (a.rank < 0 → n.rank ≤ a.rank)

/-- The number `n` is `a`, or lies on the side of it where zero is. -/
def Inward (a n : Double) : Prop :=
  (0 < a.rank → n.rank ≤ a.rank) ∧ (a.rank < 0 → a.rank ≤ n.rank)

open Symbolic.Interval (mulBound rank_mulBound_pos rank_mulBound_le rank_mulBound_neg
  mulBound_comm rank_mul_eq_mulBound)

theorem rank_mulBound_one (ha : a.isNaN = false) : (mulBound a one).rank = a.rank := by
  rw [rank_mulBound_pos ha isNaN_one rank_one_pos, if_neg (by decide)]
  split
  · rfl
  · rw [units_one, roundInt_mul _ unitsPerOne_pos, roundInt_units ha]

/-- The product with a positive number is ordered as the other factor. -/
theorem rank_mulBound_mono {k : Double} (ha : a.isNaN = false) (hm : m.isNaN = false)
    (hk : k.isNaN = false) (h : m.rank ≤ k.rank) :
    (0 < a.rank → (mulBound a m).rank ≤ (mulBound a k).rank) ∧
      (a.rank < 0 → (mulBound a k).rank ≤ (mulBound a m).rank) := by
  rw [mulBound_comm a m, mulBound_comm a k]
  refine ⟨fun hpos => rank_mulBound_le hm hk ha hpos h, fun hneg => ?_⟩
  have hn : a.neg.isNaN = false := by rwa [isNaN_neg]
  have hle := rank_mulBound_le hm hk hn (by rw [rank_neg]; omega) h
  rw [rank_mulBound_neg hm ha, rank_mulBound_neg hk ha] at hle
  omega

theorem outward_mul (ha : a.isNaN = false) (hm : m.isNaN = false)
    (hn : (a.mul m).isNaN = false) (h : one.rank ≤ m.rank) : Outward a (a.mul m) := by
  have hmono := rank_mulBound_mono ha isNaN_one hm h
  rwa [rank_mulBound_one ha, ← rank_mul_eq_mulBound ha hm hn] at hmono

theorem inward_mul (ha : a.isNaN = false) (hm : m.isNaN = false)
    (hn : (a.mul m).isNaN = false) (h : m.rank ≤ one.rank) : Inward a (a.mul m) := by
  have hmono := rank_mulBound_mono ha hm isNaN_one h
  rwa [rank_mulBound_one ha, ← rank_mul_eq_mulBound ha hm hn] at hmono

theorem quotientRank_one (ha : a.isNaN = false) : quotientRank a one = a.rank := by
  unfold quotientRank
  rw [if_neg (by decide), absUnits_one]
  split
  · rfl
  · rw [roundInt_mul _ unitsPerOne_pos, roundInt_units ha]

/-- The quotient by a positive number is ordered against the divisor. -/
theorem quotientRank_mono {k : Double} (ha : a.isNaN = false) (hm : m.isNaN = false)
    (hk : k.isNaN = false) (hpos : 0 < m.rank) (h : m.rank ≤ k.rank) :
    (0 < a.rank → quotientRank a k ≤ quotientRank a m) ∧
      (a.rank < 0 → quotientRank a m ≤ quotientRank a k) := by
  have hzero : ∀ {w : Double}, 0 < w.rank → w.isZero = false := by
    intro w hw
    rw [← Bool.not_eq_true, isZero_iff]
    omega
  have hmag : m.magnitude ≤ k.magnitude := by
    have h₁ := natAbs_rank m
    have h₂ := natAbs_rank k
    omega
  have hle : ∀ {w : Double}, w.isNaN = false → 0 < w.rank →
      quotientRank w k ≤ quotientRank w m := fun hw hwpos =>
    quotientRank_le_right hw hm hk (hzero hpos) (hzero (by omega)) (by omega) hmag
  refine ⟨hle ha, fun hneg => ?_⟩
  have hflip := hle (w := a.neg) (by rwa [isNaN_neg]) (by rw [rank_neg]; omega)
  rw [quotientRank_neg, quotientRank_neg] at hflip
  omega

theorem rank_div_pos (ha : a.isNaN = false) (hm : m.isNaN = false)
    (hn : (a.div m).isNaN = false) (hpos : 0 < m.rank) : (a.div m).rank = quotientRank a m := by
  have hz : m.isZero = false := by
    rw [← Bool.not_eq_true, isZero_iff]
    omega
  rw [rank_div ha hm hz hn, isNegative_of_rank_pos hpos, if_neg (by decide)]

theorem outward_div (ha : a.isNaN = false) (hm : m.isNaN = false)
    (hn : (a.div m).isNaN = false) (hpos : 0 < m.rank) (h : m.rank ≤ one.rank) :
    Outward a (a.div m) := by
  have hmono := quotientRank_mono ha hm isNaN_one hpos h
  rwa [quotientRank_one ha, ← rank_div_pos ha hm hn hpos] at hmono

theorem inward_div (ha : a.isNaN = false) (hm : m.isNaN = false)
    (hn : (a.div m).isNaN = false) (h : one.rank ≤ m.rank) : Inward a (a.div m) := by
  have hpos : 0 < m.rank := Int.lt_of_lt_of_le rank_one_pos h
  have hmono := quotientRank_mono ha isNaN_one hm rank_one_pos h
  rwa [quotientRank_one ha, ← rank_div_pos ha hm hn hpos] at hmono

end Double

/-! ## Steps without effect -/

namespace ArithOp

/-- Does the operation leave its first operand as it is, whatever that is? -/
def isNeutral : ArithOp → Literal → Bool
  | add, .number m => m.isZero
  | sub, .number m => m.isZero
  | mul, .number m => m.beq Double.one
  | div, .number m => m.beq Double.one
  | add, .string s => s == ""
  | _, _ => false

/-- The operation leaves its first operand as it is, although it is not meant to: the
result is rounded back. -/
def Absorbs (op : ArithOp) (l m r : Literal) : Prop :=
  op.isNeutral m = false ∧ RelOp.eq.fold r l = .ok true

end ArithOp

namespace Symbolic
namespace Trend

variable {t u : Trend} {before : Option Literal} {l m r : Literal}

/-- How a value relates to the one before. -/
def relation? : Trend → Option RelOp
  | untouched => some .eq
  | unchanged => some .eq
  | increasing => some .gt
  | decreasing => some .lt
  | unpredictable => none

/-- The trend is right for a value, and one before, if it says anything. -/
def Right (t : Trend) (before : Option Literal) (after : Literal) : Prop :=
  ∀ op, t.relation? = some op → ∃ l, before = some l ∧ op.fold after l = .ok true

theorem right_unpredictable : unpredictable.Right before l :=
  fun _ h => absurd h (by simp [relation?])

theorem right_of_eq {op : RelOp} (ht : t.relation? = some op) (h : op.fold m l = .ok true) :
    t.Right (some l) m := by
  intro op' hop
  rw [ht] at hop
  cases hop
  exact ⟨l, rfl, h⟩

theorem exists_of_andThen {op : RelOp} (h : (t.andThen u).relation? = some op) :
    ∃ r s, t.relation? = some r ∧ u.relation? = some s ∧ s.compose r = some op := by
  cases t <;> cases u <;> cases h <;> exact ⟨_, _, rfl, rfl, rfl⟩

/-- **One stretch after another.** -/
theorem Right.andThen (ht : t.Right before l) (hu : u.Right (some l) m)
    (hb : ∀ k, before = some k → k.isNaN = false) (hl : l.isNaN = false)
    (hm : m.isNaN = false) : (t.andThen u).Right before m := by
  intro op hop
  obtain ⟨r, s, hr, hs, hcompose⟩ := exists_of_andThen hop
  obtain ⟨k, rfl, hk⟩ := ht r hr
  obtain ⟨_, heq, hl'⟩ := hu s hs
  cases heq
  exact ⟨k, rfl, RelOp.fold_of_compose hm hl (hb k rfl) hcompose hl' hk⟩

/-! ## Directions of a step -/

section Numbers

open Double

variable {a n d : Double} {x y : Interval Double}

theorem right_increasing (ha : a.isNaN = false) (hn : n.isNaN = false) (hle : a.rank ≤ n.rank)
    (hne : RelOp.eq.fold (.number n) (.number a) ≠ .ok true) :
    increasing.Right (some (.number a)) (.number n) := by
  refine right_of_eq rfl ?_
  rw [fold_number _ hn ha] at hne ⊢
  have hrank : n.rank ≠ a.rank := fun h => hne (congrArg _ (beq_iff.2 ⟨hn, ha, h⟩))
  exact congrArg _ (lt_iff.2 ⟨ha, hn, by omega⟩)

theorem right_decreasing (ha : a.isNaN = false) (hn : n.isNaN = false) (hle : n.rank ≤ a.rank)
    (hne : RelOp.eq.fold (.number n) (.number a) ≠ .ok true) :
    decreasing.Right (some (.number a)) (.number n) := by
  refine right_of_eq rfl ?_
  rw [fold_number _ hn ha] at hne ⊢
  have hrank : n.rank ≠ a.rank := fun h => hne (congrArg _ (beq_iff.2 ⟨hn, ha, h⟩))
  exact congrArg _ (lt_iff.2 ⟨hn, ha, by omega⟩)

theorem right_unchanged (ha : a.isNaN = false) (hn : n.isNaN = false) (h : n.rank = a.rank) :
    unchanged.Right (some (.number a)) (.number n) := by
  refine right_of_eq rfl ?_
  rw [fold_number _ hn ha]
  exact congrArg _ (beq_iff.2 ⟨hn, ha, h⟩)

theorem rank_pos_of_isPositive (hx : x.contains a = true) (h : x.isPositive = true) :
    0 < a.rank := by
  obtain ⟨⟨-, -, hlo⟩, -, -⟩ := Interval.contains_iff_rank.1 hx
  have := (lt_iff.1 ((Bool.and_eq_true _ _).mp h).2).2.2
  rw [rank_zero] at this
  omega

theorem rank_neg_of_isNegative (hx : x.contains a = true) (h : x.isNegative = true) :
    a.rank < 0 := by
  obtain ⟨-, -, hhi⟩ := Interval.contains_iff_rank.1 hx
  have := (lt_iff.1 ((Bool.and_eq_true _ _).mp h).2).2.2
  rw [rank_zero] at this
  omega

/-- The only member of a point. -/
theorem rank_of_isPoint {v : Double} (hx : x.contains a = true) (h : x.isPoint v = true) :
    a.rank = v.rank := by
  obtain ⟨⟨-, -, hlo⟩, -, hhi⟩ := Interval.contains_iff_rank.1 hx
  obtain ⟨hd, hv⟩ := (Bool.and_eq_true _ _).mp h
  have h₁ := (beq_iff.1 hd).2.2
  have h₂ := (beq_iff.1 hv).2.2
  omega

theorem rank_of_isBetween {low high : Double} (hx : x.contains a = true)
    (h : isBetween x low high = true) : low.rank < a.rank ∧ a.rank < high.rank := by
  obtain ⟨⟨-, -, hlo⟩, -, hhi⟩ := Interval.contains_iff_rank.1 hx
  obtain ⟨h, h₂⟩ := (Bool.and_eq_true _ _).mp h
  have h₁ := (lt_iff.1 ((Bool.and_eq_true _ _).mp h).2).2.2
  have h₂ := (lt_iff.1 h₂).2.2
  omega

/-- The sign of a summand decides the direction of the sum. -/
theorem ofAddend_cases (hy : y.contains d = true) :
    (ofAddend y = increasing ∧ 0 < d.rank) ∨ (ofAddend y = decreasing ∧ d.rank < 0) ∨
      (ofAddend y = unchanged ∧ d.rank = 0) ∨ ofAddend y = unpredictable := by
  unfold ofAddend
  split
  · exact .inl ⟨rfl, rank_pos_of_isPositive hy (by assumption)⟩
  · split
    · exact .inr (.inl ⟨rfl, rank_neg_of_isNegative hy (by assumption)⟩)
    · split
      · rename_i hzero
        exact .inr (.inr (.inl ⟨rfl, (rank_of_isPoint hy hzero).trans rank_zero⟩))
      · exact .inr (.inr (.inr rfl))

/-- A summand that is not zero is not neutral. -/
theorem ne_of_not_absorbs {op : ArithOp} (hop : op = .add ∨ op = .sub) (h : d.rank ≠ 0)
    (hkept : ¬ op.Absorbs (.number a) (.number d) (.number n)) :
    RelOp.eq.fold (.number n) (.number a) ≠ .ok true := by
  have hzero : d.isZero = false := by rwa [← Bool.not_eq_true, isZero_iff]
  refine fun heq => hkept ⟨?_, heq⟩
  rcases hop with rfl | rfl <;> exact hzero

/-- The direction of a sum. -/
theorem ofAddend_right (ha : a.isNaN = false) (hy : y.contains d = true)
    (hn : (a.add d).isNaN = false)
    (hkept : ¬ ArithOp.add.Absorbs (.number a) (.number d) (.number (a.add d))) :
    (ofAddend y).Right (some (.number a)) (.number (a.add d)) := by
  have hd := (Interval.contains_iff_rank.1 hy).1.2.1
  have hup := rank_le_add ha hd hn
  have hdown := rank_add_le_self ha hd hn
  obtain ⟨ht, hpos⟩ | ⟨ht, hneg⟩ | ⟨ht, hzero⟩ | ht := ofAddend_cases hy <;> rw [ht]
  · exact right_increasing ha hn (hup (by omega))
      (ne_of_not_absorbs (.inl rfl) (by omega) hkept)
  · exact right_decreasing ha hn (hdown (by omega))
      (ne_of_not_absorbs (.inl rfl) (by omega) hkept)
  · exact right_unchanged ha hn (Int.le_antisymm (hdown (by omega)) (hup (by omega)))
  · exact right_unpredictable

/-- The direction of a difference. -/
theorem ofSubtrahend_right (ha : a.isNaN = false) (hy : y.contains d = true)
    (hn : (a.sub d).isNaN = false)
    (hkept : ¬ ArithOp.sub.Absorbs (.number a) (.number d) (.number (a.sub d))) :
    (ofAddend y).reversed.Right (some (.number a)) (.number (a.sub d)) := by
  have hd : d.neg.isNaN = false := by
    rw [isNaN_neg]
    exact (Interval.contains_iff_rank.1 hy).1.2.1
  have hup := rank_le_add ha hd hn
  have hdown := rank_add_le_self ha hd hn
  rw [rank_neg] at hup hdown
  obtain ⟨ht, hpos⟩ | ⟨ht, hneg⟩ | ⟨ht, hzero⟩ | ht := ofAddend_cases hy <;> rw [ht]
  · exact right_decreasing ha hn (hdown (by omega))
      (ne_of_not_absorbs (.inr rfl) (by omega) hkept)
  · exact right_increasing ha hn (hup (by omega))
      (ne_of_not_absorbs (.inr rfl) (by omega) hkept)
  · exact right_unchanged ha hn (Int.le_antisymm (hdown (by omega)) (hup (by omega)))
  · exact right_unpredictable

/-- The direction of a number that is moved away from zero, or toward it. -/
theorem ofScaling_right {away toward : Bool} (hx : x.contains a = true) (hn : n.isNaN = false)
    (haway : away = true → Outward a n) (htoward : toward = true → Inward a n)
    (hne : away = true ∨ toward = true → RelOp.eq.fold (.number n) (.number a) ≠ .ok true) :
    (ofScaling x away toward).Right (some (.number a)) (.number n) := by
  have ha := (Interval.contains_iff_rank.1 hx).1.2.1
  have hpos := rank_pos_of_isPositive hx
  have hneg := rank_neg_of_isNegative hx
  unfold ofScaling
  split
  · rename_i h
    simp only [Bool.or_eq_true, Bool.and_eq_true] at h
    rcases h with ⟨h, hmove⟩ | ⟨h, hmove⟩
    · exact right_increasing ha hn ((haway hmove).1 (hpos h)) (hne (.inl hmove))
    · exact right_increasing ha hn ((htoward hmove).2 (hneg h)) (hne (.inr hmove))
  · split
    · rename_i h
      simp only [Bool.or_eq_true, Bool.and_eq_true] at h
      rcases h with ⟨h, hmove⟩ | ⟨h, hmove⟩
      · exact right_decreasing ha hn ((htoward hmove).1 (hpos h)) (hne (.inr hmove))
      · exact right_decreasing ha hn ((haway hmove).2 (hneg h)) (hne (.inl hmove))
    · exact right_unpredictable

theorem eq_one_of_isPoint (hy : y.contains d = true) (h : y.isPoint one = true) : d = one := by
  have hrank := rank_of_isPoint hy h
  have := rank_one_pos
  exact eq_of_rank hrank (by omega)

theorem ne_one_of_isBetween {low high : Double} (hy : y.contains d = true)
    (h : isBetween y low high = true) (hone : low.rank = one.rank ∨ high.rank = one.rank) :
    d.beq one = false := by
  have := rank_of_isBetween hy h
  rw [← Bool.not_eq_true, beq_iff]
  rintro ⟨-, -, heq⟩
  omega

/-- The direction of a product. -/
theorem ofFactor_mul_right (hx : x.contains a = true) (hy : y.contains d = true)
    (hn : (a.mul d).isNaN = false)
    (hkept : ¬ ArithOp.mul.Absorbs (.number a) (.number d) (.number (a.mul d))) :
    (ofFactor .mul x y).Right (some (.number a)) (.number (a.mul d)) := by
  have ha := (Interval.contains_iff_rank.1 hx).1.2.1
  have hd := (Interval.contains_iff_rank.1 hy).1.2.1
  unfold ofFactor
  dsimp only
  split
  · rename_i hpoint
    obtain rfl := eq_one_of_isPoint hy hpoint
    exact right_unchanged ha hn
      ((Interval.rank_mul_eq_mulBound ha hd hn).trans (rank_mulBound_one ha))
  · rw [if_pos rfl]
    refine ofScaling_right hx hn (fun h => ?_) (fun h => ?_) fun h heq => ?_
    · exact outward_mul ha hd hn (Int.le_of_lt (rank_of_isBetween hy h).1)
    · exact inward_mul ha hd hn (Int.le_of_lt (rank_of_isBetween hy h).2)
    · refine hkept ⟨?_, heq⟩
      rcases h with h | h
      · exact ne_one_of_isBetween hy h (.inl rfl)
      · exact ne_one_of_isBetween hy h (.inr rfl)

/-- The direction of a quotient. -/
theorem ofFactor_div_right (hx : x.contains a = true) (hy : y.contains d = true)
    (hn : (a.div d).isNaN = false)
    (hkept : ¬ ArithOp.div.Absorbs (.number a) (.number d) (.number (a.div d))) :
    (ofFactor .div x y).Right (some (.number a)) (.number (a.div d)) := by
  have ha := (Interval.contains_iff_rank.1 hx).1.2.1
  have hd := (Interval.contains_iff_rank.1 hy).1.2.1
  unfold ofFactor
  dsimp only
  split
  · rename_i hpoint
    obtain rfl := eq_one_of_isPoint hy hpoint
    exact right_unchanged ha hn ((rank_div_pos ha hd hn rank_one_pos).trans (quotientRank_one ha))
  · rw [if_neg (by decide)]
    refine ofScaling_right hx hn (fun h => ?_) (fun h => ?_) fun h heq => ?_
    · obtain ⟨hpos, hlt⟩ := rank_of_isBetween hy h
      exact outward_div ha hd hn (by rwa [rank_zero] at hpos) (Int.le_of_lt hlt)
    · exact inward_div ha hd hn (Int.le_of_lt (rank_of_isBetween hy h).1)
    · refine hkept ⟨?_, heq⟩
      rcases h with h | h
      · exact ne_one_of_isBetween hy h (.inr rfl)
      · exact ne_one_of_isBetween hy h (.inl rfl)

end Numbers

section Strings

variable {y : Interval TextBound} {s t u : String}

/-- The trend is found from the lower bound, and from whether there is another one. -/
theorem ofAppended_eq (hu : y.lo = .str u) :
    ofAppended y =
      if u = "" then (if y.isDeterminate then unchanged else unpredictable) else increasing := by
  unfold ofAppended Interval.point?
  rw [hu]
  by_cases h : u = "" <;> cases y.isDeterminate <;> simp [TextBound.str?, h]

/-- Which trend there is depends on whether the empty string is among the strings that may be
appended. -/
theorem ofAppended_cases (hy : y.contains (.str t) = true) :
    (ofAppended y = increasing ∧ y.contains (.str "") = false) ∨
      (ofAppended y = unchanged ∧ y.contains (.str "") = true ∧ t = "") ∨
      (ofAppended y = unpredictable ∧ y.contains (.str "") = true) := by
  obtain ⟨hlo, hhi⟩ := Interval.contains_iff.1 hy
  cases hu : y.lo with
  | top =>
      rw [hu] at hlo
      exact absurd (TextBound.top_le_iff.1 hlo) TextBound.noConfusion
  | str u =>
      rw [ofAppended_eq hu]
      by_cases hempty : u = ""
      · subst hempty
        have hmem : y.contains (.str "") = true :=
          hu ▸ Interval.contains_lo (Interval.isEmpty_of_contains hy)
        cases hdet : y.isDeterminate with
        | false => exact .inr (.inr ⟨rfl, hmem⟩)
        | true =>
            have heq : TextBound.str t = y.lo :=
              of_decide_eq_true (Interval.eq_of_isDeterminate hdet hy).1
            rw [hu] at heq
            exact .inr (.inl ⟨rfl, hmem, TextBound.str.inj heq⟩)
      · refine .inl ⟨if_neg hempty, Bool.eq_false_iff.2 fun hmem => hempty ?_⟩
        have hle : (TextBound.str u).le (.str "") = true := hu ▸ (Interval.contains_iff.1 hmem).1
        have hproper : Bound.le (TextBound.str u) (.str u) = true := TextBound.le_refl _
        have hge : (TextBound.str "").le (.str u) = true := LawfulBound.lowest_le hproper
        exact TextBound.str.inj (TextBound.le_antisymm hle hge)

/-- The direction of a string to which another is appended. -/
theorem ofAppended_right (hy : y.contains (.str t) = true) :
    (ofAppended y).Right (some (.string s)) (.string (s ++ t)) := by
  obtain ⟨h, hmem⟩ | ⟨h, -, rfl⟩ | ⟨h, -⟩ := ofAppended_cases hy <;> rw [h]
  · have ht : t ≠ "" := fun ht => Bool.eq_false_iff.1 hmem (ht ▸ hy)
    refine right_of_eq rfl ?_
    rw [fold_string]
    exact congrArg _ (Interval.lt_append s ht)
  · rw [String.append_empty]
    exact right_of_eq rfl (RelOp.fold_eq_self rfl)
  · exact right_unpredictable

end Strings

/-- **The direction of a step** is right for all values it was found from. -/
theorem ofStep_right {op : ArithOp} {v w : Value} (hv : v.contains l = true)
    (hw : w.contains m = true) (hfold : op.fold l m = .ok r) (hr : r.isNaN = false)
    (hkept : ¬ op.Absorbs l m r) : (ofStep op v w).Right (some l) r := by
  obtain ⟨x, a, rfl, rfl, ha⟩ | ⟨x, s, rfl, rfl, hs⟩ := Value.cases_of_contains hv <;>
    obtain ⟨y, d, rfl, rfl, hd⟩ | ⟨y, t, rfl, rfl, ht⟩ := Value.cases_of_contains hw
  · have han := Value.isNaN_of_contains hv
    cases op with
    | add =>
        cases hfold
        exact ofAddend_right han hd hr hkept
    | sub =>
        cases hfold
        exact ofSubtrahend_right han hd hr hkept
    | mul =>
        cases hfold
        exact ofFactor_mul_right ha hd hr hkept
    | div =>
        simp only [ArithOp.fold] at hfold
        split at hfold
        · exact absurd hfold (by simp)
        · cases hfold
          exact ofFactor_div_right ha hd hr hkept
    | mod => exact right_unpredictable
  · exact absurd hfold (by simp [ArithOp.fold])
  · exact absurd hfold (by simp [ArithOp.fold])
  · unfold ofStep
    dsimp only
    split
    · rename_i hop
      subst hop
      cases hfold
      exact ofAppended_right ht
    · exact right_unpredictable

end Trend
end Symbolic
end FlowVerifier
