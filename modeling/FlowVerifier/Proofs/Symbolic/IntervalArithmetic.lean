import FlowVerifier.Proofs.Double.Arithmetic
import FlowVerifier.Proofs.Symbolic.Intervals
import Mathlib.Order.Interval.Set.UnorderedInterval

/-!
# Arithmetic on intervals

The result of an operation on members is a member of the result on intervals, as
long as it is a number at all.  Sums are bounded by sums of bounds.  A product or
a quotient lies between those of the bounds, because it moves one way with each
operand; so the four combinations of bounds span all results.

* `contains_add`, `contains_sub`, `contains_mul`, `contains_div`, `contains_rem`:
  numbers.
* `contains_concat`: strings.
-/

namespace FlowVerifier
namespace Symbolic
namespace Interval

open Double

variable {a b : Interval Double} {x y : Double}

/-- Membership in terms of ranks. -/
theorem contains_iff_rank :
    a.contains x = true ↔ (a.lo.isNaN = false ∧ x.isNaN = false ∧ a.lo.rank ≤ x.rank) ∧
      a.hi.isNaN = false ∧ x.rank ≤ a.hi.rank := by
  rw [contains_iff]
  show a.lo.le x = true ∧ x.le a.hi = true ↔ _
  rw [le_iff, le_iff]
  constructor
  · rintro ⟨⟨h₁, h₂, h₃⟩, -, h₄, h₅⟩
    exact ⟨⟨h₁, h₂, h₃⟩, h₄, h₅⟩
  · rintro ⟨⟨h₁, h₂, h₃⟩, h₄, h₅⟩
    exact ⟨⟨h₁, h₂, h₃⟩, h₂, h₄, h₅⟩

theorem contains_full_number (hx : x.isNaN = false) : (full : Interval Double).contains x = true :=
  contains_full (Double.le_self hx)

/-! ## Sums and differences -/

/-- **Sums** of members are members of the sum. -/
theorem contains_add (ha : a.contains x = true) (hb : b.contains y = true)
    (hn : (x.add y).isNaN = false) : (a.add b).contains (x.add y) = true := by
  obtain ⟨⟨hal, hx, hlx⟩, hah, hxh⟩ := contains_iff_rank.1 ha
  obtain ⟨⟨hbl, hy, hly⟩, hbh, hyh⟩ := contains_iff_rank.1 hb
  unfold add
  rw [isEmpty_of_contains ha, isEmpty_of_contains hb, if_neg (by decide)]
  dsimp only
  split
  · exact contains_full_number hn
  · rename_i hnan
    rw [Bool.or_eq_true, not_or, Bool.not_eq_true, Bool.not_eq_true] at hnan
    exact contains_iff_rank.2 ⟨⟨hnan.1, hn, rank_add_le hal hbl hx hy hnan.1 hn hlx hly⟩, hnan.2,
      rank_add_le hx hy hah hbh hn hnan.2 hxh hyh⟩

theorem contains_neg (ha : a.contains x = true) : a.neg.contains x.neg = true := by
  obtain ⟨⟨hal, hx, hlx⟩, hah, hxh⟩ := contains_iff_rank.1 ha
  simp only [contains_iff_rank, neg, isNaN_neg, rank_neg]
  exact ⟨⟨hah, hx, Int.neg_le_neg hxh⟩, hal, Int.neg_le_neg hlx⟩

/-- **Differences** of members are members of the difference. -/
theorem contains_sub (ha : a.contains x = true) (hb : b.contains y = true)
    (hn : (x.sub y).isNaN = false) : (a.sub b).contains (x.sub y) = true :=
  contains_add ha (contains_neg hb) hn

/-! ## Hulls -/

/-- What is related to both of its arguments is related to all, if a list is folded. -/
theorem foldl_related {R : Double → Double → Prop} {f : Double → Double → Double} {c u : Double}
    {l : List Double} (hself : ∀ x, x.isNaN = false → R x x)
    (htrans : ∀ {x y z}, R x y → R y z → R x z)
    (hf : ∀ x y, x.isNaN = false → y.isNaN = false →
      (f x y).isNaN = false ∧ R (f x y) x ∧ R (f x y) y)
    (hu : u.isNaN = false) (hl : ∀ d ∈ l, d.isNaN = false) (hc : c ∈ u :: l) :
    R (l.foldl f u) c := by
  induction l generalizing u c with
  | nil =>
      obtain rfl : c = u := by simpa using hc
      exact hself c hu
  | cons d l ih =>
      obtain ⟨hnan, hleft, hright⟩ := hf u d hu (hl d (List.mem_cons_self ..))
      have hrest : ∀ e ∈ f u d :: l, R (l.foldl f (f u d)) e := fun e he =>
        ih hnan (fun e he => hl e (List.mem_cons_of_mem _ he)) he
      rcases List.mem_cons.1 hc with rfl | hc
      · exact htrans (hrest _ (List.mem_cons_self ..)) hleft
      · rcases List.mem_cons.1 hc with rfl | hc
        · exact htrans (hrest _ (List.mem_cons_self ..)) hright
        · exact hrest c (List.mem_cons_of_mem _ hc)

theorem foldl_lesser_le {c u : Double} {l : List Double} (hu : u.isNaN = false)
    (hl : ∀ d ∈ l, d.isNaN = false) (hc : c ∈ u :: l) : (l.foldl lesser u).le c = true := by
  refine foldl_related (R := fun x y => x.le y = true) (fun x => Double.le_self) Double.le_trans
    (fun x y hx hy => ?_) hu hl hc
  have hleft : (lesser x y).le x = true := lesser_le_left (u := x) (Double.le_self hx)
  exact ⟨(le_iff.1 hleft).1, hleft,
    lesser_le_right (u := x) (v := y) (Double.le_self hx) (Double.le_self hy)⟩

theorem le_foldl_greater {c u : Double} {l : List Double} (hu : u.isNaN = false)
    (hl : ∀ d ∈ l, d.isNaN = false) (hc : c ∈ u :: l) : c.le (l.foldl greater u) = true := by
  refine foldl_related (R := fun x y => y.le x = true) (fun x => Double.le_self)
    (fun h h' => Double.le_trans h' h) (fun x y hx hy => ?_) hu hl hc
  have hleft : x.le (greater x y) = true := le_greater_left (u := x) (Double.le_self hx)
  exact ⟨(le_iff.1 hleft).2.1, hleft,
    le_greater_right (u := x) (v := y) (Double.le_self hx) (Double.le_self hy)⟩

/-- A number between two candidates is in their hull. -/
theorem contains_hull {l : List Double} (hx : x.isNaN = false)
    (h : (∀ d ∈ l, d.isNaN = false) → (∃ c ∈ l, c.rank ≤ x.rank) ∧ ∃ d ∈ l, x.rank ≤ d.rank) :
    (hull l).contains x = true := by
  unfold hull
  split
  · exact contains_full_number hx
  · rename_i hany
    have hl : ∀ d ∈ l, d.isNaN = false := by
      intro d hd
      by_contra hnan
      exact hany (List.any_eq_true.2 ⟨d, hd, by simpa using hnan⟩)
    obtain ⟨⟨c, hc, hcx⟩, d, hd, hxd⟩ := h hl
    have hlow := foldl_lesser_le isNaN_infinity hl (List.mem_cons_of_mem _ hc)
    have hhigh := le_foldl_greater isNaN_negInfinity hl (List.mem_cons_of_mem _ hd)
    exact contains_iff.2
      ⟨Double.le_trans hlow (le_iff.2 ⟨hl c hc, hx, hcx⟩),
        Double.le_trans (le_iff.2 ⟨hx, hl d hd, hxd⟩) hhigh⟩

/-! ## Products -/

theorem mulBound_comm (x y : Double) : mulBound x y = mulBound y x := by
  rw [mulBound, mulBound, Bool.or_comm, Double.mul_comm]

theorem rank_mulBound_neg (hx : x.isNaN = false) (hy : y.isNaN = false) :
    (mulBound x y.neg).rank = -(mulBound x y).rank := by
  have hz : y.neg.isZero = y.isZero := by rw [isZero, magnitude_neg, isZero]
  have hi : y.neg.isInfinite = y.isInfinite := by rw [isInfinite, magnitude_neg, isInfinite]
  have hu : y.neg.absUnits = y.absUnits := by rw [absUnits_eq, magnitude_neg, absUnits_eq]
  unfold mulBound
  rw [hz]
  split
  · simp
  · rename_i hnz
    rw [Bool.or_eq_true, not_or, Bool.not_eq_true, Bool.not_eq_true] at hnz
    simp only [Double.mul, hx, hy, isNaN_neg, hi, hz, hu, hnz, isNegative_neg, Bool.or_self,
      Bool.false_eq_true, if_false]
    split
    · rw [rank_ofMagnitude_infinite, rank_ofMagnitude_infinite]
      cases x.isNegative <;> cases y.isNegative <;> simp
    · have hlt := Nat.lt_of_le_of_lt (roundUnits_le (x.absUnits * y.absUnits) unitsPerOne)
        (show infiniteMagnitude < signWeight by decide)
      rw [rank_ofMagnitude hlt, rank_ofMagnitude hlt]
      cases x.isNegative <;> cases y.isNegative <;> simp

/-- The product with a positive number. -/
theorem rank_mulBound_pos (hx : x.isNaN = false) (hy : y.isNaN = false) (hpos : 0 < y.rank) :
    (mulBound x y).rank =
      if y.isInfinite then x.rank.sign * infiniteMagnitude
      else if x.isInfinite then x.rank else roundInt (x.units * y.units) unitsPerOne := by
  have hyz : y.isZero = false := by
    rw [← Bool.not_eq_true, isZero_iff]
    omega
  have hyn := isNegative_of_rank_pos hpos
  unfold mulBound
  rw [hyz, Bool.or_false]
  cases hxz : x.isZero with
  | true =>
      have hr := isZero_iff.1 hxz
      have hxi : x.isInfinite = false := by
        rw [← Bool.not_eq_true, isInfinite_iff, hr]
        decide
      have hxu : x.units = 0 := by
        rw [isZero, beq_iff_eq] at hxz
        have := natAbs_units x
        rw [hxz, unitsOf_zero] at this
        omega
      simp [hr, hxi, hxu]
  | false =>
      have hr : x.rank ≠ 0 := fun h => by simp [isZero_iff.2 h] at hxz
      rw [if_neg (by decide)]
      by_cases hi : x.isInfinite = true ∨ y.isInfinite = true
      · rw [rank_mul_infinite hx hy hi hxz hyz, hyn]
        have hxinf := @isInfinite_iff x
        have hsign : (if x.isNegative = false then (infiniteMagnitude : Int)
            else -(infiniteMagnitude : Int)) = x.rank.sign * infiniteMagnitude := by
          rcases Int.lt_or_gt_of_ne hr with hneg | hp
          · rw [isNegative_of_rank_neg hneg, Int.sign_eq_neg_one_of_neg hneg]
            simp
          · rw [isNegative_of_rank_pos hp, Int.sign_eq_one_of_pos hp]
            simp
        rw [hsign]
        split
        · rfl
        · rename_i hyi
          have hxi := hi.resolve_right hyi
          rw [if_pos hxi]
          rcases hxinf.1 hxi with h | h
          · rw [h, Int.sign_eq_one_of_pos (by decide)]
            simp
          · rw [h, Int.sign_eq_neg_one_of_neg (by decide)]
            simp
      · rw [not_or, Bool.not_eq_true, Bool.not_eq_true] at hi
        rw [rank_mul_finite hx hy hi.1 hi.2]
        simp [hi.1, hi.2]

theorem rank_mulBound_le {z : Double} (hx : x.isNaN = false) (hz : z.isNaN = false)
    (hy : y.isNaN = false) (hpos : 0 < y.rank) (h : x.rank ≤ z.rank) :
    (mulBound x y).rank ≤ (mulBound z y).rank := by
  rw [rank_mulBound_pos hx hy hpos, rank_mulBound_pos hz hy hpos]
  have hbx := rank_bounds hx
  have hbz := rank_bounds hz
  split
  · have hs : x.rank.sign ≤ z.rank.sign := by
      rcases Int.lt_trichotomy x.rank 0 with hx0 | hx0 | hx0 <;>
        rcases Int.lt_trichotomy z.rank 0 with hz0 | hz0 | hz0 <;>
        simp only [hx0, hz0, Int.sign_eq_neg_one_of_neg, Int.sign_eq_one_of_pos, Int.sign_zero] <;>
        omega
    exact Int.mul_le_mul_of_nonneg_right hs (by decide)
  · rename_i hyf
    have hxi := @isInfinite_iff x
    have hzi := @isInfinite_iff z
    have hb₁ := roundInt_bounds (x.units * y.units) unitsPerOne
    have hb₂ := roundInt_bounds (z.units * y.units) unitsPerOne
    split
    · rename_i hx'
      split
      · exact h
      · rename_i hz'
        have := hxi.1 hx'
        have : ¬ (z.rank = infiniteMagnitude ∨ z.rank = -(infiniteMagnitude : Int)) :=
          fun hc => hz' (hzi.2 hc)
        omega
    · rename_i hx'
      have : ¬ (x.rank = infiniteMagnitude ∨ x.rank = -(infiniteMagnitude : Int)) :=
        fun hc => hx' (hxi.2 hc)
      split
      · rename_i hz'
        have := hzi.1 hz'
        omega
      · refine roundInt_mono unitsPerOne_pos
          (Int.mul_le_mul_of_nonneg_right (units_mono hx hz h) ?_)
        have := units_mono isNaN_zero hy (by rw [rank_zero]; omega)
        rwa [show Double.zero.units = 0 by decide] at this

/-- A product lies between those of the bounds of its first operand. -/
theorem between_mulBound {l h : Double} (hl : l.isNaN = false) (hh : h.isNaN = false)
    (hx : x.isNaN = false) (hy : y.isNaN = false) (hlx : l.rank ≤ x.rank)
    (hxh : x.rank ≤ h.rank) :
    (mulBound x y).rank ∈ Set.uIcc (mulBound l y).rank (mulBound h y).rank := by
  rw [Set.mem_uIcc]
  rcases Int.lt_trichotomy y.rank 0 with hneg | hzero | hpos
  · -- a negative factor turns the order around
    right
    have hpos : 0 < y.neg.rank := by
      rw [rank_neg]
      omega
    have hny : y.neg.isNaN = false := by rwa [isNaN_neg]
    have h₁ := rank_mulBound_le hl hx hny hpos hlx
    have h₂ := rank_mulBound_le hx hh hny hpos hxh
    rw [rank_mulBound_neg hl hy, rank_mulBound_neg hx hy] at h₁
    rw [rank_mulBound_neg hx hy, rank_mulBound_neg hh hy] at h₂
    omega
  · have hz : ∀ w : Double, mulBound w y = Double.zero := by
      intro w
      simp [mulBound, isZero_iff.2 hzero]
    simp [hz]
  · exact .inl ⟨rank_mulBound_le hl hx hy hpos hlx, rank_mulBound_le hx hh hy hpos hxh⟩

/-- What lies between the ends of a side lies between two corners. -/
theorem exists_le_of_mem_uIcc {u v w : Int} (h : w ∈ Set.uIcc u v) :
    (u ≤ w ∨ v ≤ w) ∧ (w ≤ u ∨ w ≤ v) := by
  rw [Set.mem_uIcc] at h
  omega

theorem rank_mul_eq_mulBound (hx : x.isNaN = false) (hy : y.isNaN = false)
    (hn : (x.mul y).isNaN = false) : (x.mul y).rank = (mulBound x y).rank := by
  unfold mulBound
  split
  · rename_i hz
    have hfin : x.isInfinite = false ∧ y.isInfinite = false := by
      by_contra hinf
      have hor : (x.isInfinite || y.isInfinite) = true := by
        by_contra hno
        rw [Bool.or_eq_true, not_or, Bool.not_eq_true, Bool.not_eq_true] at hno
        exact hinf hno
      simp only [Double.mul, hx, hy, hor, hz, Bool.or_self, Bool.false_eq_true, if_false,
        if_true] at hn
      exact absurd hn (by decide)
    rw [rank_mul_finite hx hy hfin.1 hfin.2, rank_zero]
    have hu : ∀ {w : Double}, w.isZero = true → w.units = 0 := by
      intro w hw
      rw [isZero, beq_iff_eq] at hw
      have := natAbs_units w
      rw [hw, unitsOf_zero] at this
      omega
    rcases Bool.or_eq_true .. ▸ hz with hz | hz <;> simp [hu hz]
  · rfl

/-- **Products** of members are members of the product. -/
theorem contains_mul (ha : a.contains x = true) (hb : b.contains y = true)
    (hn : (x.mul y).isNaN = false) : (a.mul b).contains (x.mul y) = true := by
  obtain ⟨⟨hal, hx, hlx⟩, hah, hxh⟩ := contains_iff_rank.1 ha
  obtain ⟨⟨hbl, hy, hly⟩, hbh, hyh⟩ := contains_iff_rank.1 hb
  unfold mul
  rw [isEmpty_of_contains ha, isEmpty_of_contains hb, if_neg (by decide)]
  refine contains_hull hn fun _ => ?_
  rw [rank_mul_eq_mulBound hx hy hn]
  have hside := exists_le_of_mem_uIcc (between_mulBound hal hah hx hy hlx hxh)
  have hlow := exists_le_of_mem_uIcc (between_mulBound hbl hbh hy hal hly hyh)
  have hhigh := exists_le_of_mem_uIcc (between_mulBound hbl hbh hy hah hly hyh)
  rw [mulBound_comm b.lo, mulBound_comm b.hi, mulBound_comm y] at hlow hhigh
  simp only [List.mem_cons, List.not_mem_nil, or_false, exists_eq_or_imp, exists_eq_left]
  omega

/-! ## Quotients -/

/-- A quotient lies between those by the bounds of the divisor. -/
theorem between_quotientRank {l h : Double} (hx : x.isNaN = false) (hl : l.isNaN = false)
    (hy : y.isNaN = false) (hh : h.isNaN = false) (hlz : l.isZero = false)
    (hyz : y.isZero = false) (hhz : h.isZero = false) (hlow : l.magnitude ≤ y.magnitude)
    (hhigh : y.magnitude ≤ h.magnitude) :
    quotientRank x y ∈ Set.uIcc (quotientRank x l) (quotientRank x h) := by
  rw [Set.mem_uIcc]
  rcases Int.le_total 0 x.rank with hpos | hneg
  · exact .inr ⟨quotientRank_le_right hx hy hh hyz hhz hpos hhigh,
      quotientRank_le_right hx hl hy hlz hyz hpos hlow⟩
  · left
    have hnx : x.neg.isNaN = false := by rwa [isNaN_neg]
    have hpos : 0 ≤ x.neg.rank := by
      rw [rank_neg]
      omega
    have h₁ := quotientRank_le_right hnx hy hh hyz hhz hpos hhigh
    have h₂ := quotientRank_le_right hnx hl hy hlz hyz hpos hlow
    rw [quotientRank_neg, quotientRank_neg] at h₁ h₂
    omega

/-- The members of an interval without zero have one sign. -/
theorem sign_of_containsZero (hz : b.containsZero = false) (hb : b.contains y = true) :
    (0 < b.lo.rank ∧ 0 < y.rank ∧ 0 < b.hi.rank) ∨
      (b.lo.rank < 0 ∧ y.rank < 0 ∧ b.hi.rank < 0) := by
  obtain ⟨⟨hbl, hy, hly⟩, hbh, hyh⟩ := contains_iff_rank.1 hb
  have hno : ¬ (b.lo.rank ≤ 0 ∧ 0 ≤ b.hi.rank) := by
    rintro ⟨hlo, hhi⟩
    have : b.contains Double.zero = true :=
      contains_iff_rank.2 ⟨⟨hbl, isNaN_zero, by rwa [rank_zero]⟩, hbh, by rwa [rank_zero]⟩
    rw [containsZero, this] at hz
    exact absurd hz (by decide)
  omega

/-- **Quotients** of members are members of the quotient. -/
theorem contains_div (ha : a.contains x = true) (hb : b.contains y = true)
    (hn : (x.div y).isNaN = false) : (a.div b).contains (x.div y) = true := by
  obtain ⟨⟨hal, hx, hlx⟩, hah, hxh⟩ := contains_iff_rank.1 ha
  obtain ⟨⟨hbl, hy, hly⟩, hbh, hyh⟩ := contains_iff_rank.1 hb
  unfold div
  rw [isEmpty_of_contains ha, isEmpty_of_contains hb, if_neg (by decide)]
  split
  · exact contains_full_number hn
  · rename_i hzero
    have hsign := sign_of_containsZero (by simpa using hzero) hb
    have hnz : ∀ {w : Double}, w.rank ≠ 0 → w.isZero = false := by
      intro w hw
      rw [← Bool.not_eq_true, isZero_iff]
      exact hw
    have hlz : b.lo.isZero = false := hnz (by omega)
    have hyz : y.isZero = false := hnz (by omega)
    have hhz : b.hi.isZero = false := hnz (by omega)
    refine contains_hull hn fun hc => ?_
    simp only [List.mem_cons, List.not_mem_nil, or_false, forall_eq_or_imp, forall_eq] at hc
    simp only [List.mem_cons, List.not_mem_nil, or_false, exists_eq_or_imp, exists_eq_left]
    rw [rank_div hx hy hyz hn, rank_div hal hbl hlz hc.1, rank_div hal hbh hhz hc.2.1,
      rank_div hah hbl hlz hc.2.2.1, rank_div hah hbh hhz hc.2.2.2]
    have hside : quotientRank a.lo y ≤ quotientRank x y ∧ quotientRank x y ≤ quotientRank a.hi y :=
      ⟨quotientRank_le_left hal hx hy hyz hlx, quotientRank_le_left hx hah hy hyz hxh⟩
    have hml := natAbs_rank b.lo
    have hmy := natAbs_rank y
    have hmh := natAbs_rank b.hi
    rcases hsign with ⟨hpl, hpy, hph⟩ | ⟨hpl, hpy, hph⟩
    · have hlow := exists_le_of_mem_uIcc (between_quotientRank hal hbl hy hbh hlz hyz hhz
        (by omega) (by omega))
      have hhigh := exists_le_of_mem_uIcc (between_quotientRank hah hbl hy hbh hlz hyz hhz
        (by omega) (by omega))
      simp only [isNegative_of_rank_pos hpl, isNegative_of_rank_pos hpy,
        isNegative_of_rank_pos hph, Bool.false_eq_true, if_false]
      omega
    · have hlow := exists_le_of_mem_uIcc (between_quotientRank hal hbh hy hbl hhz hyz hlz
        (by omega) (by omega))
      have hhigh := exists_le_of_mem_uIcc (between_quotientRank hah hbh hy hbl hhz hyz hlz
        (by omega) (by omega))
      simp only [isNegative_of_rank_neg hpl, isNegative_of_rank_neg hpy,
        isNegative_of_rank_neg hph, if_true]
      omega

/-! ## Remainders -/

/-- A remainder lies between zero and the dividend, and is no larger than the divisor. -/
theorem rem_between (hn : (x.rem y).isNaN = false) :
    (0 ≤ x.rank → 0 ≤ (x.rem y).rank ∧ (x.rem y).rank ≤ x.rank ∧
      (x.rem y).rank ≤ y.magnitude) ∧
    (x.rank ≤ 0 → (x.rem y).rank ≤ 0 ∧ x.rank ≤ (x.rem y).rank ∧
      -(y.magnitude : Int) ≤ (x.rem y).rank) := by
  have hnan := hn
  rw [isNaN_rem] at hnan
  simp only [Bool.or_eq_false_iff] at hnan
  obtain ⟨hma, hmb⟩ := remMagnitude_le hnan.1.1.1 hnan.1.1.2 hnan.2
  have hmx := natAbs_rank x
  rw [rank_rem hn]
  constructor
  · intro h
    rw [if_neg (by omega)]
    omega
  · intro h
    split <;> omega

/-- A remainder depends on the ranks of its operands alone. -/
theorem rank_rem_congr {x' y' : Double} (hx : x.isNaN = false) (hy : y.isNaN = false)
    (hrx : x'.rank = x.rank) (hry : y'.rank = y.rank) (hn : (x'.rem y').isNaN = false) :
    (x.rem y).isNaN = false ∧ (x.rem y).rank = (x'.rem y').rank := by
  have hmx : x.magnitude = x'.magnitude := by rw [← natAbs_rank, ← natAbs_rank, hrx]
  have hmy : y.magnitude = y'.magnitude := by rw [← natAbs_rank, ← natAbs_rank, hry]
  have hnan : (x.rem y).isNaN = false := by
    rw [isNaN_rem] at hn ⊢
    simp only [Bool.or_eq_false_iff, isInfinite, isZero] at hn ⊢
    rw [hmx, hmy]
    exact ⟨⟨⟨hx, hy⟩, hn.1.2⟩, hn.2⟩
  refine ⟨hnan, ?_⟩
  rw [rank_rem hnan, rank_rem hn, hmx, hmy, hrx]

theorem rank_lesser {u v : Double} (hu : u.isNaN = false) (hv : v.isNaN = false) :
    (lesser u v).isNaN = false ∧ (lesser u v).rank = min u.rank v.rank := by
  unfold lesser
  split
  · rename_i h
    exact ⟨hv, (min_eq_right (lt_iff.1 h).2.2.le).symm⟩
  · rename_i h
    exact ⟨hu, (min_eq_left (not_lt.1 fun hlt => h (lt_iff.2 ⟨hv, hu, hlt⟩))).symm⟩

theorem rank_greater {u v : Double} (hu : u.isNaN = false) (hv : v.isNaN = false) :
    (greater u v).isNaN = false ∧ (greater u v).rank = max u.rank v.rank := by
  unfold greater
  split
  · rename_i h
    exact ⟨hv, (max_eq_right (lt_iff.1 h).2.2.le).symm⟩
  · rename_i h
    exact ⟨hu, (max_eq_left (not_lt.1 fun hlt => h (lt_iff.2 ⟨hu, hv, hlt⟩))).symm⟩

/-- No member is larger, in absolute value, than both bounds. -/
theorem magnitude_le_greater (hb : b.contains y = true) :
    (greater b.lo.abs b.hi.abs).isNaN = false ∧
      (y.magnitude : Int) ≤ (greater b.lo.abs b.hi.abs).rank := by
  obtain ⟨⟨hbl, hy, hly⟩, hbh, hyh⟩ := contains_iff_rank.1 hb
  obtain ⟨hnan, hrank⟩ := rank_greater (u := b.lo.abs) (v := b.hi.abs)
    ((isNaN_abs _).trans hbl) ((isNaN_abs _).trans hbh)
  refine ⟨hnan, ?_⟩
  have hml := natAbs_rank b.lo
  have hmy := natAbs_rank y
  have hmh := natAbs_rank b.hi
  rw [hrank, rank_abs, rank_abs]
  omega

/-- **Remainders** of members are members of the remainder. -/
theorem contains_rem (ha : a.contains x = true) (hb : b.contains y = true)
    (hn : (x.rem y).isNaN = false) : (a.rem b).contains (x.rem y) = true := by
  obtain ⟨⟨hal, hx, hlx⟩, hah, hxh⟩ := contains_iff_rank.1 ha
  obtain ⟨⟨hbl, hy, hly⟩, hbh, hyh⟩ := contains_iff_rank.1 hb
  unfold rem
  rw [isEmpty_of_contains ha, isEmpty_of_contains hb, if_neg (by decide)]
  split
  · -- both operands are known
    rename_i hd
    simp only [Bool.and_eq_true] at hd
    have hxl : x.rank = a.lo.rank := (beq_iff.1 (eq_of_isDeterminate hd.1.1 ha).1).2.2
    have hyl : y.rank = b.lo.rank := (beq_iff.1 (eq_of_isDeterminate hd.1.2 hb).1).2.2
    obtain ⟨hnl, hrank⟩ := rank_rem_congr hal hbl hxl hyl hn
    exact contains_iff_rank.2 ⟨⟨hnl, hn, hrank.le⟩, hnl, hrank.ge⟩
  · dsimp only
    -- the largest divisor bounds the remainder
    obtain ⟨hmn, hm⟩ := magnitude_le_greater hb
    generalize greater b.lo.abs b.hi.abs = m at hmn hm ⊢
    obtain ⟨hup, hdown⟩ := rem_between hn
    obtain ⟨hhn, hhi⟩ := rank_lesser hah hmn
    obtain ⟨hln, hlo⟩ := rank_greater hal ((isNaN_neg m).trans hmn)
    rw [rank_neg] at hlo
    have hpos : Double.zero.le a.lo = true ↔ 0 ≤ a.lo.rank := by
      simp [le_iff, rank_zero, isNaN_zero, hal]
    have hneg : a.hi.le Double.zero = true ↔ a.hi.rank ≤ 0 := by
      simp [le_iff, rank_zero, isNaN_zero, hah]
    simp only [hpos, hneg]
    split
    · refine contains_iff_rank.2 ⟨⟨isNaN_zero, hn, ?_⟩, hhn, ?_⟩
      · rw [rank_zero]
        omega
      · dsimp only
        omega
    · split
      · refine contains_iff_rank.2 ⟨⟨hln, hn, ?_⟩, isNaN_zero, ?_⟩
        · dsimp only
          omega
        · rw [rank_zero]
          omega
      · refine contains_iff_rank.2 ⟨⟨hln, hn, ?_⟩, hhn, ?_⟩
        · dsimp only
          omega
        · dsimp only
          omega

/-! ## Strings -/

theorem le_append (s t : String) : (TextBound.str s).le (.str (s ++ t)) = true := by
  have hle : ∀ (l k : List Char), ¬ l ++ k < l := by
    intro l k
    induction l with
    | nil => exact List.not_lt_nil _
    | cons c l ih =>
        rw [List.cons_append, List.cons_lt_cons_iff]
        rintro (h | ⟨-, h⟩)
        · exact Char.lt_irrefl c h
        · exact ih h
  have h : ¬ s ++ t < s := by
    show ¬ (s ++ t).toList < s.toList
    rw [String.toList_append]
    exact hle _ _
  simp [TextBound.le, TextBound.lt, h]

/-- A string is below itself with something behind. -/
theorem lt_append {t : String} (s : String) (ht : t ≠ "") :
    Bound.lt (TextBound.str s) (.str (s ++ t)) = true := by
  have hproper : ∀ b : TextBound, Bound.le b b = true := TextBound.le_refl
  refine LawfulBound.lt_iff.2 ⟨hproper _, hproper _, Bool.eq_false_iff.2 fun hge => ht ?_⟩
  have heq := TextBound.le_antisymm hge (le_append s t)
  simpa using TextBound.str.inj heq

/-- **Concatenations** of members are members of the concatenation. -/
theorem contains_concat {a b : Interval TextBound} {s t : String}
    (ha : a.contains (.str s) = true) (hb : b.contains (.str t) = true) :
    (a.concat b).contains (.str (s ++ t)) = true := by
  unfold concat
  rw [isEmpty_of_contains ha, isEmpty_of_contains hb, if_neg (by decide)]
  split
  · -- both strings are known
    rename_i s' t' hs ht
    obtain ⟨hda, hsl⟩ := point?_eq_some hs
    obtain ⟨hdb, htl⟩ := point?_eq_some ht
    have h₁ := (eq_of_isDeterminate hda ha).1
    have h₂ := (eq_of_isDeterminate hdb hb).1
    rw [hsl] at h₁
    rw [htl] at h₂
    obtain rfl : s = s' := TextBound.str.inj (of_decide_eq_true h₁)
    obtain rfl : t = t' := TextBound.str.inj (of_decide_eq_true h₂)
    exact contains_point (TextBound.le_refl _)
  · exact contains_iff.2 ⟨LawfulBound.trans (contains_iff.1 ha).1 (le_append s t),
      LawfulBound.le_highest (TextBound.le_refl _)⟩

/-! ## Indices -/

theorem saturate_mono {m n : Int} (h : m ≤ n) : saturate m ≤ saturate n := by
  unfold saturate
  omega

theorem saturate_bounds (n : Int) : minIndex ≤ saturate n ∧ saturate n ≤ maxIndex := by
  unfold saturate minIndex maxIndex
  omega

theorem saturate_eq {n : Int} (h₁ : minIndex ≤ n) (h₂ : n ≤ maxIndex) : saturate n = n := by
  unfold saturate
  omega

/-- The index of a bound is monotone if whole numbers are taken monotonously. -/
theorem index_mono {round : Double → Int} {x y : Double}
    (hround : x.isNaN = false → y.isNaN = false → x.rank ≤ y.rank → round x ≤ round y)
    (hx : x.isNaN = false) (hy : y.isNaN = false) (h : x.rank ≤ y.rank) :
    (if x.isInfinite then (if x.isNegative then minIndex else maxIndex)
      else saturate (round x)) ≤
      if y.isInfinite then (if y.isNegative then minIndex else maxIndex)
      else saturate (round y) := by
  have hbx := rank_bounds hx
  have hby := rank_bounds hy
  have hpos : (0 : Int) < infiniteMagnitude := by decide
  have hle : minIndex ≤ maxIndex := by decide
  have hrank : ∀ z : Double, z.isInfinite = true → z.rank =
      if z.isNegative then -(infiniteMagnitude : Int) else infiniteMagnitude := by
    intro z hz
    rw [isInfinite, beq_iff_eq] at hz
    rw [rank, hz]
  cases hix : x.isInfinite with
  | true =>
      have hrx := hrank x hix
      cases hiy : y.isInfinite with
      | true =>
          have hry := hrank y hiy
          cases hnx : x.isNegative <;> cases hny : y.isNegative <;>
            simp only [hnx, hny, if_true, if_false, Bool.false_eq_true] at hrx hry ⊢ <;> omega
      | false =>
          cases hnx : x.isNegative with
          | true => simpa using (saturate_bounds _).1
          | false =>
              -- nothing finite is above infinity
              rw [hnx, if_neg Bool.false_ne_true] at hrx
              exact absurd (isInfinite_iff.2 (by omega)) (Bool.eq_false_iff.1 hiy)
  | false =>
      cases hiy : y.isInfinite with
      | false => simpa using saturate_mono (hround hx hy h)
      | true =>
          have hry := hrank y hiy
          cases hny : y.isNegative with
          | false => simpa using (saturate_bounds _).2
          | true =>
              rw [hny, if_pos rfl] at hry
              exact absurd (isInfinite_iff.2 (by omega)) (Bool.eq_false_iff.1 hix)

theorem lastIndex_mono {y : Double} (hx : x.isNaN = false) (hy : y.isNaN = false)
    (h : x.rank ≤ y.rank) : lastIndex x ≤ lastIndex y := index_mono floor_mono hx hy h

theorem firstIndex_mono {y : Double} (hx : x.isNaN = false) (hy : y.isNaN = false)
    (h : x.rank ≤ y.rank) : firstIndex x ≤ firstIndex y := index_mono ceil_mono hx hy h

/-- The last index is not below a whole number that is not above the bound. -/
theorem saturate_le_lastIndex {h : Double} (hx : x.isNaN = false) (hh : h.isNaN = false)
    (hfin : x.isInfinite = false) (hxh : x.rank ≤ h.rank) :
    saturate x.floor ≤ lastIndex h := by
  have hle := lastIndex_mono hx hh hxh
  rwa [lastIndex, hfin, if_neg Bool.false_ne_true] at hle

/-- The first index is not above a whole number that is not below the bound. -/
theorem firstIndex_le_saturate {l : Double} (hx : x.isNaN = false) (hl : l.isNaN = false)
    (hfin : x.isInfinite = false) (hlx : l.rank ≤ x.rank) :
    firstIndex l ≤ saturate x.ceil := by
  have hle := firstIndex_mono hl hx hlx
  rwa [firstIndex.eq_def x, hfin, if_neg Bool.false_ne_true] at hle

theorem lastIndex_le (h : Double) : lastIndex h ≤ maxIndex := by
  unfold lastIndex
  split
  · split
    · decide
    · exact Int.le_refl _
  · exact (saturate_bounds _).2

/-- **Index ranges.**  The integers of an interval lie in its range. -/
theorem integerRange_of_contains (ha : a.contains x = true) (hfin : x.isInfinite = false)
    (hw : x.ceil = x.floor) :
    ∃ least greatest, a.integerRange = some (least, greatest) ∧
      least ≤ saturate x.floor ∧ saturate x.floor ≤ greatest := by
  obtain ⟨⟨hal, hx, hlx⟩, hah, hxh⟩ := contains_iff_rank.1 ha
  refine ⟨firstIndex a.lo, lastIndex a.hi, ?_, ?_, saturate_le_lastIndex hx hah hfin hxh⟩
  · unfold integerRange
    rw [isEmpty_of_contains ha, if_neg (by decide), if_pos]
    have hle : a.lo.ceil ≤ a.hi.floor := by
      have h₁ := ceil_mono hal hx hlx
      have h₂ := floor_mono hx hah hxh
      omega
    simp [hle]
  · rw [← hw]
    exact firstIndex_le_saturate hx hal hfin hlx

end Interval
end Symbolic
end FlowVerifier
