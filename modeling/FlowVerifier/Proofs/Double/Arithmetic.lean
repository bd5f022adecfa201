import FlowVerifier.Proofs.Double.Rounding

/-!
# Arithmetic of double precision numbers and order

Every operation is the rounding of an exact one, so it moves with its operands:
sums grow with both of them, products and quotients with one of them as the sign
of the other says, and a remainder is smaller than both.

* `rank_add_le`: a sum grows with its operands.
* `rank_mul_finite`, `rank_div_finite` and their companions: products and quotients
  as rounded results.
* `rank_rem`: a remainder takes its sign from the dividend.
* `floor_mono`, `ceil_mono` and `rank_ofInt_floor`: whole numbers.
-/

namespace FlowVerifier
namespace Double

variable {a b c d x y l h : Double}

/-! ## Rounded results -/

@[simp]
theorem roundUnits_zero (den : Nat) : roundUnits 0 den = 0 := by
  have hnear : ∀ d, nearestWhole 0 d = 0 := by
    intro d
    rcases Nat.eq_zero_or_pos d with rfl | hd
    · rfl
    · simp [nearestWhole, hd]
  simp [roundUnits, hnear]

@[simp]
theorem roundInt_zero (den : Nat) : roundInt 0 den = 0 := by
  simp [roundInt]

/-- A magnitude with a sign as a rounded result. -/
theorem rank_ofMagnitude_roundUnits (negative : Bool) (num den : Nat) :
    (ofMagnitude negative (roundUnits num den)).rank =
      roundInt (if negative then -(num : Int) else num) den := by
  have hlt : roundUnits num den < signWeight :=
    Nat.lt_of_le_of_lt (roundUnits_le num den) (by decide)
  rw [rank_ofMagnitude hlt]
  rcases Nat.eq_zero_or_pos num with rfl | hpos
  · simp
  · unfold roundInt
    cases negative with
    | false =>
        simp only [Bool.false_eq_true, if_false, Int.natAbs_natCast]
        rw [if_neg (by omega)]
    | true =>
        simp only [if_true, Int.natAbs_neg, Int.natAbs_natCast]
        rw [if_pos (by omega)]

theorem isNaN_ofMagnitude_roundUnits (negative : Bool) (num den : Nat) :
    (ofMagnitude negative (roundUnits num den)).isNaN = false :=
  isNaN_ofMagnitude (roundUnits_le num den)

theorem rank_ofUnits (zeroSign : Bool) (u : Int) : (ofUnits zeroSign u).rank = roundInt u 1 := by
  unfold ofUnits
  split
  · rename_i hu
    rw [hu, roundInt_zero, rank_ofMagnitude (by decide)]
    simp
  · rw [rank_ofMagnitude_roundUnits]
    congr 1
    simp only [decide_eq_true_eq]
    split <;> omega

theorem isNaN_ofUnits (zeroSign : Bool) (u : Int) : (ofUnits zeroSign u).isNaN = false := by
  unfold ofUnits
  split
  · exact isNaN_ofMagnitude (Nat.zero_le _)
  · exact isNaN_ofMagnitude_roundUnits _ _ _

/-- The rank of an infinity. -/
theorem rank_ofMagnitude_infinite (negative : Bool) :
    (ofMagnitude negative infiniteMagnitude).rank =
      if negative then -(infiniteMagnitude : Int) else infiniteMagnitude :=
  rank_ofMagnitude (by decide)

/-! ## Sums -/

/-- The sum of finite numbers. -/
theorem rank_add_finite (ha : a.isNaN = false) (hb : b.isNaN = false)
    (haf : a.isInfinite = false) (hbf : b.isInfinite = false) :
    (a.add b).rank = roundInt (a.units + b.units) 1 := by
  simp only [add, ha, hb, haf, hbf, Bool.or_self, Bool.false_eq_true, if_false]
  exact rank_ofUnits _ _

/-- A sum with an infinity is that infinity. -/
theorem rank_add_infinite (hs : (a.add b).isNaN = false)
    (hi : a.isInfinite = true ∨ b.isInfinite = true) :
    (a.isInfinite = true → (a.add b).rank = a.rank) ∧
      (b.isInfinite = true → (a.add b).rank = b.rank) := by
  unfold add at hs ⊢
  split at hs
  · exact absurd hs (by decide)
  · rename_i hnan
    rw [if_neg hnan]
    split at hs
    · rename_i hai
      rw [if_pos hai]
      split at hs
      · exact absurd hs (by decide)
      · rename_i hsame
        rw [if_neg hsame]
        refine ⟨fun _ => rfl, fun hbi => ?_⟩
        -- both are infinite, and of one sign
        rw [hbi, Bool.true_and, bne_iff_ne, ne_eq, not_not] at hsame
        rw [isInfinite, beq_iff_eq] at hai hbi
        rw [rank, rank, hsame, hai, hbi]
    · rename_i hai
      rw [if_neg hai]
      have hbi : b.isInfinite = true := hi.resolve_left hai
      rw [if_pos hbi]
      exact ⟨fun h => absurd h hai, fun _ => rfl⟩

/-- **A sum grows** with its operands. -/
theorem rank_add_le (ha : a.isNaN = false) (hb : b.isNaN = false) (hc : c.isNaN = false)
    (hd : d.isNaN = false) (hab : (a.add b).isNaN = false) (hcd : (c.add d).isNaN = false)
    (h₁ : a.rank ≤ c.rank) (h₂ : b.rank ≤ d.rank) : (a.add b).rank ≤ (c.add d).rank := by
  have bab := rank_bounds hab
  have bcd := rank_bounds hcd
  have ba := rank_bounds ha
  have bb := rank_bounds hb
  have bc := rank_bounds hc
  have bd := rank_bounds hd
  by_cases hfin : (a.isInfinite = false ∧ b.isInfinite = false) ∧
      c.isInfinite = false ∧ d.isInfinite = false
  · obtain ⟨⟨haf, hbf⟩, hcf, hdf⟩ := hfin
    rw [rank_add_finite ha hb haf hbf, rank_add_finite hc hd hcf hdf]
    exact roundInt_mono one_pos
      (Int.add_le_add (units_mono ha hc h₁) (units_mono hb hd h₂))
  · -- an infinity is at the bottom on the left, or at the top on the right
    have hia := @isInfinite_iff a
    have hib := @isInfinite_iff b
    have hic := @isInfinite_iff c
    have hid := @isInfinite_iff d
    by_cases hl : a.isInfinite = true ∨ b.isInfinite = true
    · have hs := rank_add_infinite hab hl
      by_cases hr : c.isInfinite = true ∨ d.isInfinite = true
      · have ht := rank_add_infinite hcd hr
        rcases hl with hl | hl <;> rcases hr with hr | hr <;>
          simp only [hl, hr, true_iff, true_implies, hia, hib, hic, hid]
            at hs ht hia hib hic hid <;>
          omega
      · rw [not_or, Bool.not_eq_true, Bool.not_eq_true] at hr
        rw [hr.1] at hic
        rw [hr.2] at hid
        simp only [Bool.false_eq_true, false_iff] at hic hid
        rcases hl with hl | hl
        · have := hs.1 hl
          have := hia.1 hl
          omega
        · have := hs.2 hl
          have := hib.1 hl
          omega
    · rw [not_or, Bool.not_eq_true, Bool.not_eq_true] at hl
      have hr : c.isInfinite = true ∨ d.isInfinite = true := by
        by_contra hr
        rw [not_or, Bool.not_eq_true, Bool.not_eq_true] at hr
        exact hfin ⟨hl, hr⟩
      have ht := rank_add_infinite hcd hr
      rw [hl.1] at hia
      rw [hl.2] at hib
      simp only [Bool.false_eq_true, false_iff] at hia hib
      rcases hr with hr | hr
      · have := ht.1 hr
        have := hic.1 hr
        omega
      · have := ht.2 hr
        have := hid.1 hr
        omega

/-- The order of the summands does not matter. -/
theorem add_comm (a b : Double) : a.add b = b.add a := by
  unfold add
  rw [Bool.or_comm b.isNaN]
  split
  · rfl
  · cases ha : a.isInfinite <;> cases hb : b.isInfinite <;>
      simp only [Bool.false_eq_true, if_false, if_true, Bool.true_and, Bool.false_and]
    · rw [Int.add_comm, Bool.and_comm]
    · rw [bne_comm]
      split
      · rfl
      · -- both are infinite, and of one sign
        rename_i hsame
        rw [isInfinite, beq_iff_eq] at ha hb
        rw [bne_iff_ne, ne_eq, not_not] at hsame
        exact eq_of_magnitude hsame.symm (ha.trans hb.symm)

/-! ## Products -/

/-- The order of the factors does not matter. -/
theorem mul_comm (a b : Double) : a.mul b = b.mul a := by
  unfold mul
  simp only [Bool.or_comm a.isNaN, Bool.or_comm a.isInfinite, Bool.or_comm a.isZero,
    Nat.mul_comm a.absUnits]
  cases a.isNegative <;> cases b.isNegative <;> rfl

/-- The product of finite numbers. -/
theorem rank_mul_finite (ha : a.isNaN = false) (hb : b.isNaN = false)
    (haf : a.isInfinite = false) (hbf : b.isInfinite = false) :
    (a.mul b).rank = roundInt (a.units * b.units) unitsPerOne := by
  simp only [mul, ha, hb, haf, hbf, Bool.or_self, Bool.false_eq_true, if_false]
  rw [rank_ofMagnitude_roundUnits]
  congr 1
  unfold units
  cases a.isNegative <;> cases b.isNegative <;> simp

/-- The product of numbers that are not zero, one of them infinite. -/
theorem rank_mul_infinite (ha : a.isNaN = false) (hb : b.isNaN = false)
    (hi : a.isInfinite = true ∨ b.isInfinite = true) (haz : a.isZero = false)
    (hbz : b.isZero = false) :
    (a.mul b).rank =
      if a.isNegative = b.isNegative then (infiniteMagnitude : Int)
      else -(infiniteMagnitude : Int) := by
  have hor : (a.isInfinite || b.isInfinite) = true := by simpa using hi
  simp only [mul, ha, hb, hor, haz, hbz, Bool.or_self, Bool.false_eq_true, if_false, if_true]
  rw [rank_ofMagnitude_infinite]
  cases a.isNegative <;> cases b.isNegative <;> simp

/-! ## Quotients -/

theorem unitsPerOne_pos : 0 < unitsPerOne := by
  rw [unitsPerOne, Nat.shiftLeft_eq]
  positivity

theorem absUnits_pos (ha : a.isNaN = false) (haz : a.isZero = false) : 0 < a.absUnits := by
  rw [absUnits_eq]
  refine unitsOf_pos (magnitude_le_of_not_isNaN ha) (Nat.pos_of_ne_zero fun h => ?_)
  simp [isZero, h] at haz

/-- The quotient of finite numbers. -/
theorem rank_div_finite (ha : a.isNaN = false) (hb : b.isNaN = false)
    (haf : a.isInfinite = false) (hbf : b.isInfinite = false) (hbz : b.isZero = false) :
    (a.div b).rank =
      roundInt (if b.isNegative then -(a.units * unitsPerOne) else a.units * unitsPerOne)
        b.absUnits := by
  simp only [div, ha, hb, haf, hbf, hbz, Bool.or_self, Bool.false_eq_true, if_false]
  rw [rank_ofMagnitude_roundUnits]
  congr 1
  unfold units
  cases a.isNegative <;> cases b.isNegative <;> simp

/-- The quotient of an infinity by a finite number. -/
theorem rank_div_infinite (ha : a.isNaN = false) (hb : b.isNaN = false)
    (hai : a.isInfinite = true) (hbf : b.isInfinite = false) :
    (a.div b).rank = if b.isNegative then -a.rank else a.rank := by
  simp only [div, ha, hb, hai, hbf, Bool.or_self, Bool.false_eq_true, if_false, if_true]
  rw [rank_ofMagnitude_infinite, rank]
  rw [isInfinite, beq_iff_eq] at hai
  rw [hai]
  cases a.isNegative <;> cases b.isNegative <;> simp

/-- The quotient of a finite number by an infinity. -/
theorem rank_div_by_infinite (ha : a.isNaN = false) (hb : b.isNaN = false)
    (haf : a.isInfinite = false) (hbi : b.isInfinite = true) : (a.div b).rank = 0 := by
  simp only [div, ha, hb, haf, hbi, Bool.or_self, Bool.false_eq_true, if_false, if_true]
  rw [rank_ofMagnitude (by decide)]
  simp

theorem roundInt_neg (u : Int) (den : Nat) : roundInt (-u) den = -roundInt u den := by
  rcases Int.lt_trichotomy u 0 with h | rfl | h
  · rw [roundInt, roundInt, if_neg (by omega), if_pos h, Int.natAbs_neg, Int.neg_neg]
  · simp
  · rw [roundInt, roundInt, if_pos (by omega), if_neg (by omega), Int.natAbs_neg]

/-- Infinities have no quotient. -/
theorem isNaN_div_infinite (hai : a.isInfinite = true) (hbi : b.isInfinite = true) :
    (a.div b).isNaN = true := by
  have hnan : nan.isNaN = true := by decide
  simp [div, hai, hbi, hnan]

/-- The rank of the quotient by the absolute value of a number. -/
def quotientRank (a b : Double) : Int :=
  if b.isInfinite then 0
  else if a.isInfinite then a.rank
  else roundInt (a.units * unitsPerOne) b.absUnits

/-- The rank of a quotient that is a number. -/
theorem rank_div (ha : a.isNaN = false) (hb : b.isNaN = false) (hbz : b.isZero = false)
    (hn : (a.div b).isNaN = false) :
    (a.div b).rank = if b.isNegative then -quotientRank a b else quotientRank a b := by
  unfold quotientRank
  cases hbi : b.isInfinite with
  | true =>
      have haf : a.isInfinite = false := by
        by_contra hai
        rw [isNaN_div_infinite (by simpa using hai) hbi] at hn
        exact absurd hn (by decide)
      rw [rank_div_by_infinite ha hb haf hbi]
      simp
  | false =>
      cases hai : a.isInfinite with
      | true =>
          rw [rank_div_infinite ha hb hai hbi]
          simp
      | false =>
          rw [rank_div_finite ha hb hai hbi hbz]
          cases b.isNegative <;> simp [roundInt_neg]

/-- A quotient grows with the dividend. -/
theorem quotientRank_le_left (ha : a.isNaN = false) (hc : c.isNaN = false) (hb : b.isNaN = false)
    (hbz : b.isZero = false) (h : a.rank ≤ c.rank) : quotientRank a b ≤ quotientRank c b := by
  have hba := rank_bounds ha
  have hbc := rank_bounds hc
  have hia := @isInfinite_iff a
  have hic := @isInfinite_iff c
  have hra := roundInt_bounds (a.units * unitsPerOne) b.absUnits
  have hrc := roundInt_bounds (c.units * unitsPerOne) b.absUnits
  unfold quotientRank
  split
  · exact Int.le_refl _
  · split
    · rename_i hai
      split
      · exact h
      · rename_i hci
        have := hia.1 hai
        have : ¬ (c.rank = infiniteMagnitude ∨ c.rank = -(infiniteMagnitude : Int)) :=
          fun hinf => hci (hic.2 hinf)
        omega
    · rename_i hai
      have : ¬ (a.rank = infiniteMagnitude ∨ a.rank = -(infiniteMagnitude : Int)) :=
        fun hinf => hai (hia.2 hinf)
      split
      · rename_i hci
        have := hic.1 hci
        omega
      · exact roundInt_mono (absUnits_pos hb hbz)
          (Int.mul_le_mul_of_nonneg_right (units_mono ha hc h) (Int.natCast_nonneg _))

theorem units_nonneg (ha : a.isNaN = false) (h : 0 ≤ a.rank) : 0 ≤ a.units := by
  have := units_mono isNaN_zero ha (by rwa [rank_zero])
  rwa [show zero.units = 0 by decide] at this

theorem quotientRank_nonneg (ha : a.isNaN = false) (hb : b.isNaN = false)
    (hbz : b.isZero = false) (h : 0 ≤ a.rank) : 0 ≤ quotientRank a b := by
  unfold quotientRank
  split
  · exact Int.le_refl _
  · split
    · exact h
    · have := roundInt_mono (absUnits_pos hb hbz)
        (Int.mul_nonneg (units_nonneg ha h) (Int.natCast_nonneg unitsPerOne))
      rwa [roundInt_zero] at this

/-- The quotient of a number that is not negative shrinks with the divisor. -/
theorem quotientRank_le_right (ha : a.isNaN = false) (hb : b.isNaN = false)
    (hc : c.isNaN = false) (hbz : b.isZero = false) (hcz : c.isZero = false) (hpos : 0 ≤ a.rank)
    (h : b.magnitude ≤ c.magnitude) : quotientRank a c ≤ quotientRank a b := by
  have hmb := magnitude_le_of_not_isNaN hb
  have hmc := magnitude_le_of_not_isNaN hc
  by_cases hci : c.isInfinite = true
  · have hzero : quotientRank a c = 0 := by simp [quotientRank, hci]
    rw [hzero]
    exact quotientRank_nonneg ha hb hbz hpos
  · have hbi : b.isInfinite = false := by
      rw [isInfinite, beq_iff_eq] at hci
      rw [← Bool.not_eq_true, isInfinite, beq_iff_eq]
      omega
    unfold quotientRank
    simp only [hci, hbi, Bool.false_eq_true, if_false]
    split
    · exact Int.le_refl _
    · have hu := units_nonneg ha hpos
      have hnum : 0 ≤ a.units * unitsPerOne := Int.mul_nonneg hu (Int.natCast_nonneg _)
      unfold roundInt
      rw [if_neg (Int.not_lt.2 hnum), if_neg (Int.not_lt.2 hnum)]
      refine Int.ofNat_le.2 (roundUnits_mono (absUnits_pos hc hcz) (absUnits_pos hb hbz) ?_)
      rw [absUnits_eq, absUnits_eq]
      exact Nat.mul_le_mul_left _ (unitsOf_le hmb hmc h)

theorem quotientRank_neg (a b : Double) : quotientRank a.neg b = -quotientRank a b := by
  have hi : a.neg.isInfinite = a.isInfinite := by rw [isInfinite, magnitude_neg, isInfinite]
  have hu : a.neg.units = -a.units := by
    unfold units
    rw [isNegative_neg, absUnits_eq, absUnits_eq, magnitude_neg]
    cases a.isNegative <;> simp
  unfold quotientRank
  rw [hi, rank_neg, hu, Int.neg_mul, roundInt_neg]
  split
  · simp
  · split <;> rfl

/-! ## Remainders -/

/-- The magnitude of a remainder, given those of the operands. -/
def remMagnitude (m n : Nat) : Nat :=
  if n = infiniteMagnitude then m else roundUnits (unitsOf m % unitsOf n) 1

/-- **The rank of a remainder** depends on the ranks of its operands. -/
theorem rank_rem (h : (a.rem b).isNaN = false) :
    (a.rem b).rank =
      if a.rank < 0 then -(remMagnitude a.magnitude b.magnitude : Int)
      else remMagnitude a.magnitude b.magnitude := by
  have hsign : ∀ m : Nat, (a.magnitude = 0 → m = 0) →
      (if a.isNegative then -(m : Int) else m) = if a.rank < 0 then -(m : Int) else m := by
    intro m hm
    unfold rank
    by_cases hz : a.magnitude = 0
    · simp [hm hz]
    · cases a.isNegative <;> simp [hz]
  unfold rem at h ⊢
  split at h
  · exact absurd h (by decide)
  · rename_i hnan
    rw [if_neg hnan]
    by_cases hbi : b.isInfinite = true
    · have hm : remMagnitude a.magnitude b.magnitude = a.magnitude :=
        if_pos (by simpa [isInfinite] using hbi)
      rw [if_pos hbi, hm, ← hsign _ id, rank]
    · have hm : remMagnitude a.magnitude b.magnitude =
          roundUnits (a.absUnits % b.absUnits) 1 := if_neg (by simpa [isInfinite] using hbi)
      rw [if_neg hbi, hm, rank_ofMagnitude]
      · exact hsign _ fun hz => by simp [absUnits_eq, hz]
      · exact Nat.lt_of_le_of_lt (roundUnits_le _ _) (by decide)

theorem isNaN_rem : (a.rem b).isNaN = (a.isNaN || b.isNaN || a.isInfinite || b.isZero) := by
  unfold rem
  split
  · rename_i h
    rw [h]
    decide
  · rename_i h
    have hnot := Bool.eq_false_iff.2 h
    simp only [Bool.or_eq_false_iff] at hnot
    simp only [hnot, Bool.or_self]
    split
    · exact hnot.1.1.1
    · exact isNaN_ofMagnitude_roundUnits _ _ _

/-- A remainder is not larger than the dividend, nor than the divisor. -/
theorem remMagnitude_le (ha : a.isNaN = false) (hb : b.isNaN = false) (hbz : b.isZero = false) :
    remMagnitude a.magnitude b.magnitude ≤ a.magnitude ∧
      remMagnitude a.magnitude b.magnitude ≤ b.magnitude := by
  have hma := magnitude_le_of_not_isNaN ha
  have hmb := magnitude_le_of_not_isNaN hb
  unfold remMagnitude
  split
  · rename_i hi
    exact ⟨le_rfl, hi ▸ hma⟩
  · constructor
    · calc roundUnits (unitsOf a.magnitude % unitsOf b.magnitude) 1
          ≤ roundUnits (unitsOf a.magnitude * 1) 1 :=
            roundUnits_mono one_pos one_pos (by simpa using Nat.mod_le _ _)
        _ = a.magnitude := roundUnits_unitsOf hma one_pos
    · have hpos := absUnits_pos hb hbz
      rw [absUnits_eq] at hpos
      calc roundUnits (unitsOf a.magnitude % unitsOf b.magnitude) 1
          ≤ roundUnits (unitsOf b.magnitude * 1) 1 :=
            roundUnits_mono one_pos one_pos (by simpa using (Nat.mod_lt _ hpos).le)
        _ = b.magnitude := roundUnits_unitsOf hmb one_pos

/-! ## Whole numbers -/

theorem floor_mono (hx : x.isNaN = false) (hy : y.isNaN = false) (h : x.rank ≤ y.rank) :
    x.floor ≤ y.floor := by
  unfold floor
  rw [Int.fdiv_eq_ediv_of_nonneg _ (Int.natCast_nonneg _),
    Int.fdiv_eq_ediv_of_nonneg _ (Int.natCast_nonneg _)]
  exact Int.ediv_le_ediv (by exact_mod_cast unitsPerOne_pos) (units_mono hx hy h)

theorem ceil_mono (hx : x.isNaN = false) (hy : y.isNaN = false) (h : x.rank ≤ y.rank) :
    x.ceil ≤ y.ceil := by
  have hu := units_mono hx hy h
  unfold ceil
  rw [Int.fdiv_eq_ediv_of_nonneg _ (Int.natCast_nonneg _),
    Int.fdiv_eq_ediv_of_nonneg _ (Int.natCast_nonneg _)]
  have := Int.ediv_le_ediv (c := unitsPerOne) (by exact_mod_cast unitsPerOne_pos)
    (Int.neg_le_neg hu)
  omega

/-- A number between two equal whole numbers is that whole number. -/
theorem units_of_whole (h : x.ceil = x.floor) : x.units = x.floor * unitsPerOne := by
  have hpos : (0 : Int) < unitsPerOne := by exact_mod_cast unitsPerOne_pos
  unfold ceil floor at *
  rw [Int.fdiv_eq_ediv_of_nonneg _ hpos.le, Int.fdiv_eq_ediv_of_nonneg _ hpos.le] at h
  rw [Int.fdiv_eq_ediv_of_nonneg _ hpos.le]
  have h₁ := Int.ediv_mul_le x.units hpos.ne'
  have h₂ := Int.ediv_mul_le (-x.units) hpos.ne'
  have h₃ : -(-x.units / (unitsPerOne : Int)) * unitsPerOne =
      x.units / unitsPerOne * unitsPerOne := by
    rw [h]
  rw [Int.neg_mul] at h₃
  omega

theorem rank_ofInt (n : Int) : (ofInt n).rank = roundInt (n * unitsPerOne) 1 := rank_ofUnits _ _

theorem isNaN_ofInt (n : Int) : (ofInt n).isNaN = false := isNaN_ofUnits _ _

theorem rank_ofInt_le {m n : Int} (h : m ≤ n) : (ofInt m).rank ≤ (ofInt n).rank := by
  rw [rank_ofInt, rank_ofInt]
  exact roundInt_mono one_pos (Int.mul_le_mul_of_nonneg_right h (Int.natCast_nonneg _))

/-- A whole number is its own nearest double. -/
theorem rank_ofInt_floor (hx : x.isNaN = false) (h : x.ceil = x.floor) :
    (ofInt x.floor).rank = x.rank := by
  rw [rank_ofInt, ← units_of_whole h, roundInt_units hx]

end Double
end FlowVerifier
