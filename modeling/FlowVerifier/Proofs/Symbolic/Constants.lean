import FlowVerifier.Proofs.Symbolic.Values
import Mathlib

/-!
# Constants as values

A constant is a value that leaves nothing open.  Operations and tests on such values give
what they give on the constants, with two exceptions: a NaN has no place in the order,
and a product of bounds that is zero loses its sign.

* `Value.apply_ofLiteral`: an operation on two constants gives the constant that it folds
  to, if that is exact (`ArithOp.isExact`).
* `Value.canMeet_ofLiteral`: a test between two constants is decided as it folds.
* `Value.constants_alike`: tests between constants are decided as they fold, but for a
  difference from NaN, which holds and is decided to fail (`canMeet_ne_nan`); and an operation
  fails on two constants exactly if it does not fold, for the same reason.
-/

namespace FlowVerifier

/-- Does the search come to the constant that an operation on two constants folds to?  It knows of
no NaN, and takes a product with a zero for the positive zero. -/
def ArithOp.isExact : ArithOp → Literal → Literal → Literal → Bool
  | mul, .number x, .number y, .number z =>
    !z.isNaN && !((x.isZero || y.isZero) && z.isNegative)
  | _, _, _, r => !r.isNaN

theorem ArithOp.isNaN_of_isExact {op : ArithOp} {l m r : Literal} (h : op.isExact l m r = true) :
    r.isNaN = false := by
  unfold isExact at h
  split at h
  · simp only [Bool.and_eq_true, Bool.not_eq_true'] at h
    exact h.1
  · simpa using h

/-- A constant compares with itself as equal. -/
theorem RelOp.fold_self (op : RelOp) {l : Literal} (hl : l.isNaN = false) :
    op.fold l l = .ok (op.holds .eq) := by
  cases l with
  | number v =>
      have hnan : v.isNaN = false := hl
      have hcompare : v.compare? v = some .eq := by simp [Double.compare?, hnan]
      simp only [fold, hcompare]
  | string t =>
      have hcompare : compare t t = .eq := by
        show compareOfLessAndEq t t = .eq
        simp [compareOfLessAndEq]
      simp only [fold, hcompare]

/-! ## Numbers -/

namespace Symbolic
namespace Interval

open Double

variable {x y : Double}

/-- The interval spanned by one number is its point. -/
theorem hull_single (hx : x.isNaN = false) : hull [x, x, x, x] = point x := by
  have hlow : lesser infinity x = x := by
    unfold lesser
    split
    · rfl
    · rename_i h
      refine eq_of_rank ?_ (by rw [rank_infinity]; decide)
      have hle := (rank_bounds hx).2
      have hge : ¬ x.rank < infinity.rank := fun hlt => h (lt_iff.2 ⟨hx, isNaN_infinity, hlt⟩)
      rw [rank_infinity] at hge ⊢
      omega
  have hhigh : greater negInfinity x = x := by
    unfold greater
    split
    · rfl
    · rename_i h
      refine eq_of_rank ?_ (by rw [rank_negInfinity]; decide)
      have hge := (rank_bounds hx).1
      have hle : ¬ negInfinity.rank < x.rank := fun hlt => h (lt_iff.2 ⟨isNaN_negInfinity, hx, hlt⟩)
      rw [rank_negInfinity] at hle ⊢
      omega
  have hlesser : lesser x x = x := ite_self _
  have hgreater : greater x x = x := ite_self _
  simp [hull, hx, List.foldl_cons, hlow, hhigh, hlesser, hgreater, point]

/-- The interval of a number is empty if the number is none. -/
theorem isEmpty_point (x : Double) : (point x).isEmpty = x.isNaN := by
  show (!x.le x) = x.isNaN
  simp [le]

theorem isDeterminate_point (hx : x.isNaN = false) : (point x).isDeterminate = true :=
  beq_iff.2 ⟨hx, hx, rfl⟩

/-- Only the zeros are zero. -/
theorem isPoint_zero (x : Double) : (point x).isPoint Double.zero = x.isZero := by
  cases hx : x.isNaN with
  | false =>
      rw [isPoint, isDeterminate_point hx, Bool.true_and, Bool.eq_iff_iff, isZero_iff]
      show x.beq Double.zero = true ↔ _
      rw [beq_iff, rank_zero]
      simp [hx]
  | true =>
      have hlarge : infiniteMagnitude < x.magnitude := of_decide_eq_true hx
      have hzero : x.isZero = false := by
        rw [isZero, beq_eq_false_iff_ne]
        omega
      rw [hzero, ← Bool.not_eq_true, isPoint, Bool.and_eq_true]
      rintro ⟨hdet, -⟩
      have hnum : x.isNaN = false := (beq_iff.1 hdet).1
      rw [hx] at hnum
      exact absurd hnum (by decide)

theorem add_point (hs : (x.add y).isNaN = false) (hx : x.isNaN = false) (hy : y.isNaN = false) :
    (point x).add (point y) = point (x.add y) := by
  show (if _ then _ else if _ then _ else _) = _
  rw [isEmpty_point, isEmpty_point, hx, hy, if_neg (by decide), if_neg (by simp [point, hs])]
  rfl

theorem mul_point (hn : (x.mul y).isNaN = false)
    (hsign : (x.isZero || y.isZero) = true → (x.mul y).isNegative = false) (hx : x.isNaN = false)
    (hy : y.isNaN = false) : (point x).mul (point y) = point (x.mul y) := by
  have hbound : mulBound x y = x.mul y := by
    have hrank := rank_mul_eq_mulBound hx hy hn
    unfold mulBound at hrank ⊢
    split
    · -- a product with a zero has no sign to lose
      rename_i hz
      rw [if_pos hz, rank_zero] at hrank
      refine eq_of_magnitude ?_ ?_
      · rw [hsign hz]
        rfl
      · rw [← natAbs_rank, ← natAbs_rank, hrank, rank_zero]
    · rfl
  show (if _ then _ else _) = _
  rw [isEmpty_point, isEmpty_point, hx, hy, if_neg (by decide)]
  show hull [mulBound x y, mulBound x y, mulBound x y, mulBound x y] = _
  rw [hbound, hull_single hn]

theorem div_point (hn : (x.div y).isNaN = false) (hx : x.isNaN = false) (hy : y.isNaN = false)
    (hz : y.isZero = false) : (point x).div (point y) = point (x.div y) := by
  have hzero : (point y).containsZero = false := by
    rw [← Bool.not_eq_true]
    intro hc
    obtain ⟨⟨-, -, hlo⟩, -, hhi⟩ := contains_iff_rank.1 hc
    refine absurd (isZero_iff.2 ?_) (by rw [hz]; decide)
    rw [rank_zero] at hlo hhi
    exact Int.le_antisymm hlo hhi
  show (if _ then _ else if _ then _ else _) = _
  rw [isEmpty_point, isEmpty_point, hx, hy, hzero, if_neg (by decide), if_neg (by decide)]
  exact hull_single hn

theorem rem_point (hx : x.isNaN = false) (hy : y.isNaN = false) (hz : y.isZero = false) :
    (point x).rem (point y) = point (x.rem y) := by
  show (if _ then _ else if _ then _ else _) = _
  rw [isEmpty_point, isEmpty_point, hx, hy, if_neg (by decide), isDeterminate_point hx,
    isDeterminate_point hy, if_pos (by simp [point, hz])]
  rfl

theorem concat_point (s t : String) :
    (point (TextBound.str s)).concat (point (.str t)) = point (.str (s ++ t)) := by
  have hempty : ∀ u : String, (point (TextBound.str u)).isEmpty = false := by
    intro u
    show (!(TextBound.str u).le (.str u)) = false
    rw [TextBound.le_refl]
    rfl
  have hpoint : ∀ u : String, (point (TextBound.str u)).point? = some (.str u) := by
    intro u
    simp [point?, isDeterminate, point, Bound.eq]
  show (if _ then _ else _) = _
  rw [hempty, hempty, if_neg (by decide), hpoint, hpoint]

end Interval

namespace Value

variable {l m r : Literal}

/-- **Operations on constants** give the constant that they fold to. -/
theorem apply_ofLiteral {op : ArithOp} (h : op.fold l m = .ok r)
    (hr : op.isExact l m r = true) :
    (ofLiteral l).apply op (ofLiteral m) = .ok (ofLiteral r) := by
  have hn := ArithOp.isNaN_of_isExact hr
  obtain ⟨hl, hm⟩ := ArithOp.isNaN_of_fold h hn
  cases l with
  | number x =>
      cases m with
      | string t => exact absurd h (by simp [ArithOp.fold])
      | number y =>
          cases op with
          | add =>
              obtain rfl := Except.ok.inj h
              exact congrArg (fun i => Except.ok (number i)) (Interval.add_point hn hl hm)
          | sub =>
              obtain rfl := Except.ok.inj h
              have hm' : y.neg.isNaN = false := by rw [Double.isNaN_neg]; exact hm
              exact congrArg (fun i => Except.ok (number i)) (Interval.add_point hn hl hm')
          | mul =>
              obtain rfl := Except.ok.inj h
              have hsign : (x.isZero || y.isZero) = true → (x.mul y).isNegative = false := by
                intro hz
                simp only [ArithOp.isExact, hz, Bool.true_and, Bool.and_eq_true,
                  Bool.not_eq_true'] at hr
                exact hr.2
              exact congrArg (fun i => Except.ok (number i)) (Interval.mul_point hn hsign hl hm)
          | div =>
              simp only [ArithOp.fold] at h
              split at h
              · exact absurd h (by simp)
              · rename_i hz
                obtain rfl := Except.ok.inj h
                have hz : y.isZero = false := by simpa using hz
                simp only [apply, ofLiteral, Interval.isPoint_zero, hz, Bool.false_eq_true,
                  if_false]
                exact congrArg (fun i => Except.ok (number i)) (Interval.div_point hn hl hm hz)
          | mod =>
              simp only [ArithOp.fold] at h
              split at h
              · exact absurd h (by simp)
              · rename_i hz
                obtain rfl := Except.ok.inj h
                have hz : y.isZero = false := by simpa using hz
                simp only [apply, ofLiteral, Interval.isPoint_zero, hz, Bool.false_eq_true,
                  if_false]
                exact congrArg (fun i => Except.ok (number i)) (Interval.rem_point hl hm hz)
  | string s =>
      cases m with
      | number y => exact absurd h (by simp [ArithOp.fold])
      | string t =>
          cases op with
          | add =>
              obtain rfl := Except.ok.inj h
              exact congrArg (fun i => Except.ok (string i)) (Interval.concat_point s t)
          | _ => exact absurd h (by simp [ArithOp.fold])

/-- A relation between two points holds or fails. -/
theorem canMeet_point {α : Type} [Bound α] [LawfulBound α] (op : RelOp) {a b : α}
    (ha : Bound.le a a = true) (hb : Bound.le b b = true) :
    (Interval.point a).canMeet op (.point b) = if related op a b then .must else .cant := by
  have hmust : ∀ op, (Interval.point a).mustMeet op (.point b) = related op a b := by
    intro op
    have hdet : ∀ {c : α}, Bound.le c c = true → (Interval.point c).isDeterminate = true :=
      fun hc => LawfulBound.eq_iff.2 ⟨hc, hc⟩
    cases op with
    | eq =>
        show (_ && _ && _) = _
        rw [hdet ha, hdet hb]
        rfl
    | _ => rfl
  have hempty : ∀ {c : α}, Bound.le c c = true → (Interval.point c).isEmpty = false := by
    intro c hc
    show (!Bound.le c c) = false
    rw [hc]
    rfl
  unfold Interval.canMeet
  rw [hempty ha, hempty hb, if_neg (by decide), hmust, hmust, related_negate op ha hb]
  cases related op a b <;> rfl

/-- **Tests between constants** are decided as they fold. -/
theorem canMeet_ofLiteral {op : RelOp} {b : Bool} (h : op.fold l m = .ok b)
    (hl : l.isNaN = false) (hm : m.isNaN = false) :
    (ofLiteral l).canMeet op (ofLiteral m) = .ok (if b then .must else .cant) := by
  cases l with
  | number x =>
      cases m with
      | string t => exact absurd h (by simp [RelOp.fold])
      | number y =>
          rw [fold_number op hl hm] at h
          obtain rfl := Except.ok.inj h
          exact congrArg Except.ok (canMeet_point op (Double.le_self hl) (Double.le_self hm))
  | string s =>
      cases m with
      | number y => exact absurd h (by simp [RelOp.fold])
      | string t =>
          rw [fold_string] at h
          obtain rfl := Except.ok.inj h
          exact congrArg Except.ok
            (canMeet_point op (TextBound.le_refl _) (TextBound.le_refl _))

/-! ### Folding and deciding alike -/

/-- A test with a NaN is decided to fail. -/
theorem canMeet_ofLiteral_of_isNaN (op : RelOp) (ht : l.type = m.type)
    (h : l.isNaN = true ∨ m.isNaN = true) :
    (ofLiteral l).canMeet op (ofLiteral m) = .ok .cant := by
  obtain ⟨x, y, rfl, rfl⟩ | ⟨s, t, rfl, rfl⟩ := RelOp.cases_of_type ht
  · refine congrArg Except.ok (if_pos ?_)
    rw [Interval.isEmpty_point, Interval.isEmpty_point, Bool.or_eq_true]
    exact h
  · exact absurd h (by simp [Literal.isNaN])

/-- A test between constants of one type folds. -/
theorem exists_fold (op : RelOp) (ht : l.type = m.type) : ∃ b, op.fold l m = .ok b := by
  obtain ⟨x, y, rfl, rfl⟩ | ⟨s, t, rfl, rfl⟩ := RelOp.cases_of_type ht
  · rw [RelOp.fold]
    cases x.compare? y <;> exact ⟨_, rfl⟩
  · exact ⟨_, rfl⟩

/-- **Tests between constants** are decided as they fold, unless a difference from NaN is
asked for. -/
theorem canMeet_ofLiteral_iff (op : RelOp) (l m : Literal) :
    ((op.fold l m = .ok true ↔ (ofLiteral l).canMeet op (ofLiteral m) = .ok .must) ∧
        (op.fold l m = .ok false ↔ (ofLiteral l).canMeet op (ofLiteral m) = .ok .cant)) ↔
      ¬ (op = .ne ∧ l.type = m.type ∧ (l.isNaN = true ∨ m.isNaN = true)) := by
  by_cases ht : l.type = m.type
  · by_cases hn : l.isNaN = true ∨ m.isNaN = true
    · rw [RelOp.fold_of_isNaN op ht hn, canMeet_ofLiteral_of_isNaN op ht hn]
      cases op <;> simp [ht, hn]
    · have hl : l.isNaN = false := Bool.eq_false_iff.2 fun h => hn (.inl h)
      have hm : m.isNaN = false := Bool.eq_false_iff.2 fun h => hn (.inr h)
      obtain ⟨b, hb⟩ := exists_fold op ht
      rw [canMeet_ofLiteral hb hl hm, hb]
      cases b <;> simp [hn]
  · -- constants of different types cannot be compared either way
    cases l <;> cases m <;> first | exact absurd rfl ht | simp [RelOp.fold, canMeet, ofLiteral, ht]

/-- **Operations on constants** fail exactly if they do not fold, with the same mistake. -/
theorem apply_ofLiteral_error_iff (op : ArithOp) (l m : Literal) (e : ProgramError) :
    op.fold l m = .error e ↔ (ofLiteral l).apply op (ofLiteral m) = .error e := by
  cases l with
  | number x =>
      cases m with
      | number y =>
          cases op with
          | div =>
              simp only [ArithOp.fold, ofLiteral, apply, Interval.isPoint_zero]
              cases y.isZero <;> simp
          | mod =>
              simp only [ArithOp.fold, ofLiteral, apply, Interval.isPoint_zero]
              cases y.isZero <;> simp
          | _ => simp [ArithOp.fold, ofLiteral, apply]
      | string t => simp [ArithOp.fold, ofLiteral, apply, Literal.type, type]
  | string s =>
      cases m with
      | number y => simp [ArithOp.fold, ofLiteral, apply, Literal.type, type]
      | string t => cases op <;> simp [ArithOp.fold, ofLiteral, apply]

/-- **Folding and deciding alike**: what a test on constants holds, and which operations on
constants are mistakes. -/
theorem constants_alike (rel : RelOp) (op : ArithOp) (l m : Literal) (e : ProgramError) :
    (((rel.fold l m = .ok true ↔ (ofLiteral l).canMeet rel (ofLiteral m) = .ok .must) ∧
        (rel.fold l m = .ok false ↔ (ofLiteral l).canMeet rel (ofLiteral m) = .ok .cant)) ↔
      ¬ (rel = .ne ∧ l.type = m.type ∧ (l.isNaN = true ∨ m.isNaN = true))) ∧
    (op.fold l m = .error e ↔ (ofLiteral l).apply op (ofLiteral m) = .error e) :=
  ⟨canMeet_ofLiteral_iff rel l m, apply_ofLiteral_error_iff op l m e⟩

/-- One differs from NaN, and is decided not to. -/
theorem canMeet_ne_nan :
    RelOp.ne.fold (.number .one) (.number .nan) = .ok true ∧
      (ofLiteral (.number .one)).canMeet .ne (ofLiteral (.number .nan)) = .ok .cant :=
  ⟨rfl, rfl⟩

end Value
end Symbolic
end FlowVerifier
