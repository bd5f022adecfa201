import FlowVerifier.Proofs.Symbolic.IntervalArithmetic
import FlowVerifier.Symbolic.Value

/-!
# Members of values

A constant is a member of a value if it is of its type and lies in its interval.
The operations on values are right for their members: what an operator or a test
yields on members is what the operation on values allows for, and an operation on
values fails only where it fails on all members.

NaN is a member of nothing, and every statement about results is about those that
are numbers.

* `apply_eq_ok` and `contains_apply`: the results of operators.
* `fold_of_must`, `fold_of_cant` and `contains_clip`: tests.
* `fold_flip`, `fold_negate`, `fold_of_implies` and `fold_of_compose`: the calculus
  of relations on constants.
-/

namespace FlowVerifier

/-- Is the constant a number that compares with nothing? -/
def Literal.isNaN : Literal → Bool
  | number v => v.isNaN
  | string _ => false

/-- An operation that yields a number was applied to numbers. -/
theorem ArithOp.isNaN_of_fold {op : ArithOp} {l m r : Literal} (h : op.fold l m = .ok r)
    (hr : r.isNaN = false) : l.isNaN = false ∧ m.isNaN = false := by
  cases l <;> cases m
  · rename_i x y
    by_contra hno
    have hnan : x.isNaN = true ∨ y.isNaN = true := by
      simpa [Literal.isNaN, ← Bool.or_eq_true, Decidable.imp_iff_not_or] using hno
    have hr' : r = .number .nan := by
      cases op <;> simp only [fold] at h
      · cases h
        simp [Double.add, hnan]
      · cases h
        simp [Double.sub, Double.add, hnan]
      · cases h
        simp [Double.mul, hnan]
      · split at h <;> cases h
        simp [Double.div, hnan]
      · split at h <;> cases h
        simp [Double.rem, hnan]
    rw [hr'] at hr
    exact absurd hr (by decide)
  · exact absurd h (by simp [fold])
  · exact absurd h (by simp [fold])
  · exact ⟨rfl, rfl⟩

/-! ## Tests on constants -/

namespace RelOp

open Symbolic

variable {l m k : Literal} {op r s t : RelOp}

/-- A test that does not fail compares two numbers or two strings. -/
theorem cases_of_type (ht : l.type = m.type) :
    (∃ x y, l = .number x ∧ m = .number y) ∨ ∃ s t, l = .string s ∧ m = .string t := by
  cases l <;> cases m <;> simp_all [Literal.type]

theorem type_of_fold {b : Bool} (h : op.fold l m = .ok b) : l.type = m.type := by
  cases l <;> cases m <;> first | rfl | exact absurd h (by simp [fold])

/-- The only relation NaN has to anything is being different. -/
theorem fold_of_isNaN (op : RelOp) (ht : l.type = m.type)
    (h : l.isNaN = true ∨ m.isNaN = true) : op.fold l m = .ok (op == .ne) := by
  obtain ⟨x, y, rfl, rfl⟩ | ⟨s, t, rfl, rfl⟩ := cases_of_type ht
  · have hnone : x.compare? y = none := if_pos (Bool.or_eq_true_iff.2 h)
    rw [fold, hnone]
  · exact absurd h (by simp [Literal.isNaN])

theorem fold_flip (hl : l.isNaN = false) (hm : m.isNaN = false) (h : op.fold l m = .ok true) :
    op.flip.fold m l = .ok true := by
  obtain ⟨x, y, rfl, rfl⟩ | ⟨s, t, rfl, rfl⟩ := cases_of_type (type_of_fold h)
  · rw [fold_number _ hm hl, related_flip, ← fold_number _ hl hm, h]
  · rw [fold_string, related_flip, ← fold_string, h]

theorem fold_negate {b : Bool} (hl : l.isNaN = false) (hm : m.isNaN = false)
    (h : op.fold l m = .ok b) : op.negate.fold l m = .ok !b := by
  obtain ⟨x, y, rfl, rfl⟩ | ⟨s, t, rfl, rfl⟩ := cases_of_type (type_of_fold h)
  · rw [fold_number _ hl hm] at h ⊢
    rw [related_negate op (Double.le_self hl) (Double.le_self hm), Except.ok.inj h]
  · rw [fold_string] at h ⊢
    rw [related_negate op (TextBound.le_refl _) (TextBound.le_refl _), Except.ok.inj h]

@[simp]
theorem negate_negate (op : RelOp) : op.negate.negate = op := by
  cases op <;> rfl

theorem fold_of_implies (hl : l.isNaN = false) (hm : m.isNaN = false) (hi : r.implies s = true)
    (h : r.fold l m = .ok true) : s.fold l m = .ok true := by
  obtain ⟨x, y, rfl, rfl⟩ | ⟨x, y, rfl, rfl⟩ := cases_of_type (type_of_fold h)
  · rw [fold_number _ hl hm] at h ⊢
    rw [related_of_implies hi (Except.ok.inj h)]
  · rw [fold_string] at h ⊢
    rw [related_of_implies hi (Except.ok.inj h)]

theorem fold_of_compose (hl : l.isNaN = false) (hm : m.isNaN = false) (hk : k.isNaN = false)
    (hc : r.compose s = some t) (h₁ : r.fold l m = .ok true) (h₂ : s.fold m k = .ok true) :
    t.fold l k = .ok true := by
  obtain ⟨x, y, rfl, rfl⟩ | ⟨x, y, rfl, rfl⟩ := cases_of_type (type_of_fold h₁) <;>
    obtain ⟨y', z, hy, rfl⟩ | ⟨y', z, hy, rfl⟩ := cases_of_type (type_of_fold h₂) <;> cases hy
  · rw [fold_number _ hl hm] at h₁
    rw [fold_number _ hm hk] at h₂
    rw [fold_number _ hl hk, related_of_compose hc (Except.ok.inj h₁) (Except.ok.inj h₂)]
  · rw [fold_string] at h₁ h₂ ⊢
    rw [related_of_compose hc (Except.ok.inj h₁) (Except.ok.inj h₂)]

/-- A constant equals itself. -/
theorem fold_eq_self (hl : l.isNaN = false) : RelOp.eq.fold l l = .ok true := by
  cases l with
  | number v =>
      rw [fold_number _ hl hl]
      exact congrArg _ (LawfulBound.eq_iff.2 ⟨Double.le_self hl, Double.le_self hl⟩)
  | string v =>
      rw [fold_string]
      exact congrArg _ (LawfulBound.eq_iff.2 ⟨TextBound.le_refl _, TextBound.le_refl _⟩)

/-- One of three relations holds between constants of one type. -/
theorem fold_trichotomy (hl : l.isNaN = false) (hm : m.isNaN = false) (ht : l.type = m.type) :
    RelOp.lt.fold l m = .ok true ∨ RelOp.eq.fold l m = .ok true ∨
      RelOp.gt.fold l m = .ok true := by
  obtain ⟨x, y, rfl, rfl⟩ | ⟨x, y, rfl, rfl⟩ := cases_of_type ht
  · simp only [fold_number _ hl hm, Except.ok.injEq]
    exact related_trichotomy (Double.le_self hl) (Double.le_self hm)
  · simp only [fold_string, Except.ok.injEq]
    exact related_trichotomy (TextBound.le_refl _) (TextBound.le_refl _)

end RelOp

/-! ## Members -/

namespace Symbolic
namespace Value

variable {u v w : Value} {l m r : Literal} {op : RelOp}

/-- Is the constant one of the values? -/
def contains : Value → Literal → Bool
  | number a, .number x => a.contains x
  | string a, .string s => a.contains (.str s)
  | _, _ => false

/-- A member is a number of a numeric interval or a string of a textual one. -/
theorem cases_of_contains (h : v.contains l = true) :
    (∃ a x, v = .number a ∧ l = .number x ∧ a.contains x = true) ∨
      ∃ a s, v = .string a ∧ l = .string s ∧ a.contains (.str s) = true := by
  cases v <;> cases l <;> simp_all [contains]

theorem type_of_contains (h : v.contains l = true) : v.type = l.type := by
  obtain ⟨a, x, rfl, rfl, -⟩ | ⟨a, s, rfl, rfl, -⟩ := cases_of_contains h <;> rfl

/-- A member is a number or a string. -/
theorem isNaN_of_contains (h : v.contains l = true) : l.isNaN = false := by
  obtain ⟨a, x, rfl, rfl, h⟩ | ⟨a, s, rfl, rfl, -⟩ := cases_of_contains h
  · exact (Interval.contains_iff_rank.1 h).1.2.1
  · rfl

theorem contains_ofLiteral (hl : l.isNaN = false) : (ofLiteral l).contains l = true := by
  cases l with
  | number x => exact Interval.contains_point (Double.le_self hl)
  | string s => exact Interval.contains_point (TextBound.le_refl _)

@[simp]
theorem type_full (type : ValueType) : (full type).type = type := by
  cases type <;> rfl

theorem contains_full (hl : l.isNaN = false) : (full l.type).contains l = true := by
  cases l with
  | number x => exact Interval.contains_full_number hl
  | string s => exact Interval.contains_full (TextBound.le_refl _)

theorem isEmpty_of_contains (h : v.contains l = true) : v.isEmpty = false := by
  obtain ⟨a, x, rfl, rfl, h⟩ | ⟨a, s, rfl, rfl, h⟩ := cases_of_contains h <;>
    exact Interval.isEmpty_of_contains h

/-! ## Larger values -/

theorem contains_of_subsumes (hs : v.subsumes w = true) (h : w.contains l = true) :
    v.contains l = true := by
  obtain ⟨a, x, rfl, rfl, h⟩ | ⟨a, s, rfl, rfl, h⟩ := cases_of_contains h <;> cases v
  · exact Interval.contains_of_subsumes hs h
  · exact absurd hs (by simp [subsumes])
  · exact absurd hs (by simp [subsumes])
  · exact Interval.contains_of_subsumes hs h

theorem beq_symm (hvw : (v == w) = true) : (w == v) = true := by
  cases v <;> cases w
  · exact Interval.beq_symm hvw
  · exact hvw
  · exact hvw
  · exact Interval.beq_symm hvw

theorem contains_of_beq (hvw : (v == w) = true) (h : w.contains l = true) :
    v.contains l = true := by
  obtain ⟨a, x, rfl, rfl, h⟩ | ⟨a, s, rfl, rfl, h⟩ := cases_of_contains h <;> cases v
  · exact Interval.contains_of_beq hvw h
  · exact absurd hvw (by simp [BEq.beq, beq])
  · exact absurd hvw (by simp [BEq.beq, beq])
  · exact Interval.contains_of_beq hvw h

theorem contains_widen (v : Value) (h : w.contains l = true) :
    (v.widen w).contains l = true := by
  have hw := h
  obtain ⟨a, x, rfl, rfl, h⟩ | ⟨a, s, rfl, rfl, h⟩ := cases_of_contains h <;> cases v
  · exact Interval.contains_widen h
  · exact hw
  · exact hw
  · exact Interval.contains_widen h

theorem contains_widen_left (ht : v.type = w.type) (h : v.contains l = true) :
    (v.widen w).contains l = true := by
  obtain ⟨a, x, rfl, rfl, h⟩ | ⟨a, s, rfl, rfl, h⟩ := cases_of_contains h <;> cases w
  · exact Interval.contains_widen_left h
  · exact absurd ht (by simp [type])
  · exact absurd ht (by simp [type])
  · exact Interval.contains_widen_left h

theorem contains_join_left (ht : v.type = w.type) (h : v.contains l = true) :
    (v.join w).contains l = true := by
  obtain ⟨a, x, rfl, rfl, h⟩ | ⟨a, s, rfl, rfl, h⟩ := cases_of_contains h <;> cases w
  · exact Interval.contains_join (.inl h)
  · exact absurd ht (by simp [type])
  · exact absurd ht (by simp [type])
  · exact Interval.contains_join (.inl h)

theorem contains_join_right (v : Value) (h : w.contains l = true) :
    (v.join w).contains l = true := by
  have hw := h
  obtain ⟨a, x, rfl, rfl, h⟩ | ⟨a, s, rfl, rfl, h⟩ := cases_of_contains h <;> cases v
  · exact Interval.contains_join (.inr h)
  · exact hw
  · exact hw
  · exact Interval.contains_join (.inr h)

theorem type_join (v w : Value) : (v.join w).type = w.type := by
  cases v <;> cases w <;> rfl

theorem type_meet (v w : Value) : (v.meet w).type = w.type := by
  cases v <;> cases w <;> rfl

theorem type_widen (v w : Value) : (v.widen w).type = w.type := by
  cases v <;> cases w <;> rfl

/-! ## Operands -/

/-- What is known of an operand that is read as `l`.  A constant that compares with
nothing is no member of its value. -/
def Allows (v : Value) (l : Literal) : Prop := v.contains l = true ∨ v = ofLiteral l

theorem Allows.type (h : v.Allows l) : v.type = l.type := by
  rcases h with h | rfl
  · exact type_of_contains h
  · cases l <;> rfl

theorem Allows.contains (h : v.Allows l) (hl : l.isNaN = false) : v.contains l = true := by
  rcases h with h | rfl
  · exact h
  · exact contains_ofLiteral hl

theorem Allows.cases (h : v.Allows l) :
    (∃ a x, v = .number a ∧ l = .number x) ∨ ∃ a s, v = .string a ∧ l = .string s := by
  have ht := h.type
  cases v <;> cases l <;> simp_all [Value.type, Literal.type]

/-! ## Operators -/

/-- An operand that can only be zero is zero. -/
theorem Allows.isZero {b : Interval Double} {y : Double} (h : (number b).Allows (.number y))
    (hp : b.isPoint Double.zero = true) : y.isZero = true := by
  rw [Interval.isPoint, Bool.and_eq_true] at hp
  have hzero := (Double.beq_iff.1 hp.2).2.2
  have hy : y.rank = b.lo.rank := by
    rcases h with h | h
    · exact (Double.beq_iff.1 (Interval.eq_of_isDeterminate hp.1 h).1).2.2
    · cases h
      rfl
  rw [Double.isZero_iff, hy, hzero, Double.rank_zero]

/-- **Operators** do not fail on values where they do not fail on operands. -/
theorem apply_eq_ok {op : ArithOp} (hv : v.Allows l) (hw : w.Allows m)
    (h : op.fold l m = .ok r) : ∃ u, v.apply op w = .ok u ∧ u.type = r.type := by
  obtain ⟨a, x, rfl, rfl⟩ | ⟨a, x, rfl, rfl⟩ := hv.cases <;>
    obtain ⟨b, y, rfl, rfl⟩ | ⟨b, y, rfl, rfl⟩ := hw.cases
  · cases op with
    | div =>
        simp only [ArithOp.fold] at h
        split at h
        · exact absurd h (by simp)
        · rename_i hz
          cases h
          exact ⟨_, if_neg fun hp => hz (hw.isZero hp), rfl⟩
    | mod =>
        simp only [ArithOp.fold] at h
        split at h
        · exact absurd h (by simp)
        · rename_i hz
          cases h
          exact ⟨_, if_neg fun hp => hz (hw.isZero hp), rfl⟩
    | _ =>
        cases h
        exact ⟨_, rfl, rfl⟩
  · exact absurd h (by simp [ArithOp.fold])
  · exact absurd h (by simp [ArithOp.fold])
  · cases op with
    | add =>
        cases h
        exact ⟨_, rfl, rfl⟩
    | _ => exact absurd h (by simp [ArithOp.fold])

/-- **Operators** yield members of the result on values. -/
theorem contains_apply {op : ArithOp} (hv : v.Allows l) (hw : w.Allows m)
    (h : op.fold l m = .ok r) (hr : r.isNaN = false) (hu : v.apply op w = .ok u) :
    u.contains r = true := by
  obtain ⟨hl, hm⟩ := ArithOp.isNaN_of_fold h hr
  obtain ⟨a, x, rfl, rfl, hx⟩ | ⟨a, x, rfl, rfl, hx⟩ := cases_of_contains (hv.contains hl) <;>
    obtain ⟨b, y, rfl, rfl, hy⟩ | ⟨b, y, rfl, rfl, hy⟩ := cases_of_contains (hw.contains hm)
  · cases op with
    | add =>
        cases h
        cases hu
        exact Interval.contains_add hx hy hr
    | sub =>
        cases h
        cases hu
        exact Interval.contains_sub hx hy hr
    | mul =>
        cases h
        cases hu
        exact Interval.contains_mul hx hy hr
    | div =>
        simp only [ArithOp.fold] at h
        simp only [apply] at hu
        split at h <;> cases h
        split at hu <;> cases hu
        exact Interval.contains_div hx hy hr
    | mod =>
        simp only [ArithOp.fold] at h
        simp only [apply] at hu
        split at h <;> cases h
        split at hu <;> cases hu
        exact Interval.contains_rem hx hy hr
  · exact absurd h (by simp [ArithOp.fold])
  · exact absurd h (by simp [ArithOp.fold])
  · cases op with
    | add =>
        cases h
        cases hu
        exact Interval.contains_concat hx hy
    | _ => exact absurd h (by simp [ArithOp.fold])

/-! ## Tests -/

/-- A test is decided on values of one type. -/
theorem canMeet_eq_ok (op : RelOp) (ht : v.type = w.type) : ∃ d, v.canMeet op w = .ok d := by
  cases v <;> cases w <;> first | exact ⟨_, rfl⟩ | exact absurd ht (by simp [type])

theorem clip_eq_ok (op : RelOp) (ht : v.type = w.type) : ∃ u, v.clip op w = .ok u := by
  cases v <;> cases w <;> first | exact ⟨_, rfl⟩ | exact absurd ht (by simp [type])

/-- A test that must hold holds on all members. -/
theorem fold_of_must (hv : v.contains l = true) (hw : w.contains m = true)
    (h : v.canMeet op w = .ok .must) : op.fold l m = .ok true := by
  have hl := isNaN_of_contains hv
  have hm := isNaN_of_contains hw
  obtain ⟨a, x, rfl, rfl, hx⟩ | ⟨a, x, rfl, rfl, hx⟩ := cases_of_contains hv <;>
    obtain ⟨b, y, rfl, rfl, hy⟩ | ⟨b, y, rfl, rfl, hy⟩ := cases_of_contains hw
  · rw [fold_number _ hl hm, Interval.related_of_must (Except.ok.inj h) hx hy]
  · exact absurd h (by simp [canMeet])
  · exact absurd h (by simp [canMeet])
  · rw [fold_string, Interval.related_of_must (Except.ok.inj h) hx hy]

/-- A test that cannot hold fails on all members. -/
theorem fold_of_cant (hv : v.contains l = true) (hw : w.contains m = true)
    (h : v.canMeet op w = .ok .cant) : op.fold l m = .ok false := by
  have hl := isNaN_of_contains hv
  have hm := isNaN_of_contains hw
  obtain ⟨a, x, rfl, rfl, hx⟩ | ⟨a, x, rfl, rfl, hx⟩ := cases_of_contains hv <;>
    obtain ⟨b, y, rfl, rfl, hy⟩ | ⟨b, y, rfl, rfl, hy⟩ := cases_of_contains hw
  · rw [fold_number _ hl hm, Interval.not_related_of_cant (Except.ok.inj h) hx hy]
  · exact absurd h (by simp [canMeet])
  · exact absurd h (by simp [canMeet])
  · rw [fold_string, Interval.not_related_of_cant (Except.ok.inj h) hx hy]

/-! ### Tests on operands -/

theorem isEmpty_ofLiteral (h : l.isNaN = true) : (ofLiteral l).isEmpty = true := by
  cases l with
  | string s => exact absurd h (by simp [Literal.isNaN])
  | number x =>
      show (!x.le x) = true
      rw [Double.le, show x.isNaN = true from h]
      rfl

/-- Nothing is related to what has no values. -/
theorem canMeet_of_isEmpty (op : RelOp) (ht : v.type = w.type)
    (he : v.isEmpty = true ∨ w.isEmpty = true) : v.canMeet op w = .ok .cant := by
  cases v <;> cases w
  · exact congrArg _ (if_pos (Bool.or_eq_true_iff.2 he))
  · exact absurd ht (by simp [type])
  · exact absurd ht (by simp [type])
  · exact congrArg _ (if_pos (Bool.or_eq_true_iff.2 he))

theorem type_of_canMeet {d : Satisfiability} (h : v.canMeet op w = .ok d) :
    v.type = w.type := by
  cases v <;> cases w <;> first | rfl | exact absurd h (by simp [canMeet])

theorem Allows.isEmpty (h : v.Allows l) (hl : l.isNaN = true) : v.isEmpty = true := by
  rcases h with h | rfl
  · rw [isNaN_of_contains h] at hl
    exact absurd hl (by decide)
  · exact isEmpty_ofLiteral hl

/-- A test that can hold compares numbers or strings. -/
theorem Allows.isNaN_of_canMeet {d : Satisfiability} (hv : v.Allows l) (hw : w.Allows m)
    (h : v.canMeet op w = .ok d) (hd : d ≠ .cant) : l.isNaN = false ∧ m.isNaN = false := by
  rw [← Bool.not_eq_true, ← Bool.not_eq_true, ← not_or]
  intro hnan
  have hempty : v.isEmpty = true ∨ w.isEmpty = true := hnan.imp hv.isEmpty hw.isEmpty
  rw [canMeet_of_isEmpty op (type_of_canMeet h) hempty] at h
  exact hd (Except.ok.inj h).symm

theorem Allows.fold_of_must (hv : v.Allows l) (hw : w.Allows m)
    (h : v.canMeet op w = .ok .must) : op.fold l m = .ok true := by
  obtain ⟨hl, hm⟩ := hv.isNaN_of_canMeet hw h (by decide)
  exact Value.fold_of_must (hv.contains hl) (hw.contains hm) h

theorem Allows.fold_of_cant (hv : v.Allows l) (hw : w.Allows m)
    (hn : op = .ne → l.isNaN = false ∧ m.isNaN = false) (h : v.canMeet op w = .ok .cant) :
    op.fold l m = .ok false := by
  by_cases hnan : l.isNaN = true ∨ m.isNaN = true
  · have ht : l.type = m.type := hv.type.symm.trans ((type_of_canMeet h).trans hw.type)
    rw [RelOp.fold_of_isNaN op ht hnan]
    have hne : op ≠ .ne := fun hop => by simp [hn hop] at hnan
    exact congrArg _ (beq_eq_false_iff_ne.2 hne)
  · rw [not_or, Bool.not_eq_true, Bool.not_eq_true] at hnan
    exact Value.fold_of_cant (hv.contains hnan.1) (hw.contains hnan.2) h

/-- **Clipping** drops no member on which the test holds. -/
theorem contains_clip (hv : v.contains l = true) (hw : w.contains m = true)
    (h : op.fold l m = .ok true) : ∃ u, v.clip op w = .ok u ∧ u.contains l = true := by
  have hl := isNaN_of_contains hv
  have hm := isNaN_of_contains hw
  obtain ⟨a, x, rfl, rfl, hx⟩ | ⟨a, x, rfl, rfl, hx⟩ := cases_of_contains hv <;>
    obtain ⟨b, y, rfl, rfl, hy⟩ | ⟨b, y, rfl, rfl, hy⟩ := cases_of_contains hw
  · rw [fold_number _ hl hm] at h
    exact ⟨_, rfl, Interval.contains_clip hx hy (Except.ok.inj h)⟩
  · exact absurd h (by simp [RelOp.fold])
  · exact absurd h (by simp [RelOp.fold])
  · rw [fold_string] at h
    exact ⟨_, rfl, Interval.contains_clip hx hy (Except.ok.inj h)⟩

end Value
end Symbolic
end FlowVerifier
