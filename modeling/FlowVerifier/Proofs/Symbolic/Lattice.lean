import FlowVerifier.Proofs.Symbolic.Values

/-!
# The lattice of values

An interval subsumes another if it reaches at least as far on both sides, or if the other is
empty.  The join of two intervals subsumes both (`join_subsumes_left`, `join_subsumes_right`),
and the widened interval subsumes the join (`widen_subsumes_join`).  A join is the same, bit by
bit, when one of its sides is joined again (`join_join_right`).

Two values are *alike* if they are identical, or equal as values compare: equal bounds differ
in the sign of a zero at most.  Values that are alike subsume the same values and are subsumed by
the same values (`Alike.subsumes_left`, `Alike.subsumes_right`).
-/

namespace FlowVerifier
namespace Symbolic

open LawfulBound

/-! ## Intervals -/

namespace Interval

variable {α : Type} [Bound α] [LawfulBound α] {a b c : Interval α} {u v w : α}

omit [LawfulBound α] in
/-- Subsumption in terms of the bounds. -/
theorem subsumes_iff :
    a.subsumes b = true ↔ b.isEmpty = true ∨
      Bound.le a.lo a.hi = true ∧ Bound.le a.lo b.lo = true ∧ Bound.le b.hi a.hi = true := by
  rw [subsumes, Bool.or_eq_true, Bool.and_eq_true, Bool.and_eq_true, Bool.not_eq_true',
    isEmpty_eq_false, and_assoc]

theorem subsumes_self (a : Interval α) : a.subsumes a = true := by
  rw [subsumes_iff]
  cases h : a.isEmpty with
  | true => exact .inl rfl
  | false =>
      have hle := isEmpty_eq_false.1 h
      exact .inr ⟨hle, proper_left hle, proper_right hle⟩

/-- A join with an interval that is not empty is not empty. -/
theorem lesser_le_greater (ha : Bound.le a.lo a.hi = true) (b : Interval α) :
    Bound.le (lesser a.lo b.lo) (greater a.hi b.hi) = true :=
  trans (lesser_le_left (proper_left ha)) (trans ha (le_greater_left (proper_right ha)))

/-- **A join** subsumes its first side. -/
theorem join_subsumes_left (a b : Interval α) : (a.join b).subsumes a = true := by
  rw [subsumes_iff]
  cases ha : a.isEmpty with
  | true => exact .inl rfl
  | false =>
      have hle := isEmpty_eq_false.1 ha
      refine .inr ?_
      unfold join
      rw [ha, if_neg Bool.false_ne_true]
      split
      · exact ⟨hle, proper_left hle, proper_right hle⟩
      · exact ⟨lesser_le_greater hle b, lesser_le_left (proper_left hle),
          le_greater_left (proper_right hle)⟩

/-- **A join** subsumes its second side. -/
theorem join_subsumes_right (a b : Interval α) : (a.join b).subsumes b = true := by
  unfold join
  split
  · exact subsumes_self b
  · rename_i ha
    have hle := isEmpty_eq_false.1 (Bool.eq_false_iff.2 ha)
    rw [subsumes_iff]
    cases hb : b.isEmpty with
    | true => exact .inl rfl
    | false =>
        have hle' := isEmpty_eq_false.1 hb
        rw [if_neg Bool.false_ne_true]
        exact .inr ⟨lesser_le_greater hle b, lesser_le_right (proper_left hle) (proper_left hle'),
          le_greater_right (proper_right hle) (proper_right hle')⟩

/-- **A widened interval** subsumes the join. -/
theorem widen_subsumes_join (a b : Interval α) : (a.widen b).subsumes (a.join b) = true := by
  unfold widen join
  split
  · exact subsumes_self b
  · rename_i ha
    have hle := isEmpty_eq_false.1 (Bool.eq_false_iff.2 ha)
    split
    · exact subsumes_self a
    · rename_i hb
      have hle' := isEmpty_eq_false.1 (Bool.eq_false_iff.2 hb)
      have hlo : Bound.le (if Bound.lt b.lo a.lo then Bound.lowest else a.lo)
          (lesser a.lo b.lo) = true := by
        unfold lesser
        split
        · exact lowest_le (proper_left hle')
        · exact proper_left hle
      have hhi : Bound.le (greater a.hi b.hi)
          (if Bound.lt a.hi b.hi then Bound.highest else a.hi) = true := by
        unfold greater
        split
        · exact le_highest (proper_right hle')
        · exact proper_right hle
      exact subsumes_iff.2 (.inr ⟨trans hlo (trans (lesser_le_greater hle b) hhi), hlo, hhi⟩)

omit [LawfulBound α] in
theorem lesser_self (u : α) : lesser u u = u := ite_self u

omit [LawfulBound α] in
theorem greater_self (u : α) : greater u u = u := ite_self u

omit [LawfulBound α] in
theorem join_self (a : Interval α) : a.join a = a := by
  unfold join
  rw [lesser_self, greater_self]
  cases a.isEmpty <;> rfl

/-- **A join** is the same when its second side is joined again. -/
theorem join_join_right (a b : Interval α) : (a.join b).join b = a.join b := by
  cases ha : a.isEmpty with
  | true =>
      have h : a.join b = b := by rw [join, ha, if_pos rfl]
      rw [h, join_self]
  | false =>
      cases hb : b.isEmpty with
      | true =>
          have h : a.join b = a := by rw [join, ha, hb, if_neg Bool.false_ne_true, if_pos rfl]
          rw [h, h]
      | false =>
          have h : a.join b = ⟨lesser a.lo b.lo, greater a.hi b.hi⟩ := by
            rw [join, ha, hb, if_neg Bool.false_ne_true, if_neg Bool.false_ne_true]
          have hsome : (a.join b).isEmpty = false := by
            rw [h]
            exact isEmpty_eq_false.2 (lesser_le_greater (isEmpty_eq_false.1 ha) b)
          have hlo : lesser (lesser a.lo b.lo) b.lo = lesser a.lo b.lo := by
            by_cases hlt : Bound.lt b.lo a.lo = true
            · rw [show lesser a.lo b.lo = b.lo from if_pos hlt, lesser_self]
            · rw [show lesser a.lo b.lo = a.lo from if_neg hlt]
              exact if_neg hlt
          have hhi : greater (greater a.hi b.hi) b.hi = greater a.hi b.hi := by
            by_cases hlt : Bound.lt a.hi b.hi = true
            · rw [show greater a.hi b.hi = b.hi from if_pos hlt, greater_self]
            · rw [show greater a.hi b.hi = a.hi from if_neg hlt]
              exact if_neg hlt
          rw [join, hsome, hb, if_neg Bool.false_ne_true, if_neg Bool.false_ne_true, h, hlo, hhi]

/-! ### Intervals with equal bounds -/

omit [LawfulBound α] in
theorem beq_iff : (a == b) = true ↔ Bound.eq a.lo b.lo = true ∧ Bound.eq a.hi b.hi = true :=
  Bool.and_eq_true_iff

theorem beq_trans (h₁ : (a == b) = true) (h₂ : (b == c) = true) : (a == c) = true := by
  rw [beq_iff, eq_iff, eq_iff] at *
  exact ⟨⟨trans h₁.1.1 h₂.1.1, trans h₂.1.2 h₁.1.2⟩,
    ⟨trans h₁.2.1 h₂.2.1, trans h₂.2.2 h₁.2.2⟩⟩

theorem isEmpty_of_beq (h : (a == b) = true) (ha : a.isEmpty = true) : b.isEmpty = true := by
  rw [beq_iff, eq_iff, eq_iff] at h
  by_contra hb
  have hle := isEmpty_eq_false.1 (Bool.eq_false_iff.2 hb)
  have hle' : Bound.le a.lo a.hi = true := trans h.1.1 (trans hle h.2.2)
  rw [isEmpty_eq_false.2 hle'] at ha
  exact Bool.false_ne_true ha

/-- What an interval subsumes depends on its bounds as points of the order. -/
theorem subsumes_of_beq_left (hac : (a == c) = true) (h : a.subsumes b = true) :
    c.subsumes b = true := by
  rw [subsumes_iff] at h ⊢
  rw [beq_iff, eq_iff, eq_iff] at hac
  exact h.imp_right fun ⟨hle, hlo, hhi⟩ =>
    ⟨trans hac.1.2 (trans hle hac.2.1), trans hac.1.2 hlo, trans hhi hac.2.1⟩

/-- Whether an interval is subsumed depends on its bounds as points of the order. -/
theorem subsumes_of_beq_right (hbc : (b == c) = true) (h : a.subsumes b = true) :
    a.subsumes c = true := by
  rw [subsumes_iff] at h ⊢
  rcases h with h | ⟨hle, hlo, hhi⟩
  · exact .inl (isEmpty_of_beq hbc h)
  · rw [beq_iff, eq_iff, eq_iff] at hbc
    exact .inr ⟨hle, trans hlo hbc.1.1, trans hbc.2.2 hhi⟩

end Interval

/-! ## Values -/

namespace Value

variable {u v w : Value}

theorem subsumes_self (v : Value) : v.subsumes v = true := by
  cases v <;> exact Interval.subsumes_self _

theorem join_subsumes_left (h : v.type = w.type) : (v.join w).subsumes v = true := by
  cases v <;> cases w
  · exact Interval.join_subsumes_left _ _
  · cases h
  · cases h
  · exact Interval.join_subsumes_left _ _

theorem join_subsumes_right (v w : Value) : (v.join w).subsumes w = true := by
  cases v <;> cases w
  · exact Interval.join_subsumes_right _ _
  · exact subsumes_self _
  · exact subsumes_self _
  · exact Interval.join_subsumes_right _ _

theorem widen_subsumes_join (v w : Value) : (v.widen w).subsumes (v.join w) = true := by
  cases v <;> cases w
  · exact Interval.widen_subsumes_join _ _
  · exact subsumes_self _
  · exact subsumes_self _
  · exact Interval.widen_subsumes_join _ _

theorem join_self (v : Value) : v.join v = v := by
  cases v <;> exact congrArg _ (Interval.join_self _)

theorem join_join_right (v w : Value) : (v.join w).join w = v.join w := by
  cases v <;> cases w
  · exact congrArg _ (Interval.join_join_right _ _)
  · exact join_self _
  · exact join_self _
  · exact congrArg _ (Interval.join_join_right _ _)

/-! ### Values that are alike -/

/-- The values are identical, or they compare as equal. -/
def Alike (v w : Value) : Prop := v = w ∨ (v == w) = true

theorem beq_trans (h₁ : (u == v) = true) (h₂ : (v == w) = true) : (u == w) = true := by
  cases u <;> cases v <;> cases w
  · exact Interval.beq_trans h₁ h₂
  · exact h₂
  · cases h₁
  · cases h₁
  · cases h₁
  · cases h₁
  · exact h₂
  · exact Interval.beq_trans h₁ h₂

theorem Alike.refl (v : Value) : v.Alike v := .inl rfl

theorem Alike.symm (h : v.Alike w) : w.Alike v := h.imp Eq.symm beq_symm

theorem Alike.trans (h₁ : u.Alike v) (h₂ : v.Alike w) : u.Alike w := by
  rcases h₁ with rfl | h₁
  · exact h₂
  · rcases h₂ with rfl | h₂
    · exact .inr h₁
    · exact .inr (beq_trans h₁ h₂)

theorem Alike.subsumes_left (h : u.Alike v) (hs : u.subsumes w = true) : v.subsumes w = true := by
  rcases h with rfl | h
  · exact hs
  · cases u <;> cases v <;> cases w
    · exact Interval.subsumes_of_beq_left h hs
    · cases hs
    · cases h
    · cases h
    · cases h
    · cases h
    · cases hs
    · exact Interval.subsumes_of_beq_left h hs

theorem Alike.subsumes_right (h : v.Alike w) (hs : u.subsumes v = true) : u.subsumes w = true := by
  rcases h with rfl | h
  · exact hs
  · cases u <;> cases v <;> cases w
    · exact Interval.subsumes_of_beq_right h hs
    · cases h
    · cases hs
    · cases hs
    · cases hs
    · cases hs
    · cases h
    · exact Interval.subsumes_of_beq_right h hs

end Value
end Symbolic
end FlowVerifier
