import FlowVerifier.Folding
import FlowVerifier.Proofs.Double.Order
import FlowVerifier.Symbolic.Interval

/-!
# Bounds as an order

What intervals rely on: bounds form a total order with ends, and the neighbours of
a bound leave nothing out between.  A bound may be *improper*, as a NaN is: it
compares with nothing, not even with itself.

* `LawfulBound` states the laws of the order and `LawfulNeighbours` those of neighbours;
  numbers and strings keep them.
* `related` is a relation between two bounds, and the calculus of relations
  (`related_negate`, `related_flip`, `related_of_implies`, `related_of_compose`)
  holds of it.
* `fold_number` and `fold_string` say that the tests of a running program are
  relations between bounds.
-/

namespace FlowVerifier
namespace Symbolic

/-! ## Laws -/

/-- The laws of the order.  A bound is proper if it is not above itself. -/
class LawfulBound (α : Type) [Bound α] : Prop where
  proper_left {a b : α} : Bound.le a b = true → Bound.le a a = true
  proper_right {a b : α} : Bound.le a b = true → Bound.le b b = true
  trans {a b c : α} : Bound.le a b = true → Bound.le b c = true → Bound.le a c = true
  total {a b : α} : Bound.le a a = true → Bound.le b b = true →
    Bound.le a b = true ∨ Bound.le b a = true
  lt_iff {a b : α} : Bound.lt a b = true ↔
    Bound.le a a = true ∧ Bound.le b b = true ∧ Bound.le b a = false
  eq_iff {a b : α} : Bound.eq a b = true ↔ Bound.le a b = true ∧ Bound.le b a = true
  lowest_le {a : α} : Bound.le a a = true → Bound.le Bound.lowest a = true
  le_highest {a : α} : Bound.le a a = true → Bound.le a Bound.highest = true

/-- The laws of neighbours.  The neighbour of a bound is the bound itself, or lies on its
side with nothing in between. -/
class LawfulNeighbours (α : Type) [Bound α] : Prop extends LawfulBound α where
  le_next {a : α} : Bound.le a a = true → Bound.le a (Bound.next a) = true
  prev_le {a : α} : Bound.le a a = true → Bound.le (Bound.prev a) a = true
  next_le {a b : α} : Bound.lt a b = true → Bound.le (Bound.next a) b = true
  le_prev {a b : α} : Bound.lt a b = true → Bound.le a (Bound.prev b) = true

instance : LawfulBound Double where
  proper_left h := by
    simp only [Bound.le, Double.le_iff] at h ⊢
    exact ⟨h.1, h.1, Int.le_refl _⟩
  proper_right h := by
    simp only [Bound.le, Double.le_iff] at h ⊢
    exact ⟨h.2.1, h.2.1, Int.le_refl _⟩
  trans h₁ h₂ := by
    simp only [Bound.le, Double.le_iff] at h₁ h₂ ⊢
    exact ⟨h₁.1, h₂.2.1, Int.le_trans h₁.2.2 h₂.2.2⟩
  total h₁ h₂ := by
    simp only [Bound.le, Double.le_iff] at h₁ h₂ ⊢
    exact (Int.le_total _ _).imp (⟨h₁.1, h₂.1, ·⟩) (⟨h₂.1, h₁.1, ·⟩)
  lt_iff := by
    intro a b
    rw [← Bool.not_eq_true]
    simp only [Bound.lt, Bound.le, Double.lt_iff, Double.le_iff]
    constructor
    · rintro ⟨ha, hb, h⟩
      exact ⟨⟨ha, ha, Int.le_refl _⟩, ⟨hb, hb, Int.le_refl _⟩,
        fun h' => absurd h'.2.2 (Int.not_le.2 h)⟩
    · rintro ⟨ha, hb, h⟩
      exact ⟨ha.1, hb.1, Int.not_le.1 fun hle => h ⟨hb.1, ha.1, hle⟩⟩
  eq_iff := by
    intro a b
    simp only [Bound.eq, Bound.le, Double.beq_iff, Double.le_iff]
    constructor
    · rintro ⟨ha, hb, h⟩
      exact ⟨⟨ha, hb, Int.le_of_eq h⟩, hb, ha, Int.le_of_eq h.symm⟩
    · rintro ⟨⟨ha, hb, h⟩, -, -, h'⟩
      exact ⟨ha, hb, Int.le_antisymm h h'⟩
  lowest_le h := by
    simp only [Bound.le, Bound.lowest, Double.le_iff] at h ⊢
    exact ⟨Double.isNaN_negInfinity, h.1, Double.rank_negInfinity ▸ (Double.rank_bounds h.1).1⟩
  le_highest h := by
    simp only [Bound.le, Bound.highest, Double.le_iff] at h ⊢
    exact ⟨h.1, Double.isNaN_infinity, Double.rank_infinity ▸ (Double.rank_bounds h.1).2⟩

instance : LawfulNeighbours Double where
  le_next h := by
    simp only [Bound.le, Bound.next, Double.le_iff] at h ⊢
    have hb := Double.rank_bounds h.1
    refine ⟨h.1, Double.isNaN_next h.1, ?_⟩
    rw [Double.rank_next h.1]
    omega
  prev_le h := by
    simp only [Bound.le, Bound.prev, Double.le_iff] at h ⊢
    have hb := Double.rank_bounds h.1
    refine ⟨Double.isNaN_prev h.1, h.1, ?_⟩
    rw [Double.rank_prev h.1]
    omega
  next_le h := by
    simp only [Bound.lt, Bound.le, Bound.next, Double.lt_iff, Double.le_iff] at h ⊢
    refine ⟨Double.isNaN_next h.1, h.2.1, ?_⟩
    rw [Double.rank_next h.1]
    omega
  le_prev h := by
    simp only [Bound.lt, Bound.le, Bound.prev, Double.lt_iff, Double.le_iff] at h ⊢
    refine ⟨h.1, Double.isNaN_prev h.2.1, ?_⟩
    rw [Double.rank_prev h.2.1]
    omega

namespace TextBound

variable {a b c : TextBound}

theorem str_le_str {s t : String} : (str s).le (str t) = true ↔ s ≤ t := by
  rw [le, lt, Bool.not_eq_true', decide_eq_false_iff_not]
  exact Iff.rfl

theorem le_top (a : TextBound) : a.le top = true := by
  cases a <;> rfl

theorem top_le_iff : top.le a = true ↔ a = top := by
  cases a <;> simp [le, lt]

theorem le_refl (a : TextBound) : a.le a = true := by
  cases a with
  | str s => exact str_le_str.2 (String.le_refl s)
  | top => rfl

theorem le_trans (h₁ : a.le b = true) (h₂ : b.le c = true) : a.le c = true := by
  cases c with
  | top => exact le_top a
  | str u =>
      cases b with
      | top => exact absurd (top_le_iff.1 h₂) (by simp)
      | str t =>
          cases a with
          | top => exact absurd (top_le_iff.1 h₁) (by simp)
          | str s => exact str_le_str.2 (String.le_trans (str_le_str.1 h₁) (str_le_str.1 h₂))

theorem le_total (a b : TextBound) : a.le b = true ∨ b.le a = true := by
  cases a with
  | top => exact .inr (le_top b)
  | str s =>
      cases b with
      | top => exact .inl (le_top _)
      | str t => exact (String.le_total s t).imp str_le_str.2 str_le_str.2

theorem le_antisymm (h₁ : a.le b = true) (h₂ : b.le a = true) : a = b := by
  cases a with
  | top => exact (top_le_iff.1 h₁).symm
  | str s =>
      cases b with
      | top => exact top_le_iff.1 h₂
      | str t => rw [String.le_antisymm (str_le_str.1 h₁) (str_le_str.1 h₂)]

end TextBound

instance : LawfulBound TextBound where
  proper_left _ := TextBound.le_refl _
  proper_right _ := TextBound.le_refl _
  trans := TextBound.le_trans
  total _ _ := TextBound.le_total _ _
  lt_iff := by
    intro a b
    simp only [Bound.lt, Bound.le, TextBound.le_refl, true_and]
    simp [TextBound.le]
  eq_iff := by
    intro a b
    simp only [Bound.eq, Bound.le, decide_eq_true_eq]
    constructor
    · rintro rfl
      exact ⟨TextBound.le_refl a, TextBound.le_refl a⟩
    · rintro ⟨h₁, h₂⟩
      exact TextBound.le_antisymm h₁ h₂
  lowest_le := by
    intro a _
    cases a with
    | str s =>
        simp only [Bound.le, Bound.lowest, TextBound.le, TextBound.lt]
        have h : ¬ s < "" := List.not_lt_nil s.toList
        simp [h]
    | top => rfl
  le_highest := by
    intro a _
    cases a <;> simp [Bound.le, Bound.highest, TextBound.le, TextBound.lt]

instance : LawfulNeighbours TextBound where
  le_next := id
  prev_le := id
  next_le := by
    intro a b h
    simp only [Bound.lt, Bound.le, Bound.next, id] at h ⊢
    refine (TextBound.le_total a b).resolve_right fun hle => ?_
    simp [TextBound.le, h] at hle
  le_prev := by
    intro a b h
    simp only [Bound.lt, Bound.le, Bound.prev, id] at h ⊢
    refine (TextBound.le_total a b).resolve_right fun hle => ?_
    simp [TextBound.le, h] at hle

/-! ## Relations -/

variable {α : Type} [Bound α]

/-- Does a relation hold between two bounds? -/
def related (op : RelOp) (a b : α) : Bool :=
  match op with
  | .lt => Bound.lt a b
  | .le => Bound.le a b
  | .gt => Bound.lt b a
  | .ge => Bound.le b a
  | .eq => Bound.eq a b
  | .ne => Bound.lt a b || Bound.lt b a

variable [LawfulBound α] {a b c : α}

/-- One of two proper bounds is not above the other. -/
theorem LawfulBound.le_or_lt (ha : Bound.le a a = true) (hb : Bound.le b b = true) :
    Bound.le a b = true ∨ Bound.lt b a = true := by
  cases h : Bound.le a b with
  | true => exact .inl rfl
  | false => exact .inr (LawfulBound.lt_iff.2 ⟨hb, ha, h⟩)

theorem LawfulBound.le_of_lt (h : Bound.lt a b = true) : Bound.le a b = true := by
  obtain ⟨ha, hb, hba⟩ := LawfulBound.lt_iff.1 h
  exact (LawfulBound.total ha hb).resolve_right (by simp [hba])

theorem LawfulBound.lt_of_lt_of_le (h : Bound.lt a b = true) (h' : Bound.le b c = true) :
    Bound.lt a c = true := by
  obtain ⟨ha, hb, hba⟩ := LawfulBound.lt_iff.1 h
  refine LawfulBound.lt_iff.2 ⟨ha, LawfulBound.proper_right h', ?_⟩
  by_contra hca
  have := LawfulBound.trans h' (by simpa using hca)
  rw [hba] at this
  exact absurd this (by decide)

theorem LawfulBound.lt_of_le_of_lt (h : Bound.le a b = true) (h' : Bound.lt b c = true) :
    Bound.lt a c = true := by
  obtain ⟨hb, hc, hcb⟩ := LawfulBound.lt_iff.1 h'
  refine LawfulBound.lt_iff.2 ⟨LawfulBound.proper_left h, hc, ?_⟩
  by_contra hca
  have := LawfulBound.trans (by simpa using hca) h
  rw [hcb] at this
  exact absurd this (by decide)

theorem LawfulBound.eq_comm : Bound.eq a b = Bound.eq b a := by
  rw [Bool.eq_iff_iff, LawfulBound.eq_iff, LawfulBound.eq_iff, and_comm]

/-- A relation seen from the other side. -/
theorem related_flip (op : RelOp) (a b : α) : related op.flip b a = related op a b := by
  cases op with
  | eq => exact LawfulBound.eq_comm
  | ne => exact Bool.or_comm _ _
  | _ => rfl

/-- Between proper bounds a relation or its negation holds. -/
theorem related_negate (op : RelOp) (ha : Bound.le a a = true) (hb : Bound.le b b = true) :
    related op.negate a b = !related op a b := by
  have hlt : Bound.lt a b = !Bound.le b a := by
    rw [Bool.eq_iff_iff, LawfulBound.lt_iff]
    simp [ha, hb]
  have hgt : Bound.lt b a = !Bound.le a b := by
    rw [Bool.eq_iff_iff, LawfulBound.lt_iff]
    simp [ha, hb]
  have heq : Bound.eq a b = (Bound.le a b && Bound.le b a) := by
    rw [Bool.eq_iff_iff, LawfulBound.eq_iff, Bool.and_eq_true]
  cases op <;> simp only [related, RelOp.negate, hlt, hgt, heq] <;>
    cases Bound.le a b <;> cases Bound.le b a <;> rfl

/-- What implies a relation, implies it of bounds. -/
theorem related_of_implies {r s : RelOp} (h : r.implies s = true) (hr : related r a b = true) :
    related s a b = true := by
  cases r <;> cases s <;> simp only [RelOp.implies, Bool.false_eq_true] at h <;>
    simp only [related, Bool.or_eq_true, LawfulBound.eq_iff] at hr ⊢ <;>
    first
      | exact hr
      | exact LawfulBound.le_of_lt hr
      | exact .inl hr
      | exact .inr hr
      | exact hr.1
      | exact hr.2

theorem related_trans_eq {r : RelOp} (h₁ : Bound.eq a b = true) (h₂ : related r b c = true) :
    related r a c = true := by
  obtain ⟨hab, hba⟩ := LawfulBound.eq_iff.1 h₁
  cases r <;> simp only [related, Bool.or_eq_true, LawfulBound.eq_iff] at h₂ ⊢
  · exact LawfulBound.lt_of_le_of_lt hab h₂
  · exact LawfulBound.trans hab h₂
  · exact LawfulBound.lt_of_lt_of_le h₂ hba
  · exact LawfulBound.trans h₂ hba
  · exact ⟨LawfulBound.trans hab h₂.1, LawfulBound.trans h₂.2 hba⟩
  · exact h₂.imp (LawfulBound.lt_of_le_of_lt hab) (LawfulBound.lt_of_lt_of_le · hba)

/-- **Chains.**  What two relations compose to holds between the ends of a chain. -/
theorem related_of_compose {r s t : RelOp} (h : r.compose s = some t)
    (h₁ : related r a b = true) (h₂ : related s b c = true) : related t a c = true := by
  have heq : ∀ {r : RelOp}, related r a b = true → Bound.eq b c = true → related r a c = true := by
    intro r hr hbc
    have hcb : Bound.eq c b = true := by rwa [LawfulBound.eq_comm]
    rw [← related_flip]
    exact related_trans_eq hcb (by rwa [related_flip])
  cases r <;> cases s <;> simp only [RelOp.compose, reduceCtorEq, Option.some.injEq] at h <;>
    subst h <;>
    first
      | exact related_trans_eq h₁ h₂
      | exact heq h₁ h₂
      | exact LawfulBound.lt_of_lt_of_le h₁ (LawfulBound.le_of_lt h₂)
      | exact LawfulBound.lt_of_lt_of_le h₁ h₂
      | exact LawfulBound.lt_of_le_of_lt h₁ h₂
      | exact LawfulBound.trans h₁ h₂
      | exact LawfulBound.lt_of_lt_of_le h₂ (LawfulBound.le_of_lt h₁)
      | exact LawfulBound.lt_of_le_of_lt h₂ h₁
      | exact LawfulBound.lt_of_lt_of_le h₂ h₁
      | exact LawfulBound.trans h₂ h₁

/-- One of three relations holds between proper bounds. -/
theorem related_trichotomy (ha : Bound.le a a = true) (hb : Bound.le b b = true) :
    related .lt a b = true ∨ related .eq a b = true ∨ related .gt a b = true := by
  rcases LawfulBound.le_or_lt ha hb with h₁ | h₁
  · rcases LawfulBound.le_or_lt hb ha with h₂ | h₂
    · exact .inr (.inl (LawfulBound.eq_iff.2 ⟨h₁, h₂⟩))
    · exact .inl h₂
  · exact .inr (.inr h₁)

/-! ## Tests of a running program -/

/-- Numbers are related as the test of a program says. -/
theorem fold_number (op : RelOp) {a b : Double} (ha : a.isNaN = false) (hb : b.isNaN = false) :
    op.fold (.number a) (.number b) = .ok (related op a b) := by
  have hcomp : a.compare? b = some (compare a.rank b.rank) := by simp [Double.compare?, ha, hb]
  simp only [RelOp.fold, hcomp, Except.ok.injEq]
  rcases Int.lt_trichotomy a.rank b.rank with h | h | h
  · have : compare a.rank b.rank = .lt := Int.compare_eq_lt.2 h
    rw [this]
    cases op <;> simp [related, RelOp.holds, Bound.lt, Bound.le, Bound.eq, Double.lt, Double.le,
      Double.beq, ha, hb] <;> omega
  · have : compare a.rank b.rank = .eq := Int.compare_eq_eq.2 h
    rw [this]
    cases op <;> simp [related, RelOp.holds, Bound.lt, Bound.le, Bound.eq, Double.lt, Double.le,
      Double.beq, ha, hb] <;> omega
  · have : compare a.rank b.rank = .gt := Int.compare_eq_gt.2 h
    rw [this]
    cases op <;> simp [related, RelOp.holds, Bound.lt, Bound.le, Bound.eq, Double.lt, Double.le,
      Double.beq, ha, hb] <;> omega

/-- Strings are related as the test of a program says. -/
theorem fold_string (op : RelOp) (a b : String) :
    op.fold (.string a) (.string b) = .ok (related op (TextBound.str a) (TextBound.str b)) := by
  simp only [RelOp.fold, Except.ok.injEq]
  show op.holds (compareOfLessAndEq a b) = _
  unfold compareOfLessAndEq
  by_cases hlt : a < b
  · have hgt : ¬ b < a := String.lt_asymm hlt
    have hne : a ≠ b := String.ne_of_lt hlt
    rw [if_pos hlt]
    cases op <;> simp [related, RelOp.holds, Bound.lt, Bound.le, Bound.eq, TextBound.lt,
      TextBound.le, hlt, hgt, hne]
  · by_cases heq : a = b
    · subst heq
      rw [if_neg hlt, if_pos rfl]
      cases op <;> simp [related, RelOp.holds, Bound.lt, Bound.le, Bound.eq, TextBound.lt,
        TextBound.le]
    · have hgt : b < a := by
        by_contra hge
        exact heq (String.le_antisymm hge hlt)
      rw [if_neg hlt, if_neg heq]
      cases op <;> simp [related, RelOp.holds, Bound.lt, Bound.le, Bound.eq, TextBound.lt,
        TextBound.le, hlt, hgt, heq]

end Symbolic
end FlowVerifier
