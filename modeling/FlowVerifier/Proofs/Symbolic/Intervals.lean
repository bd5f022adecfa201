import FlowVerifier.Proofs.Symbolic.Bounds

/-!
# Members of intervals

What the operations on intervals do to their members, for bounds that keep the
laws of `LawfulBound`.  An interval that has a member is not empty, and its bounds
are proper.

* `contains_of_subsumes`, `contains_widen` and `contains_join`: larger intervals.
* `related_of_must` and `not_related_of_cant`: the verdicts of `canMeet` are right
  for all members.
* `contains_clip`: clipping drops no member that satisfies the relation, if neighbours keep
  the laws of `LawfulNeighbours`.
-/

namespace FlowVerifier
namespace Symbolic
namespace Interval

open LawfulBound LawfulNeighbours

variable {α : Type} [Bound α] [LawfulBound α] {a b : Interval α} {x y u v : α}

/-! ## Members -/

omit [LawfulBound α] in
theorem contains_iff : a.contains x = true ↔ Bound.le a.lo x = true ∧ Bound.le x a.hi = true := by
  simp [contains]

/-- A member is proper. -/
theorem proper_of_contains (h : a.contains x = true) : Bound.le x x = true :=
  proper_right (contains_iff.1 h).1

/-- An interval with a member is not empty. -/
theorem isEmpty_of_contains (h : a.contains x = true) : a.isEmpty = false := by
  obtain ⟨hlo, hhi⟩ := contains_iff.1 h
  simp [isEmpty, trans hlo hhi]

omit [LawfulBound α] in
theorem isEmpty_eq_false : a.isEmpty = false ↔ Bound.le a.lo a.hi = true := by
  rw [isEmpty, Bool.not_eq_false']

theorem contains_lo (ha : a.isEmpty = false) : a.contains a.lo = true := by
  have hle := isEmpty_eq_false.1 ha
  exact contains_iff.2 ⟨proper_left hle, hle⟩

theorem contains_hi (ha : a.isEmpty = false) : a.contains a.hi = true := by
  have hle := isEmpty_eq_false.1 ha
  exact contains_iff.2 ⟨hle, proper_right hle⟩

/-- Both bounds are proper. -/
def Proper (a : Interval α) : Prop := Bound.le a.lo a.lo = true ∧ Bound.le a.hi a.hi = true

theorem proper_of_isEmpty (h : a.isEmpty = false) : a.Proper :=
  ⟨proper_left (isEmpty_eq_false.1 h), proper_right (isEmpty_eq_false.1 h)⟩

/-- The interval without values has no members that others lack. -/
theorem contains_of_empty (ha : a.Proper) (hx : (empty : Interval α).contains x = true) :
    a.contains x = true := by
  obtain ⟨hlo, hhi⟩ := contains_iff.1 hx
  exact contains_iff.2 ⟨trans (le_highest ha.1) hlo, trans hhi (lowest_le ha.2)⟩

omit [LawfulBound α] in
theorem contains_point (hx : Bound.le x x = true) : (point x).contains x = true :=
  contains_iff.2 ⟨hx, hx⟩

theorem contains_full (hx : Bound.le x x = true) : (full : Interval α).contains x = true :=
  contains_iff.2 ⟨lowest_le hx, le_highest hx⟩

/-- The members of a determinate interval are its single value. -/
theorem eq_of_isDeterminate (hd : a.isDeterminate = true) (h : a.contains x = true) :
    Bound.eq x a.lo = true ∧ Bound.eq x a.hi = true := by
  obtain ⟨hlo, hhi⟩ := contains_iff.1 h
  obtain ⟨hle, hge⟩ := eq_iff.1 hd
  exact ⟨eq_iff.2 ⟨trans hhi hge, hlo⟩, eq_iff.2 ⟨hhi, trans hge hlo⟩⟩

/-! ## Ends -/

theorem lesser_le_left (hu : Bound.le u u = true) : Bound.le (lesser u v) u = true := by
  unfold lesser
  split
  · exact le_of_lt ‹_›
  · exact hu

theorem lesser_le_right (hu : Bound.le u u = true) (hv : Bound.le v v = true) :
    Bound.le (lesser u v) v = true := by
  unfold lesser
  split
  · exact hv
  · exact (le_or_lt hu hv).resolve_right ‹_›

theorem le_greater_left (hu : Bound.le u u = true) : Bound.le u (greater u v) = true := by
  unfold greater
  split
  · exact le_of_lt ‹_›
  · exact hu

theorem le_greater_right (hu : Bound.le u u = true) (hv : Bound.le v v = true) :
    Bound.le v (greater u v) = true := by
  unfold greater
  split
  · exact hv
  · exact (le_or_lt hv hu).resolve_right ‹_›

omit [LawfulBound α] in
theorem le_lesser (h₁ : Bound.le x u = true) (h₂ : Bound.le x v = true) :
    Bound.le x (lesser u v) = true := by
  unfold lesser
  split <;> assumption

omit [LawfulBound α] in
theorem greater_le (h₁ : Bound.le u x = true) (h₂ : Bound.le v x = true) :
    Bound.le (greater u v) x = true := by
  unfold greater
  split <;> assumption

/-! ## Larger intervals -/

/-- **Subsumption.**  A member of an interval is a member of one that subsumes it. -/
theorem contains_of_subsumes (hs : a.subsumes b = true) (h : b.contains x = true) :
    a.contains x = true := by
  obtain ⟨hlo, hhi⟩ := contains_iff.1 h
  rw [subsumes, isEmpty_of_contains h, Bool.false_or, Bool.and_eq_true, Bool.and_eq_true] at hs
  exact contains_iff.2 ⟨trans hs.1.2 hlo, trans hhi hs.2⟩

theorem beq_symm (hab : (a == b) = true) : (b == a) = true := by
  change (Bound.eq a.lo b.lo && Bound.eq a.hi b.hi) = true at hab
  show (Bound.eq b.lo a.lo && Bound.eq b.hi a.hi) = true
  rw [Bool.and_eq_true, eq_iff, eq_iff] at hab ⊢
  exact ⟨hab.1.symm, hab.2.symm⟩

/-- Intervals with equal bounds have the same members. -/
theorem contains_of_beq (hab : (a == b) = true) (h : b.contains x = true) :
    a.contains x = true := by
  change (Bound.eq a.lo b.lo && Bound.eq a.hi b.hi) = true at hab
  rw [Bool.and_eq_true, eq_iff, eq_iff] at hab
  obtain ⟨hlo, hhi⟩ := contains_iff.1 h
  exact contains_iff.2 ⟨trans hab.1.1 hlo, trans hhi hab.2.2⟩

/-- Widening keeps the members of the newer interval. -/
theorem contains_widen (h : b.contains x = true) : (a.widen b).contains x = true := by
  obtain ⟨hlo, hhi⟩ := contains_iff.1 h
  have hx := proper_of_contains h
  unfold widen
  split
  · exact h
  · rename_i ha
    rw [isEmpty_of_contains h, if_neg (by decide)]
    have hle : Bound.le a.lo a.hi = true := by simpa [isEmpty] using ha
    refine contains_iff.2 ⟨?_, ?_⟩
    · dsimp only
      split
      · exact lowest_le hx
      · rename_i hlt
        exact trans ((le_or_lt (proper_left hle) (proper_left hlo)).resolve_right hlt) hlo
    · dsimp only
      split
      · exact le_highest hx
      · rename_i hlt
        exact trans hhi ((le_or_lt (proper_right hhi) (proper_right hle)).resolve_right hlt)

/-- Widening keeps the members of the older interval. -/
theorem contains_widen_left (h : a.contains x = true) : (a.widen b).contains x = true := by
  obtain ⟨hlo, hhi⟩ := contains_iff.1 h
  have hx := proper_of_contains h
  unfold widen
  rw [isEmpty_of_contains h, if_neg (by decide)]
  split
  · exact h
  · refine contains_iff.2 ⟨?_, ?_⟩
    · dsimp only
      split
      · exact lowest_le hx
      · exact hlo
    · dsimp only
      split
      · exact le_highest hx
      · exact hhi

/-- Joining keeps the members of either interval. -/
theorem contains_join (h : a.contains x = true ∨ b.contains x = true) :
    (a.join b).contains x = true := by
  unfold join
  split
  · rename_i ha
    refine h.resolve_left fun hax => ?_
    rw [isEmpty_of_contains hax] at ha
    exact absurd ha (by decide)
  · rename_i ha
    split
    · rename_i hb
      refine h.resolve_right fun hbx => ?_
      rw [isEmpty_of_contains hbx] at hb
      exact absurd hb (by decide)
    · rename_i hb
      have hale : Bound.le a.lo a.hi = true := by simpa [isEmpty] using ha
      have hble : Bound.le b.lo b.hi = true := by simpa [isEmpty] using hb
      rcases h with h | h <;> obtain ⟨hlo, hhi⟩ := contains_iff.1 h
      · exact contains_iff.2 ⟨trans (lesser_le_left (proper_left hale)) hlo,
          trans hhi (le_greater_left (proper_right hale))⟩
      · exact contains_iff.2
          ⟨trans (lesser_le_right (proper_left hale) (proper_left hble)) hlo,
            trans hhi (le_greater_right (proper_right hale) (proper_right hble))⟩

omit [LawfulBound α] in
/-- The common members are those of the meet. -/
theorem contains_meet (ha : a.contains x = true) (hb : b.contains x = true) :
    (a.meet b).contains x = true := by
  obtain ⟨halo, hahi⟩ := contains_iff.1 ha
  obtain ⟨hblo, hbhi⟩ := contains_iff.1 hb
  exact contains_iff.2 ⟨greater_le halo hblo, le_lesser hahi hbhi⟩

/-! ## Relations between members -/

theorem related_of_mustMeet {op : RelOp} (hm : a.mustMeet op b = true)
    (ha : a.contains x = true) (hb : b.contains y = true) : related op x y = true := by
  obtain ⟨halo, hahi⟩ := contains_iff.1 ha
  obtain ⟨hblo, hbhi⟩ := contains_iff.1 hb
  cases op with
  | lt => exact lt_of_le_of_lt hahi (lt_of_lt_of_le hm hblo)
  | le => exact trans hahi (trans hm hblo)
  | gt => exact lt_of_le_of_lt hbhi (lt_of_lt_of_le hm halo)
  | ge => exact trans hbhi (trans hm halo)
  | eq =>
      simp only [mustMeet, Bool.and_eq_true] at hm
      obtain ⟨hxl, -⟩ := eq_of_isDeterminate hm.1.1 ha
      obtain ⟨hyl, -⟩ := eq_of_isDeterminate hm.1.2 hb
      rw [LawfulBound.eq_comm] at hyl
      exact related_trans_eq hxl (related_trans_eq (r := .eq) hm.2 hyl)
  | ne =>
      simp only [mustMeet, Bool.or_eq_true] at hm
      simp only [related, Bool.or_eq_true]
      exact hm.imp (fun h => lt_of_le_of_lt hahi (lt_of_lt_of_le h hblo))
        (fun h => lt_of_le_of_lt hbhi (lt_of_lt_of_le h halo))

/-- A relation that must hold holds between all members. -/
theorem related_of_must {op : RelOp} (hm : a.canMeet op b = .must) (ha : a.contains x = true)
    (hb : b.contains y = true) : related op x y = true := by
  rw [canMeet, isEmpty_of_contains ha, isEmpty_of_contains hb] at hm
  by_cases h : a.mustMeet op b = true
  · exact related_of_mustMeet h ha hb
  · by_cases hn : a.mustMeet op.negate b = true <;> simp [h, hn] at hm

/-- A relation that cannot hold holds between no members. -/
theorem not_related_of_cant {op : RelOp} (hm : a.canMeet op b = .cant) (ha : a.contains x = true)
    (hb : b.contains y = true) : related op x y = false := by
  rw [canMeet, isEmpty_of_contains ha, isEmpty_of_contains hb] at hm
  by_cases h : a.mustMeet op b = true
  · simp [h] at hm
  · by_cases hn : a.mustMeet op.negate b = true
    · have hr := related_of_mustMeet hn ha hb
      rwa [related_negate op (proper_of_contains ha) (proper_of_contains hb),
        Bool.not_eq_true'] at hr
    · simp [h, hn] at hm

/-! ## Clipping -/

omit [LawfulBound α] in
theorem point?_eq_some (h : b.point? = some v) : b.isDeterminate = true ∧ b.lo = v := by
  unfold point? at h
  split at h
  · exact ⟨‹_›, Option.some.inj h⟩
  · exact absurd h (by simp)

omit [LawfulBound α] in
/-- **Clipping** drops no member that satisfies the relation. -/
theorem contains_clip [LawfulNeighbours α] {op : RelOp} (ha : a.contains x = true)
    (hb : b.contains y = true)
    (h : related op x y = true) : (a.clip op b).contains x = true := by
  obtain ⟨halo, hahi⟩ := contains_iff.1 ha
  obtain ⟨hblo, hbhi⟩ := contains_iff.1 hb
  unfold clip
  rw [isEmpty_of_contains hb, if_neg (by decide)]
  cases op with
  | lt => exact contains_iff.2 ⟨halo, le_lesser hahi (le_prev (lt_of_lt_of_le h hbhi))⟩
  | le => exact contains_iff.2 ⟨halo, le_lesser hahi (trans h hbhi)⟩
  | gt => exact contains_iff.2 ⟨greater_le halo (next_le (lt_of_le_of_lt hblo h)), hahi⟩
  | ge => exact contains_iff.2 ⟨greater_le halo (trans hblo h), hahi⟩
  | eq =>
      obtain ⟨hxy, hyx⟩ := eq_iff.1 h
      exact contains_meet ha (contains_iff.2 ⟨trans hblo hyx, trans hxy hbhi⟩)
  | ne =>
      -- the single value of `b` is `y`, from which `x` differs
      dsimp only
      split
      · exact ha
      · rename_i v hv
        obtain ⟨hd, rfl⟩ := point?_eq_some hv
        obtain ⟨hyl, -⟩ := eq_of_isDeterminate hd hb
        obtain ⟨hyb, hby⟩ := eq_iff.1 hyl
        simp only [related, Bool.or_eq_true] at h
        have hne : Bound.lt x b.lo = true ∨ Bound.lt b.lo x = true :=
          h.imp (lt_of_lt_of_le · hyb) (lt_of_le_of_lt hby)
        have hno : ∀ {w : α}, Bound.lt w w = true → False := by
          intro w hw
          obtain ⟨hle, -, hnle⟩ := lt_iff.1 hw
          rw [hle] at hnle
          exact absurd hnle (by decide)
        have habove : Bound.eq b.lo a.lo = true → Bound.lt a.lo x = true := by
          intro heq
          obtain ⟨hba, hab⟩ := eq_iff.1 heq
          rcases hne with hlt | hgt
          · exact (hno (lt_of_lt_of_le hlt (trans hba halo))).elim
          · exact lt_of_le_of_lt hab hgt
        have hbelow : Bound.eq b.lo a.hi = true → Bound.lt x a.hi = true := by
          intro heq
          obtain ⟨hba, hab⟩ := eq_iff.1 heq
          rcases hne with hlt | hgt
          · exact lt_of_lt_of_le hlt hba
          · exact (hno (lt_of_lt_of_le hgt (trans hahi hab))).elim
        split
        · rename_i hboth
          rw [Bool.and_eq_true] at hboth
          have h₁ := habove hboth.1
          have h₂ := hbelow hboth.2
          obtain ⟨hba, hab⟩ := eq_iff.1 hboth.1
          obtain ⟨hbh, hhb⟩ := eq_iff.1 hboth.2
          exact (hno (lt_of_lt_of_le (lt_of_lt_of_le h₁ (le_of_lt h₂)) (trans hhb hba))).elim
        · split
          · exact contains_iff.2 ⟨next_le (habove ‹_›), hahi⟩
          · split
            · exact contains_iff.2 ⟨halo, le_prev (hbelow ‹_›)⟩
            · exact ha

end Interval
end Symbolic
end FlowVerifier
