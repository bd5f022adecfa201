import FlowVerifier.Proofs.Symbolic.IntervalArithmetic

/-!
# Comparing and clipping, exactly

The verdict of `canMeet` is not only right, it is the best there is: it is `must` exactly if
the relation holds between all members of the two intervals, `cant` exactly if it holds between
none, and `may` if it holds between some and fails between others (`canMeet_eq_iff`).

* `Satisfiability.Tells` is what a verdict says of two sets.
* `mustMeet_iff` is the test of the ends that decides a relation.  Where it fails, a pair of
  ends, or for a difference a common member, is the example.
* `top` is no string, and still the verdicts on textual intervals are exact for the strings in
  them (`canMeet_eq_iff_strings`): above every string there is another one, so that some
  string stands in for `top`.
* `ClipsSoundly` is what clipping does, and `clip_sound` says that it does.

The laws are put together in `comparison_exact`.
-/

namespace FlowVerifier
namespace Symbolic

open LawfulBound LawfulNeighbours

/-! ## What a verdict says -/

namespace Satisfiability

variable {α : Type} [Bound α] {s t : Satisfiability} {op : RelOp} {p q p' q' : α → Prop}

/-- What a verdict says of the members of two sets. -/
def Tells (s : Satisfiability) (op : RelOp) (p q : α → Prop) : Prop :=
  match s with
  | must => ∀ x y, p x → q y → related op x y = true
  | may => (∃ x y, p x ∧ q y ∧ related op x y = true) ∧
      ∃ x y, p x ∧ q y ∧ related op x y = false
  | cant => ∀ x y, p x → q y → related op x y = false

/-- Two verdicts on sets with members do not say different things. -/
theorem Tells.unique (hs : s.Tells op p q) (ht : t.Tells op p q) (hp : ∃ x, p x)
    (hq : ∃ y, q y) : s = t := by
  obtain ⟨x, hx⟩ := hp
  obtain ⟨y, hy⟩ := hq
  cases s with
  | must =>
      cases t with
      | must => rfl
      | may =>
          obtain ⟨u, v, hu, hv, hno⟩ := ht.2
          exact absurd (hs u v hu hv) (by simp [hno])
      | cant => exact absurd (hs x y hx hy) (by simp [ht x y hx hy])
  | may =>
      obtain ⟨⟨u, v, hu, hv, hyes⟩, u', v', hu', hv', hno⟩ := hs
      cases t with
      | must => exact absurd (ht u' v' hu' hv') (by simp [hno])
      | may => rfl
      | cant => exact absurd (ht u v hu hv) (by simp [hyes])
  | cant =>
      cases t with
      | must => exact absurd (hs x y hx hy) (by simp [ht x y hx hy])
      | may =>
          obtain ⟨u, v, hu, hv, hyes⟩ := ht.1
          exact absurd (hs u v hu hv) (by simp [hyes])
      | cant => rfl

/-- The negated relation is told of by the negated verdict. -/
theorem Tells.negate [LawfulBound α] (h : s.Tells op p q)
    (hp : ∀ x, p x → Bound.le x x = true) (hq : ∀ y, q y → Bound.le y y = true) :
    s.negate.Tells op.negate p q := by
  have hneg : ∀ {x y : α}, p x → q y → related op.negate x y = !related op x y :=
    fun hx hy => related_negate op (hp _ hx) (hq _ hy)
  cases s with
  | must =>
      intro x y hx hy
      rw [hneg hx hy, h x y hx hy]
      rfl
  | may =>
      obtain ⟨⟨x, y, hx, hy, hyes⟩, u, v, hu, hv, hno⟩ := h
      exact ⟨⟨u, v, hu, hv, by rw [hneg hu hv, hno]; rfl⟩,
        x, y, hx, hy, by rw [hneg hx hy, hyes]; rfl⟩
  | cant =>
      intro x y hx hy
      rw [hneg hx hy, h x y hx hy]
      rfl

/-- Smaller sets are told the same of if every pair of members has a stand-in. -/
theorem tells_iff_of_standIn (hp : ∀ x, p' x → p x) (hq : ∀ y, q' y → q y)
    (hstand : ∀ x y, p x → q y →
      ∃ x' y', p' x' ∧ q' y' ∧ related op x' y' = related op x y) :
    s.Tells op p q ↔ s.Tells op p' q' := by
  have hall : ∀ b : Bool, (∀ x y, p x → q y → related op x y = b) ↔
      ∀ x y, p' x → q' y → related op x y = b := by
    refine fun b => ⟨fun h x y hx hy => h x y (hp x hx) (hq y hy), fun h x y hx hy => ?_⟩
    obtain ⟨x', y', hx', hy', heq⟩ := hstand x y hx hy
    rw [← heq]
    exact h x' y' hx' hy'
  have hsome : ∀ b : Bool, (∃ x y, p x ∧ q y ∧ related op x y = b) ↔
      ∃ x y, p' x ∧ q' y ∧ related op x y = b := by
    refine fun b => ⟨?_, fun ⟨x, y, hx, hy, h⟩ => ⟨x, y, hp x hx, hq y hy, h⟩⟩
    rintro ⟨x, y, hx, hy, h⟩
    obtain ⟨x', y', hx', hy', heq⟩ := hstand x y hx hy
    exact ⟨x', y', hx', hy', heq.trans h⟩
  cases s with
  | must => exact hall true
  | may => exact and_congr (hsome true) (hsome false)
  | cant => exact hall false

end Satisfiability

/-! ## Verdicts on intervals -/

namespace Interval

section Verdicts

variable {α : Type} [Bound α] [LawfulBound α] {op : RelOp} {a b : Interval α} {x y : α}

theorem not_related_ne_self (hx : Bound.le x x = true) : related .ne x x = false := by
  rw [show RelOp.ne = RelOp.eq.negate from rfl, related_negate .eq hx hx]
  exact congrArg (!·) (eq_iff.2 ⟨hx, hx⟩)

/-- Intervals neither of which lies below the other share a member. -/
theorem exists_common (ha : a.isEmpty = false) (hb : b.isEmpty = false)
    (hab : Bound.lt a.hi b.lo = false) (hba : Bound.lt b.hi a.lo = false) :
    ∃ x, a.contains x = true ∧ b.contains x = true := by
  have hale := isEmpty_eq_false.1 ha
  have hble := isEmpty_eq_false.1 hb
  have hblo : Bound.le b.lo a.hi = true :=
    (le_or_lt (proper_left hble) (proper_right hale)).resolve_right (by simp [hab])
  have halo : Bound.le a.lo b.hi = true :=
    (le_or_lt (proper_left hale) (proper_right hble)).resolve_right (by simp [hba])
  refine ⟨greater a.lo b.lo, contains_iff.2 ⟨?_, greater_le hale hblo⟩,
    contains_iff.2 ⟨?_, greater_le halo hble⟩⟩
  · exact le_greater_left (proper_left hale)
  · exact le_greater_right (proper_left hale) (proper_left hble)

/-- **The ends decide** whether a relation holds between all members. -/
theorem mustMeet_iff (ha : a.isEmpty = false) (hb : b.isEmpty = false) :
    a.mustMeet op b = true ↔
      ∀ x y, a.contains x = true → b.contains y = true → related op x y = true := by
  refine ⟨fun h x y hx hy => related_of_mustMeet h hx hy, fun h => ?_⟩
  have halo := contains_lo ha
  have hahi := contains_hi ha
  have hblo := contains_lo hb
  have hbhi := contains_hi hb
  cases op with
  | lt => exact h a.hi b.lo hahi hblo
  | le => exact h a.hi b.lo hahi hblo
  | gt => exact h a.lo b.hi halo hbhi
  | ge => exact h a.lo b.hi halo hbhi
  | eq =>
      -- all four ends are equal
      have h₁ := h a.lo b.lo halo hblo
      have h₂ : Bound.eq a.hi b.lo = true := h a.hi b.lo hahi hblo
      have h₃ := h a.lo b.hi halo hbhi
      rw [LawfulBound.eq_comm] at h₂
      have hbb : Bound.eq b.lo b.hi = true := by
        have h₁' : Bound.eq b.lo a.lo = true := by rwa [LawfulBound.eq_comm]
        exact related_trans_eq (r := .eq) h₁' h₃
      simp only [mustMeet, Bool.and_eq_true]
      exact ⟨⟨related_trans_eq (r := .eq) h₁ h₂, hbb⟩, h₁⟩
  | ne =>
      by_contra hno
      simp only [mustMeet, Bool.or_eq_true, not_or, Bool.not_eq_true] at hno
      obtain ⟨x, hxa, hxb⟩ := exists_common ha hb hno.1 hno.2
      have hne := h x x hxa hxb
      rw [not_related_ne_self (proper_of_contains hxa)] at hne
      exact Bool.false_ne_true hne

/-- Where the ends do not decide, they show a pair that is not related. -/
theorem exists_of_not_mustMeet (ha : a.isEmpty = false) (hb : b.isEmpty = false)
    (h : ¬ a.mustMeet op b = true) :
    ∃ x y, a.contains x = true ∧ b.contains y = true ∧ related op x y = false := by
  by_contra hno
  refine h ((mustMeet_iff ha hb).2 fun x y hx hy => ?_)
  by_contra hr
  exact hno ⟨x, y, hx, hy, Bool.eq_false_iff.2 hr⟩

/-- **Verdicts are right**: what they say holds. -/
theorem canMeet_tells (ha : a.isEmpty = false) (hb : b.isEmpty = false) :
    (a.canMeet op b).Tells op (a.contains · = true) (b.contains · = true) := by
  have hneg : ∀ {x y : α}, a.contains x = true → b.contains y = true →
      related op.negate x y = !related op x y :=
    fun hx hy => related_negate op (proper_of_contains hx) (proper_of_contains hy)
  rw [canMeet, ha, hb, Bool.or_self, if_neg Bool.false_ne_true]
  split
  · rename_i hmust
    exact fun x y hx hy => related_of_mustMeet hmust hx hy
  · rename_i hmust
    split
    · rename_i hcant
      intro x y hx hy
      have hr := related_of_mustMeet hcant hx hy
      rwa [hneg hx hy, Bool.not_eq_true'] at hr
    · rename_i hcant
      obtain ⟨u, v, hu, hv, hr⟩ := exists_of_not_mustMeet ha hb hcant
      rw [hneg hu hv, Bool.not_eq_false'] at hr
      exact ⟨⟨u, v, hu, hv, hr⟩, exists_of_not_mustMeet ha hb hmust⟩

/-- **Verdicts are exact**: each is given exactly where what it says holds. -/
theorem canMeet_eq_iff (ha : a.isEmpty = false) (hb : b.isEmpty = false) (s : Satisfiability) :
    a.canMeet op b = s ↔ s.Tells op (a.contains · = true) (b.contains · = true) := by
  refine ⟨?_, fun h => ?_⟩
  · rintro rfl
    exact canMeet_tells ha hb
  · exact (canMeet_tells ha hb).unique h ⟨a.lo, contains_lo ha⟩ ⟨b.lo, contains_lo hb⟩

/-- The negated relation gets the negated verdict. -/
theorem canMeet_negate (ha : a.isEmpty = false) (hb : b.isEmpty = false) (op : RelOp) :
    a.canMeet op.negate b = (a.canMeet op b).negate :=
  (canMeet_eq_iff ha hb _).2
    ((canMeet_tells ha hb).negate (fun _ => proper_of_contains) fun _ => proper_of_contains)

end Verdicts

/-! ## Strings -/

section Strings

variable {op : RelOp} {a b : Interval TextBound} {x y x' y' : TextBound} {s t : String}

/-- The strings of a textual interval: its members but for `top`. -/
def HasString (a : Interval TextBound) (x : TextBound) : Prop := a.contains x = true ∧ x ≠ .top

theorem hasString_str (h : a.contains (.str s) = true) : a.HasString (.str s) :=
  ⟨h, TextBound.noConfusion⟩

/-- What lies strictly above a bound has the same relations to it. -/
theorem related_eq_of_gt (h : Bound.lt y x = true) (h' : Bound.lt y' x' = true) (op : RelOp) :
    related op x' y' = related op x y := by
  have hholds : ∀ {u v : TextBound}, Bound.lt v u = true →
      related op u v = op.holds .gt := by
    intro u v hlt
    have hle : Bound.le u v = false := (lt_iff.1 hlt).2.2
    have hge : Bound.le v u = true := le_of_lt hlt
    have hnlt : Bound.lt u v = false := by
      rw [← Bool.not_eq_true, lt_iff]
      simp [hge]
    have hne : Bound.eq u v = false := by
      rw [← Bool.not_eq_true, eq_iff]
      simp [hle]
    cases op <;> simp [related, RelOp.holds, hlt, hle, hge, hnlt, hne]
  rw [hholds h, hholds h']

/-- Every bound is related to itself in the same way. -/
theorem related_self (op : RelOp) (x : TextBound) : related op x x = op.holds .eq := by
  have hle : Bound.le x x = true := TextBound.le_refl x
  have hlt : Bound.lt x x = false := by
    rw [← Bool.not_eq_true, lt_iff]
    simp [hle]
  have heq : Bound.eq x x = true := eq_iff.2 ⟨hle, hle⟩
  cases op <;> simp [related, RelOp.holds, hle, hlt, heq]

/-- An interval that goes up to `top` holds whatever is above a member. -/
theorem contains_of_top (hx : a.contains x = true) (htop : a.contains .top = true)
    (h : Bound.le x y = true) : a.contains y = true := by
  obtain ⟨hlo, hhi⟩ := contains_iff.1 htop
  rw [contains_iff, TextBound.top_le_iff.1 hhi]
  exact ⟨trans (contains_iff.1 hx).1 h, TextBound.le_top y⟩

/-- Above every string there is another string, in every interval that goes up to `top`. -/
theorem exists_string_above (hs : a.contains (.str s) = true) (htop : a.contains .top = true)
    (t : String) :
    ∃ u, a.contains (.str u) = true ∧ Bound.lt (.str t) (TextBound.str u) = true := by
  have habove : ∀ s : String, Bound.lt (TextBound.str s) (.str (s ++ "a")) = true :=
    fun s => lt_append s (by decide)
  rcases TextBound.le_total (.str s) (.str t) with hle | hle
  · exact ⟨t ++ "a", contains_of_top hs htop (trans hle (le_of_lt (habove t))), habove t⟩
  · exact ⟨s ++ "a", contains_of_top hs htop (le_of_lt (habove s)),
      lt_of_le_of_lt hle (habove s)⟩

/-- Some string of an interval is related to a given string as any of its members is. -/
theorem exists_string_related (ht : b.contains (.str t) = true) (hy : b.contains y = true)
    (s : String) :
    ∃ y', b.HasString y' ∧ ∀ op, related op (.str s) y' = related op (.str s) y := by
  cases y with
  | str v => exact ⟨.str v, hasString_str hy, fun _ => rfl⟩
  | top =>
      obtain ⟨u, hu, hlt⟩ := exists_string_above ht hy s
      refine ⟨.str u, hasString_str hu, fun op => ?_⟩
      rw [← related_flip, ← related_flip op]
      exact related_eq_of_gt rfl hlt op.flip

/-- Any two members are related as some two strings are. -/
theorem exists_strings_related (hs : a.contains (.str s) = true) (ht : b.contains (.str t) = true)
    (hx : a.contains x = true) (hy : b.contains y = true) :
    ∃ x' y', a.HasString x' ∧ b.HasString y' ∧ ∀ op, related op x' y' = related op x y := by
  cases x with
  | str u =>
      obtain ⟨y', hy', heq⟩ := exists_string_related ht hy u
      exact ⟨.str u, y', hasString_str hx, hy', heq⟩
  | top =>
      cases y with
      | str v =>
          obtain ⟨u, hu, hlt⟩ := exists_string_above hs hx v
          exact ⟨.str u, .str v, hasString_str hu, hasString_str hy,
            fun op => related_eq_of_gt rfl hlt op⟩
      | top =>
          -- a string above one of either interval stands in for both
          obtain ⟨u, hu, hlt⟩ := exists_string_above hs hx t
          have hub := contains_of_top ht hy (le_of_lt hlt)
          refine ⟨.str u, .str u, hasString_str hu, hasString_str hub, fun op => ?_⟩
          rw [related_self, related_self]

/-- **Verdicts are exact for strings**, of which `top` is none. -/
theorem canMeet_eq_iff_strings (hs : a.contains (.str s) = true) (ht : b.contains (.str t) = true)
    (v : Satisfiability) : a.canMeet op b = v ↔ v.Tells op a.HasString b.HasString := by
  rw [canMeet_eq_iff (isEmpty_of_contains hs) (isEmpty_of_contains ht)]
  refine Satisfiability.tells_iff_of_standIn (fun _ h => h.1) (fun _ h => h.1) fun x y hx hy => ?_
  obtain ⟨x', y', hx', hy', heq⟩ := exists_strings_related hs ht hx hy
  exact ⟨x', y', hx', hy', heq op⟩

end Strings

/-! ## Clipping -/

section Clipping

variable {α : Type} [Bound α] [LawfulNeighbours α] {op : RelOp} {a b : Interval α} {x : α}

/-- What it means that clipping is sound: it adds nothing, and drops no member on either side
that satisfies the relation.  The weak relations and equality keep nothing else. -/
structure ClipsSoundly (op : RelOp) (a b : Interval α) : Prop where
  within : ∀ x, (a.clip op b).contains x = true → a.contains x = true
  keeps : ∀ x y, a.contains x = true → b.contains y = true → related op x y = true →
    (a.clip op b).contains x = true
  keepsOther : ∀ x y, a.contains x = true → b.contains y = true → related op x y = true →
    (b.clip op.flip a).contains y = true
  exact_of_weak : op = .le ∨ op = .ge ∨ op = .eq → ∀ x, (a.clip op b).contains x = true →
    ∃ y, b.contains y = true ∧ related op x y = true

/-- Trimming the ends of an interval adds nothing. -/
theorem contains_of_trimmed {lo hi : α} (hlo : Bound.le a.lo lo = true)
    (hhi : Bound.le hi a.hi = true) (h : (⟨lo, hi⟩ : Interval α).contains x = true) :
    a.contains x = true := by
  obtain ⟨h₁, h₂⟩ := contains_iff.1 h
  exact contains_iff.2 ⟨trans hlo h₁, trans h₂ hhi⟩

/-- **Clipping** adds nothing. -/
theorem contains_of_clip (ha : a.Proper) (h : (a.clip op b).contains x = true) :
    a.contains x = true := by
  unfold clip at h
  split at h
  · exact contains_of_empty ha h
  · cases op with
    | lt => exact contains_of_trimmed ha.1 (lesser_le_left ha.2) h
    | le => exact contains_of_trimmed ha.1 (lesser_le_left ha.2) h
    | gt => exact contains_of_trimmed (le_greater_left ha.1) ha.2 h
    | ge => exact contains_of_trimmed (le_greater_left ha.1) ha.2 h
    | eq => exact contains_of_trimmed (le_greater_left ha.1) (lesser_le_left ha.2) h
    | ne =>
        dsimp only at h
        split at h
        · exact h
        · split at h
          · exact contains_of_empty ha h
          · split at h
            · exact contains_of_trimmed (le_next ha.1) ha.2 h
            · split at h
              · exact contains_of_trimmed ha.1 (prev_le ha.2) h
              · exact h

/-- **Clipping** by a weak relation or by equality keeps only members that satisfy it. -/
theorem exists_of_clip (ha : a.Proper) (hb : b.Proper)
    (hop : op = .le ∨ op = .ge ∨ op = .eq) (h : (a.clip op b).contains x = true) :
    ∃ y, b.contains y = true ∧ related op x y = true := by
  unfold clip at h
  split at h
  · rename_i hempty
    rw [isEmpty_of_contains (contains_of_empty hb h)] at hempty
    exact absurd hempty Bool.false_ne_true
  · rename_i hsome
    have hsome := Bool.eq_false_iff.2 hsome
    obtain ⟨hlo, hhi⟩ := contains_iff.1 h
    rcases hop with rfl | rfl | rfl
    · exact ⟨b.hi, contains_hi hsome, trans hhi (lesser_le_right ha.2 hb.2)⟩
    · exact ⟨b.lo, contains_lo hsome, trans (le_greater_right ha.1 hb.1) hlo⟩
    · have hx := proper_of_contains h
      exact ⟨x, contains_of_trimmed (le_greater_right ha.1 hb.1) (lesser_le_right ha.2 hb.2) h,
        eq_iff.2 ⟨hx, hx⟩⟩

theorem clip_sound (ha : a.Proper) (hb : b.Proper) : ClipsSoundly op a b where
  within _ := contains_of_clip ha
  keeps _ _ := contains_clip
  keepsOther x y hx hy h := contains_clip hy hx (by rwa [related_flip])
  exact_of_weak hop _ := exists_of_clip ha hb hop

end Clipping

/-! ## Comparisons -/

/-- **Comparisons are exact and clipping is sound**, for all bounds that keep the laws. -/
theorem comparison_exact :
    (∀ (α : Type) [Bound α] [LawfulNeighbours α] (op : RelOp) (a b : Interval α),
      (a.isEmpty = false → b.isEmpty = false →
        (∀ v, a.canMeet op b = v ↔ v.Tells op (a.contains · = true) (b.contains · = true)) ∧
          a.canMeet op.negate b = (a.canMeet op b).negate) ∧
      (a.Proper → b.Proper → ClipsSoundly op a b)) ∧
    ∀ (op : RelOp) (a b : Interval TextBound) (s t : String), a.contains (.str s) = true →
      b.contains (.str t) = true →
      ∀ v, a.canMeet op b = v ↔ v.Tells op a.HasString b.HasString :=
  ⟨fun _ _ _ op _ _ => ⟨fun ha hb => ⟨canMeet_eq_iff ha hb, canMeet_negate ha hb op⟩,
    fun ha hb => clip_sound ha hb⟩, fun _ _ _ _ _ => canMeet_eq_iff_strings⟩

/-- The numbers from zero to one. -/
def unit : Interval Double := ⟨.zero, .one⟩

/-- The numbers from one on. -/
def aboveUnit : Interval Double := ⟨.one, .infinity⟩

/-- Two intervals that meet at one, and the strings on both sides of a string. -/
theorem comparison_exact_touching :
    Satisfiability.may.Tells .lt (unit.contains · = true) (aboveUnit.contains · = true) ∧
      ClipsSoundly .lt unit aboveUnit ∧
      Satisfiability.may.Tells .lt (full : Interval TextBound).HasString
        (point (.str "m")).HasString :=
  ⟨(((comparison_exact.1 Double .lt unit aboveUnit).1 (by decide) (by decide)).1 .may).1
      (by decide),
    (comparison_exact.1 Double .lt unit aboveUnit).2 ⟨by decide, by decide⟩
      ⟨by decide, by decide⟩,
    (comparison_exact.2 .lt full (point (.str "m")) "" "m" (by decide) (by decide) .may).1
      (by decide)⟩

end Interval
end Symbolic
end FlowVerifier
