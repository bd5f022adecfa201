import FlowVerifier.Proofs.Symbolic.Lattice

/-!
# The laws of abstract domains

An abstract domain consists of descriptions of sets of points.  One description subsumes
another if it describes every point that the other one describes, and with respect to this
order the join of two descriptions is their least upper bound and the meet their greatest
lower bound.  Widening goes above the join, and it comes to rest: however long a description
is widened, it changes at most twice, once for either end.

* `Domain` has the operations and `Domain.LawsOn` the laws, for descriptions of one kind.
* `Interval.lawsOn` has the laws for all intervals over an ordered type of bounds, in
  whichever way an interval is empty.
* `Value.lawsOn` has them for the values of one type, which are the intervals in another
  guise (`Domain.LawsOn.map`).

One law is not among them.  The meet subsumes its first side and every common lower bound is
below it, but the second side need not subsume it: a NaN is neither the smaller nor the greater
of two bounds, so that the first one is taken, and an interval that ends in NaN is empty while
its meet with other intervals may not be.  Among proper bounds the law holds, and nowhere else
(`Interval.subsumes_meet_right`).
-/

namespace FlowVerifier
namespace Symbolic

open LawfulBound

/-! ## Domains -/

/-- The sequence moves in at most two places. -/
def ChangesAtMostTwice {δ : Type} (u : Nat → δ) : Prop :=
  ∃ i j, ∀ n, n ≠ i → n ≠ j → u (n + 1) = u n

/-- Descriptions of sets of points. -/
structure Domain (δ π : Type) where
  /-- Is the point in the set? -/
  describes : δ → π → Prop
  /-- Is no point described? -/
  isEmpty : δ → Bool
  /-- Is every point of the second description one of the first? -/
  subsumes : δ → δ → Bool
  /-- The points of either side. -/
  join : δ → δ → δ
  /-- The points of both sides. -/
  meet : δ → δ → δ
  /-- The points of either side, and more where the second reaches further. -/
  widen : δ → δ → δ

namespace Domain

variable {δ π δ' π' : Type}

/-- A description that is widened again and again. -/
def widenings (d : Domain δ π) (a : δ) (b : Nat → δ) : Nat → δ
  | 0 => a
  | n + 1 => d.widen (d.widenings a b n) (b n)

/-- The laws, for descriptions of one kind. -/
structure LawsOn (d : Domain δ π) (D : δ → Prop) : Prop where
  subsumes_iff : ∀ a b, D a → D b →
    (d.subsumes a b = true ↔ ∀ x, d.describes b x → d.describes a x)
  join_left : ∀ a b, D a → D b → d.subsumes (d.join a b) a = true
  join_right : ∀ a b, D a → D b → d.subsumes (d.join a b) b = true
  join_least : ∀ a b c, D a → D b → D c → d.subsumes c a = true → d.subsumes c b = true →
    d.subsumes c (d.join a b) = true
  meet_left : ∀ a b, D a → D b → d.subsumes a (d.meet a b) = true
  meet_greatest : ∀ a b c, D a → D b → D c → d.subsumes a c = true → d.subsumes b c = true →
    d.subsumes (d.meet a b) c = true
  widen_join : ∀ a b, D a → D b → d.subsumes (d.widen a b) (d.join a b) = true
  widen_settles : ∀ a b, D a → (∀ n, D (b n)) → d.isEmpty a = false →
    ChangesAtMostTwice (d.widenings a b)

/-- Descriptions of one domain are those of another in a different guise. -/
structure Embeds (d : Domain δ π) (e : Domain δ' π') (f : δ → δ') (g : π → π') : Prop where
  describes : ∀ a x, e.describes (f a) (g x) ↔ d.describes a x
  exists_of_describes : ∀ a y, e.describes (f a) y → ∃ x, y = g x
  isEmpty : ∀ a, e.isEmpty (f a) = d.isEmpty a
  subsumes : ∀ a b, e.subsumes (f a) (f b) = d.subsumes a b
  join : ∀ a b, e.join (f a) (f b) = f (d.join a b)
  meet : ∀ a b, e.meet (f a) (f b) = f (d.meet a b)
  widen : ∀ a b, e.widen (f a) (f b) = f (d.widen a b)

variable {d : Domain δ π} {e : Domain δ' π'} {f : δ → δ'} {g : π → π'}

theorem Embeds.widenings (h : d.Embeds e f g) (a : δ) (b : Nat → δ) (n : Nat) :
    e.widenings (f a) (fun n => f (b n)) n = f (d.widenings a b n) := by
  induction n with
  | zero => rfl
  | succ n ih => rw [Domain.widenings, ih, h.widen, Domain.widenings]

/-- **The laws carry over** to a domain whose descriptions are another domain's. -/
theorem LawsOn.map {D : δ → Prop} {E : δ' → Prop} (laws : d.LawsOn D) (h : d.Embeds e f g)
    (hE : ∀ v, E v → ∃ a, D a ∧ v = f a) : e.LawsOn E where
  subsumes_iff v w hv hw := by
    obtain ⟨a, ha, rfl⟩ := hE v hv
    obtain ⟨b, hb, rfl⟩ := hE w hw
    rw [h.subsumes, laws.subsumes_iff a b ha hb]
    constructor
    · intro hsub y hy
      obtain ⟨x, rfl⟩ := h.exists_of_describes b y hy
      rw [h.describes] at hy ⊢
      exact hsub x hy
    · intro hsub x hx
      rw [← h.describes] at hx ⊢
      exact hsub (g x) hx
  join_left v w hv hw := by
    obtain ⟨a, ha, rfl⟩ := hE v hv
    obtain ⟨b, hb, rfl⟩ := hE w hw
    rw [h.join, h.subsumes]
    exact laws.join_left a b ha hb
  join_right v w hv hw := by
    obtain ⟨a, ha, rfl⟩ := hE v hv
    obtain ⟨b, hb, rfl⟩ := hE w hw
    rw [h.join, h.subsumes]
    exact laws.join_right a b ha hb
  join_least u v w hu hv hw := by
    obtain ⟨a, ha, rfl⟩ := hE u hu
    obtain ⟨b, hb, rfl⟩ := hE v hv
    obtain ⟨c, hc, rfl⟩ := hE w hw
    rw [h.join, h.subsumes, h.subsumes, h.subsumes]
    exact laws.join_least a b c ha hb hc
  meet_left v w hv hw := by
    obtain ⟨a, ha, rfl⟩ := hE v hv
    obtain ⟨b, hb, rfl⟩ := hE w hw
    rw [h.meet, h.subsumes]
    exact laws.meet_left a b ha hb
  meet_greatest u v w hu hv hw := by
    obtain ⟨a, ha, rfl⟩ := hE u hu
    obtain ⟨b, hb, rfl⟩ := hE v hv
    obtain ⟨c, hc, rfl⟩ := hE w hw
    rw [h.meet, h.subsumes, h.subsumes, h.subsumes]
    exact laws.meet_greatest a b c ha hb hc
  widen_join v w hv hw := by
    obtain ⟨a, ha, rfl⟩ := hE v hv
    obtain ⟨b, hb, rfl⟩ := hE w hw
    rw [h.join, h.widen, h.subsumes]
    exact laws.widen_join a b ha hb
  widen_settles v w hv hw hsome := by
    obtain ⟨a, ha, rfl⟩ := hE v hv
    choose b hb hw using fun n => hE (w n) (hw n)
    obtain rfl : w = fun n => f (b n) := funext hw
    rw [h.isEmpty] at hsome
    obtain ⟨i, j, hrest⟩ := laws.widen_settles a b ha hb hsome
    refine ⟨i, j, fun n hi hj => ?_⟩
    rw [h.widenings, h.widenings, hrest n hi hj]

end Domain

/-! ## Intervals -/

namespace Interval

/-- Intervals as descriptions of sets of bounds. -/
def domain (α : Type) [Bound α] : Domain (Interval α) α where
  describes a x := a.contains x = true
  isEmpty := isEmpty
  subsumes := subsumes
  join := join
  meet := meet
  widen := widen

variable {α : Type} [Bound α] [LawfulBound α] {a b c : Interval α}

/-- **Subsumption** is inclusion of the members. -/
theorem subsumes_iff_contains :
    a.subsumes b = true ↔ ∀ x, b.contains x = true → a.contains x = true := by
  refine ⟨fun h x hx => contains_of_subsumes h hx, fun h => ?_⟩
  rw [subsumes_iff]
  cases hb : b.isEmpty with
  | true => exact .inl rfl
  | false =>
      obtain ⟨hlo, hlohi⟩ := contains_iff.1 (h b.lo (contains_lo hb))
      obtain ⟨-, hhi⟩ := contains_iff.1 (h b.hi (contains_hi hb))
      exact .inr ⟨trans hlo hlohi, hlo, hhi⟩

omit [LawfulBound α] in
/-- **The join** is below every upper bound. -/
theorem subsumes_join (ha : c.subsumes a = true) (hb : c.subsumes b = true) :
    c.subsumes (a.join b) = true := by
  unfold join
  split
  · exact hb
  · rename_i hsome
    split
    · exact ha
    · rename_i hsome'
      obtain ⟨hle, halo, hahi⟩ := (subsumes_iff.1 ha).resolve_left hsome
      obtain ⟨-, hblo, hbhi⟩ := (subsumes_iff.1 hb).resolve_left hsome'
      exact subsumes_iff.2 (.inr ⟨hle, le_lesser halo hblo, greater_le hahi hbhi⟩)

/-- The greater of two bounds is proper only if the first one is. -/
theorem proper_of_greater {u v : α} (h : Bound.le (greater u v) (greater u v) = true) :
    Bound.le u u = true := by
  unfold greater at h
  split at h
  · exact (lt_iff.1 ‹_›).1
  · exact h

/-- The smaller of two bounds is proper only if the first one is. -/
theorem proper_of_lesser {u v : α} (h : Bound.le (lesser u v) (lesser u v) = true) :
    Bound.le u u = true := by
  unfold lesser at h
  split at h
  · exact (lt_iff.1 ‹_›).2.1
  · exact h

/-- **The meet** is below its first side. -/
theorem subsumes_meet_left (a b : Interval α) : a.subsumes (a.meet b) = true := by
  rw [subsumes_iff]
  cases hm : (a.meet b).isEmpty with
  | true => exact .inl rfl
  | false =>
      obtain ⟨hlo, hhi⟩ := proper_of_isEmpty hm
      have hlo' : Bound.le a.lo (a.meet b).lo = true := le_greater_left (proper_of_greater hlo)
      have hhi' : Bound.le (a.meet b).hi a.hi = true := lesser_le_left (proper_of_lesser hhi)
      exact .inr ⟨trans hlo' (trans (isEmpty_eq_false.1 hm) hhi'), hlo', hhi'⟩

/-- **The meet** is above every lower bound. -/
theorem meet_subsumes (ha : a.subsumes c = true) (hb : b.subsumes c = true) :
    (a.meet b).subsumes c = true := by
  rw [subsumes_iff] at ha hb ⊢
  cases hc : c.isEmpty with
  | true => exact .inl rfl
  | false =>
      have hsome : ¬ c.isEmpty = true := Bool.eq_false_iff.1 hc
      obtain ⟨-, halo, hahi⟩ := ha.resolve_left hsome
      obtain ⟨-, hblo, hbhi⟩ := hb.resolve_left hsome
      have hlo : Bound.le (a.meet b).lo c.lo = true := greater_le halo hblo
      have hhi : Bound.le c.hi (a.meet b).hi = true := le_lesser hahi hbhi
      exact .inr ⟨trans hlo (trans (isEmpty_eq_false.1 hc) hhi), hlo, hhi⟩

/-- **The meet** is below its second side if its bounds are proper, and otherwise only if it
is empty. -/
theorem subsumes_meet_right (a b : Interval α) :
    b.subsumes (a.meet b) = true ↔ b.Proper ∨ (a.meet b).isEmpty = true := by
  constructor
  · intro h
    rcases subsumes_iff.1 h with hempty | ⟨hle, -, -⟩
    · exact .inr hempty
    · exact .inl ⟨proper_left hle, proper_right hle⟩
  · rintro (⟨hlo, hhi⟩ | hempty)
    · rw [subsumes_iff]
      cases hm : (a.meet b).isEmpty with
      | true => exact .inl rfl
      | false =>
          obtain ⟨hmlo, hmhi⟩ := proper_of_isEmpty hm
          have hlo' : Bound.le b.lo (a.meet b).lo = true :=
            le_greater_right (proper_of_greater hmlo) hlo
          have hhi' : Bound.le (a.meet b).hi b.hi = true :=
            lesser_le_right (proper_of_lesser hmhi) hhi
          exact .inr ⟨trans hlo' (trans (isEmpty_eq_false.1 hm) hhi'), hlo', hhi'⟩
    · exact subsumes_iff.2 (.inl hempty)

/-! ### Widening comes to rest -/

omit [Bound α] [LawfulBound α] in
/-- What can only move to one place moves at most once. -/
theorem changes_at_most_once {u : Nat → α} {e : α}
    (hmove : ∀ n, u (n + 1) = u n ∨ u (n + 1) = e) : ∃ i, ∀ n, n ≠ i → u (n + 1) = u n := by
  have hstay : ∀ {n k}, u n = e → n ≤ k → u k = e := fun h hk =>
    Nat.le_induction h (fun m _ hm => (hmove m).elim (·.trans hm) id) _ hk
  by_cases hsome : ∃ i, u (i + 1) ≠ u i
  · obtain ⟨i, hi⟩ := hsome
    have hend : u (i + 1) = e := (hmove i).resolve_left hi
    refine ⟨i, fun n hn => ?_⟩
    rcases Nat.lt_or_gt_of_ne hn with hlt | hgt
    · -- a move before would have been to the place that is reached at `i`
      refine (hmove n).resolve_right fun h => hi ?_
      rw [hend, hstay h hlt]
    · rw [hstay hend hgt, hstay hend (Nat.le_succ_of_le hgt)]
  · exact ⟨0, fun n _ => not_not.1 fun h => hsome ⟨n, h⟩⟩

theorem isEmpty_widen (ha : a.isEmpty = false) (b : Interval α) : (a.widen b).isEmpty = false :=
  isEmpty_of_contains (contains_widen_left (contains_lo ha))

omit [LawfulBound α] in
/-- The lower end stays where it is, or goes to the least bound. -/
theorem widen_lo (ha : a.isEmpty = false) (b : Interval α) :
    (a.widen b).lo = a.lo ∨ (a.widen b).lo = Bound.lowest := by
  rw [widen, ha, if_neg Bool.false_ne_true]
  cases b.isEmpty with
  | true => exact .inl rfl
  | false =>
      cases Bound.lt b.lo a.lo with
      | true => exact .inr rfl
      | false => exact .inl rfl

omit [LawfulBound α] in
/-- The upper end stays where it is, or goes to the greatest bound. -/
theorem widen_hi (ha : a.isEmpty = false) (b : Interval α) :
    (a.widen b).hi = a.hi ∨ (a.widen b).hi = Bound.highest := by
  rw [widen, ha, if_neg Bool.false_ne_true]
  cases b.isEmpty with
  | true => exact .inl rfl
  | false =>
      cases Bound.lt a.hi b.hi with
      | true => exact .inr rfl
      | false => exact .inl rfl

/-- **Widening comes to rest**: either end moves at most once. -/
theorem widen_settles (ha : a.isEmpty = false) (b : Nat → Interval α) :
    ChangesAtMostTwice ((domain α).widenings a b) := by
  have hsome : ∀ n, ((domain α).widenings a b n).isEmpty = false := by
    intro n
    induction n with
    | zero => exact ha
    | succ n ih => exact isEmpty_widen ih (b n)
  obtain ⟨i, hlo⟩ := changes_at_most_once (u := fun n => ((domain α).widenings a b n).lo)
    fun n => widen_lo (hsome n) (b n)
  obtain ⟨j, hhi⟩ := changes_at_most_once (u := fun n => ((domain α).widenings a b n).hi)
    fun n => widen_hi (hsome n) (b n)
  exact ⟨i, j, fun n hi hj => congrArg₂ Interval.mk (hlo n hi) (hhi n hj)⟩

/-- **Intervals keep the laws.** -/
theorem lawsOn : (domain α).LawsOn fun _ => True where
  subsumes_iff _ _ _ _ := subsumes_iff_contains
  join_left a b _ _ := join_subsumes_left a b
  join_right a b _ _ := join_subsumes_right a b
  join_least _ _ _ _ _ _ := subsumes_join
  meet_left a b _ _ := subsumes_meet_left a b
  meet_greatest _ _ _ _ _ _ := meet_subsumes
  widen_join a b _ _ := widen_subsumes_join a b
  widen_settles _ b _ _ ha := widen_settles ha b

end Interval

/-! ## Values -/

namespace Value

/-- The points that values describe are bounds of either kind. -/
def HasPoint : Value → Double ⊕ TextBound → Prop
  | number a, .inl x => a.contains x = true
  | string a, .inr x => a.contains x = true
  | _, _ => False

/-- Values as descriptions of sets of bounds. -/
def domain : Domain Value (Double ⊕ TextBound) where
  describes := HasPoint
  isEmpty := isEmpty
  subsumes := subsumes
  join := join
  meet := meet
  widen := widen

/-- Both bounds are proper. -/
def Proper : Value → Prop
  | number a => a.Proper
  | string a => a.Proper

theorem embeds_number : (Interval.domain Double).Embeds domain number .inl where
  describes _ _ := Iff.rfl
  exists_of_describes
    | _, .inl x, _ => ⟨x, rfl⟩
  isEmpty _ := rfl
  subsumes _ _ := rfl
  join _ _ := rfl
  meet _ _ := rfl
  widen _ _ := rfl

theorem embeds_string : (Interval.domain TextBound).Embeds domain string .inr where
  describes _ _ := Iff.rfl
  exists_of_describes
    | _, .inr x, _ => ⟨x, rfl⟩
  isEmpty _ := rfl
  subsumes _ _ := rfl
  join _ _ := rfl
  meet _ _ := rfl
  widen _ _ := rfl

/-- **Values of one type keep the laws.** -/
theorem lawsOn (type : ValueType) : domain.LawsOn (·.type = type) := by
  cases type with
  | double =>
      refine Interval.lawsOn.map embeds_number fun v hv => ?_
      cases v with
      | number a => exact ⟨a, trivial, rfl⟩
      | string a => cases hv
  | string =>
      refine Interval.lawsOn.map embeds_string fun v hv => ?_
      cases v with
      | number a => cases hv
      | string a => exact ⟨a, trivial, rfl⟩

theorem subsumes_meet_right {v w : Value} (h : v.type = w.type) :
    w.subsumes (v.meet w) = true ↔ w.Proper ∨ (v.meet w).isEmpty = true := by
  cases v <;> cases w
  · exact Interval.subsumes_meet_right _ _
  · cases h
  · cases h
  · exact Interval.subsumes_meet_right _ _

end Value

/-! ## Lattices -/

/-- **Intervals and values are lattices**, but for the meet with what is empty because of a
NaN. -/
theorem lattice_laws {α : Type} [Bound α] [LawfulBound α] (a b : Interval α) (v w : Value)
    (h : v.type = w.type) :
    (Interval.domain α).LawsOn (fun _ => True) ∧
      (b.subsumes (a.meet b) = true ↔ b.Proper ∨ (a.meet b).isEmpty = true) ∧
      Value.domain.LawsOn (·.type = v.type) ∧
      (w.subsumes (v.meet w) = true ↔ w.Proper ∨ (v.meet w).isEmpty = true) :=
  ⟨Interval.lawsOn, Interval.subsumes_meet_right a b, Value.lawsOn v.type,
    Value.subsumes_meet_right h⟩

/-- The laws at the numbers from zero to one, and at the strings, widened without end. -/
theorem lattice_laws_unit :
    (⟨.one, .infinity⟩ : Interval Double).subsumes
        ((⟨.zero, .one⟩ : Interval Double).meet ⟨.one, .infinity⟩) = true ∧
      ChangesAtMostTwice
        ((Interval.domain Double).widenings ⟨.zero, .one⟩ fun _ => ⟨.one, .infinity⟩) ∧
      (Value.full .string).subsumes
        ((Value.ofLiteral (.string "")).meet (.full .string)) = true := by
  obtain ⟨hlaws, hmeet, -, hmeet'⟩ := lattice_laws (⟨.zero, .one⟩ : Interval Double)
    ⟨.one, .infinity⟩ (.ofLiteral (.string "")) (.full .string) rfl
  exact ⟨hmeet.2 (.inl ⟨by decide, by decide⟩),
    hlaws.widen_settles _ _ trivial (fun _ => trivial) (by decide),
    hmeet'.2 (.inl ⟨by decide, by decide⟩)⟩

/-- A number meets NaN, which is empty, in the number. -/
theorem meet_nan :
    (Value.ofLiteral (.number .one)).type = (Value.ofLiteral (.number .nan)).type ∧
      (Value.ofLiteral (.number .nan)).isEmpty = true ∧
      (Value.ofLiteral (.number .nan)).subsumes
        ((Value.ofLiteral (.number .one)).meet (.ofLiteral (.number .nan))) = false := by
  decide

end Symbolic
end FlowVerifier
