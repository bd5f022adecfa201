import FlowVerifier.Proofs.Run.Machine
import FlowVerifier.Proofs.Symbolic.Indices
import FlowVerifier.Proofs.Symbolic.Runs

/-!
# Arrays of a running program

An array on a path describes an array of a running program if it is of its type, if
its size is one of the possible sizes, and if every element is among the values of
its run.

* `WellFormed` says that the runs cover what the possible sizes reach to, and hold
  values of the type of the array.  Every array that is `Built` by the operations on
  arrays is well formed.
* `Describes` is the relation to arrays of a running program.  Declaring, reading,
  writing and widening keep it, and so does an array that subsumes another.
* `checkIndex_eq_ok`: an access that succeeds is one that was allowed for.
-/

namespace FlowVerifier

open Run

namespace Symbolic
namespace ArrayValue

variable {a b : ArrayValue} {c : Cells} {i : Int} {l : Literal}

/-! ## Well-formed arrays -/

/-- The runs cover the indices below the greatest possible size, of which there is one, and
hold values of the type of the array. -/
structure WellFormed (a : ArrayValue) : Prop where
  spans : Run.Spans 0 (Interval.lastIndex a.size.hi) a.runs
  sized : 1 ≤ Interval.lastIndex a.size.hi
  typed : ∀ r ∈ a.runs, r.value.type = a.type

/-- An array that was declared is well formed. -/
theorem wellFormed_declare {name : String} {type : ValueType} {size : Interval Double}
    (h : declare name type size = .ok a) : a.WellFormed := by
  unfold declare at h
  split at h
  · rename_i least greatest hrange
    split at h
    · exact absurd h (by simp)
    · rename_i hpos
      cases h
      have hlast : Interval.lastIndex (Double.ofInt greatest) = greatest := by
        unfold Interval.integerRange at hrange
        split at hrange
        · exact absurd hrange (by simp)
        · rename_i hempty
          split at hrange
          · cases hrange
            have hle : Bound.le size.lo size.hi = true := by
              simpa [Interval.isEmpty] using hempty
            exact Interval.lastIndex_ofInt_lastIndex
              (Double.le_iff.1 (show size.lo.le size.hi = true from hle)).2.1
          · exact absurd hrange (by simp)
      refine ⟨⟨rfl, by show 0 ≤ greatest - 1; omega, ?_⟩, ?_, ?_⟩
      · show greatest - 1 + 1 = Interval.lastIndex (Double.ofInt greatest)
        omega
      · show 1 ≤ Interval.lastIndex (Double.ofInt greatest)
        omega
      · intro r hr
        obtain rfl : r = ⟨0, greatest - 1, .full type, false⟩ := by simpa using hr
        exact Value.type_full type
  · exact absurd h (by simp)

theorem ends_writeRun (range : IndexRange) (value : Value) (r : Run) :
    (writeRun range value r).first = r.first ∧ (writeRun range value r).last = r.last := by
  unfold writeRun
  split
  · exact ⟨rfl, rfl⟩
  · split <;> exact ⟨rfl, rfl⟩

/-- The parts into which a write cuts the runs hold values of the type of the array. -/
theorem type_of_mem_cut {first last : Int} {r : Run} (h : a.WellFormed)
    (hr : r ∈ (a.runs.flatMap (Run.split first)).flatMap (Run.split last)) :
    r.value.type = a.type := by
  obtain ⟨q, hq, hr⟩ := List.mem_flatMap.1 hr
  obtain ⟨s, hs, hq⟩ := List.mem_flatMap.1 hq
  rw [Run.value_eq (Run.mem_split hr).1, Run.value_eq (Run.mem_split hq).1]
  exact h.typed s hs

theorem WellFormed.write (h : a.WellFormed) (range : IndexRange) {value : Value}
    (hv : value.type = a.type) : (a.write range value).WellFormed := by
  have hcut := (h.spans.flatMap_split range.first).flatMap_split (range.last + 1)
  refine ⟨(hcut.map (ends_writeRun range value)).coalesce, h.sized, Run.type_coalesce ?_⟩
  intro r hr
  obtain ⟨q, hq, rfl⟩ := List.mem_map.1 hr
  unfold writeRun
  split
  · exact type_of_mem_cut (a := a) h hq
  · split
    · exact hv
    · exact (Value.type_join _ _).trans hv

theorem WellFormed.clobber (h : a.WellFormed) : a.clobber.WellFormed := by
  have hmap : Run.Spans 0 _ (a.runs.map fun r => { r with value := .full a.type }) :=
    h.spans.map fun r => ⟨rfl, rfl⟩
  refine ⟨hmap.coalesce, h.sized, Run.type_coalesce ?_⟩
  intro r hr
  obtain ⟨q, -, rfl⟩ := List.mem_map.1 hr
  exact Value.type_full a.type

theorem spans_eq_of_lastIndex? {runs others : List Run} {m k : Int} (h : Run.Spans 0 m runs)
    (ho : Run.Spans 0 k others)
    (heq : runs.getLast?.map Run.last = others.getLast?.map Run.last) : m = k := by
  have hm := h.le
  have hk := ho.le
  rcases Int.lt_or_eq_of_le hm with hm | rfl <;> rcases Int.lt_or_eq_of_le hk with hk | rfl
  · rw [h.getLast? hm, ho.getLast? hk, Option.some.injEq] at heq
    omega
  · rw [h.getLast? hm] at heq
    cases others with
    | nil => exact absurd heq (by simp)
    | cons s rest =>
        have := ho.2.2.le
        have := ho.2.1
        omega
  · rw [ho.getLast? hk] at heq
    cases runs with
    | nil => exact absurd heq (by simp)
    | cons s rest =>
        have := h.2.2.le
        have := h.2.1
        omega
  · rfl

theorem hi_join (s t : Interval Double) :
    (s.join t).hi = s.hi ∨ (s.join t).hi = t.hi := by
  unfold Interval.join
  split
  · exact .inr rfl
  · split
    · exact .inl rfl
    · unfold Interval.greater
      split
      · exact .inr rfl
      · exact .inl rfl

/-- Combining two arrays element by element keeps the shape of the runs. -/
theorem WellFormed.combine {f : Value → Value → Value} (hf : ∀ v w, (f v w).type = w.type)
    (ha : a.WellFormed) (hb : b.WellFormed) : (combine f a b).WellFormed := by
  unfold ArrayValue.combine
  split
  · rename_i hsame
    have hlast := spans_eq_of_lastIndex? ha.spans hb.spans hsame.2
    have hjoin : Interval.lastIndex (a.size.join b.size).hi = Interval.lastIndex a.size.hi := by
      rcases hi_join a.size b.size with h | h <;> rw [h]
      exact hlast.symm
    have hover := ha.spans.overlaid hb.spans
    rw [← hlast, Int.min_self, ← hjoin] at hover
    refine ⟨?_, ?_, Run.type_coalesce ?_⟩
    · refine Run.Spans.coalesce (Run.Spans.map_congr (f := Prod.fst) ?_ hover)
      exact fun p => ⟨rfl, rfl⟩
    · show 1 ≤ Interval.lastIndex (a.size.join b.size).hi
      rw [hjoin]
      exact ha.sized
    · intro r hr
      obtain ⟨p, hp, rfl⟩ := List.mem_map.1 hr
      obtain ⟨-, -, -, s, hs, hv, -⟩ := Run.mem_overlay _ _ hp
      show (f p.1.value p.2.value).type = a.type
      rw [hf, Run.value_eq hv, hb.typed s hs, hsame.1]
  · exact hb

/-- The arrays that come about by declaring, writing, forgetting and combining. -/
inductive Built : ArrayValue → Prop where
  | declare {name : String} {type : ValueType} {size : Interval Double} {a : ArrayValue} :
      ArrayValue.declare name type size = .ok a → Built a
  | write {a : ArrayValue} (range : IndexRange) {value : Value} :
      Built a → value.type = a.type → Built (a.write range value)
  | clobber {a : ArrayValue} : Built a → Built a.clobber
  | join {a b : ArrayValue} : Built a → Built b → Built (a.join b)
  | meet {a b : ArrayValue} : Built a → Built b → Built (a.meet b)
  | widen {a b : ArrayValue} : Built a → Built b → Built (a.widen b)

/-- **Arrays are well formed**, however they come about. -/
theorem Built.wellFormed (h : a.Built) : a.WellFormed := by
  induction h with
  | declare h => exact wellFormed_declare h
  | write range _ hv ih => exact ih.write range hv
  | clobber _ ih => exact ih.clobber
  | join _ _ iha ihb => exact iha.combine Value.type_join ihb
  | meet _ _ iha ihb => exact iha.combine Value.type_meet ihb
  | widen _ _ iha ihb => exact iha.combine Value.type_widen ihb

/-! ## Arrays of a running program -/

/-- The array of a running program is one that the array on the path allows for. -/
structure Describes (a : ArrayValue) (c : Cells) : Prop where
  type : a.type = c.type
  positive : 1 ≤ c.size
  bounded : c.size ≤ Interval.maxIndex
  size : ∃ d, State.whole? d = some c.size ∧ a.size.contains d = true
  elements : Run.Holds c.size c.element a.runs

/-- What is known of a number that is an integer. -/
theorem whole?_eq_some {d : Double} {n : Int} (h : State.whole? d = some n) :
    d.isNaN = false ∧ d.isInfinite = false ∧ d.ceil = d.floor ∧ d.floor = n := by
  unfold State.whole? at h
  split at h
  · exact absurd h (by simp)
  · rename_i hno
    simp only [Bool.or_eq_true, bne_iff_ne, ne_eq, not_or, Bool.not_eq_true, not_not] at hno
    exact ⟨hno.1.1, hno.1.2, hno.2, Option.some.inj h⟩

/-- The size is not above the greatest possible size. -/
theorem Describes.size_le (h : a.Describes c) : c.size ≤ Interval.lastIndex a.size.hi := by
  obtain ⟨d, hd, hmem⟩ := h.size
  obtain ⟨hn, hfin, -, hfloor⟩ := whole?_eq_some hd
  obtain ⟨⟨-, -, -⟩, hh, hdh⟩ := Interval.contains_iff_rank.1 hmem
  have hle := Interval.saturate_le_lastIndex hn hh hfin hdh
  have hpos := h.positive
  rwa [hfloor, Interval.saturate_eq (by unfold Interval.minIndex; omega) h.bounded] at hle

/-- Every element is covered by a run. -/
theorem Describes.exists_run (hw : a.WellFormed) (h : a.Describes c) (h₁ : 0 ≤ i)
    (h₂ : i < c.size) : ∃ r ∈ a.runs, r.first ≤ i ∧ i ≤ r.last := by
  have := h.size_le
  exact hw.spans.exists_covering h₁ (by omega)

/-- A declaration describes the array it makes. -/
theorem describes_declare (name : String) (type : ValueType) (elements : Int → Option Literal)
    {range : Interval Double} {d : Double} {n : Int} (hd : range.contains d = true)
    (hn : State.whole? d = some n) (h₁ : 1 ≤ n) (h₂ : n ≤ Interval.maxIndex)
    (he : ∀ i l, 0 ≤ i → i < n → elements i = some l → l.type = type ∧ l.isNaN = false) :
    ∃ a, declare name type range = .ok a ∧ a.Describes ⟨type, n, elements⟩ := by
  obtain ⟨hnan, hfin, hceil, hfloor⟩ := whole?_eq_some hn
  obtain ⟨least, greatest, hrange, hle, hge⟩ := Interval.integerRange_of_contains hd hfin hceil
  rw [hfloor, Interval.saturate_eq (by unfold Interval.minIndex; omega) h₂] at hle hge
  have hrank : (Double.ofInt n).rank = d.rank := hfloor ▸ Double.rank_ofInt_floor hnan hceil
  refine ⟨_, by rw [declare, hrange]; exact if_neg (by omega), rfl, h₁, h₂, ⟨d, hn, ?_⟩, ?_⟩
  · refine Interval.contains_iff_rank.2
      ⟨⟨Double.isNaN_ofInt _, hnan, ?_⟩, Double.isNaN_ofInt _, ?_⟩
    · exact hrank ▸ Double.rank_ofInt_le (by omega)
    · exact hrank ▸ Double.rank_ofInt_le hge
  · intro r hr i hi _ hsize l hl
    obtain rfl : r = ⟨0, greatest - 1, .full type, false⟩ := by simpa using hr
    obtain ⟨rfl, hlnan⟩ := he i l hi hsize hl
    exact Value.contains_full hlnan

/-- **Indices.**  An access that succeeds is allowed for. -/
theorem checkIndex_eq_ok {range : Interval Double} {d : Double} (h : a.Describes c)
    (hd : range.contains d = true) (hi : State.place c d = .ok i) :
    0 ≤ i ∧ i < c.size ∧
      ∃ hit, a.checkIndex range = .ok hit ∧ hit.first ≤ i ∧ i ≤ hit.last := by
  unfold State.place at hi
  split at hi
  · exact absurd hi (by simp)
  · rename_i n hn
    split at hi
    · rename_i hbounds
      cases hi
      obtain ⟨hnan, hfin, hceil, hfloor⟩ := whole?_eq_some hn
      obtain ⟨least, greatest, hrange, hle, hge⟩ :=
        Interval.integerRange_of_contains hd hfin hceil
      have hmax := h.bounded
      have hsize := h.size_le
      rw [hfloor, Interval.saturate_eq (by unfold Interval.minIndex; omega) (by omega)] at hle hge
      have hno : (decide (greatest < 0) || decide (Interval.lastIndex a.size.hi ≤ least)) =
          false := by
        rw [Bool.or_eq_false_iff, decide_eq_false_iff_not, decide_eq_false_iff_not]
        omega
      refine ⟨hbounds.1, hbounds.2, ⟨max least 0, min greatest (Interval.lastIndex a.size.hi - 1),
        decide (least < 0) || decide (Interval.lastIndex a.size.lo ≤ greatest)⟩, ?_, ?_, ?_⟩
      · simp only [checkIndex, hrange, hno]
        rfl
      · show max least 0 ≤ i
        omega
      · show i ≤ min greatest (Interval.lastIndex a.size.hi - 1)
        omega
    · exact absurd hi (by simp)

theorem contains_foldl_join {type : ValueType} {runs : List Run} :
    ∀ {v : Value}, v.type = type → (∀ r ∈ runs, r.value.type = type) →
      (v.contains l = true ∨ ∃ r ∈ runs, r.value.contains l = true) →
      (runs.foldl (fun v r => v.join r.value) v).contains l = true := by
  induction runs with
  | nil =>
      intro v _ _ h
      exact h.elim id fun ⟨_, hr, _⟩ => absurd hr (by simp)
  | cons s rest ih =>
      intro v hv htyped h
      have hs := htyped s (List.mem_cons_self ..)
      refine ih ((Value.type_join v s.value).trans hs)
        (fun r hr => htyped r (List.mem_cons_of_mem _ hr)) ?_
      rcases h with h | ⟨r, hr, h⟩
      · exact .inl (Value.contains_join_left (hv.trans hs.symm) h)
      · rcases List.mem_cons.1 hr with rfl | hr
        · exact .inl (Value.contains_join_right v h)
        · exact .inr ⟨r, hr, h⟩

/-- A read yields the element. -/
theorem Describes.contains_read {range : IndexRange} (hw : a.WellFormed) (h : a.Describes c)
    (h₁ : 0 ≤ i) (h₂ : i < c.size) (hf : range.first ≤ i) (hl : i ≤ range.last)
    (he : c.element i = some l) : (a.read range).1.contains l = true := by
  obtain ⟨r, hr, hr₁, hr₂⟩ := h.exists_run hw h₁ h₂
  have hmem := h.elements r hr i hr₁ hr₂ h₂ l he
  have hhit : r ∈ a.runs.filter (·.meets range.first range.last) := by
    rw [List.mem_filter, Run.meets, Bool.and_eq_true, decide_eq_true_eq, decide_eq_true_eq]
    exact ⟨hr, by omega, by omega⟩
  have htyped : ∀ q ∈ a.runs.filter (·.meets range.first range.last), q.value.type = a.type :=
    fun q hq => hw.typed q (List.mem_of_mem_filter hq)
  unfold read
  dsimp only
  split
  · rename_i hnil
    rw [hnil] at hhit
    exact absurd hhit (by simp)
  · rename_i q rest hcons
    rw [hcons] at hhit htyped
    refine contains_foldl_join (htyped q (List.mem_cons_self ..))
      (fun s hs => htyped s (List.mem_cons_of_mem _ hs)) ?_
    rcases List.mem_cons.1 hhit with rfl | hrest
    · exact .inl hmem
    · exact .inr ⟨r, hrest, hmem⟩

/-- A write describes the array with one element changed. -/
theorem Describes.write {range : IndexRange} {value : Value} (hw : a.WellFormed)
    (h : a.Describes c) (hf : range.first ≤ i) (hl : i ≤ range.last)
    (hv : value.contains l = true) (ht : value.type = a.type) :
    (a.write range value).Describes
      { c with element := fun j => if j = i then some l else c.element j } := by
  have hcut := (hw.spans.flatMap_split range.first).flatMap_split (range.last + 1)
  have hends := ends_writeRun range value
  refine ⟨h.type, h.positive, h.bounded, h.size, (Run.Holds.coalesce (hcut.map hends) ?_)⟩
  have hold := (h.elements.flatMap_split range.first).flatMap_split (range.last + 1)
  intro r hr j hj₁ hj₂ hj m hm
  obtain ⟨q, hq, rfl⟩ := List.mem_map.1 hr
  rw [(hends q).1] at hj₁
  rw [(hends q).2] at hj₂
  have hqt : q.value.type = value.type := (type_of_mem_cut hw hq).trans ht.symm
  dsimp only at hm
  unfold writeRun
  rcases Run.within_or_outside hq with hin | hout
  · rw [hin, Bool.not_true, if_neg (by decide)]
    split
    · -- a strong write hits exactly one element
      rename_i hdet
      rw [IndexRange.isDeterminate, Bool.and_eq_true, beq_iff_eq] at hdet
      rw [Run.within, Bool.and_eq_true, decide_eq_true_eq, decide_eq_true_eq] at hin
      rw [if_pos (by omega)] at hm
      cases hm
      exact hv
    · split at hm
      · cases hm
        exact Value.contains_join_right _ hv
      · exact Value.contains_join_left hqt (hold q hq j hj₁ hj₂ hj m hm)
  · have hno : q.within range.first range.last = false := by
      rw [Run.within, Bool.and_eq_false_iff, decide_eq_false_iff_not, decide_eq_false_iff_not]
      omega
    rw [if_neg (by omega)] at hm
    rw [hno, Bool.not_false, if_pos rfl]
    exact hold q hq j hj₁ hj₂ hj m hm

/-- Widening an array against an older one loses nothing. -/
theorem Describes.widen (ha : a.WellFormed) (hb : b.WellFormed) (h : b.Describes c) :
    (a.widen b).Describes c := by
  unfold ArrayValue.widen combine
  split
  · rename_i hsame
    have hover := ha.spans.overlaid hb.spans
    obtain ⟨d, hd, hmem⟩ := h.size
    refine ⟨hsame.1.trans h.type, h.positive, h.bounded,
      ⟨d, hd, Interval.contains_join (.inr hmem)⟩, ?_⟩
    refine Run.Holds.coalesce (Run.Spans.map_congr (f := Prod.fst) ?_ hover) ?_
    · exact fun p => ⟨rfl, rfl⟩
    · intro r hr i hi₁ hi₂ hi l hl
      obtain ⟨p, hp, rfl⟩ := List.mem_map.1 hr
      obtain ⟨-, -, -, s, hs, hv, h₁, h₂⟩ := Run.mem_overlay _ _ hp
      have hi₁ : p.1.first ≤ i := hi₁
      have hi₂ : i ≤ p.1.last := hi₂
      refine Value.contains_widen p.1.value ?_
      rw [Run.value_eq hv]
      exact h.elements s hs i (by omega) (by omega) hi l hl
  · exact h

/-- An array that subsumes another describes what the other describes. -/
theorem Describes.of_subsumes (ha : a.WellFormed) (hb : b.WellFormed)
    (hs : a.subsumes b = true) (h : b.Describes c) : a.Describes c := by
  simp only [subsumes, Bool.and_eq_true, beq_iff_eq, List.all_eq_true] at hs
  obtain ⟨⟨htype, hsize⟩, hall⟩ := hs
  obtain ⟨d, hd, hmem⟩ := h.size
  refine ⟨htype.trans h.type, h.positive, h.bounded,
    ⟨d, hd, Interval.contains_of_subsumes hsize hmem⟩, ?_⟩
  intro r hr i hi₁ hi₂ hi l hl
  have hpos := ha.spans.le_first hr
  obtain ⟨s, hs, hs₁, hs₂⟩ := h.exists_run hb (by omega) hi
  obtain ⟨p, hp, -, -, hp₁, hp₂⟩ := Run.exists_mem_overlay ha.spans hb.spans hr hi₁ hi₂ hs hs₁ hs₂
  rw [← Run.value_eq hp₁]
  refine Value.contains_of_subsumes (hall p hp).1 ?_
  rw [Run.value_eq hp₂]
  exact h.elements s hs i hs₁ hs₂ hi l hl

end ArrayValue
end Symbolic
end FlowVerifier
