import FlowVerifier.Proofs.Symbolic.Values
import FlowVerifier.Symbolic.ArrayValue

/-!
# Runs of elements

The runs of an array are in order and without gaps.  `Spans n m runs` says that
they cover the indices from `n` up to `m`, and every operation on runs keeps it.

`Holds size elements runs` says that what is known of the elements is true.
Splitting and merging runs do not change it, and overlaying two lists of runs pairs
what is known of the same elements.
-/

namespace FlowVerifier
namespace Symbolic
namespace Run

variable {n m k i first last size : Int} {r s : Run} {runs others : List Run}
  {elements : Int → Option Literal}

/-! ## Order without gaps -/

/-- The runs cover the indices from `n` up to but not including `m`. -/
def Spans (n m : Int) : List Run → Prop
  | [] => n = m
  | r :: rest => r.first = n ∧ n ≤ r.last ∧ Spans (r.last + 1) m rest

theorem Spans.le : ∀ {runs : List Run} {n : Int}, Spans n m runs → n ≤ m := by
  intro runs
  induction runs with
  | nil => exact fun h => Int.le_of_eq h
  | cons r rest ih =>
      rintro n ⟨-, hle, hrest⟩
      have := ih hrest
      omega

/-- Every index between the ends is covered. -/
theorem Spans.exists_covering : ∀ {runs : List Run} {n : Int}, Spans n m runs → n ≤ i → i < m →
    ∃ r ∈ runs, r.first ≤ i ∧ i ≤ r.last := by
  intro runs
  induction runs with
  | nil =>
      intro n h hn hm
      exact absurd h (show ¬ n = m by omega)
  | cons r rest ih =>
      rintro n ⟨hfirst, hle, hrest⟩ hn hm
      by_cases hi : i ≤ r.last
      · exact ⟨r, List.mem_cons_self .., by omega, hi⟩
      · obtain ⟨s, hs, hcover⟩ := ih hrest (by omega) hm
        exact ⟨s, List.mem_cons_of_mem _ hs, hcover⟩

theorem Spans.append : ∀ {runs : List Run} {n k : Int}, Spans n k runs → Spans k m others →
    Spans n m (runs ++ others) := by
  intro runs
  induction runs with
  | nil =>
      intro n k h ho
      exact (show n = k from h) ▸ ho
  | cons r rest ih => exact fun h ho => ⟨h.1, h.2.1, ih h.2.2 ho⟩

/-- Runs with the same ends as runs without gaps have no gaps. -/
theorem Spans.map_congr {α : Type} {f g : α → Run}
    (hfg : ∀ x, (g x).first = (f x).first ∧ (g x).last = (f x).last) :
    ∀ {l : List α} {n : Int}, Spans n m (l.map f) → Spans n m (l.map g) := by
  intro l
  induction l with
  | nil => exact id
  | cons x rest ih =>
      rintro n ⟨hfirst, hle, hrest⟩
      obtain ⟨h₁, h₂⟩ := hfg x
      exact ⟨h₁.trans hfirst, by omega, by rw [h₂]; exact ih hrest⟩

/-- A change that leaves the ends of runs alone leaves no gaps. -/
theorem Spans.map {f : Run → Run} (hf : ∀ r, (f r).first = r.first ∧ (f r).last = r.last)
    (h : Spans n m runs) : Spans n m (runs.map f) := by
  rw [← List.map_id runs] at h
  exact h.map_congr hf

theorem Spans.getLast? : ∀ {runs : List Run} {n : Int}, Spans n m runs → n < m →
    runs.getLast?.map Run.last = some (m - 1) := by
  intro runs
  induction runs with
  | nil =>
      intro n h hlt
      exact absurd (show n = m from h) (by omega)
  | cons r rest ih =>
      rintro n ⟨-, hle, hrest⟩ hlt
      cases rest with
      | nil =>
          have hend : r.last + 1 = m := hrest
          simp only [List.getLast?_singleton, Option.map_some, Option.some.injEq]
          omega
      | cons s rest =>
          rw [List.getLast?_cons_cons]
          refine ih hrest ?_
          have := Spans.le hrest.2.2
          have := hrest.2.1
          omega

/-! ## What is known of the elements -/

/-- What a run knows of each of its elements: its values, and whether it was written. -/
def contents (r : Run) : Value × Bool := (r.value, r.defined)

theorem value_eq (h : s.contents = r.contents) : s.value = r.value := congrArg Prod.fst h

/-- The elements of an array of the given size are among the values of their runs. -/
def Holds (size : Int) (elements : Int → Option Literal) (runs : List Run) : Prop :=
  ∀ r ∈ runs, ∀ i, r.first ≤ i → i ≤ r.last → i < size →
    ∀ l, elements i = some l → r.value.contains l = true

/-! ## Splitting -/

theorem spans_split (i : Int) (h : r.first ≤ r.last) :
    Spans r.first (r.last + 1) (split i r) := by
  unfold split
  split
  · rename_i hi
    rw [Bool.and_eq_true, decide_eq_true_eq, decide_eq_true_eq] at hi
    refine ⟨rfl, ?_, ?_, ?_, rfl⟩
    · show r.first ≤ i - 1
      omega
    · show i = i - 1 + 1
      omega
    · show i - 1 + 1 ≤ r.last
      omega
  · exact ⟨rfl, h, rfl⟩

theorem Spans.flatMap_split (i : Int) : ∀ {runs : List Run} {n : Int}, Spans n m runs →
    Spans n m (runs.flatMap (split i)) := by
  intro runs
  induction runs with
  | nil => exact id
  | cons r rest ih =>
      rintro n ⟨hfirst, hle, hrest⟩
      subst hfirst
      exact (spans_split i hle).append (ih hrest)

/-- The parts of a run know what the run knows, and none of them has the cut inside. -/
theorem mem_split (h : s ∈ split i r) :
    s.contents = r.contents ∧ r.first ≤ s.first ∧ s.last ≤ r.last ∧
      ¬ (s.first < i ∧ i ≤ s.last) := by
  unfold split at h
  split at h
  · rename_i hi
    rw [Bool.and_eq_true, decide_eq_true_eq, decide_eq_true_eq] at hi
    simp only [List.mem_cons, List.not_mem_nil, or_false] at h
    rcases h with rfl | rfl
    · exact ⟨rfl, Int.le_refl _, by show i - 1 ≤ r.last; omega, by
        show ¬ (r.first < i ∧ i ≤ i - 1); omega⟩
    · exact ⟨rfl, by show r.first ≤ i; omega, Int.le_refl _, by
        show ¬ (i < i ∧ i ≤ r.last); omega⟩
  · rename_i hi
    obtain rfl : s = r := by simpa using h
    refine ⟨rfl, Int.le_refl _, Int.le_refl _, fun hc => hi ?_⟩
    simpa using hc

theorem Holds.flatMap_split (i : Int) (h : Holds size elements runs) :
    Holds size elements (runs.flatMap (split i)) := by
  intro s hs j hj₁ hj₂
  obtain ⟨r, hr, hsr⟩ := List.mem_flatMap.1 hs
  obtain ⟨hv, h₁, h₂, -⟩ := mem_split hsr
  rw [value_eq hv]
  exact h r hr j (by omega) (by omega)

/-- After two cuts every run lies within the range or outside. -/
theorem within_or_outside
    (h : s ∈ (runs.flatMap (split first)).flatMap (split (last + 1))) :
    s.within first last = true ∨ s.last < first ∨ last < s.first := by
  obtain ⟨r, hr, hsr⟩ := List.mem_flatMap.1 h
  obtain ⟨q, -, hrq⟩ := List.mem_flatMap.1 hr
  obtain ⟨-, h₁, h₂, hcut⟩ := mem_split hsr
  obtain ⟨-, -, -, hcut'⟩ := mem_split hrq
  rw [within, Bool.and_eq_true, decide_eq_true_eq, decide_eq_true_eq]
  omega

/-! ## Merging -/

theorem Spans.prepend (h : Spans n m (r :: runs)) : Spans n m (r.prepend runs) := by
  unfold Run.prepend
  split
  · rename_i s tail
    obtain ⟨hfirst, hle, hfirst', hle', hrest⟩ := h
    split
    · exact ⟨hfirst, by show n ≤ s.last; omega, hrest⟩
    · exact ⟨hfirst, hle, hfirst', hle', hrest⟩
  · exact h

theorem Holds.prepend (hs : Spans n m (r :: runs)) (h : Holds size elements (r :: runs)) :
    Holds size elements (r.prepend runs) := by
  unfold Run.prepend
  split
  · rename_i s tail
    split
    · rename_i hagree
      rw [agrees, Bool.and_eq_true] at hagree
      obtain ⟨hfirst, hle, hfirst', hle', -⟩ := hs
      intro q hq j hj₁ hj₂ hj l hl
      rcases List.mem_cons.1 hq with rfl | hq
      · -- an index of the merged run is one of either run
        by_cases hj' : j ≤ r.last
        · exact h r (List.mem_cons_self ..) j hj₁ hj' hj l hl
        · refine Value.contains_of_beq hagree.1 ?_
          exact h s (List.mem_cons_of_mem _ (List.mem_cons_self ..)) j (by omega) hj₂ hj l hl
      · exact h q (List.mem_cons_of_mem _ (List.mem_cons_of_mem _ hq)) j hj₁ hj₂ hj l hl
    · exact h
  · exact h

/-- Merging leaves no gaps. -/
theorem Spans.coalesce : ∀ {runs : List Run} {n : Int}, Spans n m runs →
    Spans n m (coalesce runs) := by
  intro runs
  induction runs with
  | nil => exact id
  | cons r rest ih =>
      rintro n ⟨hfirst, hle, hrest⟩
      have hspan : Spans n m (r :: Run.coalesce rest) := ⟨hfirst, hle, ih hrest⟩
      exact hspan.prepend

/-- Merging loses nothing. -/
theorem Holds.coalesce : ∀ {runs : List Run} {n : Int}, Spans n m runs →
    Holds size elements runs → Holds size elements (coalesce runs) := by
  intro runs
  induction runs with
  | nil => exact fun _ h => h
  | cons r rest ih =>
      rintro n ⟨hfirst, hle, hrest⟩ h
      have hmerged := ih hrest fun q hq => h q (List.mem_cons_of_mem _ hq)
      have hspan : Spans n m (r :: Run.coalesce rest) := ⟨hfirst, hle, hrest.coalesce⟩
      refine Holds.prepend hspan fun q hq => ?_
      rcases List.mem_cons.1 hq with rfl | hq
      · exact h q (List.mem_cons_self ..)
      · exact hmerged q hq

theorem type_coalesce {type : ValueType} (h : ∀ r ∈ runs, r.value.type = type) :
    ∀ r ∈ coalesce runs, r.value.type = type := by
  induction runs with
  | nil => exact h
  | cons r rest ih =>
      have hrest := ih fun q hq => h q (List.mem_cons_of_mem _ hq)
      have hr := h r (List.mem_cons_self ..)
      show ∀ q ∈ r.prepend (coalesce rest), q.value.type = type
      generalize coalesce rest = merged at hrest
      intro q hq
      unfold Run.prepend at hq
      split at hq
      · rename_i s tail
        split at hq
        · rcases List.mem_cons.1 hq with rfl | hq
          · exact hr
          · exact hrest q (List.mem_cons_of_mem _ hq)
        · rcases List.mem_cons.1 hq with rfl | hq
          · exact hr
          · exact hrest q hq
      · obtain rfl : q = r := by simpa using hq
        exact hr

/-! ## Overlaying -/

/-- The runs cover the indices from `n` on up to `m`; the first may start before. -/
def SpansFrom (n m : Int) : List Run → Prop
  | [] => n = m
  | r :: rest => r.first ≤ n ∧ n ≤ r.last ∧ Spans (r.last + 1) m rest

theorem Spans.spansFrom (h : Spans n m runs) : SpansFrom n m runs := by
  cases runs with
  | nil => exact h
  | cons r rest => exact ⟨Int.le_of_eq h.1, h.2.1, h.2.2⟩

theorem Spans.first_of_head? (h : Spans n m runs) (hr : runs.head? = some r) : r.first = n := by
  cases runs with
  | nil => exact absurd hr (by simp)
  | cons q rest =>
      obtain rfl : q = r := by simpa using hr
      exact h.1

theorem SpansFrom.le (h : SpansFrom n m runs) : n ≤ m := by
  cases runs with
  | nil => exact Int.le_of_eq h
  | cons r rest =>
      have := h.2.2.le
      have := h.2.1
      omega

/-- An overlay leaves no gaps. -/
theorem spans_overlay (runs others : List Run) : ∀ n, SpansFrom n m runs →
    SpansFrom n k others →
    (∀ r s, runs.head? = some r → others.head? = some s → r.first = n ∨ s.first = n) →
    Spans n (min m k) ((overlay runs others).map Prod.fst) := by
  fun_induction overlay runs others with
  | case1 r rs s ss first last ih₁ ih₂ ih₃ =>
      rintro n ⟨hr₁, hr₂, hrs⟩ ⟨hs₁, hs₂, hss⟩ hstart
      have hfirst : first = n := by
        have := hstart r s rfl rfl
        omega
      have hlast : last = min r.last s.last := rfl
      refine ⟨hfirst, by show n ≤ last; omega, ?_⟩
      show Spans (last + 1) (min m k) _
      split
      · -- the first run ends before the second
        have hend : last = r.last := by omega
        rw [hend]
        refine ih₁ _ hrs.spansFrom ⟨by omega, by omega, hss⟩ fun q _ hq _ => ?_
        exact .inl (hrs.first_of_head? hq)
      · split
        · have hend : last = s.last := by omega
          rw [hend]
          refine ih₂ _ ⟨by omega, by omega, hrs⟩ hss.spansFrom fun _ q _ hq => ?_
          exact .inr (hss.first_of_head? hq)
        · have hend : last = r.last := by omega
          have hend' : r.last = s.last := by omega
          rw [hend]
          refine ih₃ _ hrs.spansFrom (by rw [hend']; exact hss.spansFrom) fun q _ hq _ => ?_
          exact .inl (hrs.first_of_head? hq)
  | case2 runs others hno =>
      intro n h₁ h₂ _
      have hm := h₁.le
      have hk := h₂.le
      show n = min m k
      cases runs with
      | nil =>
          have hend : n = m := h₁
          omega
      | cons r rs =>
          cases others with
          | nil =>
              have hend : n = k := h₂
              omega
          | cons s ss => exact (hno r rs s ss rfl rfl).elim

/-- An overlay of two lists without gaps has none, and ends where the shorter list ends. -/
theorem Spans.overlaid (h : Spans n m runs) (ho : Spans n k others) :
    Spans n (min m k) ((overlay runs others).map Prod.fst) :=
  spans_overlay runs others n h.spansFrom ho.spansFrom
    fun _ _ hr _ => .inl (h.first_of_head? hr)

/-- A pair of an overlay covers indices of a run of either list, and knows what they
know. -/
theorem mem_overlay (runs others : List Run) {p : Run × Run} (h : p ∈ overlay runs others) :
    p.1.first = p.2.first ∧ p.1.last = p.2.last ∧
      (∃ r ∈ runs, p.1.contents = r.contents ∧ r.first ≤ p.1.first ∧ p.1.last ≤ r.last) ∧
      ∃ s ∈ others, p.2.contents = s.contents ∧ s.first ≤ p.1.first ∧ p.1.last ≤ s.last := by
  fun_induction overlay runs others with
  | case1 r rs s ss first last ih₁ ih₂ ih₃ =>
      rcases List.mem_cons.1 h with rfl | h
      · have h₁ : r.first ≤ first := Int.le_max_left _ _
        have h₂ : s.first ≤ first := Int.le_max_right _ _
        have h₃ : last ≤ r.last := Int.min_le_left _ _
        have h₄ : last ≤ s.last := Int.min_le_right _ _
        exact ⟨rfl, rfl, ⟨r, List.mem_cons_self .., rfl, h₁, h₃⟩,
          s, List.mem_cons_self .., rfl, h₂, h₄⟩
      · split at h
        · obtain ⟨h₁, h₂, ⟨q, hq, hr⟩, hs⟩ := ih₁ h
          exact ⟨h₁, h₂, ⟨q, List.mem_cons_of_mem _ hq, hr⟩, hs⟩
        · split at h
          · obtain ⟨h₁, h₂, hr, q, hq, hs⟩ := ih₂ h
            exact ⟨h₁, h₂, hr, q, List.mem_cons_of_mem _ hq, hs⟩
          · obtain ⟨h₁, h₂, ⟨q, hq, hr⟩, q', hq', hs⟩ := ih₃ h
            exact ⟨h₁, h₂, ⟨q, List.mem_cons_of_mem _ hq, hr⟩,
              q', List.mem_cons_of_mem _ hq', hs⟩
  | case2 runs others hno => exact absurd h (by simp)

theorem Spans.le_first : ∀ {runs : List Run} {n : Int}, Spans n m runs → r ∈ runs →
    n ≤ r.first := by
  intro runs
  induction runs with
  | nil => exact fun _ hr => absurd hr (by simp)
  | cons q rest ih =>
      rintro n ⟨hfirst, hle, hrest⟩ hr
      rcases List.mem_cons.1 hr with rfl | hr
      · omega
      · have := ih hrest hr
        omega

theorem Spans.last_lt : ∀ {runs : List Run} {n : Int}, Spans n m runs → r ∈ runs →
    r.last < m := by
  intro runs
  induction runs with
  | nil => exact fun _ hr => absurd hr (by simp)
  | cons q rest ih =>
      rintro n ⟨hfirst, hle, hrest⟩ hr
      rcases List.mem_cons.1 hr with rfl | hr
      · have := hrest.le
        omega
      · exact ih hrest hr

theorem Spans.first_le_last : ∀ {runs : List Run} {n : Int}, Spans n m runs → r ∈ runs →
    r.first ≤ r.last := by
  intro runs
  induction runs with
  | nil => exact fun _ hr => absurd hr (by simp)
  | cons q rest ih =>
      rintro n ⟨hfirst, hle, hrest⟩ hr
      rcases List.mem_cons.1 hr with rfl | hr
      · omega
      · exact ih hrest hr

/-- No two runs cover the same index. -/
theorem Spans.unique : ∀ {runs : List Run} {n : Int}, Spans n m runs → r ∈ runs → s ∈ runs →
    r.first ≤ i → i ≤ r.last → s.first ≤ i → i ≤ s.last → r = s := by
  intro runs
  induction runs with
  | nil => exact fun _ hr => absurd hr (by simp)
  | cons q rest ih =>
      rintro n ⟨hfirst, hle, hrest⟩ hr hs hr₁ hr₂ hs₁ hs₂
      rcases List.mem_cons.1 hr with rfl | hr' <;> rcases List.mem_cons.1 hs with rfl | hs'
      · rfl
      · have := hrest.le_first hs'
        omega
      · have := hrest.le_first hr'
        omega
      · exact ih hrest hr' hs' hr₁ hr₂ hs₁ hs₂

/-- Runs of two lists that cover the same index meet in a pair of their overlay. -/
theorem exists_mem_overlay (h : Spans n m runs) (ho : Spans n k others) (hr : r ∈ runs)
    (hr₁ : r.first ≤ i) (hr₂ : i ≤ r.last) (hs : s ∈ others) (hs₁ : s.first ≤ i)
    (hs₂ : i ≤ s.last) :
    ∃ p ∈ overlay runs others, p.1.first ≤ i ∧ i ≤ p.1.last ∧ p.1.contents = r.contents ∧
      p.2.contents = s.contents := by
  have hspan := h.overlaid ho
  have hn := h.le_first hr
  have hm := h.last_lt hr
  have hk := ho.last_lt hs
  obtain ⟨q, hq, hq₁, hq₂⟩ := hspan.exists_covering (i := i) (by omega) (by omega)
  obtain ⟨p, hp, rfl⟩ := List.mem_map.1 hq
  obtain ⟨-, -, ⟨r', hr', hv, h₁, h₂⟩, s', hs', hw, h₃, h₄⟩ := mem_overlay runs others hp
  obtain rfl := h.unique hr hr' hr₁ hr₂ (by omega) (by omega)
  obtain rfl := ho.unique hs hs' hs₁ hs₂ (by omega) (by omega)
  exact ⟨p, hp, hq₁, hq₂, hv, hw⟩

end Run
end Symbolic
end FlowVerifier
