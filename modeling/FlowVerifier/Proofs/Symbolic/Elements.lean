import FlowVerifier.Proofs.Symbolic.Arrays
import FlowVerifier.Proofs.Symbolic.Lattice
import Mathlib

/-!
# Arrays element by element

The runs of an array are a compact way to say something about each of its elements.
`ArrayValue.element?` reads off what they say about one, and every operation on arrays is an
operation on elements.

* `WellFormed.element?_write`: a write changes the elements it may hit.
* `WellFormed.element?_combine`: arrays of one length are combined element by element.
* `WellFormed.read_eq_joined`: a read joins the elements it may hit.
* `WellFormed.subsumes_iff`: an array subsumes another if its elements do.

Runs are merged that compare as equal.  So an element may lose the sign of a zero when it is
written next to another; apart from that the view is exact, which is what `Run.Likewise` says.
-/

namespace FlowVerifier
namespace Symbolic

/-! ## Elements of runs -/

namespace Run

variable {n m k i first last : Int} {r s : Run} {runs others : List Run}
  {e : Value × Bool}

/-- Does the run cover the index? -/
def covers (i : Int) (r : Run) : Bool := decide (r.first ≤ i) && decide (i ≤ r.last)

theorem covers_iff : r.covers i = true ↔ r.first ≤ i ∧ i ≤ r.last := by
  rw [covers, Bool.and_eq_true, decide_eq_true_eq, decide_eq_true_eq]

/-- What runs know of the element at an index. -/
def element? (runs : List Run) (i : Int) : Option (Value × Bool) :=
  (runs.find? (covers i)).map contents

/-- What is known of an element is what the run knows that covers it. -/
theorem Spans.element?_eq (h : Spans n m runs) (hr : r ∈ runs) (h₁ : r.first ≤ i)
    (h₂ : i ≤ r.last) : element? runs i = some r.contents := by
  have hsome : (runs.find? (covers i)).isSome = true :=
    List.find?_isSome.2 ⟨r, hr, covers_iff.2 ⟨h₁, h₂⟩⟩
  obtain ⟨s, hs⟩ := Option.isSome_iff_exists.1 hsome
  have hcovers := covers_iff.1 (List.find?_some hs)
  have hmem := List.mem_of_find?_eq_some hs
  rw [element?, hs, h.unique hr hmem h₁ h₂ hcovers.1 hcovers.2]
  rfl

theorem exists_of_element? (h : element? runs i = some e) :
    ∃ r ∈ runs, r.first ≤ i ∧ i ≤ r.last ∧ r.contents = e := by
  obtain ⟨r, hr, rfl⟩ := Option.map_eq_some_iff.1 h
  have hcovers := covers_iff.1 (List.find?_some hr)
  exact ⟨r, List.mem_of_find?_eq_some hr, hcovers.1, hcovers.2, rfl⟩

/-- There are no elements but those that are covered. -/
theorem Spans.element?_eq_none (h : Spans n m runs) (hi : i < n ∨ m ≤ i) :
    element? runs i = none := by
  rw [element?, Option.map_eq_none_iff, List.find?_eq_none]
  intro r hr
  have hn := h.le_first hr
  have hm := h.last_lt hr
  rw [covers_iff]
  omega

/-- Cutting runs changes no element. -/
theorem Spans.element?_flatMap_split (h : Spans n m runs) (k i : Int) :
    element? (runs.flatMap (split k)) i = element? runs i := by
  have hcut := h.flatMap_split k
  by_cases hi : n ≤ i ∧ i < m
  · obtain ⟨s, hs, hs₁, hs₂⟩ := hcut.exists_covering hi.1 hi.2
    obtain ⟨r, hr, hsr⟩ := List.mem_flatMap.1 hs
    obtain ⟨hv, h₁, h₂, -⟩ := mem_split hsr
    rw [hcut.element?_eq hs hs₁ hs₂, h.element?_eq hr (by omega) (by omega), hv]
  · rw [hcut.element?_eq_none (by omega), h.element?_eq_none (by omega)]

/-- A change of runs is a change of the elements they cover. -/
theorem Spans.element?_map (h : Spans n m runs) {f : Run → Run}
    (hf : ∀ r, (f r).first = r.first ∧ (f r).last = r.last) {g : Value × Bool → Value × Bool}
    (hg : ∀ r ∈ runs, r.first ≤ i → i ≤ r.last → (f r).contents = g r.contents) :
    element? (runs.map f) i = (element? runs i).map g := by
  have hmap := h.map hf
  by_cases hi : n ≤ i ∧ i < m
  · obtain ⟨r, hr, hr₁, hr₂⟩ := h.exists_covering hi.1 hi.2
    obtain ⟨hfirst, hlast⟩ := hf r
    rw [hmap.element?_eq (List.mem_map_of_mem hr) (by omega) (by omega),
      h.element?_eq hr hr₁ hr₂, hg r hr hr₁ hr₂]
    rfl
  · rw [hmap.element?_eq_none (by omega), h.element?_eq_none (by omega)]
    rfl

/-- A change of the pairs of an overlay combines the elements of the two lists. -/
theorem Spans.element?_overlay (h : Spans n m runs) (ho : Spans n m others) {f : Run × Run → Run}
    (hf : ∀ p, (f p).first = p.1.first ∧ (f p).last = p.1.last)
    {g : Value × Bool → Value × Bool → Value × Bool}
    (hg : ∀ p, (f p).contents = g p.1.contents p.2.contents) (i : Int) :
    element? ((overlay runs others).map f) i =
      Option.map₂ g (element? runs i) (element? others i) := by
  have hover := h.overlaid ho
  rw [Int.min_self] at hover
  have hmap : Spans n m ((overlay runs others).map f) := hover.map_congr hf
  by_cases hi : n ≤ i ∧ i < m
  · obtain ⟨r, hr, hr₁, hr₂⟩ := h.exists_covering hi.1 hi.2
    obtain ⟨s, hs, hs₁, hs₂⟩ := ho.exists_covering hi.1 hi.2
    obtain ⟨p, hp, hp₁, hp₂, hpr, hps⟩ := exists_mem_overlay h ho hr hr₁ hr₂ hs hs₁ hs₂
    obtain ⟨hfirst, hlast⟩ := hf p
    rw [hmap.element?_eq (List.mem_map_of_mem hp) (by omega) (by omega),
      h.element?_eq hr hr₁ hr₂, ho.element?_eq hs hs₁ hs₂, hg, hpr, hps]
    rfl
  · rw [hmap.element?_eq_none (by omega), h.element?_eq_none (by omega),
      ho.element?_eq_none (by omega)]
    rfl

/-! ### Merging -/

/-- The same is known, but for the sign of a zero: the values are alike. -/
def Likewise (e e' : Value × Bool) : Prop := e.1.Alike e'.1 ∧ e.2 = e'.2

theorem likewise_of_agrees (h : r.agrees s = true) : Likewise r.contents s.contents := by
  rw [agrees, Bool.and_eq_true] at h
  exact ⟨.inr h.1, beq_iff_eq.1 h.2⟩

/-- What a merged run knows of an element, one of the runs knows likewise. -/
theorem exists_of_mem_coalesce (h : Spans n m runs) (hs : s ∈ coalesce runs)
    (h₁ : s.first ≤ i) (h₂ : i ≤ s.last) :
    ∃ r ∈ runs, r.first ≤ i ∧ i ≤ r.last ∧ Likewise s.contents r.contents := by
  induction runs generalizing n s with
  | nil => exact absurd hs List.not_mem_nil
  | cons r rest ih =>
      obtain ⟨hfirst, hle, hrest⟩ := h
      have hmerged := hrest.coalesce
      have hlater : ∀ {q : Run}, q ∈ coalesce rest → q.first ≤ i → i ≤ q.last →
          ∃ p ∈ r :: rest, p.first ≤ i ∧ i ≤ p.last ∧ Likewise q.contents p.contents := by
        intro q hq hq₁ hq₂
        obtain ⟨p, hp, hcover⟩ := ih hrest hq hq₁ hq₂
        exact ⟨p, List.mem_cons_of_mem _ hp, hcover⟩
      change s ∈ r.prepend (coalesce rest) at hs
      unfold prepend at hs
      split at hs
      · rename_i q tail hcons
        rw [hcons] at hmerged
        have hq := hlater (hcons ▸ List.mem_cons_self)
        split at hs
        · rename_i hagree
          rcases List.mem_cons.1 hs with rfl | hs
          · -- the merged run covers what `r` and the run after it covered
            by_cases hi : i ≤ r.last
            · exact ⟨r, List.mem_cons_self, h₁, hi, .refl _, rfl⟩
            · have hstart : q.first = r.last + 1 := hmerged.1
              obtain ⟨p, hp, hp₁, hp₂, hlike⟩ := hq (by omega) h₂
              have hboth := likewise_of_agrees hagree
              exact ⟨p, hp, hp₁, hp₂, hboth.1.trans hlike.1, hboth.2.trans hlike.2⟩
          · exact hlater (hcons ▸ List.mem_cons_of_mem _ hs) h₁ h₂
        · rcases List.mem_cons.1 hs with rfl | hs
          · exact ⟨s, List.mem_cons_self, h₁, h₂, .refl _, rfl⟩
          · exact hlater hs h₁ h₂
      · obtain rfl := List.mem_singleton.1 hs
        exact ⟨s, List.mem_cons_self, h₁, h₂, .refl _, rfl⟩

/-- **Merging** keeps the elements likewise. -/
theorem Spans.element?_coalesce (h : Spans n m runs) (i : Int) :
    Option.Rel Likewise (element? (Run.coalesce runs) i) (element? runs i) := by
  have hmerged := h.coalesce
  by_cases hi : n ≤ i ∧ i < m
  · obtain ⟨s, hs, hs₁, hs₂⟩ := hmerged.exists_covering hi.1 hi.2
    obtain ⟨r, hr, hr₁, hr₂, hlike⟩ := exists_of_mem_coalesce h hs hs₁ hs₂
    rw [hmerged.element?_eq hs hs₁ hs₂, h.element?_eq hr hr₁ hr₂]
    exact .some hlike
  · rw [hmerged.element?_eq_none (by omega), h.element?_eq_none (by omega)]
    exact .none

/-! ### Ranges of elements -/

/-- What runs know of the elements from `first` to `last`, in order. -/
def elements (runs : List Run) (first last : Int) : List (Value × Bool) :=
  (List.range (last + 1 - first).toNat).filterMap fun k : Nat => element? runs (first + k)

/-- The number of elements of a run that lie in a range. -/
def overlap (first last : Int) (r : Run) : Nat :=
  (min r.last last + 1 - max r.first first).toNat

theorem element?_cons_of_not_covers (h : ¬ (r.first ≤ i ∧ i ≤ r.last)) :
    element? (r :: runs) i = element? runs i := by
  rw [element?, element?, List.find?_cons_of_neg (by rwa [covers_iff])]

theorem element?_cons_of_covers (h₁ : r.first ≤ i) (h₂ : i ≤ r.last) :
    element? (r :: runs) i = some r.contents := by
  rw [element?, List.find?_cons_of_pos (covers_iff.2 ⟨h₁, h₂⟩)]
  rfl

theorem meets_iff : r.meets first last = true ↔ r.first ≤ last ∧ first ≤ r.last := by
  rw [meets, Bool.and_eq_true, decide_eq_true_eq, decide_eq_true_eq]

/-- **A range of elements** is made of the runs that meet it, each of them repeated. -/
theorem Spans.elements_eq (h : Spans n m runs) (hn : n ≤ first)
    (hne : first ≤ last ∨ first = n) (hm : last < m) :
    elements runs first last = (runs.filter (·.meets first last)).flatMap fun r =>
      List.replicate (r.overlap first last) r.contents := by
  induction runs generalizing n first with
  | nil =>
      have hend : n = m := h
      have hzero : (last + 1 - first).toNat = 0 := by omega
      rw [elements, hzero]
      rfl
  | cons r rest ih =>
      obtain ⟨hfirst, hle, hrest⟩ := h
      by_cases hbefore : r.last < first
      · -- the run ends before the range starts
        have hskip : elements (r :: rest) first last = elements rest first last := by
          refine List.filterMap_congr fun k _ => element?_cons_of_not_covers ?_
          omega
        rw [hskip, ih hrest (by omega) (by omega), List.filter_cons_of_neg]
        rw [meets_iff]
        omega
      · -- what comes after the run comes after the start of the range
        have hlater : ∀ s ∈ rest, s.meets first last = s.meets (r.last + 1) last ∧
            s.overlap first last = s.overlap (r.last + 1) last := by
          intro s hs
          have hstart := hrest.le_first hs
          have hends := hrest.first_le_last hs
          refine ⟨?_, ?_⟩
          · rw [Bool.eq_iff_iff, meets_iff, meets_iff]
            omega
          · unfold overlap
            omega
        have hsplit : elements (r :: rest) first last =
            List.replicate (r.overlap first last) r.contents ++
              elements rest (r.last + 1) last := by
          have hcount : (last + 1 - first).toNat =
              r.overlap first last + (last + 1 - (r.last + 1)).toNat := by
            unfold overlap
            omega
          rw [elements, hcount, List.range_add, List.filterMap_append, List.filterMap_map]
          congr 1
          · rw [List.filterMap_congr (g := fun _ => some r.contents) fun k hk => ?_]
            · rw [show (fun _ : Nat => some r.contents) = some ∘ fun _ => r.contents from rfl,
                List.filterMap_eq_map, List.map_const', List.length_range]
            · rw [List.mem_range, overlap] at hk
              exact element?_cons_of_covers (by omega) (by omega)
          · refine List.filterMap_congr fun k hk => ?_
            rw [List.mem_range] at hk
            unfold overlap
            rw [Function.comp_apply, element?_cons_of_not_covers (by omega)]
            congr 1
            omega
        have hrests : ((rest.filter (·.meets first last)).flatMap fun s =>
              List.replicate (s.overlap first last) s.contents) =
            (rest.filter (·.meets (r.last + 1) last)).flatMap fun s =>
              List.replicate (s.overlap (r.last + 1) last) s.contents := by
          rw [List.filter_congr fun s hs => (hlater s hs).1]
          refine List.flatMap_congr fun s hs => ?_
          rw [(hlater s (List.mem_of_mem_filter hs)).2]
        rw [hsplit, ih hrest (by omega) (.inr rfl), ← hrests]
        by_cases hsome : first ≤ last
        · have hmeets : r.meets first last = true := meets_iff.2 ⟨by omega, by omega⟩
          rw [List.filter_cons, if_pos hmeets, List.flatMap_cons]
        · have hzero : r.overlap first last = 0 := by
            unfold overlap
            omega
          have hmeets : ¬ r.meets first last = true := by
            rw [meets_iff]
            omega
          rw [hzero, List.filter_cons, if_neg hmeets]
          rfl

/-! ### Boundaries -/

/-- The boundaries next to the runs are in the range of indices, so that none overflows. -/
def Fit (runs : List Run) : Prop :=
  ∀ r ∈ runs, Interval.minIndex ≤ r.first - 1 ∧ r.last + 1 ≤ Interval.maxIndex

theorem Spans.fit (h : Spans 0 m runs) (hm : m ≤ Interval.maxIndex) : Fit runs := by
  intro r hr
  have hfirst := h.le_first hr
  have hlast := h.last_lt hr
  unfold Interval.minIndex
  omega

end Run

/-! ## Elements of arrays -/

namespace ArrayValue

variable {a b : ArrayValue} {range : IndexRange} {value : Value} {i : Int}
  {f : Value → Value → Value} {e e' : Value × Bool}

/-- What is known of the element at an index: its values, and whether it was written. -/
def element? (a : ArrayValue) (i : Int) : Option (Value × Bool) := Run.element? a.runs i

/-- What is known of the elements from `first` to `last`, in order. -/
def elements (a : ArrayValue) (first last : Int) : List (Value × Bool) :=
  Run.elements a.runs first last

/-! ### Writes -/

/-- What a write makes of what is known of an element. -/
def writeElement (range : IndexRange) (value : Value) (i : Int) (e : Value × Bool) :
    Value × Bool :=
  if range.first ≤ i ∧ i ≤ range.last then
    if range.isDeterminate then (value, true) else (e.1.join value, e.2)
  else e

/-- **A write** changes the elements it may hit. -/
theorem WellFormed.element?_write (h : a.WellFormed) (range : IndexRange) (value : Value)
    (i : Int) :
    Option.Rel Run.Likewise ((a.write range value).element? i)
      ((a.element? i).map (writeElement range value i)) := by
  have hcut := h.spans.flatMap_split range.first
  have hcut' := hcut.flatMap_split (range.last + 1)
  have hends := ends_writeRun range value
  have hmerged := (hcut'.map hends).element?_coalesce i
  rw [hcut'.element?_map hends (g := writeElement range value i) fun r hr h₁ h₂ => ?_,
    hcut.element?_flatMap_split, h.spans.element?_flatMap_split] at hmerged
  · exact hmerged
  · unfold writeRun writeElement
    rcases Run.within_or_outside hr with hin | hout
    · rw [hin, Bool.not_true, if_neg Bool.false_ne_true]
      rw [Run.within, Bool.and_eq_true, decide_eq_true_eq, decide_eq_true_eq] at hin
      have hhit : range.first ≤ i ∧ i ≤ range.last := by omega
      rw [if_pos hhit]
      cases range.isDeterminate <;> rfl
    · have hno : r.within range.first range.last = false := by
        rw [Run.within, Bool.and_eq_false_iff, decide_eq_false_iff_not, decide_eq_false_iff_not]
        omega
      have hmiss : ¬ (range.first ≤ i ∧ i ≤ range.last) := by omega
      rw [hno, Bool.not_false, if_pos rfl, if_neg hmiss]

/-- **Forgetting** keeps which elements were written. -/
theorem WellFormed.element?_clobber (h : a.WellFormed) (i : Int) :
    Option.Rel Run.Likewise (a.clobber.element? i)
      ((a.element? i).map fun e => (.full a.type, e.2)) := by
  have hends : ∀ r : Run, { r with value := Value.full a.type }.first = r.first ∧
      { r with value := Value.full a.type }.last = r.last := fun r => ⟨rfl, rfl⟩
  have hmerged := (h.spans.map hends).element?_coalesce i
  rwa [h.spans.element?_map hends (g := fun e => (.full a.type, e.2)) fun _ _ _ _ => rfl]
    at hmerged

/-! ### Combinations -/

/-- What is known of two elements, their values combined. -/
def both (f : Value → Value → Value) (e e' : Value × Bool) : Value × Bool :=
  (f e.1 e'.1, e.2 && e'.2)

/-- **Arrays of one type and length** are combined element by element. -/
theorem WellFormed.element?_combine (ha : a.WellFormed) (hb : b.WellFormed)
    (htype : a.type = b.type) (hlast : a.lastIndex? = b.lastIndex?) (f : Value → Value → Value)
    (i : Int) :
    Option.Rel Run.Likewise ((ArrayValue.combine f a b).element? i)
      (Option.map₂ (both f) (a.element? i) (b.element? i)) := by
  have hsame := spans_eq_of_lastIndex? ha.spans hb.spans hlast
  have hother := hsame ▸ hb.spans
  have hends : ∀ p : Run × Run,
      ({ p.1 with value := f p.1.value p.2.value, defined := p.1.defined && p.2.defined } :
        Run).first = p.1.first ∧
      ({ p.1 with value := f p.1.value p.2.value, defined := p.1.defined && p.2.defined } :
        Run).last = p.1.last := fun p => ⟨rfl, rfl⟩
  have hmerged := ((ha.spans.overlaid hother).map_congr hends).element?_coalesce i
  rw [ha.spans.element?_overlay hother hends (g := both f) fun _ => rfl] at hmerged
  unfold ArrayValue.combine
  rw [if_pos ⟨htype, hlast⟩]
  exact hmerged

/-! ### Reads -/

/-- What is known of several elements as one: their values joined, and whether all of them
were written. -/
def joined (type : ValueType) : List (Value × Bool) → Value × Bool
  | [] => (.full type, true)
  | e :: rest => rest.foldl (both Value.join) e

theorem both_self (e : Value × Bool) : both Value.join e e = e := by
  rw [both, Value.join_self, Bool.and_self]

theorem both_both_right (e e' : Value × Bool) :
    both Value.join (both Value.join e e') e' = both Value.join e e' := by
  rw [both, both, Value.join_join_right, Bool.and_assoc, Bool.and_self]

/-- Repetitions do not matter to a join. -/
theorem foldl_replicate (n : Nat) (e e' : Value × Bool) :
    (List.replicate n e').foldl (both Value.join) (both Value.join e e') =
      both Value.join e e' := by
  induction n with
  | zero => rfl
  | succ n ih => rw [List.replicate_succ, List.foldl_cons, both_both_right, ih]

theorem foldl_flatMap_replicate {k : Run → Nat} {runs : List Run} (hk : ∀ r ∈ runs, 0 < k r)
    (e : Value × Bool) :
    (runs.flatMap fun r => List.replicate (k r) r.contents).foldl (both Value.join) e =
      (runs.map Run.contents).foldl (both Value.join) e := by
  induction runs generalizing e with
  | nil => rfl
  | cons r rest ih =>
      obtain ⟨hr, hrest⟩ := List.forall_mem_cons.1 hk
      obtain ⟨n, hn⟩ := Nat.exists_eq_succ_of_ne_zero hr.ne'
      rw [List.flatMap_cons, List.foldl_append, hn, List.replicate_succ, List.foldl_cons,
        foldl_replicate, ih hrest, List.map_cons, List.foldl_cons]

theorem joined_flatMap_replicate (type : ValueType) {k : Run → Nat} {runs : List Run}
    (hk : ∀ r ∈ runs, 0 < k r) :
    joined type (runs.flatMap fun r => List.replicate (k r) r.contents) =
      joined type (runs.map Run.contents) := by
  cases runs with
  | nil => rfl
  | cons r rest =>
      obtain ⟨hr, hrest⟩ := List.forall_mem_cons.1 hk
      obtain ⟨n, hn⟩ := Nat.exists_eq_succ_of_ne_zero hr.ne'
      have hfirst : (List.replicate n r.contents).foldl (both Value.join) r.contents =
          r.contents := by
        have := foldl_replicate n r.contents r.contents
        rwa [both_self] at this
      rw [List.flatMap_cons, hn, List.replicate_succ, List.cons_append, List.map_cons, joined,
        joined, List.foldl_append, hfirst, foldl_flatMap_replicate hrest]

/-- A read joins the runs that it meets. -/
theorem read_eq_joined_runs (a : ArrayValue) (range : IndexRange) :
    a.read range =
      joined a.type ((a.runs.filter (·.meets range.first range.last)).map Run.contents) := by
  have hfold : ∀ (runs : List Run) (v : Value) (d : Bool),
      (runs.map Run.contents).foldl (both Value.join) (v, d) =
        (runs.foldl (fun v s => v.join s.value) v, d && runs.all Run.defined) := by
    intro runs
    induction runs with
    | nil => exact fun v d => by rw [List.all_nil, Bool.and_true]; rfl
    | cons r rest ih =>
        intro v d
        rw [List.map_cons, List.foldl_cons, List.foldl_cons, List.all_cons, ← Bool.and_assoc]
        exact ih _ _
  unfold read
  cases a.runs.filter (·.meets range.first range.last) with
  | nil => rfl
  | cons r rest => exact (hfold rest r.value r.defined).symm

/-- **A read** joins the elements that it may hit. -/
theorem WellFormed.read_eq_joined (h : a.WellFormed) (h₁ : 0 ≤ range.first)
    (h₂ : range.first ≤ range.last) (h₃ : range.last < Interval.lastIndex a.size.hi) :
    a.read range = joined a.type (a.elements range.first range.last) := by
  rw [read_eq_joined_runs, elements, h.spans.elements_eq h₁ (.inl h₂) h₃,
    joined_flatMap_replicate]
  intro r hr
  obtain ⟨hmem, hmeets⟩ := List.mem_filter.1 hr
  have hmeets := Run.meets_iff.1 hmeets
  have hle := h.spans.first_le_last hmem
  unfold Run.overlap
  omega

/-- An access that is allowed hits elements of the array. -/
theorem WellFormed.bounds_of_checkIndex (h : a.WellFormed) {index : Interval Double}
    (hcheck : a.checkIndex index = .ok range) :
    0 ≤ range.first ∧ range.first ≤ range.last ∧ range.last < Interval.lastIndex a.size.hi := by
  have hsized := h.sized
  unfold checkIndex at hcheck
  split at hcheck
  · exact absurd hcheck (by simp)
  · rename_i least greatest hrange
    have hle := Interval.le_of_integerRange hrange
    dsimp only at hcheck
    split at hcheck
    · exact absurd hcheck (by simp)
    · rename_i hno
      simp only [Bool.or_eq_true, decide_eq_true_eq, not_or] at hno
      cases hcheck
      dsimp only
      omega

/-- **Runs as elements.**  The runs of an array cover the indices below its greatest size, in
order and without gaps, and no boundary leaves the range of indices, not even where a write cuts
the runs.  A write at an index that the array allows for changes the elements it may hit, and no
others: a single one gets the value, several get the value as well as what they had.  A read
joins the elements it may hit.  Forgetting, joining and widening work element by element.  After
a write or a combination the values of an element are what is said here or compare as equal to
it. -/
theorem Built.elementwise (h : a.Built) :
    (1 ≤ Interval.lastIndex a.size.hi ∧ Interval.lastIndex a.size.hi ≤ Interval.maxIndex ∧
      Run.Spans 0 (Interval.lastIndex a.size.hi) a.runs ∧ Run.Fit a.runs) ∧
    (∀ index range, a.checkIndex index = .ok range →
      (0 ≤ range.first ∧ range.first ≤ range.last ∧ range.last < Interval.lastIndex a.size.hi) ∧
      Run.Fit (a.runs.flatMap (Run.split range.first)) ∧
      Run.Fit ((a.runs.flatMap (Run.split range.first)).flatMap (Run.split (range.last + 1))) ∧
      a.read range = joined a.type (a.elements range.first range.last) ∧
      ∀ value i, Option.Rel Run.Likewise ((a.write range value).element? i)
        ((a.element? i).map (writeElement range value i))) ∧
    (∀ i, Option.Rel Run.Likewise (a.clobber.element? i)
      ((a.element? i).map fun e => (.full a.type, e.2))) ∧
    ∀ b : ArrayValue, b.Built → a.type = b.type → a.lastIndex? = b.lastIndex? → ∀ i,
      Option.Rel Run.Likewise ((a.join b).element? i)
        (Option.map₂ (both Value.join) (a.element? i) (b.element? i)) ∧
      Option.Rel Run.Likewise ((a.widen b).element? i)
        (Option.map₂ (both Value.widen) (a.element? i) (b.element? i)) := by
  have hw := h.wellFormed
  have hmax := Interval.lastIndex_le a.size.hi
  refine ⟨⟨hw.sized, hmax, hw.spans, hw.spans.fit hmax⟩, fun index range hcheck => ?_,
    hw.element?_clobber, fun b hb htype hlast i => ⟨?_, ?_⟩⟩
  · obtain ⟨h₁, h₂, h₃⟩ := hw.bounds_of_checkIndex hcheck
    have hcut := hw.spans.flatMap_split range.first
    exact ⟨⟨h₁, h₂, h₃⟩, hcut.fit hmax, (hcut.flatMap_split _).fit hmax,
      hw.read_eq_joined h₁ h₂ h₃, hw.element?_write range⟩
  · exact hw.element?_combine hb.wellFormed htype hlast Value.join i
  · exact hw.element?_combine hb.wellFormed htype hlast Value.widen i

/-- An array of a known size to which nothing was written. -/
def fresh (size : Int) : ArrayValue :=
  { name := "a", type := .double, size := .point (Double.ofInt size)
    runs := [⟨0, size - 1, .full .double, false⟩] }

theorem fresh_built {size : Int}
    (hrange : (Interval.point (Double.ofInt size)).integerRange = some (size, size))
    (hpos : 1 ≤ size) : (fresh size).Built := by
  have hdeclared : declare "a" .double (.point (Double.ofInt size)) = .ok (fresh size) := by
    rw [declare, hrange]
    dsimp only
    rw [if_neg (by omega), max_eq_left hpos]
    rfl
  exact .declare hdeclared

/-- An array of two elements, the first of which is zero. -/
def zeroed : ArrayValue := (fresh 2).write ⟨0, 0, false⟩ (.number (.point Double.zero))

theorem zeroed_built : zeroed.Built :=
  .write _ (fresh_built (by decide +kernel) (by decide)) rfl

/-- The second element can be accessed. -/
theorem checkIndex_zeroed :
    zeroed.checkIndex (.point Double.one) = .ok ⟨1, 1, false⟩ := by
  have hrange : (Interval.point Double.one).integerRange = some (1, 1) := by decide +kernel
  have hlast : Interval.lastIndex (Double.ofInt 2) = 2 := by decide +kernel
  rw [checkIndex, hrange]
  dsimp only [zeroed, fresh, write, Interval.point]
  rw [hlast]
  rfl

/-- The array of two elements, read at the second. -/
theorem elementwise_zeroed :
    zeroed.Built ∧ zeroed.checkIndex (.point Double.one) = .ok ⟨1, 1, false⟩ ∧
      zeroed.read ⟨1, 1, false⟩ = joined .double (zeroed.elements 1 1) := by
  obtain ⟨-, haccess, -⟩ := Built.elementwise zeroed_built
  obtain ⟨-, -, -, hread, -⟩ := haccess _ _ checkIndex_zeroed
  exact ⟨zeroed_built, checkIndex_zeroed, hread⟩

/-- **A sign is lost.**  The second element of the array is set to negative zero, and then it is
zero: what is known of its neighbour compares as equal. -/
theorem write_signless :
    zeroed.Built ∧ zeroed.checkIndex (.point Double.one) = .ok ⟨1, 1, false⟩ ∧
      IndexRange.isDeterminate ⟨1, 1, false⟩ = true ∧
      (zeroed.write ⟨1, 1, false⟩ (.number (.point Double.zero.neg))).element? 1 =
        some (.number (.point Double.zero), true) ∧
      Double.zero.neg.bits ≠ Double.zero.bits :=
  ⟨zeroed_built, checkIndex_zeroed, by decide, rfl, by decide⟩

/-! ### Subsumption -/

/-- **An array subsumes another** if its sizes and its elements do. -/
theorem WellFormed.subsumes_iff (ha : a.WellFormed) (hb : b.WellFormed) :
    a.subsumes b = true ↔ a.type = b.type ∧ a.size.subsumes b.size = true ∧
      ∀ i e e', a.element? i = some e → b.element? i = some e' →
        e.1.subsumes e'.1 = true ∧ (e.2 = true → e'.2 = true) := by
  have hover := ha.spans.overlaid hb.spans
  have hdefined : ∀ d d' : Bool, (!d || d') = true ↔ (d = true → d' = true) := by decide
  rw [subsumes, Bool.and_eq_true, Bool.and_eq_true, beq_iff_eq, and_assoc, List.all_eq_true]
  refine and_congr_right fun _ => and_congr_right fun _ => ⟨fun h i e e' he he' => ?_,
    fun h p hp => ?_⟩
  · obtain ⟨r, hr, hr₁, hr₂, rfl⟩ := Run.exists_of_element? he
    obtain ⟨s, hs, hs₁, hs₂, rfl⟩ := Run.exists_of_element? he'
    obtain ⟨p, hp, -, -, hpr, hps⟩ :=
      Run.exists_mem_overlay ha.spans hb.spans hr hr₁ hr₂ hs hs₁ hs₂
    have hpair := h p hp
    rw [Bool.and_eq_true, hdefined] at hpair
    rw [← hpr, ← hps]
    exact hpair
  · -- the first index of the pair is covered by both arrays
    have hne := hover.first_le_last (List.mem_map_of_mem (f := Prod.fst) hp)
    obtain ⟨-, -, ⟨r, hr, hpr, hr₁, hr₂⟩, s, hs, hps, hs₁, hs₂⟩ :=
      Run.mem_overlay a.runs b.runs hp
    rw [Bool.and_eq_true, hdefined]
    exact h p.1.first p.1.contents p.2.contents
      (hpr ▸ ha.spans.element?_eq hr hr₁ (by omega)) (hps ▸ hb.spans.element?_eq hs hs₁ (by omega))

/-- An array subsumes itself. -/
theorem WellFormed.subsumes_self (h : a.WellFormed) : a.subsumes a = true := by
  refine (h.subsumes_iff h).2 ⟨rfl, Interval.subsumes_self _, fun i e e' he he' => ?_⟩
  obtain rfl := Option.some.inj (he.symm.trans he')
  exact ⟨Value.subsumes_self _, id⟩

/-- The values of the elements are of the type of the array. -/
theorem WellFormed.type_of_element? (h : a.WellFormed) (he : a.element? i = some e) :
    e.1.type = a.type := by
  obtain ⟨r, hr, -, -, rfl⟩ := Run.exists_of_element? he
  exact h.typed r hr

/-- What is known of an element of a combination. -/
theorem WellFormed.exists_of_element?_combine (ha : a.WellFormed) (hb : b.WellFormed)
    (htype : a.type = b.type) (hlast : a.lastIndex? = b.lastIndex?)
    (he : (ArrayValue.combine f a b).element? i = some e) :
    ∃ e₁ e₂, a.element? i = some e₁ ∧ b.element? i = some e₂ ∧
      Run.Likewise e (both f e₁ e₂) := by
  have hrel := ha.element?_combine hb htype hlast f i
  rw [he] at hrel
  cases h₁ : a.element? i with
  | none =>
      rw [h₁] at hrel
      cases hrel
  | some e₁ =>
      cases h₂ : b.element? i with
      | none =>
          rw [h₁, h₂] at hrel
          cases hrel
      | some e₂ =>
          rw [h₁, h₂] at hrel
          cases hrel with
          | some hlike => exact ⟨e₁, e₂, rfl, rfl, hlike⟩

/-- A combination of arrays of one length subsumes an array if it does so element by element. -/
theorem WellFormed.combine_subsumes {c : ArrayValue} (ha : a.WellFormed) (hb : b.WellFormed)
    (hc : c.WellFormed) (hf : ∀ v w, (f v w).type = w.type) (htype : a.type = b.type)
    (hlast : a.lastIndex? = b.lastIndex?) (htype' : a.type = c.type)
    (hsize : (a.size.join b.size).subsumes c.size = true)
    (helements : ∀ i e₁ e₂ e, a.element? i = some e₁ → b.element? i = some e₂ →
      c.element? i = some e →
        (f e₁.1 e₂.1).subsumes e.1 = true ∧ ((e₁.2 && e₂.2) = true → e.2 = true)) :
    (ArrayValue.combine f a b).subsumes c = true := by
  have heq : (ArrayValue.combine f a b).type = a.type ∧
      (ArrayValue.combine f a b).size = a.size.join b.size := by
    unfold ArrayValue.combine
    rw [if_pos ⟨htype, hlast⟩]
    exact ⟨rfl, rfl⟩
  refine ((ha.combine hf hb).subsumes_iff hc).2
    ⟨heq.1.trans htype', heq.2 ▸ hsize, fun i e e' he he' => ?_⟩
  obtain ⟨e₁, e₂, h₁, h₂, hlike⟩ := ha.exists_of_element?_combine hb htype hlast he
  obtain ⟨hvalue, hdefined⟩ := helements i e₁ e₂ e' h₁ h₂ he'
  exact ⟨hlike.1.symm.subsumes_left hvalue, fun h => hdefined (hlike.2.symm.trans h)⟩

/-- **The contract of arrays.**  The join of two arrays of one type subsumes the second, and the
widened array subsumes the join.  The join subsumes the first array if the two have one length;
otherwise it is the second array, and subsumes the first only if that does. -/
theorem Built.join_contract (ha : a.Built) (hb : b.Built) (htype : a.type = b.type) :
    ((a.join b).subsumes a = true ↔ a.lastIndex? = b.lastIndex? ∨ b.subsumes a = true) ∧
      (a.join b).subsumes b = true ∧ (a.widen b).subsumes (a.join b) = true := by
  have hwa := ha.wellFormed
  have hwb := hb.wellFormed
  by_cases hlast : a.lastIndex? = b.lastIndex?
  · have hwj : (a.join b).WellFormed := (ha.join hb).wellFormed
    have hjoin : (a.join b).type = a.type ∧ (a.join b).size = a.size.join b.size := by
      unfold ArrayValue.join ArrayValue.combine
      rw [if_pos ⟨htype, hlast⟩]
      exact ⟨rfl, rfl⟩
    refine ⟨iff_of_true ?_ (.inl hlast), ?_, ?_⟩
    · refine hwa.combine_subsumes hwb hwa Value.type_join htype hlast rfl
        (Interval.join_subsumes_left _ _) fun i e₁ e₂ e h₁ h₂ he => ?_
      obtain rfl := Option.some.inj (h₁.symm.trans he)
      have htypes : e₁.1.type = e₂.1.type :=
        (hwa.type_of_element? h₁).trans (htype.trans (hwb.type_of_element? h₂).symm)
      exact ⟨Value.join_subsumes_left htypes, Bool.and_elim_left⟩
    · refine hwa.combine_subsumes hwb hwb Value.type_join htype hlast htype
        (Interval.join_subsumes_right _ _) fun i e₁ e₂ e h₁ h₂ he => ?_
      obtain rfl := Option.some.inj (h₂.symm.trans he)
      exact ⟨Value.join_subsumes_right _ _, Bool.and_elim_right⟩
    · refine hwa.combine_subsumes hwb hwj Value.type_widen htype hlast hjoin.1.symm
        (hjoin.2 ▸ Interval.subsumes_self _) fun i e₁ e₂ e h₁ h₂ he => ?_
      obtain ⟨e₁', e₂', h₁', h₂', hlike⟩ := hwa.exists_of_element?_combine hwb htype hlast he
      obtain rfl := Option.some.inj (h₁.symm.trans h₁')
      obtain rfl := Option.some.inj (h₂.symm.trans h₂')
      exact ⟨hlike.1.symm.subsumes_right (Value.widen_subsumes_join _ _), fun h => hlike.2.trans h⟩
  · have hother : ∀ f, ArrayValue.combine f a b = b := fun f => if_neg fun h => hlast h.2
    have hjoin : a.join b = b := hother _
    have hwiden : a.widen b = b := hother _
    rw [hjoin, hwiden]
    exact ⟨⟨.inr, fun h => h.resolve_left hlast⟩, hwb.subsumes_self, hwb.subsumes_self⟩

/-- The array of two elements, one of which may have been set to zero. -/
theorem join_contract_zeroed :
    zeroed.Built ∧ (fresh 2).Built ∧ zeroed.type = (fresh 2).type ∧
      zeroed.lastIndex? = (fresh 2).lastIndex? ∧
      (zeroed.join (fresh 2)).subsumes zeroed = true ∧
      (zeroed.join (fresh 2)).subsumes (fresh 2) = true ∧
      (zeroed.widen (fresh 2)).subsumes (zeroed.join (fresh 2)) = true := by
  have hfresh : (fresh 2).Built := fresh_built (by decide +kernel) (by decide)
  obtain ⟨hfirst, hsecond, hwiden⟩ := Built.join_contract zeroed_built hfresh rfl
  exact ⟨zeroed_built, hfresh, rfl, rfl, hfirst.2 (.inl rfl), hsecond, hwiden⟩

/-- **A size is lost.**  Where an array of three elements meets one of five, only the array of
five is left, and the array of three is not among what it describes. -/
theorem join_forgets_size :
    (fresh 3).Built ∧ (fresh 5).Built ∧ (fresh 3).type = (fresh 5).type ∧
      ((fresh 3).join (fresh 5)).subsumes (fresh 3) = false := by
  have hjoin : (fresh 3).join (fresh 5) = fresh 5 := by
    rw [join, combine]
    exact if_neg (by decide)
  have hsize : (Interval.point (Double.ofInt 5)).subsumes (.point (Double.ofInt 3)) = false := by
    decide +kernel
  refine ⟨fresh_built (by decide +kernel) (by decide), fresh_built (by decide +kernel) (by decide),
    rfl, ?_⟩
  rw [hjoin, subsumes]
  change (true && (Interval.point (Double.ofInt 5)).subsumes (.point (Double.ofInt 3)) && _) = false
  rw [hsize]
  rfl

end ArrayValue
end Symbolic
end FlowVerifier
