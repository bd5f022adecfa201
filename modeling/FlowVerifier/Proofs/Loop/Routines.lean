import FlowVerifier.Proofs.Loop.Nesting
import Mathlib

/-!
# The loops of several routines

The loops of one routine nest.  The loops of a program are those of all its routines, and
each routine has dominators of its own: a region that two routines enter at different
blocks has different headers and bodies in each of them.  So loops of different routines
may overlap without nesting, and `LoopForest.ofGraph` reports them although every rule for
graphs is kept (`ofGraph_crossing`).

* `nest_ok_iff`: loops are nested if and only if those that share a block lie one inside the
  other.
* `mem_collected`: of the loops with one header, the first routine's is taken.
* `ofGraph_ok_iff`: which programs are affected, in terms of walks.  Programs whose routines
  have no block in common are not.
-/

namespace FlowVerifier

/-! ## Loops that can be nested -/

namespace NaturalLoop

/-- Loops that share a block lie one inside the other. -/
def Nestable (loops : List NaturalLoop) : Prop :=
  ∀ a ∈ loops, ∀ b ∈ loops, a.body.intersects b.body = true → a.body ⊆ b.body ∨ b.body ⊆ a.body

variable {loops : List NaturalLoop} {j k : Nat} {a b : NaturalLoop}

theorem intersects_comm (a b : BitSet) : a.intersects b = b.intersects a := by
  rw [Bool.eq_iff_iff, BitSet.intersects_iff, BitSet.intersects_iff]
  exact exists_congr fun _ => and_comm

/-- A loop clashes with an earlier one that it meets and does not lie in. -/
theorem clash?_eq_none :
    clash? loops k b = none ↔ ∀ (j : Nat) (a : NaturalLoop), j < k → loops[j]? = some a →
      b.body.intersects a.body = true → b.body ⊆ a.body := by
  rw [clash?, List.find?_eq_none]
  simp only [meeting, List.mem_filterMap, List.mem_filter, List.mem_reverse, List.mem_range,
    Bool.not_eq_true', Bool.not_eq_false, BitSet.isSubset_iff]
  constructor
  · intro h j a hj ha hmeet
    exact h a ⟨j, ⟨hj, by rw [ha]; exact hmeet⟩, ha⟩
  · rintro h a ⟨j, ⟨hj, hmeet⟩, ha⟩
    rw [ha] at hmeet
    exact h j a hj ha hmeet

theorem overlap?_eq_none_iff :
    LoopForest.overlap? loops = none ↔ ∀ (j k : Nat) (a b : NaturalLoop), j < k →
      loops[j]? = some a → loops[k]? = some b → b.body.intersects a.body = true →
      b.body ⊆ a.body := by
  rw [LoopForest.overlap?, List.findSome?_eq_none_iff]
  constructor
  · intro h j k a b hjk ha hb
    have hnone := h k (List.mem_range.2 (List.getElem?_eq_some_iff.1 hb).1)
    rw [hb, Option.bind_some, Option.map_eq_none_iff] at hnone
    exact clash?_eq_none.1 hnone j a hjk ha
  · intro h k hk
    rw [List.mem_range] at hk
    rw [List.getElem?_eq_getElem hk, Option.bind_some, Option.map_eq_none_iff, clash?_eq_none]
    exact fun j a hj ha => h j k a _ hj ha (List.getElem?_eq_getElem hk)

/-- Of two loops one of which lies inside the other, the later one lies inside the earlier
one: its mask is not larger. -/
theorem subset_of_nested (hmask : b.body.mask ≤ a.body.mask)
    (h : a.body ⊆ b.body ∨ b.body ⊆ a.body) : b.body ⊆ a.body := by
  rcases h with hab | hba
  · have heq : a.body.mask = b.body.mask :=
      Nat.le_antisymm (BitSet.mask_le_of_subset hab) hmask
    intro i hi
    rw [BitSet.contains, heq]
    exact hi
  · exact hba

/-- **No clash.**  Loops do not clash if and only if those that share a block lie one inside
the other. -/
theorem overlap?_sorted (hcapacity : SameCapacity loops) :
    LoopForest.overlap? (sorted loops) = none ↔ Nestable loops := by
  have hmem : ∀ a, a ∈ sorted loops ↔ a ∈ loops := fun a => (perm_sorted loops).mem_iff
  rw [overlap?_eq_none_iff]
  constructor
  · intro h a ha b hb hmeet
    obtain ⟨i, hi⟩ := List.mem_iff_getElem?.1 ((hmem a).2 ha)
    obtain ⟨j, hj⟩ := List.mem_iff_getElem?.1 ((hmem b).2 hb)
    rcases Nat.lt_trichotomy i j with hij | rfl | hji
    · exact Or.inr (h i j a b hij hi hj (intersects_comm a.body b.body ▸ hmeet))
    · obtain rfl := Option.some.inj (hi.symm.trans hj)
      exact Or.inl fun _ hx => hx
    · exact Or.inl (h j i b a hji hj hi hmeet)
  · intro h j k a b hjk ha hb hmeet
    have hmask : b.body.mask ≤ a.body.mask := by
      obtain ⟨hj, rfl⟩ := List.getElem?_eq_some_iff.1 ha
      obtain ⟨hk, rfl⟩ := List.getElem?_eq_some_iff.1 hb
      exact List.pairwise_iff_getElem.1 (pairwise_sorted hcapacity) j k hj hk hjk
    exact subset_of_nested hmask (h a ((hmem a).1 (List.mem_of_getElem? ha)) b
      ((hmem b).1 (List.mem_of_getElem? hb)) (intersects_comm a.body b.body ▸ hmeet))

end NaturalLoop

namespace LoopForest

open NaturalLoop

/-- **Nesting succeeds** if and only if loops that share a block lie one inside the other.
Otherwise the error names two loops. -/
theorem nest_ok_iff (g : FlowGraph) {loops : List NaturalLoop} (hcapacity : SameCapacity loops) :
    ((∃ f, nest g loops = .ok f) ↔ Nestable loops) ∧
      ((∃ f, nest g loops = .ok f) ∨
        ∃ outer inner, nest g loops = .error (.notLaminar outer inner)) := by
  rw [← overlap?_sorted hcapacity]
  cases h : overlap? (sorted loops) with
  | none =>
      have hok : nest g loops = .ok ((sorted loops).foldl (addLoop g (sorted loops)) {}) := by
        rw [nest, h]
      exact ⟨iff_of_true ⟨_, hok⟩ rfl, Or.inl ⟨_, hok⟩⟩
  | some pair =>
      have herr : nest g loops =
          .error (.notLaminar (g.label pair.1.header) (g.label pair.2.header)) := by
        rw [nest, h]
      refine ⟨iff_of_false ?_ (by simp), Or.inr ⟨_, _, herr⟩⟩
      rintro ⟨f, hf⟩
      rw [herr] at hf
      cases hf

/-! ## Collecting the loops of all routines -/

/-- The edges of the routine that starts with a block. -/
def edgesFrom (g : FlowGraph) (entry : BlockId) : Adjacency := (RoutineView.ofEntry g entry).edges

/-- The routine that starts with `entry` has a loop at `header`. -/
def HasLoop (g : FlowGraph) (entry header : BlockId) : Prop :=
  ∃ u, (edgesFrom g entry).BackEdge entry u header

/-- A block of the loop that a routine has at `header`. -/
def InLoopOf (g : FlowGraph) (entry header block : BlockId) : Prop :=
  (edgesFrom g entry).InLoop entry header block

/-- The routine that starts with `entry` is the first to have a loop at `header`. -/
def FirstWithLoop (g : FlowGraph) (entry header : BlockId) : Prop :=
  HasLoop g entry header ∧ ∃ before after, g.routineEntries = before ++ entry :: after ∧
    ∀ e ∈ before, ¬ HasLoop g e header

variable {g : FlowGraph} {entry h : BlockId} {found : List NaturalLoop} {a : NaturalLoop}

theorem mem_ofRoutine : a ∈ ofRoutine g entry ↔
    HasLoop g entry a.header ∧ IsLoop (edgesFrom g entry) entry a :=
  mem_find (agree_ofEntry g entry)

theorem exists_header_ofRoutine : (∃ b ∈ ofRoutine g entry, b.header = h) ↔ HasLoop g entry h := by
  rw [HasLoop, edgesFrom, ← exists_mem_find (agree_ofEntry g entry), List.mem_map]
  rfl

theorem mem_addRoutine : a ∈ addRoutine g found entry ↔
    a ∈ found ∨ a ∈ ofRoutine g entry ∧ ∀ b ∈ found, b.header ≠ a.header := by
  simp [addRoutine]

/-- The headers after a routine was added: those before, and its own. -/
theorem header_addRoutine : (∀ b ∈ addRoutine g found entry, b.header ≠ h) ↔
    (∀ b ∈ found, b.header ≠ h) ∧ ¬ HasLoop g entry h := by
  rw [← exists_header_ofRoutine]
  constructor
  · intro hall
    have hfound : ∀ b ∈ found, b.header ≠ h := fun b hb => hall b (mem_addRoutine.2 (Or.inl hb))
    refine ⟨hfound, ?_⟩
    rintro ⟨b, hb, rfl⟩
    exact hall b (mem_addRoutine.2 (Or.inr ⟨hb, hfound⟩)) rfl
  · rintro ⟨hfound, hnone⟩ b hb rfl
    rcases mem_addRoutine.1 hb with hb | ⟨hb, -⟩
    · exact hfound b hb rfl
    · exact hnone ⟨b, hb, rfl⟩

/-- Collecting the loops of a list of routines. -/
theorem mem_foldl_addRoutine (entries : List BlockId) (found : List NaturalLoop) :
    a ∈ entries.foldl (addRoutine g) found ↔
      a ∈ found ∨ (∀ b ∈ found, b.header ≠ a.header) ∧ ∃ before entry after,
        entries = before ++ entry :: after ∧ a ∈ ofRoutine g entry ∧
          ∀ e ∈ before, ¬ HasLoop g e a.header := by
  induction entries generalizing found with
  | nil => simp
  | cons e entries ih =>
      rw [List.foldl_cons, ih, mem_addRoutine, header_addRoutine]
      constructor
      · rintro ((hold | ⟨hnew, hfound⟩) | ⟨⟨hfound, hnot⟩, before, entry, after, rfl, ha, hbefore⟩)
        · exact Or.inl hold
        · exact Or.inr ⟨hfound, [], e, entries, rfl, hnew, by simp⟩
        · exact Or.inr ⟨hfound, e :: before, entry, after, rfl, ha,
            List.forall_mem_cons.2 ⟨hnot, hbefore⟩⟩
      · rintro (hold | ⟨hfound, before, entry, after, hsplit, ha, hbefore⟩)
        · exact Or.inl (Or.inl hold)
        cases before with
        | nil =>
            obtain ⟨rfl, rfl⟩ := List.cons.inj hsplit
            exact Or.inl (Or.inr ⟨ha, hfound⟩)
        | cons e' before =>
            obtain ⟨rfl, rfl⟩ := List.cons.inj hsplit
            obtain ⟨hnot, hbefore⟩ := List.forall_mem_cons.1 hbefore
            exact Or.inr ⟨⟨hfound, hnot⟩, before, entry, after, rfl, ha, hbefore⟩

/-- **The loops of a program**: of the loops with one header, that of the first routine. -/
theorem mem_collected : a ∈ g.routineEntries.foldl (addRoutine g) [] ↔
    ∃ entry, FirstWithLoop g entry a.header ∧ IsLoop (edgesFrom g entry) entry a := by
  rw [mem_foldl_addRoutine]
  simp only [List.not_mem_nil, false_or, false_imp_iff, implies_true, true_and, mem_ofRoutine]
  constructor
  · rintro ⟨before, entry, after, hsplit, ⟨hloop, ha⟩, hbefore⟩
    exact ⟨entry, ⟨hloop, before, after, hsplit, hbefore⟩, ha⟩
  · rintro ⟨entry, ⟨hloop, before, after, hsplit, hbefore⟩, ha⟩
    exact ⟨before, entry, after, hsplit, ⟨hloop, ha⟩, hbefore⟩

theorem sameCapacity_collected : SameCapacity (g.routineEntries.foldl (addRoutine g) []) := by
  have hsize : ∀ a ∈ g.routineEntries.foldl (addRoutine g) [], a.body.capacity = g.slots.size := by
    intro a ha
    obtain ⟨entry, -, hloop⟩ := mem_collected.1 ha
    rw [hloop.capacity]
    simp [edgesFrom, RoutineView.ofEntry, Adjacency.size]
  intro a ha b hb
  rw [hsize a ha, hsize b hb]

/-- A header has a loop among those of the program, taken from the first routine. -/
theorem exists_collected (hfirst : FirstWithLoop g entry h) :
    ∃ a ∈ g.routineEntries.foldl (addRoutine g) [],
      a.header = h ∧ ∀ v, a.body.contains v = true ↔ InLoopOf g entry h v := by
  obtain ⟨a, ha, rfl⟩ := exists_header_ofRoutine.2 hfirst.1
  have hloop := (mem_ofRoutine.1 ha).2
  exact ⟨a, mem_collected.2 ⟨entry, hfirst, hloop⟩, rfl, hloop.contains⟩

/-! ## Programs whose loops nest -/

/-- Two loops of the program, given by their routines and headers, that share a block. -/
def Share (g : FlowGraph) (entry header entry' header' : BlockId) : Prop :=
  ∃ x, InLoopOf g entry header x ∧ InLoopOf g entry' header' x

/-- The first loop lies inside the second. -/
def LiesIn (g : FlowGraph) (entry header entry' header' : BlockId) : Prop :=
  ∀ v, InLoopOf g entry header v → InLoopOf g entry' header' v

/-- No block belongs to two routines. -/
def SeparateRoutines (g : FlowGraph) : Prop :=
  ∀ e ∈ g.routineEntries, ∀ e' ∈ g.routineEntries, ∀ v, (edgesFrom g e).Reaches e v →
    (edgesFrom g e').Reaches e' v → e = e'

/-- The loops that are nested, in terms of walks. -/
theorem nestable_collected :
    Nestable (g.routineEntries.foldl (addRoutine g) []) ↔ ∀ e h e' h', FirstWithLoop g e h →
      FirstWithLoop g e' h' → Share g e h e' h' → LiesIn g e h e' h' ∨ LiesIn g e' h' e h := by
  constructor
  · intro hnest e h e' h' hfirst hfirst' hshare
    obtain ⟨a, ha, -, hin⟩ := exists_collected hfirst
    obtain ⟨b, hb, -, hin'⟩ := exists_collected hfirst'
    have key := hnest a ha b hb
    simp only [BitSet.intersects_iff, HasSubset.Subset, hin, hin'] at key
    exact key hshare
  · intro hall a ha b hb
    obtain ⟨e, hfirst, hloop⟩ := mem_collected.1 ha
    obtain ⟨e', hfirst', hloop'⟩ := mem_collected.1 hb
    simp only [BitSet.intersects_iff, HasSubset.Subset, hloop.contains, hloop'.contains]
    exact hall e a.header e' b.header hfirst hfirst'

theorem InLoopOf.reaches {v : BlockId} (hloop : HasLoop g entry h) (hv : InLoopOf g entry h v) :
    (edgesFrom g entry).Reaches entry v := by
  obtain ⟨u, hu⟩ := hloop
  exact (hv.dominates hu.header_reaches).1

theorem FirstWithLoop.mem_routineEntries (hfirst : FirstWithLoop g entry h) :
    entry ∈ g.routineEntries := by
  obtain ⟨-, before, after, hsplit, -⟩ := hfirst
  simp [hsplit]

/-- **Which programs have a forest of loops.**  The loops of a program are nested if and only
if any two of them that share a block, each taken from the first routine that has a loop at
its header, lie one inside the other.  Otherwise two loops are reported that do not.  If no
block belongs to two routines, the loops are nested. -/
theorem ofGraph_ok_iff (g : FlowGraph) :
    ((∃ f, ofGraph g = .ok f) ↔ ∀ e h e' h', FirstWithLoop g e h → FirstWithLoop g e' h' →
      Share g e h e' h' → LiesIn g e h e' h' ∨ LiesIn g e' h' e h) ∧
    ((∃ f, ofGraph g = .ok f) ∨ ∃ outer inner, ofGraph g = .error (.notLaminar outer inner)) ∧
    (SeparateRoutines g → ∃ f, ofGraph g = .ok f) := by
  obtain ⟨hiff, hcases⟩ := nest_ok_iff g (sameCapacity_collected (g := g))
  rw [nestable_collected] at hiff
  refine ⟨hiff, hcases, fun hseparate => hiff.2 fun e h e' h' hfirst hfirst' hshare => ?_⟩
  obtain ⟨x, hx, hx'⟩ := hshare
  obtain rfl : e = e' := hseparate e hfirst.mem_routineEntries e' hfirst'.mem_routineEntries x
    (hx.reaches hfirst.1) (hx'.reaches hfirst'.1)
  -- loops of one routine are laminar
  obtain ⟨u, hu⟩ := hfirst.1
  obtain ⟨u', hu'⟩ := hfirst'.1
  exact (Adjacency.InLoop.laminar hu.header_reaches hu'.header_reaches hx hx').symm

/-! ## Crossing routines -/

/-- A region that the program enters at `v` and a function at `w`: between `a` and `b` the
one goes around through `w`, and the other through `v`. -/
def crossing : FlowGraph where
  slots := #[
    some { name := "v", terminator := .jump 1, predecessors := [3] },
    some {
      name := "a"
      terminator := .branch ⟨.var "x", .lt, .literal (.number Double.one)⟩ 2 3
      predecessors := [0, 3] },
    some { name := "w", terminator := .jump 3, predecessors := [1], function := some 0 },
    some {
      name := "b"
      terminator := .branch ⟨.var "x", .lt, .literal (.number Double.one)⟩ 1 0
      predecessors := [1, 2] }]
  functions := #[{ name := "f", entry := some 2 }]
  first := some 0

/-- **A valid program without a forest.**  The program's loop at `a` consists of `a`, `b` and
`w`, the function's loop at `b` of `a`, `b` and `v`. -/
theorem ofGraph_crossing :
    crossing.validate = .ok () ∧ ofGraph crossing = .error (.notLaminar "a" "b") := by
  constructor
  · cbv
  · cbv

end LoopForest
end FlowVerifier
