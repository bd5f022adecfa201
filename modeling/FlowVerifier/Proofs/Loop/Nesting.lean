import FlowVerifier.Loop.Forest
import FlowVerifier.Proofs.Flow.Edges
import FlowVerifier.Proofs.Graph.NaturalLoop
import Mathlib

/-!
# Correctness of the nesting

The natural loops of one graph are *laminar*: two of them that have a node in
common lie one inside the other (`Adjacency.InLoop.laminar`).  For of the two
headers one dominates the other, and then the loop of the other one can be
walked backward without leaving the first loop.

Sorted by their bodies as numbers, loops come after the loops around them.  So
among laminar loops the earlier ones that have a block in common with a loop are
the loops around it (`Sorted.meeting_iff`), and the last of them is the smallest.
This is what `LoopForest.nest` relies on, and what makes the last loop that
contains a block the innermost one.

* `LoopForest.Nested` says what a forest should be.
* `nest_of_laminar` says that laminar loops are nested into such a forest.
* `nest_ofRoutine` says the same of the loops of every routine.
-/

namespace FlowVerifier

/-! ## Loops of one graph -/

namespace Adjacency

variable {g : Adjacency} {entry h k u v x : Nat}

/-- From a node that belongs to two loops, go back along a walk that does not visit the
header of the inner one: no node on the way is the header of the outer one. -/
theorem InLoop.back_along (hk : g.Reaches entry k) (hout : ¬ g.Dominates entry k h)
    {l : List Nat} (hl : g.Walk v l u) (hno : k ∉ l) (hv : g.Reaches entry v)
    (hinner : g.InLoop entry k u) (houter : g.InLoop entry h u) : g.InLoop entry h v := by
  induction hl with
  | start => exact houter
  | @step l x y hx hedge ih =>
      rw [List.mem_append, not_or, List.mem_singleton] at hno
      have hreach : g.Reaches entry x := hv.trans ⟨l, hx⟩
      have hyh : y ≠ h := by
        rintro rfl
        exact hout (hinner.dominates hk)
      exact ih hno.1 (hinner.predecessor (Ne.symm hno.2) hreach hedge)
        (houter.predecessor hyh hreach hedge)

/-- A node that `k` dominates is reached from `k` without visiting `h`, unless `k`
dominates `h`. -/
theorem exists_walk_avoiding (hdom : g.Dominates entry k x) (hout : ¬ g.Dominates entry k h)
    (hh : g.Reaches entry h) : ∃ m, g.Walk k (k :: m) x ∧ h ∉ k :: m := by
  obtain ⟨l, hl⟩ := hdom.1
  obtain ⟨z, m, hz, -, hm, hno⟩ := hl.cut (fun y => y = h ∨ y = k) ⟨k, hdom.2 l hl, Or.inr rfl⟩
  have hkh : k ≠ h := by
    rintro rfl
    exact hout (.self hh)
  rcases hz with rfl | rfl
  · -- `h` would lead to `x` without `k`, and `h` itself is reached without `k`
    obtain ⟨n, hn, hkn⟩ : ∃ n, g.Walk entry n z ∧ k ∉ n := by
      by_contra hnone
      refine hout ⟨hh, fun n hn => ?_⟩
      by_contra hkn
      exact hnone ⟨n, hn, hkn⟩
    rcases List.mem_append.1 (hdom.2 _ (hn.append hm)) with hmem | hmem
    · exact absurd hmem hkn
    · exact absurd (Or.inr rfl) (hno k hmem)
  · refine ⟨m, hm, fun hmem => ?_⟩
    rcases List.mem_cons.1 hmem with heq | hmem
    · exact hkh heq.symm
    · exact hno h hmem (Or.inl rfl)

/-- **The loop of a header lies inside the loop of a dominating header** with which it
has a node in common. -/
theorem InLoop.of_dominates (hh : g.Reaches entry h) (hk : g.Reaches entry k)
    (hne : h ≠ k) (hdom : g.Dominates entry h k) (hxh : g.InLoop entry h x)
    (hxk : g.InLoop entry k x) (hv : g.InLoop entry k v) : g.InLoop entry h v := by
  have hout : ¬ g.Dominates entry k h := fun hkh => hne (hdom.antisymm hkh)
  -- the inner header belongs to the outer loop, since it leads to the common node
  have hkin : g.InLoop entry h k := by
    rcases hxh with rfl | ⟨-, t, l, hback, hl, hno⟩
    · exact absurd (hxk.dominates hk) hout
    obtain ⟨m, hm, hhm⟩ := exists_walk_avoiding (hxk.dominates hk) hout hh
    obtain ⟨n, rfl⟩ := hl.exists_cons
    refine Or.inr ⟨hk, t, k :: m ++ n, hback, hm.append hl, fun hmem => ?_⟩
    rcases List.mem_append.1 hmem with hmem | hmem
    · exact hhm hmem
    · exact hno (List.mem_cons_of_mem _ hmem)
  rcases hv with rfl | ⟨hreach, t, l, hback, hl, hno⟩
  · exact hkin
  · exact back_along hk hout hl hno hreach (.tail hback)
      (hkin.predecessor (Ne.symm hne) hback.2.1 hback.1)

/-- **Natural loops are laminar.** -/
theorem InLoop.laminar (hh : g.Reaches entry h) (hk : g.Reaches entry k)
    (hxh : g.InLoop entry h x) (hxk : g.InLoop entry k x) :
    (∀ v, g.InLoop entry k v → g.InLoop entry h v) ∨
      ∀ v, g.InLoop entry h v → g.InLoop entry k v := by
  by_cases hne : h = k
  · subst hne
    exact Or.inl fun _ hv => hv
  rcases (hxh.dominates hh).total (hxk.dominates hk) with hdom | hdom
  · exact Or.inl fun _ hv => of_dominates hh hk hne hdom hxh hxk hv
  · exact Or.inr fun _ hv => of_dominates hk hh (Ne.symm hne) hdom hxk hxh hv

end Adjacency

/-! ## Laminar loops -/

namespace NaturalLoop

open Adjacency

/-- Loops that can be nested: none is empty, no two have the same body, and two that
have a block in common lie one inside the other. -/
structure Laminar (loops : List NaturalLoop) : Prop where
  inhabited : ∀ a ∈ loops, a.body.contains a.header = true
  distinct : (loops.map body).Nodup
  nested : ∀ a ∈ loops, ∀ b ∈ loops, a.body.intersects b.body = true →
    a.body ⊆ b.body ∨ b.body ⊆ a.body

theorem Laminar.perm {loops loops' : List NaturalLoop} (h : Laminar loops)
    (hperm : loops'.Perm loops) : Laminar loops' where
  inhabited a ha := h.inhabited a (hperm.mem_iff.1 ha)
  distinct := (hperm.map body).nodup_iff.2 h.distinct
  nested a ha b hb := h.nested a (hperm.mem_iff.1 ha) b (hperm.mem_iff.1 hb)

/-- The natural loops of a graph are laminar.  Loops with the same body have the same
header, since their headers dominate each other. -/
theorem laminar_find {g sources : Adjacency} {entry : Nat} (hsources : Agree g sources) :
    Laminar (find g sources (Dominators.compute g entry)) := by
  have hloop : ∀ a ∈ find g sources (Dominators.compute g entry),
      g.Reaches entry a.header ∧ IsLoop g entry a := by
    intro a ha
    obtain ⟨⟨u, hu⟩, hl⟩ := (mem_find hsources).1 ha
    exact ⟨hu.header_reaches, hl⟩
  refine ⟨fun a ha => ((hloop a ha).2.contains _).2 (Or.inl rfl), ?_, fun a ha b hb hmeet => ?_⟩
  · refine List.Nodup.map_on (fun a ha b hb hsame => ?_) ?_
    · obtain ⟨hareach, hain⟩ := hloop a ha
      obtain ⟨hbreach, hbin⟩ := hloop b hb
      have hab := ((hain.contains b.header).1
        (hsame ▸ (hbin.contains _).2 (Or.inl rfl))).dominates hareach
      have hba := ((hbin.contains a.header).1
        (hsame ▸ (hain.contains _).2 (Or.inl rfl))).dominates hbreach
      exact hain.ext hbin (hab.antisymm hba)
    · exact List.Nodup.of_map header ((pairwise_find hsources).imp Nat.ne_of_lt)
  · obtain ⟨hareach, hain⟩ := hloop a ha
    obtain ⟨hbreach, hbin⟩ := hloop b hb
    obtain ⟨x, hxa, hxb⟩ := BitSet.intersects_iff.1 hmeet
    rcases InLoop.laminar hareach hbreach ((hain.contains x).1 hxa)
      ((hbin.contains x).1 hxb) with hsub | hsub
    · exact Or.inr fun v hv => (hain.contains v).2 (hsub v ((hbin.contains v).1 hv))
    · exact Or.inl fun v hv => (hbin.contains v).2 (hsub v ((hain.contains v).1 hv))

/-! ## Sorted loops -/

/-- Laminar loops, larger bodies (as numbers) first. -/
structure Sorted (loops : List NaturalLoop) : Prop where
  laminar : Laminar loops
  descending : loops.Pairwise fun a b => b.body.mask < a.body.mask

theorem filterMap_getElem?_range {α : Type} (l : List α) :
    (List.range l.length).filterMap (l[·]?) = l := by
  induction l with
  | nil => rfl
  | cons a l ih =>
      rw [List.length_cons, List.range_succ_eq_map, List.filterMap_cons]
      simp only [List.getElem?_cons_zero, List.filterMap_map, Function.comp_def,
        List.getElem?_cons_succ, ih]

theorem perm_sorted (loops : List NaturalLoop) : (sorted loops).Perm loops := by
  have hperm := BitSet.perm_radixSortDescending (loops.map body).toArray
  rw [List.size_toArray, List.length_map] at hperm
  have hsame := hperm.filterMap (loops[·]?)
  rw [filterMap_getElem?_range] at hsame
  exact hsame

/-- The bodies have one capacity. -/
def SameCapacity (loops : List NaturalLoop) : Prop :=
  ∀ a ∈ loops, ∀ b ∈ loops, a.body.capacity = b.body.capacity

/-- Sorting sorts. -/
theorem pairwise_sorted {loops : List NaturalLoop} (hcapacity : SameCapacity loops) :
    (sorted loops).Pairwise fun a b => b.body.mask ≤ a.body.mask := by
  have hbodies : ∀ s ∈ (loops.map body).toArray, ∀ t ∈ (loops.map body).toArray,
      s.capacity = t.capacity := by
    simp only [List.mem_toArray, List.mem_map]
    rintro _ ⟨a, ha, rfl⟩ _ ⟨b, hb, rfl⟩
    exact hcapacity a ha b hb
  unfold sorted
  rw [List.pairwise_filterMap]
  refine (BitSet.radixSortDescending_sorts hbodies).imp fun {i j} hij a ha b hb => ?_
  have hmask : ∀ (i : Nat) (a : NaturalLoop), loops[i]? = some a →
      BitSet.maskAt (loops.map body).toArray i = a.body.mask := by
    intro i a ha
    simp [BitSet.maskAt, ha]
  rw [hmask i a ha, hmask j b hb] at hij
  omega

/-- Laminar loops are sorted strictly: equal masks would be equal bodies. -/
theorem sorted_sorted {loops : List NaturalLoop} (h : Laminar loops)
    (hcapacity : SameCapacity loops) : Sorted (sorted loops) := by
  have hlaminar := h.perm (perm_sorted loops)
  refine ⟨hlaminar, ?_⟩
  have hdistinct := hlaminar.distinct
  rw [List.Nodup, List.pairwise_map] at hdistinct
  refine ((pairwise_sorted hcapacity).and hdistinct).imp_of_mem fun {a b} ha hb hab => ?_
  refine Nat.lt_of_le_of_ne hab.1 fun heq => hab.2 ?_
  refine BitSet.ext (hcapacity a ((perm_sorted loops).mem_iff.1 ha) b
    ((perm_sorted loops).mem_iff.1 hb)) fun i => ?_
  rw [BitSet.contains, BitSet.contains, heq]

namespace Sorted

variable {loops : List NaturalLoop} {i j k : Nat} {a b c : NaturalLoop}

theorem mask_lt (h : Sorted loops) (ha : loops[i]? = some a) (hb : loops[j]? = some b)
    (hij : i < j) : b.body.mask < a.body.mask := by
  obtain ⟨hi, rfl⟩ := List.getElem?_eq_some_iff.1 ha
  obtain ⟨hj, rfl⟩ := List.getElem?_eq_some_iff.1 hb
  exact List.pairwise_iff_getElem.1 h.descending i j hi hj hij

/-- A loop comes after the loops around it. -/
theorem lt_of_ssubset (h : Sorted loops) (ha : loops[i]? = some a) (hb : loops[j]? = some b)
    (hab : b.body ⊂ a.body) : i < j := by
  have hlt := BitSet.mask_lt_of_ssubset hab
  rcases Nat.lt_trichotomy i j with hij | rfl | hji
  · exact hij
  · rw [ha, Option.some.injEq] at hb
    subst hb
    exact absurd hlt (Nat.lt_irrefl _)
  · exact absurd (h.mask_lt hb ha hji) (Nat.lt_asymm hlt)

/-- Of two loops that have a block in common, the later one lies inside the earlier
one. -/
theorem ssubset_of_intersects (h : Sorted loops) (ha : loops[i]? = some a)
    (hb : loops[j]? = some b) (hij : i < j) (hmeet : b.body.intersects a.body = true) :
    b.body ⊂ a.body := by
  have hlt := h.mask_lt ha hb hij
  have hnot : ¬ a.body ⊆ b.body := fun hsub =>
    absurd (BitSet.mask_le_of_subset hsub) (Nat.not_le_of_lt hlt)
  rcases h.laminar.nested b (List.mem_of_getElem? hb) a (List.mem_of_getElem? ha) hmeet with
    hsub | hsub
  · exact ⟨hsub, hnot⟩
  · exact absurd hsub hnot

theorem intersects_of_contains {x : Nat} (hb : b.body.contains x = true)
    (ha : a.body.contains x = true) : b.body.intersects a.body = true :=
  BitSet.intersects_iff.2 ⟨x, hb, ha⟩

/-- **The earlier loops that have a block in common** with a loop are the loops around
it. -/
theorem meeting_iff (h : Sorted loops) (ha : loops[i]? = some a) (hb : loops[j]? = some b) :
    i < j ∧ b.body.intersects a.body = true ↔ b.body ⊂ a.body := by
  constructor
  · exact fun hmeet => h.ssubset_of_intersects ha hb hmeet.1 hmeet.2
  · intro hab
    have hheader := h.laminar.inhabited b (List.mem_of_getElem? hb)
    exact ⟨h.lt_of_ssubset ha hb hab, intersects_of_contains hheader (hab.1 _ hheader)⟩

/-- The loops around a loop are around each other: the last of them is inside the
others. -/
theorem ssubset_of_around (h : Sorted loops) (ha : loops[i]? = some a) (hb : loops[j]? = some b)
    (hc : loops[k]? = some c) (hca : c.body ⊂ a.body) (hcb : c.body ⊂ b.body) (hij : i < j) :
    b.body ⊂ a.body := by
  have hheader := h.laminar.inhabited c (List.mem_of_getElem? hc)
  exact h.ssubset_of_intersects ha hb hij
    (intersects_of_contains (hcb.1 _ hheader) (hca.1 _ hheader))

end Sorted

/-- The last number below a bound that passes a test. -/
theorem find?_reverse_range {p : Nat → Bool} {n k : Nat} :
    (List.range n).reverse.find? p = some k ↔
      k < n ∧ p k = true ∧ ∀ j, k < j → j < n → p j = false := by
  induction n with
  | zero => simp
  | succ n ih =>
      rw [List.range_succ, List.reverse_append, List.reverse_singleton, List.singleton_append,
        List.find?_cons]
      cases hp : p n with
      | true =>
          constructor
          · rintro hk
            obtain rfl := Option.some.inj hk
            exact ⟨by omega, hp, fun j hj hj' => by omega⟩
          · rintro ⟨hk, -, hlast⟩
            by_cases hkn : k = n
            · rw [hkn]
            · have hnone := hlast n (by omega) (by omega)
              rw [hp] at hnone
              exact absurd hnone (by decide)
      | false =>
          rw [ih]
          constructor
          · rintro ⟨hk, hpk, hlast⟩
            refine ⟨by omega, hpk, fun j hj hj' => ?_⟩
            by_cases hjn : j = n
            · rw [hjn, hp]
            · exact hlast j hj (by omega)
          · rintro ⟨hk, hpk, hlast⟩
            have hkn : k ≠ n := by
              rintro rfl
              rw [hp] at hpk
              exact Bool.false_ne_true hpk
            exact ⟨by omega, hpk, fun j hj hj' => hlast j hj (by omega)⟩

theorem find?_reverse_range_eq_none {p : Nat → Bool} {n : Nat} :
    (List.range n).reverse.find? p = none ↔ ∀ j, j < n → p j = false := by
  rw [List.find?_eq_none]
  simp

/-- The parent is the last earlier loop that has a block in common. -/
theorem parent?_eq (loops : List NaturalLoop) (k : Nat) (l : NaturalLoop) :
    parent? loops k l = (List.range k).reverse.find? fun j =>
      loops[j]?.any fun o => l.body.intersects o.body := by
  rw [parent?, meeting, List.head?_filter]

theorem parent?_lt {loops : List NaturalLoop} {k p : Nat} {l : NaturalLoop}
    (h : parent? loops k l = some p) : p < k := by
  rw [parent?_eq, find?_reverse_range] at h
  exact h.1

/-- **The parent** of a loop is the smallest loop around it. -/
theorem Sorted.parent?_eq_some {loops : List NaturalLoop} {k p : Nat} {l : NaturalLoop}
    (h : Sorted loops) (hl : loops[k]? = some l) :
    parent? loops k l = some p ↔ ∃ o, loops[p]? = some o ∧ l.body ⊂ o.body ∧
      ∀ (q : Nat) (x : NaturalLoop), loops[q]? = some x → l.body ⊂ x.body → q ≠ p →
        o.body ⊂ x.body := by
  rw [parent?_eq, find?_reverse_range]
  constructor
  · rintro ⟨hpk, hmeet, hlast⟩
    obtain ⟨o, ho, hinter⟩ := (Option.any_eq_true _ _).1 hmeet
    have hlo := (h.meeting_iff ho hl).1 ⟨hpk, hinter⟩
    refine ⟨o, ho, hlo, fun q x hx hlx hqp => ?_⟩
    obtain ⟨hqk, hqinter⟩ := (h.meeting_iff hx hl).2 hlx
    rcases Nat.lt_or_gt_of_ne hqp with hlt | hgt
    · exact h.ssubset_of_around hx ho hl hlx hlo hlt
    · have hnone := hlast q hgt hqk
      rw [hx, Option.any_some, hqinter] at hnone
      exact absurd hnone (by decide)
  · rintro ⟨o, ho, hlo, hsmallest⟩
    obtain ⟨hpk, hinter⟩ := (h.meeting_iff ho hl).2 hlo
    refine ⟨hpk, by rw [ho]; exact hinter, fun j hpj hjk => ?_⟩
    by_contra hmeet
    obtain ⟨x, hx, hxinter⟩ := (Option.any_eq_true _ _).1 (Bool.eq_true_of_not_eq_false hmeet)
    have hlx := (h.meeting_iff hx hl).1 ⟨hjk, hxinter⟩
    have hjp := h.lt_of_ssubset hx ho (hsmallest j x hx hlx (Nat.ne_of_gt hpj))
    exact absurd hpj (Nat.lt_asymm hjp)

theorem Sorted.parent?_eq_none {loops : List NaturalLoop} {k : Nat} {l : NaturalLoop}
    (h : Sorted loops) (hl : loops[k]? = some l) :
    parent? loops k l = none ↔
      ∀ (q : Nat) (x : NaturalLoop), loops[q]? = some x → ¬ l.body ⊂ x.body := by
  rw [parent?_eq, find?_reverse_range_eq_none]
  constructor
  · intro hnone q x hx hlx
    obtain ⟨hqk, hinter⟩ := (h.meeting_iff hx hl).2 hlx
    have hfalse := hnone q hqk
    rw [hx, Option.any_some, hinter] at hfalse
    exact absurd hfalse (by decide)
  · intro hnone j hj
    by_contra hmeet
    obtain ⟨x, hx, hinter⟩ := (Option.any_eq_true _ _).1 (Bool.eq_true_of_not_eq_false hmeet)
    exact hnone j x hx ((h.meeting_iff hx hl).1 ⟨hj, hinter⟩)

/-- **The last loop that contains a block** is the smallest one that does. -/
theorem Sorted.lastContaining?_eq_some {loops : List NaturalLoop} {k id : Nat}
    (h : Sorted loops) :
    lastContaining? loops id = some k ↔ ∃ l, loops[k]? = some l ∧ l.body.contains id = true ∧
      ∀ (q : Nat) (x : NaturalLoop), loops[q]? = some x → x.body.contains id = true → q ≠ k →
        l.body ⊂ x.body := by
  rw [lastContaining?, find?_reverse_range]
  constructor
  · rintro ⟨hk, hin, hlast⟩
    obtain ⟨l, hl, hid⟩ := (Option.any_eq_true _ _).1 hin
    refine ⟨l, hl, hid, fun q x hx hxid hqk => ?_⟩
    rcases Nat.lt_or_gt_of_ne hqk with hlt | hgt
    · exact h.ssubset_of_intersects hx hl hlt (Sorted.intersects_of_contains hid hxid)
    · have hnone := hlast q hgt (List.getElem?_eq_some_iff.1 hx).1
      rw [hx, Option.any_some, hxid] at hnone
      exact absurd hnone (by decide)
  · rintro ⟨l, hl, hid, hsmallest⟩
    refine ⟨(List.getElem?_eq_some_iff.1 hl).1, by rw [hl]; exact hid, fun j hkj hj => ?_⟩
    by_contra hin
    obtain ⟨x, hx, hxid⟩ := (Option.any_eq_true _ _).1 (Bool.eq_true_of_not_eq_false hin)
    have hjk := h.lt_of_ssubset hx hl (hsmallest j x hx hxid (Nat.ne_of_gt hkj))
    exact absurd hkj (Nat.lt_asymm hjk)

theorem lastContaining?_eq_none {loops : List NaturalLoop} {id : Nat} :
    lastContaining? loops id = none ↔
      ∀ (q : Nat) (x : NaturalLoop), loops[q]? = some x → x.body.contains id = false := by
  rw [lastContaining?, find?_reverse_range_eq_none]
  constructor
  · intro hnone q x hx
    have hq := hnone q (List.getElem?_eq_some_iff.1 hx).1
    rw [hx, Option.any_some] at hq
    exact hq
  · intro hnone j hj
    rw [List.getElem?_eq_getElem hj, Option.any_some]
    exact hnone j _ (List.getElem?_eq_getElem hj)

/-- Laminar loops do not clash. -/
theorem Sorted.overlap?_eq_none {loops : List NaturalLoop} (h : Sorted loops) :
    LoopForest.overlap? loops = none := by
  rw [LoopForest.overlap?, List.findSome?_eq_none_iff]
  intro k hk
  rw [List.mem_range] at hk
  rw [List.getElem?_eq_getElem hk, Option.bind_some, Option.map_eq_none_iff, clash?,
    List.find?_eq_none]
  intro o ho
  obtain ⟨j, hj, hjo⟩ := List.mem_filterMap.1 ho
  rw [meeting, List.mem_filter, List.mem_reverse, List.mem_range, hjo, Option.any_some] at hj
  have hsub := h.ssubset_of_intersects hjo (List.getElem?_eq_getElem hk) hj.1 hj.2
  rw [BitSet.isSubset_iff.2 hsub.1]
  decide

end NaturalLoop

/-! ## Forests -/

/-- A loop of a forest without its place there. -/
def Loop.natural (l : Loop) : NaturalLoop := ⟨l.header, l.tails, l.body⟩

namespace LoopForest

/-- The loops around a loop: those whose bodies strictly contain its body. -/
def around (f : LoopForest) (l : Loop) : List Nat :=
  (List.range f.size).filter fun q => (f.get? q).any fun o => decide (l.body ⊂ o.body)

theorem mem_around {f : LoopForest} {l : Loop} {q : Nat} :
    q ∈ f.around l ↔ ∃ o, f.get? q = some o ∧ l.body ⊂ o.body := by
  rw [around, List.mem_filter, List.mem_range, Option.any_eq_true]
  constructor
  · rintro ⟨-, o, ho, hlo⟩
    exact ⟨o, ho, of_decide_eq_true hlo⟩
  · rintro ⟨o, ho, hlo⟩
    exact ⟨(Array.getElem?_eq_some_iff.1 ho).1, o, ho, decide_eq_true hlo⟩

/-- What a forest of the loops of a program should be. -/
structure Nested (g : FlowGraph) (f : LoopForest) : Prop where
  /-- A loop comes after the loops around it. -/
  order : ∀ {i j a b}, f.get? i = some a → f.get? j = some b → b.body ⊂ a.body → i < j
  /-- The parent of a loop is the smallest loop around it: the other loops around it are
  around the parent. -/
  parent : ∀ {k l p}, f.get? k = some l → (l.parent = some p ↔
    ∃ o, f.get? p = some o ∧ l.body ⊂ o.body ∧
      ∀ q x, f.get? q = some x → l.body ⊂ x.body → q ≠ p → o.body ⊂ x.body)
  /-- Only a loop with no loop around it has no parent. -/
  root : ∀ {k l}, f.get? k = some l → (l.parent = none ↔
    ∀ q x, f.get? q = some x → ¬ l.body ⊂ x.body)
  /-- The children of a loop are the loops whose parent it is, ascending. -/
  children : ∀ k, (f.children k).Pairwise (· < ·) ∧
    ∀ j, j ∈ f.children k ↔ ∃ l, f.get? j = some l ∧ l.parent = some k
  /-- The depth of a loop is the number of loops around it. -/
  depth : ∀ {k l}, f.get? k = some l → l.depth = (f.around l).length
  /-- The innermost loop of a block is the smallest one that contains it: the other loops
  that contain the block are around it. -/
  innermost : ∀ {id k}, f.innermost? id = some k ↔
    ∃ l, f.get? k = some l ∧ l.contains id = true ∧
      ∀ q x, f.get? q = some x → x.contains id = true → q ≠ k → l.body ⊂ x.body
  /-- Only a block in no loop has no innermost loop. -/
  outside : ∀ {id}, f.innermost? id = none ↔
    ∀ q x, f.get? q = some x → x.contains id = false
  /-- The members of a loop are the blocks of its body, ascending, by their names and each
  with its innermost loop. -/
  members : ∀ {k l}, f.get? k = some l →
    (l.members.map LoopMember.block).Pairwise (· < ·) ∧
    (∀ id, id ∈ l.members.map LoopMember.block ↔ l.contains id = true) ∧
    ∀ m ∈ l.members, m.name = g.label m.block ∧ f.innermost? m.block = some m.owner

/-! ## Building the forest -/

/-- The loops among the first `n` whose parent is `k`. -/
def childrenAmong (loops : List NaturalLoop) (n k : Nat) : List Nat :=
  (List.range n).filter fun j => loops[j]?.any fun l => NaturalLoop.parent? loops j l == some k

theorem mem_childrenAmong {loops : List NaturalLoop} {n j k : Nat} :
    j ∈ childrenAmong loops n k ↔
      j < n ∧ ∃ l, loops[j]? = some l ∧ NaturalLoop.parent? loops j l = some k := by
  simp only [childrenAmong, List.mem_filter, List.mem_range, Option.any_eq_true, beq_iff_eq]

/-- Parents come before their children. -/
theorem childrenAmong_self (loops : List NaturalLoop) {n k : Nat} (hk : n ≤ k + 1) :
    childrenAmong loops n k = [] := by
  rw [List.eq_nil_iff_forall_not_mem]
  intro j hj
  obtain ⟨hjn, l, -, hparent⟩ := mem_childrenAmong.1 hj
  have hlt := NaturalLoop.parent?_lt hparent
  omega

/-- One more loop is a child of its parent. -/
theorem childrenAmong_succ {loops : List NaturalLoop} {n k : Nat} {l : NaturalLoop}
    (hl : loops[n]? = some l) : childrenAmong loops (n + 1) k =
      childrenAmong loops n k ++ if NaturalLoop.parent? loops n l = some k then [n] else [] := by
  rw [childrenAmong, List.range_succ, List.filter_append, List.filter_singleton, hl,
    Option.any_some]
  by_cases hparent : NaturalLoop.parent? loops n l = some k
  · rw [if_pos hparent, hparent, beq_self_eq_true]
    rfl
  · rw [if_neg hparent, beq_false_of_ne hparent]
    rfl

/-- The loop `l` at index `k` in its place in a forest that holds the loops around it. -/
def place (g : FlowGraph) (loops : List NaturalLoop) (f : LoopForest) (k : Nat)
    (l : NaturalLoop) : Loop where
  header := l.header
  tails := l.tails
  body := l.body
  members := l.body.toList.map fun id =>
    ⟨id, g.label id, (NaturalLoop.lastContaining? loops id).getD k⟩
  condition := l.condition? g
  function := (g.block? l.header).bind Block.function
  parent := NaturalLoop.parent? loops k l
  children := childrenAmong loops f.size k
  depth := ((NaturalLoop.parent? loops k l).bind f.get?).elim 0 (·.depth + 1)

theorem size_addChild (f : LoopForest) (k : Nat) (parent : Option Nat) :
    (f.addChild k parent).size = f.size := by
  cases parent with
  | none => rfl
  | some p => exact Array.size_modify ..

theorem getElem?_addChild (f : LoopForest) (k : Nat) (parent : Option Nat) (j : Nat) :
    (f.addChild k parent)[j]? = (f.get? j).map fun o =>
      { o with children := o.children ++ if parent = some j then [k] else [] } := by
  cases parent with
  | none => simp [addChild, get?]
  | some p =>
      rw [addChild, Array.getElem?_modify, get?]
      by_cases hp : p = j
      · simp [hp]
      · simp [hp]

/-- The first `k` loops are in their places. -/
structure Built (g : FlowGraph) (loops : List NaturalLoop) (f : LoopForest) (k : Nat) : Prop where
  size : f.size = k
  placed : ∀ {j l}, j < k → loops[j]? = some l → f.get? j = some (place g loops f j l)

variable {g : FlowGraph} {loops : List NaturalLoop} {f : LoopForest}

theorem size_addLoop (l : NaturalLoop) : (addLoop g loops f l).size = f.size + 1 := by
  rw [addLoop, LoopForest.size, Array.size_push, size_addChild]

/-- **One more loop** is put in its place, and those before it stay where they are. -/
theorem Built.succ {k : Nat} {l : NaturalLoop} (h : Built g loops f k)
    (hl : loops[k]? = some l) : Built g loops (addLoop g loops f l) (k + 1) := by
  obtain ⟨rfl, hplaced⟩ := h
  have hget : ∀ j, j < f.size → (addLoop g loops f l).get? j =
      (f.addChild f.size (NaturalLoop.parent? loops f.size l))[j]? := by
    intro j hj
    have hj' := (size_addChild f f.size (NaturalLoop.parent? loops f.size l)).symm ▸ hj
    rw [get?, addLoop, Array.getElem?_push_lt hj', Array.getElem?_eq_getElem hj']
  -- the depth of a loop is given by its parent, which comes before it
  have hdepth : ∀ (j : Nat) (x : NaturalLoop), j ≤ f.size →
      ((NaturalLoop.parent? loops j x).bind (addLoop g loops f l).get?).elim 0 (·.depth + 1) =
        ((NaturalLoop.parent? loops j x).bind f.get?).elim 0 (·.depth + 1) := by
    intro j x hj
    cases hp : NaturalLoop.parent? loops j x with
    | none => rfl
    | some p =>
        rw [Option.bind_some, Option.bind_some,
          hget p (Nat.lt_of_lt_of_le (NaturalLoop.parent?_lt hp) hj), getElem?_addChild]
        cases f.get? p <;> rfl
  refine ⟨size_addLoop l, fun {j x} hj hx => ?_⟩
  rcases Nat.lt_succ_iff_lt_or_eq.1 hj with hj | rfl
  · rw [hget j hj, getElem?_addChild, hplaced hj hx, Option.map_some, Option.some.injEq]
    unfold place
    rw [hdepth j x (Nat.le_of_lt hj), size_addLoop, childrenAmong_succ hl]
  · rw [hl, Option.some.injEq] at hx
    subst hx
    unfold place
    rw [hdepth _ l (Nat.le_refl _), size_addLoop, childrenAmong_self loops (Nat.le_refl _)]
    exact Array.getElem?_push.trans (if_pos (size_addChild f f.size _).symm)

/-- **All loops** are put in their places. -/
theorem built_foldl (g : FlowGraph) (loops : List NaturalLoop) :
    Built g loops (loops.foldl (addLoop g loops) {}) loops.length := by
  have key : ∀ (rest before : List NaturalLoop) (f : LoopForest), before ++ rest = loops →
      Built g loops f before.length →
      Built g loops (rest.foldl (addLoop g loops) f) loops.length := by
    intro rest
    induction rest with
    | nil =>
        intro before f hsplit h
        rw [List.append_nil] at hsplit
        exact hsplit ▸ h
    | cons l rest ih =>
        intro before f hsplit h
        have hl : loops[before.length]? = some l := by rw [← hsplit]; simp
        refine ih (before ++ [l]) _ (by rw [List.append_assoc]; exact hsplit) ?_
        rw [List.length_append, List.length_singleton]
        exact h.succ hl
  exact key loops [] {} rfl ⟨rfl, fun hj => absurd hj (Nat.not_lt_zero _)⟩

namespace Built

variable {n k : Nat} {l : NaturalLoop}

theorem get?_eq (h : Built g loops f loops.length) (k : Nat) :
    f.get? k = loops[k]?.map (place g loops f k) := by
  cases hl : loops[k]? with
  | none =>
      have hsize : f.loops.size = loops.length := h.size
      rw [Option.map_none, get?, Array.getElem?_eq_none_iff, hsize]
      exact List.getElem?_eq_none_iff.1 hl
  | some l => exact h.placed (List.getElem?_eq_some_iff.1 hl).1 hl

/-- The loops of the forest come from the loops of the list. -/
theorem get?_eq_some (h : Built g loops f loops.length) {x : Loop} :
    f.get? k = some x ↔ ∃ l, loops[k]? = some l ∧ place g loops f k l = x := by
  rw [h.get?_eq, Option.map_eq_some_iff]

/-- The children of a loop are the loops whose parent it is. -/
theorem children_eq (h : Built g loops f loops.length) (k : Nat) :
    f.children k = childrenAmong loops loops.length k := by
  rw [LoopForest.children, h.get?_eq]
  cases hl : loops[k]? with
  | some l =>
      show childrenAmong loops f.size k = _
      rw [h.size]
  | none => exact (childrenAmong_self loops
      (Nat.le_succ_of_le (List.getElem?_eq_none_iff.1 hl))).symm

theorem map_natural (h : Built g loops f loops.length) :
    f.loops.toList.map Loop.natural = loops := by
  refine List.ext_getElem? fun k => ?_
  have hk := h.get?_eq k
  rw [get?] at hk
  rw [List.getElem?_map, Array.getElem?_toList, hk, Option.map_map]
  cases loops[k]? <;> rfl

theorem innermost?_eq (h : Built g loops f loops.length) (id : BlockId) :
    f.innermost? id = NaturalLoop.lastContaining? loops id := by
  rw [innermost?, NaturalLoop.lastContaining?, h.size]
  congr 1
  funext k
  rw [h.get?_eq]
  cases loops[k]? <;> rfl

/-- The loops around a loop are its parent and the loops around that. -/
theorem around_parent (h : Built g loops f loops.length) (hs : NaturalLoop.Sorted loops)
    {p : Nat} {x o : Loop} (hx : f.get? k = some x) (hp : x.parent = some p)
    (ho : f.get? p = some o) : (f.around x).length = (f.around o).length + 1 := by
  obtain ⟨l, hl, rfl⟩ := h.get?_eq_some.1 hx
  obtain ⟨c, hc, rfl⟩ := h.get?_eq_some.1 ho
  obtain ⟨c', hc', hlc, hsmallest⟩ := (hs.parent?_eq_some hl).1 hp
  obtain rfl : c = c' := Option.some.inj (hc.symm.trans hc')
  have hmem : ∀ q, q ∈ f.around (place g loops f k l) ↔
      q ∈ p :: f.around (place g loops f p c) := by
    intro q
    rw [List.mem_cons, mem_around, mem_around]
    constructor
    · rintro ⟨y, hy, hly⟩
      obtain ⟨d, hd, rfl⟩ := h.get?_eq_some.1 hy
      by_cases hqp : q = p
      · exact Or.inl hqp
      · exact Or.inr ⟨_, hy, hsmallest q d hd hly hqp⟩
    · rintro (rfl | ⟨y, hy, hcy⟩)
      · exact ⟨_, ho, hlc⟩
      · refine ⟨y, hy, fun i hi => hcy.1 i (hlc.1 i hi), fun hback => hlc.2 ?_⟩
        exact fun i hi => hback i (hcy.1 i hi)
  have hnodup : ∀ x : Loop, (f.around x).Nodup := fun x => List.nodup_range.filter _
  have hnot : p ∉ f.around (place g loops f p c) := by
    rw [mem_around]
    rintro ⟨y, hy, hcy⟩
    obtain rfl := Option.some.inj (hy.symm.trans ho)
    exact hcy.2 fun i hi => hi
  have hperm := (List.perm_ext_iff_of_nodup (hnodup _)
    (List.nodup_cons.2 ⟨hnot, hnodup _⟩)).2 hmem
  rw [hperm.length_eq, List.length_cons]

/-- **The depth** counts the loops around a loop. -/
theorem depth_eq (h : Built g loops f loops.length) (hs : NaturalLoop.Sorted loops) :
    ∀ (k : Nat) (x : Loop), f.get? k = some x → x.depth = (f.around x).length := by
  intro k
  induction k using Nat.strong_induction_on with
  | _ k ih =>
      intro x hx
      obtain ⟨l, hl, rfl⟩ := h.get?_eq_some.1 hx
      cases hp : NaturalLoop.parent? loops k l with
      | none =>
          have hnone : f.around (place g loops f k l) = [] := by
            rw [List.eq_nil_iff_forall_not_mem]
            intro q hq
            obtain ⟨y, hy, hly⟩ := mem_around.1 hq
            obtain ⟨d, hd, rfl⟩ := h.get?_eq_some.1 hy
            exact (hs.parent?_eq_none hl).1 hp q d hd hly
          rw [hnone, place, hp]
          rfl
      | some p =>
          obtain ⟨c, hc, -⟩ := (hs.parent?_eq_some hl).1 hp
          have ho : f.get? p = some (place g loops f p c) := h.get?_eq_some.2 ⟨c, hc, rfl⟩
          have hdepth : (place g loops f k l).depth = (place g loops f p c).depth + 1 := by
            show ((NaturalLoop.parent? loops k l).bind f.get?).elim 0 _ = _
            rw [hp, Option.bind_some, ho]
            rfl
          rw [hdepth, ih p (NaturalLoop.parent?_lt hp) _ ho, h.around_parent hs hx hp ho]

/-- **A forest of sorted loops** is what it should be. -/
theorem nested (h : Built g loops f loops.length) (hs : NaturalLoop.Sorted loops) :
    Nested g f where
  order {i j a b} ha hb hab := by
    obtain ⟨la, hla, rfl⟩ := h.get?_eq_some.1 ha
    obtain ⟨lb, hlb, rfl⟩ := h.get?_eq_some.1 hb
    exact hs.lt_of_ssubset hla hlb hab
  parent {k l p} hx := by
    obtain ⟨l, hl, rfl⟩ := h.get?_eq_some.1 hx
    refine (hs.parent?_eq_some hl).trans ?_
    constructor
    · rintro ⟨o, ho, hlo, hsmallest⟩
      refine ⟨_, h.get?_eq_some.2 ⟨o, ho, rfl⟩, hlo, fun q x hx hlx hqp => ?_⟩
      obtain ⟨d, hd, rfl⟩ := h.get?_eq_some.1 hx
      exact hsmallest q d hd hlx hqp
    · rintro ⟨x, hx, hlo, hsmallest⟩
      obtain ⟨o, ho, rfl⟩ := h.get?_eq_some.1 hx
      exact ⟨o, ho, hlo, fun q d hd => hsmallest q _ (h.get?_eq_some.2 ⟨d, hd, rfl⟩)⟩
  root {k l} hx := by
    obtain ⟨l, hl, rfl⟩ := h.get?_eq_some.1 hx
    refine (hs.parent?_eq_none hl).trans ?_
    constructor
    · intro hnone q x hx
      obtain ⟨d, hd, rfl⟩ := h.get?_eq_some.1 hx
      exact hnone q d hd
    · exact fun hnone q d hd => hnone q _ (h.get?_eq_some.2 ⟨d, hd, rfl⟩)
  children k := by
    rw [h.children_eq]
    refine ⟨List.pairwise_lt_range.filter _, fun j => mem_childrenAmong.trans ?_⟩
    constructor
    · rintro ⟨-, l, hl, hparent⟩
      exact ⟨_, h.get?_eq_some.2 ⟨l, hl, rfl⟩, hparent⟩
    · rintro ⟨x, hx, hparent⟩
      obtain ⟨l, hl, rfl⟩ := h.get?_eq_some.1 hx
      exact ⟨(List.getElem?_eq_some_iff.1 hl).1, l, hl, hparent⟩
  depth hx := h.depth_eq hs _ _ hx
  innermost {id k} := by
    rw [h.innermost?_eq]
    refine hs.lastContaining?_eq_some.trans ?_
    constructor
    · rintro ⟨l, hl, hid, hsmallest⟩
      refine ⟨_, h.get?_eq_some.2 ⟨l, hl, rfl⟩, hid, fun q x hx hxid hqk => ?_⟩
      obtain ⟨d, hd, rfl⟩ := h.get?_eq_some.1 hx
      exact hsmallest q d hd hxid hqk
    · rintro ⟨x, hx, hid, hsmallest⟩
      obtain ⟨l, hl, rfl⟩ := h.get?_eq_some.1 hx
      exact ⟨l, hl, hid, fun q d hd => hsmallest q _ (h.get?_eq_some.2 ⟨d, hd, rfl⟩)⟩
  outside {id} := by
    rw [h.innermost?_eq, NaturalLoop.lastContaining?_eq_none]
    constructor
    · intro hnone q x hx
      obtain ⟨d, hd, rfl⟩ := h.get?_eq_some.1 hx
      exact hnone q d hd
    · exact fun hnone q d hd => hnone q _ (h.get?_eq_some.2 ⟨d, hd, rfl⟩)
  members {k x} hx := by
    obtain ⟨l, hl, rfl⟩ := h.get?_eq_some.1 hx
    have hblocks : (place g loops f k l).members.map LoopMember.block = l.body.toList := by
      simp [place, Function.comp_def]
    rw [hblocks]
    refine ⟨l.body.pairwise_toList, fun id => BitSet.mem_toList, fun m hm => ?_⟩
    obtain ⟨id, hid, rfl⟩ := List.mem_map.1 hm
    refine ⟨rfl, ?_⟩
    rw [h.innermost?_eq]
    show NaturalLoop.lastContaining? loops id =
      some ((NaturalLoop.lastContaining? loops id).getD k)
    cases hlast : NaturalLoop.lastContaining? loops id with
    | some owner => rfl
    | none =>
        have hnot := NaturalLoop.lastContaining?_eq_none.1 hlast k l hl
        rw [BitSet.mem_toList.1 hid] at hnot
        exact absurd hnot (by decide)

end Built

/-! ## The main results -/

/-- **Laminar loops** are nested without a clash. -/
theorem nest_of_laminar (g : FlowGraph) {loops : List NaturalLoop}
    (h : NaturalLoop.Laminar loops) (hcapacity : NaturalLoop.SameCapacity loops) :
    ∃ f, nest g loops = .ok f ∧ (f.loops.toList.map Loop.natural).Perm loops ∧ Nested g f := by
  have hs := NaturalLoop.sorted_sorted h hcapacity
  have hbuilt := built_foldl g (NaturalLoop.sorted loops)
  refine ⟨_, ?_, ?_, hbuilt.nested hs⟩
  · rw [nest, hs.overlap?_eq_none]
  · rw [hbuilt.map_natural]
    exact NaturalLoop.perm_sorted loops

/-! ## Routines -/

/-- Only blocks that are on the stack or unmet are visited. -/
theorem mem_visitOrder {g : FlowGraph} {stack unmet : List BlockId} {id : BlockId}
    (h : id ∈ g.visitOrder stack unmet) : id ∈ stack ∨ id ∈ unmet := by
  fun_induction FlowGraph.visitOrder g stack unmet with
  | case1 => exact absurd h List.not_mem_nil
  | case2 unmet top rest _ ih =>
      rcases List.mem_cons.1 h with rfl | h
      · exact Or.inl List.mem_cons_self
      · exact (ih h).imp_left (List.mem_cons_of_mem _)
  | case3 unmet top rest fresh more hmet ih =>
      rcases List.mem_cons.1 h with rfl | h
      · exact Or.inl List.mem_cons_self
      rcases ih h with h | h
      · rcases List.mem_append.1 h with h | h
        · rw [List.mem_reverse, ← hmet, List.mem_eraseDups, List.mem_filter] at h
          exact Or.inr (by simpa using h.2)
        · exact Or.inl (List.mem_cons_of_mem _ h)
      · exact Or.inr (List.mem_filter.1 h).1

/-- The sources that the view of a routine lists for a block are the sources of the
edges to it. -/
theorem mem_sources {g : FlowGraph} {entry u v : BlockId} (hv : v < g.slots.size) :
    u ∈ (RoutineView.ofEntry g entry).sources[v]?.getD [] ↔
      v ∈ (RoutineView.ofEntry g entry).edges.successors u := by
  simp only [RoutineView.ofEntry, Adjacency.successors, Array.getElem?_map]
  generalize horder : (if g.contains entry = true then
    g.visitOrder [entry] ((List.range g.slots.size).filter (· != entry)) else []) = order
  have hlt : u ∈ order → u < g.slots.size := by
    intro hu
    rw [← horder] at hu
    split at hu
    · rename_i hentry
      rcases mem_visitOrder hu with hu | hu
      · rw [List.mem_singleton.1 hu]
        obtain ⟨b, hb⟩ := FlowGraph.contains_iff.1 hentry
        exact FlowGraph.lt_size_of_block? hb
      · exact List.mem_range.1 (List.mem_filter.1 hu).1
    · exact absurd hu List.not_mem_nil
  have hsource : u ∈ order.flatMap (fun x => ((g.localSuccessors x).filter (· == v)).map
      fun _ => x) ↔ u ∈ order ∧ v ∈ g.localSuccessors u := by
    simp only [List.mem_flatMap, List.mem_map, List.mem_filter, beq_iff_eq]
    constructor
    · rintro ⟨x, hx, y, ⟨hy, rfl⟩, rfl⟩
      exact ⟨hx, hy⟩
    · rintro ⟨hu, hedge⟩
      exact ⟨u, hu, v, ⟨hedge, rfl⟩, rfl⟩
  have hrange : ∀ i, i < g.slots.size → (Array.range g.slots.size)[i]? = some i := by
    intro i hi
    simp [hi]
  rw [hrange v hv, Option.map_some, Option.getD_some, hsource]
  by_cases hu : u ∈ order
  · rw [hrange u (hlt hu), Option.map_some, Option.getD_some, if_pos (by simpa using hu)]
    exact and_iff_right hu
  · refine ⟨fun h => absurd h.1 hu, fun h => ?_⟩
    cases hr : (Array.range g.slots.size)[u]? with
    | none => simp [hr] at h
    | some w =>
        obtain ⟨hw, rfl⟩ := Array.getElem?_eq_some_iff.1 hr
        rw [hr, Option.map_some, Option.getD_some, Array.getElem_range, if_neg (by simpa using hu)]
          at h
        exact absurd h List.not_mem_nil

/-- The predecessor lists of a routine agree with its successor lists. -/
theorem agree_ofEntry (g : FlowGraph) (entry : BlockId) :
    (RoutineView.ofEntry g entry).edges.Agree ⟨(RoutineView.ofEntry g entry).sources⟩ := by
  intro u v _ hv
  refine mem_sources ?_
  simpa [RoutineView.ofEntry, Adjacency.size] using hv

/-- **The loops of a routine nest.**  For every program and every block the natural loops
of the routine that starts with the block are nested without a clash.  The forest holds
these loops, and their order, parents, children, depths, members and innermost loops are
those given by the inclusion of their bodies. -/
theorem nest_ofRoutine (g : FlowGraph) (entry : BlockId) :
    ∃ f, nest g (ofRoutine g entry) = .ok f ∧
      (f.loops.toList.map Loop.natural).Perm (ofRoutine g entry) ∧ Nested g f := by
  have hsources := agree_ofEntry g entry
  refine nest_of_laminar g (NaturalLoop.laminar_find hsources) fun a ha b hb => ?_
  rw [((NaturalLoop.mem_find hsources).1 ha).2.capacity,
    ((NaturalLoop.mem_find hsources).1 hb).2.capacity]

end LoopForest
end FlowVerifier
