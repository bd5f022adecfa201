import FlowVerifier.Graph.Dominators
import FlowVerifier.Proofs.Graph.DominatorTables

/-!
# Correctness of the dominators

The links of a computed dominator tree lead from every reachable node to its
immediate dominator (`isImmediate_link`), since the tables it is made from do.
So the way up the tree lists the dominators of a node: they are the node itself
and the dominators of its immediate dominator (`IsImmediate.dominates_iff`).
-/

namespace FlowVerifier

namespace Adjacency.IsImmediate

variable {g : Adjacency} {start a b d : Nat}

/-- The dominators of a node are the node and those of its immediate dominator. -/
theorem dominates_iff (h : IsImmediate g start d b) :
    g.Dominates start a b ↔ a = b ∨ g.Dominates start a d := by
  constructor
  · intro hab
    by_cases hne : a = b
    · exact Or.inl hne
    · exact Or.inr (h.closest a hne hab)
  · rintro (rfl | had)
    · exact .self h.dominates.1
    · exact had.trans h.dominates

end Adjacency.IsImmediate

namespace Dominators

open Adjacency SpanningTree

variable {g : Adjacency} {entry a b : Nat}

section Computed

variable (hg : g.InRange) (he : entry < g.size)

include hg he

theorem isReachable_iff : (compute g entry).isReachable b = true ↔ g.Reaches entry b :=
  isReached_depthFirst hg he b

/-- Every link leads to the immediate dominator. -/
theorem isImmediate_link (hb : g.Reaches entry b) (hne : b ≠ entry) :
    ∃ d, (compute g entry).link? b = some d ∧ IsImmediate g entry d b := by
  obtain ⟨hsize, hall⟩ := DominatorTables.isImmediate_finished (depthFirst_tree hg he)
  obtain ⟨d, hd, himm⟩ := hall b hb hne
  refine ⟨d, ?_, himm⟩
  show ((DominatorTables.finished g (g.depthFirst entry)).immediate.setIfInBounds entry
    (some entry))[b]?.join = some d
  rw [DominatorTables.join_setIfInBounds _ (hsize.symm ▸ he), if_neg hne]
  exact hd

/-- A link leads to a smaller number. -/
theorem numberOf_lt (h : IsImmediate g entry a b) :
    (compute g entry).tree.numberOf a < (compute g entry).tree.numberOf b := by
  have T := depthFirst_tree hg he
  exact T.lt_of_ancestor (T.ancestor_of_dominates h.dominates) h.ne
    (T.numberOf_pos_iff.2 h.dominates.1)

/-! ## The closest dominator -/

theorem immediate?_eq_none (h : b = entry ∨ ¬ g.Reaches entry b) :
    (compute g entry).immediate? b = none := by
  refine if_pos (h.imp id fun hb => ?_)
  rw [← Bool.not_eq_true, isReachable_iff hg he]
  exact hb

theorem immediate?_eq_link? (hb : g.Reaches entry b) (hne : b ≠ entry) :
    (compute g entry).immediate? b = (compute g entry).link? b := by
  refine if_neg fun h => ?_
  rcases h with h | h
  · exact hne h
  · rw [(isReachable_iff hg he).2 hb] at h
    exact Bool.noConfusion h

/-- The closest dominator is dominated by all others. -/
theorem immediate?_eq_some (hb : g.Reaches entry b) (hne : b ≠ entry) :
    ∃ a, (compute g entry).immediate? b = some a ∧ a ≠ b ∧ g.Dominates entry a b ∧
      ∀ c, c ≠ b → g.Dominates entry c b → g.Dominates entry c a := by
  obtain ⟨d, hd, himm⟩ := isImmediate_link hg he hb hne
  exact ⟨d, (immediate?_eq_link? hg he hb hne).trans hd, himm.ne, himm.dominates, himm.closest⟩

/-! ## The way up the tree -/

/-- What the way up from a node is: it starts with the node, ends with the entry,
follows the links to ever smaller numbers, and visits the dominators of the node. -/
structure ClimbsFrom (g : Adjacency) (entry b : Nat) (l : List Nat) : Prop where
  /-- The node itself is the first. -/
  head : l.head? = some b
  /-- The entry is the last. -/
  last : l.getLast? = some entry
  /-- Each node is followed by its immediate dominator. -/
  chain : l.IsChain fun x y => (compute g entry).immediate? x = some y
  /-- The numbers become smaller. -/
  sorted : l.Pairwise fun x y =>
    (compute g entry).tree.numberOf y < (compute g entry).tree.numberOf x
  /-- The nodes are the dominators. -/
  mem : ∀ a, a ∈ l ↔ g.Dominates entry a b

omit hg he in
/-- The entry has no dominator but itself. -/
theorem climbsFrom_entry : ClimbsFrom g entry entry [entry] := by
  refine ⟨rfl, rfl, .singleton _, List.pairwise_singleton _ _, fun a => ?_⟩
  rw [List.mem_singleton]
  refine ⟨?_, fun h => h.eq_entry⟩
  rintro rfl
  exact .self (.refl g _)

theorem climbsFrom_wayUp (hb : g.Reaches entry b) :
    ClimbsFrom g entry b ((compute g entry).wayUp b) := by
  have T := depthFirst_tree hg he
  fun_induction wayUp (compute g entry) b with
  | case1 => exact climbsFrom_entry
  | case2 b hne hnone =>
      obtain ⟨d, hd, -⟩ := isImmediate_link hg he hb hne
      rw [hnone] at hd
      exact absurd hd (by simp)
  | case3 b hne d hd hlt ih =>
      obtain ⟨d', hd', himm⟩ := isImmediate_link hg he hb hne
      obtain rfl : d = d' := Option.some.inj (hd.symm.trans hd')
      obtain ⟨hhead, hlast, hchain, hsorted, hmem⟩ := ih himm.dominates.reaches
      have hle : ∀ x ∈ (compute g entry).wayUp d,
          (compute g entry).tree.numberOf x ≤ (compute g entry).tree.numberOf d := fun x hx =>
        T.linked.numberOf_le (T.ancestor_of_dominates ((hmem x).1 hx))
      refine ⟨rfl, ?_, ?_, List.pairwise_cons.2 ⟨fun x hx => ?_, hsorted⟩, fun a => ?_⟩
      · rw [List.getLast?_cons, hlast, Option.getD_some]
      · rw [List.isChain_cons]
        refine ⟨fun y hy => ?_, hchain⟩
        rw [hhead, Option.mem_some_iff] at hy
        rw [immediate?_eq_link? hg he hb hne, hd, hy]
      · have := hle x hx
        omega
      · rw [List.mem_cons, hmem, himm.dominates_iff]
  | case4 b hne d hd hnot =>
      obtain ⟨d', hd', himm⟩ := isImmediate_link hg he hb hne
      obtain rfl : d = d' := Option.some.inj (hd.symm.trans hd')
      exact absurd (numberOf_lt hg he himm) hnot

/-! ## The list of dominators -/

theorem dominators_of_reaches (hb : g.Reaches entry b) :
    (compute g entry).dominators b = (compute g entry).wayUp b :=
  if_pos ((isReachable_iff hg he).2 hb)

theorem dominators_eq_nil (hb : ¬ g.Reaches entry b) : (compute g entry).dominators b = [] :=
  if_neg fun h => hb ((isReachable_iff hg he).1 h)

theorem mem_dominators : a ∈ (compute g entry).dominators b ↔ g.Dominates entry a b := by
  by_cases hb : g.Reaches entry b
  · rw [dominators_of_reaches hg he hb]
    exact (climbsFrom_wayUp hg he hb).mem a
  · rw [dominators_eq_nil hg he hb]
    exact ⟨fun h => absurd h List.not_mem_nil, fun h => absurd h.1 hb⟩

theorem dominates_iff (a b : Nat) :
    (compute g entry).dominates a b = true ↔ g.Dominates entry a b := by
  rw [dominates, Bool.and_eq_true, Bool.and_eq_true, List.contains_iff_mem, mem_dominators hg he,
    isReachable_iff hg he, isReachable_iff hg he]
  exact ⟨fun h => h.2, fun h => ⟨⟨h.reaches, h.1⟩, h⟩⟩

theorem nodup_dominators : ((compute g entry).dominators b).Nodup := by
  by_cases hb : g.Reaches entry b
  · rw [dominators_of_reaches hg he hb]
    exact (climbsFrom_wayUp hg he hb).sorted.imp fun h hc => absurd (hc ▸ h) (Nat.lt_irrefl _)
  · rw [dominators_eq_nil hg he hb]
    exact List.nodup_nil

theorem isChain_dominators :
    ((compute g entry).dominators b).IsChain fun x y =>
      (compute g entry).immediate? x = some y := by
  by_cases hb : g.Reaches entry b
  · rw [dominators_of_reaches hg he hb]
    exact (climbsFrom_wayUp hg he hb).chain
  · rw [dominators_eq_nil hg he hb]
    exact .nil

/-- The list starts with the node itself. -/
theorem head?_dominators (hb : g.Reaches entry b) :
    ((compute g entry).dominators b).head? = some b := by
  rw [dominators_of_reaches hg he hb]
  exact (climbsFrom_wayUp hg he hb).head

/-- The list ends with the entry. -/
theorem getLast?_dominators (hb : g.Reaches entry b) :
    ((compute g entry).dominators b).getLast? = some entry := by
  rw [dominators_of_reaches hg he hb]
  exact (climbsFrom_wayUp hg he hb).last

end Computed

/-! ## The main result -/

/-- **The dominators are right.**  On a graph whose edges stay in range, the
computed relation is dominance by walks; every reachable node but the entry has
an immediate dominator, a strict dominator that all its other strict dominators
dominate, and no other node has one; and the dominators of a node are listed
each once, from the node itself up to the entry, every one followed by its
immediate dominator. -/
theorem compute_correct (g : Adjacency) (entry : Nat) (hg : g.InRange) (he : entry < g.size) :
    (∀ a b, (compute g entry).dominates a b = true ↔ g.Dominates entry a b) ∧
    (∀ b, g.Reaches entry b → b ≠ entry →
      ∃ a, (compute g entry).immediate? b = some a ∧ a ≠ b ∧ g.Dominates entry a b ∧
        ∀ c, c ≠ b → g.Dominates entry c b → g.Dominates entry c a) ∧
    (∀ b, b = entry ∨ ¬ g.Reaches entry b → (compute g entry).immediate? b = none) ∧
    (∀ b, ((compute g entry).dominators b).Nodup ∧
      (∀ a, a ∈ (compute g entry).dominators b ↔ g.Dominates entry a b) ∧
      (((compute g entry).dominators b).IsChain fun x y =>
        (compute g entry).immediate? x = some y) ∧
      (g.Reaches entry b → ((compute g entry).dominators b).head? = some b ∧
        ((compute g entry).dominators b).getLast? = some entry)) :=
  ⟨dominates_iff hg he, fun _ => immediate?_eq_some hg he, fun _ => immediate?_eq_none hg he,
    fun _ => ⟨nodup_dominators hg he, fun _ => mem_dominators hg he, isChain_dominators hg he,
      fun hb => ⟨head?_dominators hg he hb, getLast?_dominators hg he hb⟩⟩⟩

/-- The result on a graph with two ways into a cycle, a repeated edge, a node that
leads to itself and one that is not reachable. -/
theorem compute_correct_irreducible :
    let g : Adjacency := ⟨#[[1, 2, 2], [2, 3], [1], [3, 0], []]⟩
    g.InRange ∧ 0 < g.size ∧ g.Reaches 0 3 ∧
      (∃ a, (compute g 0).immediate? 3 = some a ∧ a ≠ 3 ∧ g.Dominates 0 a 3) ∧
      (compute g 0).immediate? 0 = none ∧
      ((compute g 0).dominators 3).getLast? = some 0 := by
  intro g
  have hg : g.InRange := by
    intro l hl w hw
    have hlists : l ∈ [[1, 2, 2], [2, 3], [1], [3, 0], ([] : List Nat)] := Array.mem_toList_iff.2 hl
    have hall : ∀ l ∈ [[1, 2, 2], [2, 3], [1], [3, 0], ([] : List Nat)], ∀ w ∈ l, w < 5 := by
      decide
    exact hall l hlists w hw
  have he : 0 < g.size := by decide
  have hreach : g.Reaches 0 3 :=
    ((Adjacency.Reaches.refl g 0).step (v := 1) (by decide)).step (by decide)
  obtain ⟨-, hsome, hnone, hlist⟩ := compute_correct g 0 hg he
  obtain ⟨a, ha, hne, hdom, -⟩ := hsome 3 hreach (by decide)
  exact ⟨hg, he, hreach, ⟨a, ha, hne, hdom⟩, hnone 0 (Or.inl rfl), ((hlist 3).2.2.2 hreach).2⟩

end Dominators
end FlowVerifier
