import FlowVerifier.Proofs.Graph.DepthFirst
import Mathlib

/-!
# The tree of a depth-first traversal

The parent links of a traversal make a tree, and the order in which nodes are discovered and
finished says how edges lie in it.  The traversal is followed with an invariant (`Kinship`) that
tells apart the nodes that are open, which are the ancestors of the innermost one, from the
finished ones:

* `heirs`: whatever was discovered after an open node descends from it;
* `between`: the nodes below an ancestor are numbered without gaps;
* `forward` and `backward`: an edge from a finished node to a later number leads to a descendant,
  and one to a node that was not finished before leads to an ancestor.

When the stack is empty these speak of every node that was reached.  `depthFirst_spans` gathers
what they come to; `Kinship.exists_common` is the path lemma: who walks from a node to one with
a larger number passes an ancestor of both.
-/

namespace FlowVerifier

/-! ## Ancestors -/

namespace SpanningTree

/-- Is `a` the node `v`, or an ancestor of it along parent links? -/
inductive Ancestor (links : Array (Option Nat)) (a : Nat) : Nat → Prop
  /-- Every node counts as an ancestor of itself. -/
  | self : Ancestor links a a
  /-- An ancestor of the parent is an ancestor of the child. -/
  | child {u v : Nat} : Ancestor links a u → links[v]? = some (some u) → Ancestor links a v

/-- A list of nodes each of which has the next one for its parent; the last has none. -/
inductive Lineage (links : Array (Option Nat)) : List Nat → Prop
  /-- Nobody. -/
  | nil : Lineage links []
  /-- A node in front of its parent. -/
  | cons {v : Nat} {rest : List Nat} :
      links[v]? = some rest.head? → Lineage links rest → Lineage links (v :: rest)

variable {links links' : Array (Option Nat)} {a b v w : Nat}

theorem Ancestor.trans (h : Ancestor links a b) (h' : Ancestor links b v) :
    Ancestor links a v := by
  induction h' with
  | self => exact h
  | child _ hlink ih => exact ih.child hlink

/-- The first node of a lineage descends from exactly the nodes of the lineage. -/
theorem Lineage.mem_iff {rest : List Nat} (h : Lineage links (v :: rest)) :
    a ∈ v :: rest ↔ Ancestor links a v := by
  induction rest generalizing v with
  | nil =>
      cases h with
      | cons hlink _ =>
          refine ⟨fun ha => List.mem_singleton.1 ha ▸ .self, fun ha => ?_⟩
          cases ha with
          | self => exact List.mem_singleton_self _
          | child _ hlink' => exact absurd (hlink.symm.trans hlink') (by simp)
  | cons u rest ih =>
      cases h with
      | cons hlink hrest =>
          constructor
          · intro ha
            rcases List.mem_cons.1 ha with rfl | ha
            · exact .self
            · exact ((ih hrest).1 ha).child hlink
          · intro ha
            cases ha with
            | self => exact List.mem_cons_self
            | @child u' _ hu hlink' =>
                obtain rfl : u = u' := by simpa using hlink.symm.trans hlink'
                exact List.mem_cons_of_mem _ ((ih hrest).2 hu)

/-- A lineage is not touched by a change of other links. -/
theorem Lineage.congr {l : List Nat} (h : Lineage links l)
    (hlinks : ∀ v ∈ l, links'[v]? = links[v]?) : Lineage links' l := by
  induction h with
  | nil => exact .nil
  | cons hlink _ ih =>
      exact .cons ((hlinks _ List.mem_cons_self).trans hlink)
        (ih fun v hv => hlinks v (List.mem_cons_of_mem _ hv))

/-! ## Numbers -/

variable {t : SpanningTree} {p : Option Nat}

theorem isReached_iff_pos : t.isReached v = true ↔ 0 < t.numberOf v := by
  rw [isReached_iff, numberOf]
  cases t.number[v]? with
  | none => simp
  | some n => cases n <;> simp

theorem numberOf_of_isUnseen (h : t.isUnseen w = true) : t.numberOf w = 0 := by
  rw [numberOf, isUnseen_iff.1 h, Option.getD_some]

/-- A node with a number is not one that is still to be discovered. -/
theorem ne_of_numberOf_pos (h : t.isUnseen w = true) (hv : 0 < t.numberOf v) : v ≠ w := by
  rintro rfl
  rw [numberOf_of_isUnseen h] at hv
  exact Nat.lt_irrefl 0 hv

theorem numberOf_discover_self (h : t.isUnseen w = true) :
    (t.discover w p).numberOf w = t.preorder.size + 1 := by
  rw [numberOf, number_discover p h, if_pos rfl, Option.getD_some]

theorem numberOf_discover_of_ne (h : t.isUnseen w = true) (hv : v ≠ w) :
    (t.discover w p).numberOf v = t.numberOf v := by
  rw [numberOf, number_discover p h, if_neg hv.symm, numberOf]

theorem parent_discover_self (h : w < t.parent.size) :
    (t.discover w p).parent[w]? = some p := by
  simp [discover, h]

theorem parent_discover_of_ne (h : v ≠ w) : (t.discover w p).parent[v]? = t.parent[v]? := by
  simp [discover, h.symm]

end SpanningTree

namespace Adjacency

open SpanningTree

variable {g : Adjacency} {start : Nat}

theorem Consistent.numberOf_le {t : SpanningTree} (h : Consistent g start t) (v : Nat) :
    t.numberOf v ≤ t.preorder.size := by
  rcases Nat.eq_zero_or_pos (t.numberOf v) with hz | hpos
  · omega
  · obtain ⟨n, hn⟩ := isReached_iff.1 (isReached_iff_pos.2 hpos)
    have hlt := (Array.getElem?_eq_some_iff.1 ((h.listed v n).2 hn)).1
    rw [numberOf, hn, Option.getD_some]
    omega

/-- What was discovered last has the largest number. -/
theorem Consistent.eq_of_discover_le {t : SpanningTree} (h : Consistent g start t) {v w : Nat}
    {p : Option Nat} (hnew : t.isUnseen w = true)
    (hle : (t.discover w p).numberOf w ≤ (t.discover w p).numberOf v) : v = w := by
  by_contra hv
  rw [numberOf_discover_self hnew, numberOf_discover_of_ne hnew hv] at hle
  have := h.numberOf_le v
  omega

/-! ## The links alone -/

/-- What holds of the parent links at every moment of a traversal from `start`. -/
structure Linked (g : Adjacency) (start : Nat) (t : SpanningTree) : Prop where
  /-- Every node of the graph has a place for its parent. -/
  size : t.parent.size = g.size
  /-- A parent has an edge to its child, was reached, and has a smaller number. -/
  edge : ∀ u v, t.parent[v]? = some (some u) →
    v ∈ g.successors u ∧ 0 < t.numberOf u ∧ t.numberOf u < t.numberOf v
  /-- Only the start was reached without a parent. -/
  orphan : ∀ v, 0 < t.numberOf v → t.parent[v]? = some none → v = start

namespace Linked

variable {t : SpanningTree} {a v w : Nat}

theorem numberOf_le (h : Linked g start t) (ha : Ancestor t.parent a v) :
    t.numberOf a ≤ t.numberOf v := by
  induction ha with
  | self => exact Nat.le_refl _
  | child _ hlink ih => exact ih.trans (Nat.le_of_lt (h.edge _ _ hlink).2.2)

/-- The ancestors of a node that was reached were reached. -/
theorem numberOf_pos (h : Linked g start t) (ha : Ancestor t.parent a v)
    (hv : 0 < t.numberOf v) : 0 < t.numberOf a := by
  induction ha with
  | self => exact hv
  | child _ hlink ih => exact ih (h.edge _ _ hlink).2.1

theorem discover (h : Linked g start t) (hc : Consistent g start t) (hv : 0 < t.numberOf v)
    (hw : w ∈ g.successors v) (hlt : w < g.size) (hnew : t.isUnseen w = true) :
    Linked g start (t.discover w (some v)) where
  size := by simp [SpanningTree.discover, h.size]
  edge u x hx := by
    have hvw := ne_of_numberOf_pos hnew hv
    by_cases hxw : x = w
    · subst hxw
      rw [parent_discover_self (h.size ▸ hlt)] at hx
      obtain rfl : v = u := by simpa using hx
      rw [numberOf_discover_self hnew, numberOf_discover_of_ne hnew hvw]
      exact ⟨hw, hv, Nat.lt_succ_of_le (hc.numberOf_le v)⟩
    · rw [parent_discover_of_ne hxw] at hx
      obtain ⟨hedge, hpos, hless⟩ := h.edge u x hx
      rw [numberOf_discover_of_ne hnew (ne_of_numberOf_pos hnew hpos),
        numberOf_discover_of_ne hnew hxw]
      exact ⟨hedge, hpos, hless⟩
  orphan x hpos hx := by
    by_cases hxw : x = w
    · subst hxw
      rw [parent_discover_self (h.size ▸ hlt)] at hx
      exact absurd hx (by simp)
    · rw [parent_discover_of_ne hxw] at hx
      rw [numberOf_discover_of_ne hnew hxw] at hpos
      exact h.orphan x hpos hx

/-- Ancestors stay ancestors when a node is discovered. -/
theorem ancestor_discover (h : Linked g start t) (hnew : t.isUnseen w = true) (p : Option Nat)
    (ha : Ancestor t.parent a v) : Ancestor (t.discover w p).parent a v := by
  induction ha with
  | self => exact .self
  | @child u x _ hlink ih =>
      have hx := ne_of_numberOf_pos hnew (Nat.zero_lt_of_lt (h.edge u x hlink).2.2)
      exact ih.child ((parent_discover_of_ne hx).trans hlink)

/-- Discovering a node gives the others no ancestor. -/
theorem ancestor_of_discover (h : Linked g start t) (hnew : t.isUnseen w = true) {p : Option Nat}
    (ha : Ancestor (t.discover w p).parent a v) (hv : v ≠ w) : Ancestor t.parent a v := by
  induction ha with
  | self => exact .self
  | @child u x _ hlink ih =>
      rw [parent_discover_of_ne hv] at hlink
      exact (ih (ne_of_numberOf_pos hnew (h.edge u x hlink).2.1)).child hlink

end Linked

/-! ## Open and finished nodes -/

/-- What holds of the tree and the open nodes, innermost first, at every moment of a
traversal. -/
structure Kinship (g : Adjacency) (active : List Nat) (t : SpanningTree) : Prop where
  /-- Each open node is the parent of the one that was opened next. -/
  lineage : Lineage t.parent active
  /-- Whatever was discovered after an open node descends from it. -/
  heirs : ∀ a ∈ active, ∀ v, t.numberOf a ≤ t.numberOf v → Ancestor t.parent a v
  /-- The nodes below an ancestor are numbered without gaps. -/
  between : ∀ a v w, 0 < t.numberOf a → Ancestor t.parent a w →
    t.numberOf a ≤ t.numberOf v → t.numberOf v ≤ t.numberOf w → Ancestor t.parent a v
  /-- An edge from a finished node to a larger number leads to a descendant. -/
  forward : ∀ u ∈ t.postorder, ∀ v ∈ g.successors u, t.numberOf u ≤ t.numberOf v →
    Ancestor t.parent u v
  /-- An edge from a finished node leads to one that was finished before, or to an ancestor. -/
  backward : ∀ (j : Nat) u, t.postorder[j]? = some u → ∀ v ∈ g.successors u,
    (∃ i < j, t.postorder[i]? = some v) ∨ Ancestor t.parent v u
  /-- No node is finished twice. -/
  once : t.postorder.toList.Nodup

namespace Open

variable {t : SpanningTree} {u v w : Nat} {rest stack : List (Nat × List Nat)}

/-- A node with nothing left to look at leads to nodes that were reached. -/
theorem reached_of_last (h : Open g ((v, []) :: rest) t) (hw : w ∈ g.successors v) :
    t.isReached w = true := by
  rcases h.edges v (h.reached _ List.mem_cons_self) w hw with hr | ⟨ws, hmem, hws⟩
  · exact hr
  · rcases List.mem_cons.1 hmem with heq | hmem
    · obtain ⟨-, rfl⟩ := Prod.mk.inj heq
      exact absurd hws List.not_mem_nil
    · exact absurd (List.mem_map_of_mem hmem) (List.nodup_cons.1 h.nodup).1

/-- A finished node leads to nodes that were reached. -/
theorem reached_of_finished (h : Open g stack t) (hu : u ∈ t.postorder)
    (hw : w ∈ g.successors u) : t.isReached w = true := by
  obtain ⟨hreached, hclosed⟩ := (h.finished u).1 hu
  rcases h.edges u hreached w hw with hr | ⟨ws, hmem, -⟩
  · exact hr
  · exact absurd (List.mem_map_of_mem hmem) hclosed

end Open

namespace Kinship

variable {t : SpanningTree} {v w : Nat} {active ws : List Nat} {rest : List (Nat × List Nat)}

/-- Finishing the innermost open node. -/
theorem finish (h : Kinship g (v :: rest.map Prod.fst) t) (ho : Open g ((v, []) :: rest) t) :
    Kinship g (rest.map Prod.fst) (t.finish v) where
  lineage := by
    cases h.lineage with
    | cons _ hrest => exact hrest
  heirs a ha x hle := h.heirs a (List.mem_cons_of_mem _ ha) x hle
  between := h.between
  forward u hu x hx hle := by
    rcases Array.mem_push.1 hu with hu | rfl
    · exact h.forward u hu x hx hle
    · exact h.heirs u List.mem_cons_self x hle
  backward j u hj x hx := by
    rw [SpanningTree.finish, Array.getElem?_push] at hj
    split at hj
    · -- the node that is finished: what it leads to was finished before, or is still open
      obtain rfl : v = u := by simpa using hj
      by_cases hdone : x ∈ t.postorder
      · obtain ⟨i, hi⟩ := Array.getElem?_of_mem hdone
        have hlt := (Array.getElem?_eq_some_iff.1 hi).1
        refine Or.inl ⟨i, by omega, ?_⟩
        rw [SpanningTree.finish, Array.getElem?_push_lt hlt]
        exact (Array.getElem?_eq_getElem hlt).symm.trans hi
      · have hopen : x ∈ v :: rest.map Prod.fst := by
          by_contra hclosed
          exact hdone ((ho.finished x).2 ⟨ho.reached_of_last hx, hclosed⟩)
        exact Or.inr (h.lineage.mem_iff.1 hopen)
    · have hlt := (Array.getElem?_eq_some_iff.1 hj).1
      rcases h.backward j u hj x hx with ⟨i, hi, hxi⟩ | hanc
      · refine Or.inl ⟨i, hi, ?_⟩
        rw [SpanningTree.finish, Array.getElem?_push, if_neg (by omega)]
        exact hxi
      · exact Or.inr hanc
  once := by
    have hv : v ∉ t.postorder := fun hv => ((ho.finished v).1 hv).2 List.mem_cons_self
    rw [SpanningTree.finish, Array.toList_push, List.nodup_append]
    refine ⟨h.once, List.nodup_singleton v, ?_⟩
    rintro x hx y hy rfl
    exact hv (List.mem_singleton.1 hy ▸ Array.mem_toList_iff.1 hx)

/-- **What is discovered last** descends from all open nodes, and they keep their other heirs. -/
theorem heirs_discover (h : Kinship g (v :: active) t) (hl : Linked g start t)
    (hc : Consistent g start t) (hpos : ∀ x ∈ v :: active, 0 < t.numberOf x) (hlt : w < g.size)
    (hnew : t.isUnseen w = true) :
    ∀ a ∈ w :: v :: active, ∀ x,
      (t.discover w (some v)).numberOf a ≤ (t.discover w (some v)).numberOf x →
      Ancestor (t.discover w (some v)).parent a x := by
  intro a hmem x hle
  rcases List.mem_cons.1 hmem with rfl | ha
  · obtain rfl := hc.eq_of_discover_le hnew hle
    exact .self
  · by_cases hxw : x = w
    · subst hxw
      exact (hl.ancestor_discover hnew _ (h.lineage.mem_iff.1 ha)).child
        (parent_discover_self (hl.size ▸ hlt))
    · rw [numberOf_discover_of_ne hnew (ne_of_numberOf_pos hnew (hpos a ha)),
        numberOf_discover_of_ne hnew hxw] at hle
      exact hl.ancestor_discover hnew _ (h.heirs a ha x hle)

/-- Opening a node that was just discovered. -/
theorem discover (h : Kinship g (v :: rest.map Prod.fst) t) (hl : Linked g start t)
    (hc : Consistent g start t) (ho : Open g ((v, w :: ws) :: rest) t) (hlt : w < g.size)
    (hnew : t.isUnseen w = true) :
    Kinship g (w :: v :: rest.map Prod.fst) (t.discover w (some v)) := by
  have hlink : (t.discover w (some v)).parent[w]? = some (some v) :=
    parent_discover_self (hl.size ▸ hlt)
  have hpos : ∀ x ∈ v :: rest.map Prod.fst, 0 < t.numberOf x := by
    intro x hx
    have hmem : x ∈ ((v, w :: ws) :: rest).map Prod.fst := hx
    obtain ⟨e, he, rfl⟩ := List.mem_map.1 hmem
    exact isReached_iff_pos.1 (ho.reached e he)
  have hne : ∀ x, t.isReached x = true → x ≠ w := fun x hx =>
    ne_of_numberOf_pos hnew (isReached_iff_pos.1 hx)
  have hheirs := h.heirs_discover hl hc hpos hlt hnew
  refine ⟨.cons hlink (h.lineage.congr fun x hx =>
    parent_discover_of_ne (ne_of_numberOf_pos hnew (hpos x hx))), hheirs, ?_, ?_, ?_, h.once⟩
  · intro a x y ha hanc hax hxy
    by_cases hyw : y = w
    · -- the ancestors of the new node are open
      subst hyw
      refine hheirs a ?_ x hax
      cases hanc with
      | self => exact List.mem_cons_self
      | @child u _ hanc hlink' =>
          obtain rfl : v = u := by simpa using hlink.symm.trans hlink'
          have hv := ne_of_numberOf_pos hnew (hpos v List.mem_cons_self)
          exact List.mem_cons_of_mem _
            (h.lineage.mem_iff.2 (hl.ancestor_of_discover hnew hanc hv))
    · have hxw : x ≠ w := by
        rintro rfl
        exact hyw (hc.eq_of_discover_le hnew hxy)
      have haw : a ≠ w := by
        rintro rfl
        exact hxw (hc.eq_of_discover_le hnew hax)
      rw [numberOf_discover_of_ne hnew haw] at ha hax
      rw [numberOf_discover_of_ne hnew hxw] at hax hxy
      rw [numberOf_discover_of_ne hnew hyw] at hxy
      exact hl.ancestor_discover hnew _
        (h.between a x y ha (hl.ancestor_of_discover hnew hanc hyw) hax hxy)
  · intro u hu x hx hle
    rw [numberOf_discover_of_ne hnew (hne u ((ho.finished u).1 hu).1),
      numberOf_discover_of_ne hnew (hne x (ho.reached_of_finished hu hx))] at hle
    exact hl.ancestor_discover hnew _ (h.forward u hu x hx hle)
  · intro j u hj x hx
    exact (h.backward j u hj x hx).imp id (hl.ancestor_discover hnew _)

end Kinship

/-! ## The finished traversal -/

/-- A closed traversal stays among the nodes that were reached. -/
theorem Open.reached_of_walk {t : SpanningTree} (h : Open g [] t) {v w : Nat} {l : List Nat}
    (hv : t.isReached v = true) (hwalk : g.Walk v l w) : t.isReached w = true := by
  induction hwalk with
  | start => exact hv
  | step _ hw ih => exact h.reached_of_finished ((h.finished _).2 ⟨ih, List.not_mem_nil⟩) hw

/-- **The path lemma.**  Who walks from a node to one with no smaller number passes an ancestor
of both. -/
theorem Kinship.exists_common {t : SpanningTree} (h : Kinship g [] t) (hl : Linked g start t)
    (ho : Open g [] t) {v w : Nat} {l : List Nat} (hv : t.isReached v = true)
    (hwalk : g.Walk v l w) (hle : t.numberOf v ≤ t.numberOf w) :
    ∃ a ∈ l, Ancestor t.parent a v ∧ Ancestor t.parent a w := by
  -- on the walk; the last edge goes to a descendant or to a smaller number
  induction hwalk with
  | start => exact ⟨v, List.mem_singleton_self v, .self, .self⟩
  | @step l u w hwalk hw ih =>
      have hreached := ho.reached_of_walk hv hwalk
      have hfinished : u ∈ t.postorder := (ho.finished u).2 ⟨hreached, List.not_mem_nil⟩
      have hpos := isReached_iff_pos.1 hreached
      by_cases hvu : t.numberOf v ≤ t.numberOf u
      · obtain ⟨a, ha, hav, hau⟩ := ih hvu
        refine ⟨a, List.mem_append_left _ ha, hav, ?_⟩
        by_cases huw : t.numberOf u ≤ t.numberOf w
        · exact hau.trans (h.forward u hfinished w hw huw)
        · -- the edge goes back, but not past `v`
          have hav' := hl.numberOf_le hav
          exact h.between a w u (hl.numberOf_pos hav (isReached_iff_pos.1 hv)) hau
            (by omega) (by omega)
      · have huw := h.forward u hfinished w hw (by omega)
        exact ⟨u, List.mem_append_left _ hwalk.end_mem,
          h.between u v w hpos huw (by omega) hle, huw⟩

/-- A traversal keeps the links and the order of the tree until its stack is empty. -/
theorem traverse_kinship (hg : g.InRange) (stack : List (Nat × List Nat)) (t : SpanningTree)
    (hc : Consistent g start t) (ho : Open g stack t) (hl : Linked g start t)
    (hk : Kinship g (stack.map Prod.fst) t) :
    Linked g start (g.traverse stack t) ∧ Kinship g [] (g.traverse stack t) := by
  fun_induction traverse g stack t with
  | case1 t => exact ⟨hl, hk⟩
  | case2 t v rest ih =>
      exact ih (hc.finish v) ho.finish ⟨hl.size, hl.edge, hl.orphan⟩ (hk.finish ho)
  | case3 t v w ws rest hnew ih =>
      have hv := ho.reached (v, w :: ws) List.mem_cons_self
      have hw := ho.successors (v, w :: ws) List.mem_cons_self w List.mem_cons_self
      have hlt := hg.lt_size hw
      exact ih (hc.discover hv hw hnew) (ho.discover hnew)
        (hl.discover hc (isReached_iff_pos.1 hv) hw hlt hnew) (hk.discover hl hc ho hlt hnew)
  | case4 t v w ws rest hold ih =>
      have hw := ho.successors (v, w :: ws) List.mem_cons_self w List.mem_cons_self
      have hlt : w < t.number.size := hc.size ▸ hg.lt_size hw
      exact ih hc (ho.skip (isReached_of_not_isUnseen hlt hold)) hl hk

section Finished

variable (hg : g.InRange) (hs : start < g.size)

include hg hs

theorem depthFirst_kinship :
    Linked g start (g.depthFirst start) ∧ Kinship g [] (g.depthFirst start) := by
  obtain ⟨hc, ho⟩ := first_invariant hs
  have hnew := isUnseen_empty hs
  have hlink : ((SpanningTree.empty g.size).discover start none).parent[start]? = some none :=
    parent_discover_self (by simpa [SpanningTree.empty] using hs)
  have hlinks : ∀ v u : Nat,
      ((SpanningTree.empty g.size).discover start none).parent[v]? ≠ some (some u) := by
    intro v u
    by_cases hv : v = start
    · subst hv
      rw [hlink]
      simp
    · rw [parent_discover_of_ne hv]
      simp [SpanningTree.empty, Array.getElem?_replicate]
  have honly : ∀ v, 0 < ((SpanningTree.empty g.size).discover start none).numberOf v →
      v = start := by
    intro v hv
    by_contra hne
    rw [numberOf_discover_of_ne hnew hne] at hv
    by_cases hlt : v < g.size <;> simp [numberOf, SpanningTree.empty, hlt] at hv
  rw [depthFirst, if_pos hnew]
  refine traverse_kinship hg _ _ hc ho ⟨?_, ?_, fun v hv _ => honly v hv⟩
    ⟨.cons hlink .nil, ?_, ?_, ?_, ?_, ?_⟩
  · simp [SpanningTree.discover, SpanningTree.empty]
  · exact fun u v h => absurd h (hlinks v u)
  · intro a ha v hle
    obtain rfl : a = start := List.mem_singleton.1 ha
    rw [numberOf_discover_self hnew] at hle
    obtain rfl := honly v (by omega)
    exact .self
  · intro a v w ha _ hle _
    obtain rfl := honly a ha
    obtain rfl := honly v (by omega)
    exact .self
  · exact fun u hu => absurd hu (Array.not_mem_empty u)
  · exact fun j u hj => absurd hj (by simp [SpanningTree.discover, SpanningTree.empty])
  · exact List.nodup_nil

end Finished

/-- What a depth-first tree from `start` says of the walks of a graph; `order` is its reverse
postorder. -/
structure SpansDepthFirst (g : Adjacency) (start : Nat) (t : SpanningTree) (order : List Nat) :
    Prop where
  /-- Preorder lists the reachable nodes, each once. -/
  preorder : t.preorder.toList.Nodup ∧ ∀ v, v ∈ t.preorder ↔ g.Reaches start v
  /-- Postorder lists the reachable nodes, each once. -/
  postorder : t.postorder.toList.Nodup ∧ ∀ v, v ∈ t.postorder ↔ g.Reaches start v
  /-- A reachable node has its place in preorder, counted from one, for its number. -/
  number : t.number.size = g.size ∧
    ∀ v, g.Reaches start v → t.number[v]? = some (t.preorder.toList.idxOf v + 1)
  /-- The other nodes have the number zero. -/
  unnumbered : ∀ v < g.size, ¬ g.Reaches start v → t.number[v]? = some 0
  /-- A parent has an edge to its child and a smaller number. -/
  parent : t.parent.size = g.size ∧
    ∀ u v, t.parent[v]? = some (some u) → v ∈ g.successors u ∧ t.numberOf u < t.numberOf v
  /-- The start and the nodes that were not reached have no parent. -/
  orphan : ∀ v < g.size, t.parent[v]? = some none ↔ v = start ∨ ¬ g.Reaches start v
  /-- An edge leads to a node that is not listed later only if that is an ancestor. -/
  retreat : ∀ u v, g.Reaches start u → g.Reaches start v → v ∈ g.successors u →
    order.idxOf v ≤ order.idxOf u → Ancestor t.parent v u
  /-- Who walks from a node to one with a larger number passes an ancestor of both. -/
  common : ∀ v w l, g.Reaches start v → g.Reaches start w → t.numberOf v < t.numberOf w →
    g.Walk v l w → ∃ a ∈ l, Ancestor t.parent a v ∧ Ancestor t.parent a w

/-- The place of a node in a list that has it once. -/
theorem idxOf_eq {l : List Nat} (hl : l.Nodup) {i v : Nat} (h : l[i]? = some v) :
    l.idxOf v = i := by
  obtain ⟨hi, rfl⟩ := List.getElem?_eq_some_iff.1 h
  exact hl.idxOf_getElem i hi

theorem idxOf_reverse_eq {l : List Nat} (hl : l.Nodup) {i v : Nat} (h : l[i]? = some v) :
    l.reverse.idxOf v = l.length - 1 - i := by
  have hi := (List.getElem?_eq_some_iff.1 h).1
  refine idxOf_eq (List.nodup_reverse.2 hl) ?_
  rw [List.getElem?_reverse (by omega), ← h]
  congr 1
  omega

theorem Consistent.nodup {t : SpanningTree} (h : Consistent g start t) :
    t.preorder.toList.Nodup := by
  refine List.pairwise_iff_getElem.2 fun i j hi hj hij heq => ?_
  have hi' := (h.listed _ i).1 (Array.getElem?_eq_some_iff.2 ⟨hi, rfl⟩)
  have hj' := (h.listed _ j).1 (Array.getElem?_eq_some_iff.2 ⟨hj, rfl⟩)
  simp only [Array.getElem_toList] at heq
  rw [heq, hj', Option.some.injEq] at hi'
  omega

/-- **A traversal builds a depth-first tree.** -/
theorem depthFirst_spans (hg : g.InRange) (hs : start < g.size) :
    SpansDepthFirst g start (g.depthFirst start) (g.reversePostorder start) := by
  obtain ⟨hc, ho⟩ := depthFirst_invariant hg hs
  obtain ⟨hl, hk⟩ := depthFirst_kinship hg hs
  have hreached : ∀ v, (g.depthFirst start).isReached v = true ↔ g.Reaches start v :=
    isReached_depthFirst hg hs
  have hpre : ∀ v, v ∈ (g.depthFirst start).preorder ↔ g.Reaches start v := by
    intro v
    rw [← hreached, hc.isReached_iff_mem, Array.mem_iff_getElem?]
  refine ⟨⟨hc.nodup, hpre⟩, ⟨hk.once, mem_postorder_depthFirst hg hs⟩, ⟨hc.size, ?_⟩, ?_,
    ⟨hl.size, fun u v h => ⟨(hl.edge u v h).1, (hl.edge u v h).2.2⟩⟩, ?_, ?_, ?_⟩
  · intro v hv
    obtain ⟨i, hi⟩ := hc.isReached_iff_mem.1 ((hreached v).2 hv)
    rw [idxOf_eq hc.nodup (Array.getElem?_toList.trans hi)]
    exact (hc.listed v i).1 hi
  · intro v hlt hv
    by_contra hne
    exact hv ((hreached v).1 (isReached_of_not_isUnseen (hc.size ▸ hlt)
      fun hnew => hne (isUnseen_iff.1 hnew)))
  · intro v hlt
    have hparent : v < (g.depthFirst start).parent.size := hl.size.symm ▸ hlt
    have hpos : 0 < (g.depthFirst start).numberOf v ↔ g.Reaches start v :=
      isReached_iff_pos.symm.trans (hreached v)
    constructor
    · intro hnone
      by_cases hv : g.Reaches start v
      · exact Or.inl (hl.orphan v (hpos.2 hv) hnone)
      · exact Or.inr hv
    · intro hv
      cases hlink : (g.depthFirst start).parent[v] with
      | none => exact (Array.getElem?_eq_getElem hparent).trans (congrArg some hlink)
      | some u =>
          -- a parent has a positive number, and its child a larger one
          obtain ⟨-, hu, hless⟩ := hl.edge u v
            ((Array.getElem?_eq_getElem hparent).trans (congrArg some hlink))
          rcases hv with rfl | hv
          · have hone := (hc.listed v 0).1 hc.first
            rw [numberOf, numberOf, hone, Option.getD_some] at hless
            rw [numberOf] at hu
            omega
          · exact absurd (hpos.1 (by omega)) hv
  · intro u v hu _ hedge hle
    obtain ⟨j, hj⟩ := Array.getElem?_of_mem ((mem_postorder_depthFirst hg hs u).2 hu)
    rcases hk.backward j u hj v hedge with ⟨i, hi, hiv⟩ | hanc
    · have hjlt := (Array.getElem?_eq_some_iff.1 hj).1
      rw [reversePostorder, idxOf_reverse_eq hk.once (Array.getElem?_toList.trans hiv),
        idxOf_reverse_eq hk.once (Array.getElem?_toList.trans hj), Array.length_toList] at hle
      omega
    · exact hanc
  · intro v w l hv _ hlt hwalk
    exact hk.exists_common hl ho ((hreached v).2 hv) hwalk (Nat.le_of_lt hlt)

/-- A graph with a cycle, in which two nodes lead to a third. -/
theorem depthFirst_spans_cycle :
    InRange ⟨#[[1, 2], [3], [3], [0, 1]]⟩ ∧ 0 < size ⟨#[[1, 2], [3], [3], [0, 1]]⟩ ∧
      SpansDepthFirst ⟨#[[1, 2], [3], [3], [0, 1]]⟩ 0
        (depthFirst ⟨#[[1, 2], [3], [3], [0, 1]]⟩ 0)
        (reversePostorder ⟨#[[1, 2], [3], [3], [0, 1]]⟩ 0) := by
  have hg : InRange ⟨#[[1, 2], [3], [3], [0, 1]]⟩ := by
    unfold InRange
    decide
  exact ⟨hg, by decide, depthFirst_spans hg (by decide)⟩

example : reversePostorder ⟨#[[1, 2], [3], [3], [0, 1]]⟩ 0 = [0, 2, 1, 3] := by cbv

end Adjacency
end FlowVerifier
