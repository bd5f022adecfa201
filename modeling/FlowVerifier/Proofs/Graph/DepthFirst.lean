import FlowVerifier.Proofs.Graph.Walk

/-!
# What a depth-first traversal finds

The traversal is followed with an invariant in two parts.  `Consistent` speaks
of the tree alone: preorder and numbering are inverse to each other, and every
node but the first was discovered over an edge from an earlier one.  `Open`
speaks of the tree and the stack: an edge from a node that was reached leads to
another one, or its source is still open and has the edge to look at.

When the stack is empty the two parts say that exactly the reachable nodes were
found (`isReached_depthFirst`), that each of them was finished
(`mem_postorder_depthFirst`), and that it can be reached through nodes that were
discovered before it (`exists_walk_le`).
-/

namespace FlowVerifier

/-! ## The numbering of a tree -/

namespace SpanningTree

variable {t : SpanningTree} {v w : Nat}

theorem isReached_iff : t.isReached v = true ↔ ∃ n, t.number[v]? = some (n + 1) := by
  simp only [isReached, Option.any_eq_true, bne_iff_ne, ne_eq]
  constructor
  · rintro ⟨n, hn, hz⟩
    exact ⟨n - 1, by rw [hn, Nat.sub_add_cancel (Nat.pos_of_ne_zero hz)]⟩
  · rintro ⟨n, hn⟩
    exact ⟨n + 1, hn, Nat.succ_ne_zero n⟩

theorem isUnseen_iff : t.isUnseen v = true ↔ t.number[v]? = some 0 := by
  simp [isUnseen, Option.any_eq_true]

/-- A node of the graph was reached or is unseen. -/
theorem isReached_of_not_isUnseen (hv : v < t.number.size) (h : ¬ t.isUnseen v = true) :
    t.isReached v = true := by
  rw [isUnseen_iff, Array.getElem?_eq_getElem hv, Option.some.injEq] at h
  rw [isReached_iff]
  exact ⟨t.number[v] - 1, by
    rw [Array.getElem?_eq_getElem hv, Nat.sub_add_cancel (Nat.pos_of_ne_zero h)]⟩

theorem number_discover (p : Option Nat) (hw : t.isUnseen w = true) :
    (t.discover w p).number[v]? =
      if w = v then some (t.preorder.size + 1) else t.number[v]? := by
  obtain ⟨hlt, -⟩ := Array.getElem?_eq_some_iff.1 (isUnseen_iff.1 hw)
  simp only [discover, Array.getElem?_setIfInBounds]
  by_cases hv : w = v
  · subst hv
    simp [hlt]
  · simp [hv]

theorem isReached_discover (p : Option Nat) (hw : t.isUnseen w = true) :
    (t.discover w p).isReached v = true ↔ v = w ∨ t.isReached v = true := by
  simp only [isReached_iff, number_discover p hw]
  by_cases hv : w = v
  · simp [hv]
  · simp [hv, Ne.symm hv]

end SpanningTree

namespace Adjacency

open SpanningTree

variable {g : Adjacency} {start : Nat}

/-! ## The invariant of the tree -/

/-- What holds of the tree at every moment of a traversal from `start`. -/
structure Consistent (g : Adjacency) (start : Nat) (t : SpanningTree) : Prop where
  /-- Every node of the graph has a number. -/
  size : t.number.size = g.size
  /-- Preorder and numbering are inverse to each other. -/
  listed : ∀ v i, t.preorder[i]? = some v ↔ t.number[v]? = some (i + 1)
  /-- The traversal starts with its start. -/
  first : t.preorder[0]? = some start
  /-- Every other node was discovered over an edge from an earlier one. -/
  parent : ∀ i v, t.preorder[i + 1]? = some v →
    ∃ j u, j ≤ i ∧ t.preorder[j]? = some u ∧ v ∈ g.successors u

namespace Consistent

variable {t : SpanningTree} {v w : Nat}

theorem isReached_iff_mem (h : Consistent g start t) :
    t.isReached v = true ↔ ∃ i : Nat, t.preorder[i]? = some v := by
  simp only [SpanningTree.isReached_iff, h.listed]

/-- Discovering a successor of a node that was reached. -/
theorem discover (h : Consistent g start t) {u : Nat} (hu : t.isReached u = true)
    (hw : w ∈ g.successors u) (hnew : t.isUnseen w = true) :
    Consistent g start (t.discover w (some u)) where
  size := by simp [SpanningTree.discover, h.size]
  listed := by
    intro v i
    rw [number_discover _ hnew]
    simp only [SpanningTree.discover, Array.getElem?_push]
    have hw0 : ∀ j : Nat, t.preorder[j]? ≠ some w := by
      intro j hj
      rw [h.listed, isUnseen_iff.1 hnew] at hj
      simp at hj
    by_cases hv : w = v
    · subst hv
      by_cases hi : i = t.preorder.size
      · simp [hi]
      · simp only [if_neg hi, if_true, Option.some.injEq]
        exact ⟨fun hc => absurd hc (hw0 i), fun hc => absurd (by omega) hi⟩
    · by_cases hi : i = t.preorder.size
      · subst hi
        simp only [if_true, Option.some.injEq, if_neg hv, ← h.listed]
        simpa using hv
      · simp only [if_neg hi, if_neg hv]
        exact h.listed v i
  first := by
    have hpos : 0 < t.preorder.size := (Array.getElem?_eq_some_iff.1 h.first).1
    simp only [SpanningTree.discover, Array.getElem?_push, if_neg (Nat.ne_of_lt hpos)]
    exact h.first
  parent := by
    intro i v hv
    simp only [SpanningTree.discover, Array.getElem?_push] at hv
    by_cases hi : i + 1 = t.preorder.size
    · rw [if_pos hi, Option.some.injEq] at hv
      subst hv
      obtain ⟨j, hj⟩ := (h.isReached_iff_mem).1 hu
      have hlt : j < t.preorder.size := (Array.getElem?_eq_some_iff.1 hj).1
      refine ⟨j, u, by omega, ?_, hw⟩
      simp only [SpanningTree.discover, Array.getElem?_push, if_neg (Nat.ne_of_lt hlt)]
      exact hj
    · rw [if_neg hi] at hv
      obtain ⟨j, x, hj, hx, hvx⟩ := h.parent i v hv
      have hlt : j < t.preorder.size := (Array.getElem?_eq_some_iff.1 hx).1
      refine ⟨j, x, hj, ?_, hvx⟩
      simp only [SpanningTree.discover, Array.getElem?_push, if_neg (Nat.ne_of_lt hlt)]
      exact hx

theorem finish (h : Consistent g start t) (v : Nat) : Consistent g start (t.finish v) :=
  ⟨h.size, h.listed, h.first, h.parent⟩

/-- A node can be reached through nodes that were discovered before it. -/
theorem exists_walk (h : Consistent g start t) (i : Nat) :
    ∀ v, t.preorder[i]? = some v →
      ∃ l, g.Walk start l v ∧ ∀ x ∈ l, ∃ j, j ≤ i ∧ t.preorder[j]? = some x := by
  -- on the position of the node; its parent has an earlier one
  induction i using Nat.strongRecOn with
  | ind i ih =>
    intro v hv
    cases i with
    | zero =>
        obtain rfl : start = v := Option.some.inj (h.first.symm.trans hv)
        exact ⟨[start], .start, fun x hx => ⟨0, Nat.le_refl 0, (List.mem_singleton.1 hx) ▸ hv⟩⟩
    | succ i =>
        obtain ⟨j, u, hj, hu, hvu⟩ := h.parent i v hv
        obtain ⟨l, hl, hall⟩ := ih j (by omega) u hu
        refine ⟨l ++ [v], hl.step hvu, fun x hx => ?_⟩
        rcases List.mem_append.1 hx with hx | hx
        · obtain ⟨k, hk, hkx⟩ := hall x hx
          exact ⟨k, by omega, hkx⟩
        · exact ⟨i + 1, Nat.le_refl _, (List.mem_singleton.1 hx) ▸ hv⟩

end Consistent

/-! ## The invariant of the stack -/

/-- What holds of the tree and the stack of open nodes at every moment of a
traversal. -/
structure Open (g : Adjacency) (stack : List (Nat × List Nat)) (t : SpanningTree) : Prop where
  /-- No node is open twice. -/
  nodup : (stack.map Prod.fst).Nodup
  /-- Open nodes were reached. -/
  reached : ∀ e ∈ stack, t.isReached e.1 = true
  /-- What an open node has to look at are successors of it. -/
  successors : ∀ e ∈ stack, ∀ w ∈ e.2, w ∈ g.successors e.1
  /-- An edge leads to a node that was reached, or is still to be looked at. -/
  edges : ∀ u, t.isReached u = true → ∀ w ∈ g.successors u,
    t.isReached w = true ∨ ∃ ws, (u, ws) ∈ stack ∧ w ∈ ws
  /-- The finished nodes are those that were reached and are not open. -/
  finished : ∀ v, v ∈ t.postorder ↔ t.isReached v = true ∧ v ∉ stack.map Prod.fst

namespace Open

variable {t : SpanningTree} {v w : Nat} {ws : List Nat} {rest : List (Nat × List Nat)}

theorem finish (h : Open g ((v, []) :: rest) t) : Open g rest (t.finish v) where
  nodup := (List.nodup_cons.1 h.nodup).2
  reached e he := h.reached e (List.mem_cons_of_mem _ he)
  successors e he := h.successors e (List.mem_cons_of_mem _ he)
  edges u hu x hx := by
    rcases h.edges u hu x hx with hr | ⟨ws, hmem, hxs⟩
    · exact Or.inl hr
    · rcases List.mem_cons.1 hmem with heq | hmem
      · obtain ⟨-, rfl⟩ := Prod.mk.inj heq
        exact absurd hxs List.not_mem_nil
      · exact Or.inr ⟨ws, hmem, hxs⟩
  finished u := by
    have hv : v ∉ rest.map Prod.fst := (List.nodup_cons.1 h.nodup).1
    simp only [SpanningTree.finish, Array.mem_push, h.finished u, List.map_cons, List.mem_cons,
      not_or]
    constructor
    · rintro (⟨hr, -, hu⟩ | rfl)
      · exact ⟨hr, hu⟩
      · exact ⟨h.reached (u, []) (List.mem_cons_self ..), hv⟩
    · rintro ⟨hr, hu⟩
      by_cases huv : u = v
      · exact Or.inr huv
      · exact Or.inl ⟨hr, huv, hu⟩

/-- Opening a node that was just discovered. -/
theorem discover (h : Open g ((v, w :: ws) :: rest) t) (hnew : t.isUnseen w = true) :
    Open g ((w, g.successors w) :: (v, ws) :: rest) (t.discover w (some v)) := by
  have hw : ¬ t.isReached w = true := by
    rw [SpanningTree.isReached_iff, isUnseen_iff.1 hnew]
    simp
  have hopen : w ∉ v :: rest.map Prod.fst := by
    intro hc
    have hmem : w ∈ ((v, w :: ws) :: rest).map Prod.fst := hc
    obtain ⟨e, he, rfl⟩ := List.mem_map.1 hmem
    exact hw (h.reached e he)
  refine ⟨List.nodup_cons.2 ⟨hopen, h.nodup⟩, ?_, ?_, ?_, ?_⟩
  · intro e he
    rw [isReached_discover _ hnew]
    rcases List.mem_cons.1 he with rfl | he
    · exact Or.inl rfl
    · rcases List.mem_cons.1 he with rfl | he
      · exact Or.inr (h.reached (v, w :: ws) (List.mem_cons_self ..))
      · exact Or.inr (h.reached e (List.mem_cons_of_mem _ he))
  · intro e he x hx
    rcases List.mem_cons.1 he with rfl | he
    · exact hx
    · rcases List.mem_cons.1 he with rfl | he
      · exact h.successors (v, w :: ws) (List.mem_cons_self ..) x (List.mem_cons_of_mem _ hx)
      · exact h.successors e (List.mem_cons_of_mem _ he) x hx
  · intro u hu x hx
    rw [isReached_discover _ hnew] at hu ⊢
    rcases hu with rfl | hu
    · exact Or.inr ⟨g.successors u, List.mem_cons_self .., hx⟩
    · rcases h.edges u hu x hx with hr | ⟨ys, hmem, hxs⟩
      · exact Or.inl (Or.inr hr)
      · rcases List.mem_cons.1 hmem with heq | hmem
        · obtain ⟨rfl, rfl⟩ := Prod.mk.inj heq
          rcases List.mem_cons.1 hxs with rfl | hxs
          · exact Or.inl (Or.inl rfl)
          · exact Or.inr ⟨ws, List.mem_cons_of_mem _ (List.mem_cons_self ..), hxs⟩
        · exact Or.inr ⟨ys, List.mem_cons_of_mem _ (List.mem_cons_of_mem _ hmem), hxs⟩
  · intro u
    have hfin := h.finished u
    simp only [List.map_cons, List.mem_cons, not_or] at hfin ⊢
    rw [isReached_discover _ hnew]
    show u ∈ t.postorder ↔ _
    rw [hfin]
    constructor
    · rintro ⟨hr, hu⟩
      exact ⟨Or.inr hr, fun hc => hw (hc ▸ hr), hu⟩
    · rintro ⟨hr, hne, hu⟩
      exact ⟨hr.resolve_left hne, hu⟩

/-- Passing over a successor that was reached before. -/
theorem skip (h : Open g ((v, w :: ws) :: rest) t) (hold : t.isReached w = true) :
    Open g ((v, ws) :: rest) t where
  nodup := h.nodup
  reached e he := by
    rcases List.mem_cons.1 he with rfl | he
    · exact h.reached (v, w :: ws) (List.mem_cons_self ..)
    · exact h.reached e (List.mem_cons_of_mem _ he)
  successors e he x hx := by
    rcases List.mem_cons.1 he with rfl | he
    · exact h.successors (v, w :: ws) (List.mem_cons_self ..) x (List.mem_cons_of_mem _ hx)
    · exact h.successors e (List.mem_cons_of_mem _ he) x hx
  edges u hu x hx := by
    rcases h.edges u hu x hx with hr | ⟨ys, hmem, hxs⟩
    · exact Or.inl hr
    · rcases List.mem_cons.1 hmem with heq | hmem
      · obtain ⟨rfl, rfl⟩ := Prod.mk.inj heq
        rcases List.mem_cons.1 hxs with rfl | hxs
        · exact Or.inl hold
        · exact Or.inr ⟨ws, List.mem_cons_self .., hxs⟩
      · exact Or.inr ⟨ys, List.mem_cons_of_mem _ hmem, hxs⟩
  finished := h.finished

end Open

/-- A traversal keeps both parts of the invariant until its stack is empty. -/
theorem traverse_invariant (hg : g.InRange) (stack : List (Nat × List Nat)) (t : SpanningTree)
    (hc : Consistent g start t) (ho : Open g stack t) :
    Consistent g start (g.traverse stack t) ∧ Open g [] (g.traverse stack t) := by
  fun_induction traverse g stack t with
  | case1 t => exact ⟨hc, ho⟩
  | case2 t v rest ih => exact ih (hc.finish v) ho.finish
  | case3 t v w ws rest hnew ih =>
      have hw := ho.successors (v, w :: ws) (List.mem_cons_self ..) w (List.mem_cons_self ..)
      have hv := ho.reached (v, w :: ws) (List.mem_cons_self ..)
      exact ih (hc.discover hv hw hnew) (ho.discover hnew)
  | case4 t v w ws rest hold ih =>
      have hw := ho.successors (v, w :: ws) (List.mem_cons_self ..) w (List.mem_cons_self ..)
      have hlt : w < t.number.size := hc.size ▸ hg.lt_size hw
      exact ih hc (ho.skip (isReached_of_not_isUnseen hlt hold))

/-! ## The finished tree -/

section Finished

variable (hg : g.InRange) (hs : start < g.size)

include hs in
theorem isUnseen_empty : (SpanningTree.empty g.size).isUnseen start = true := by
  rw [isUnseen_iff]
  simp [SpanningTree.empty, hs]

include hs in
/-- The invariant holds when the start was just discovered. -/
theorem first_invariant :
    Consistent g start ((SpanningTree.empty g.size).discover start none) ∧
      Open g [(start, g.successors start)] ((SpanningTree.empty g.size).discover start none) := by
  have hnew := isUnseen_empty hs
  have hnone : ∀ v, (SpanningTree.empty g.size).isReached v ≠ true := by
    intro v
    by_cases hv : v < g.size <;> simp [SpanningTree.isReached_iff, SpanningTree.empty, hv]
  refine ⟨⟨?_, ?_, ?_, ?_⟩, ⟨?_, ?_, ?_, ?_, ?_⟩⟩
  · simp [SpanningTree.discover, SpanningTree.empty]
  · intro v i
    rw [number_discover _ hnew]
    by_cases hv : start = v
    · subst hv
      cases i with
      | zero => simp [SpanningTree.discover, SpanningTree.empty]
      | succ i => simp [SpanningTree.discover, SpanningTree.empty]
    · have hz : (SpanningTree.empty g.size).number[v]? ≠ some (i + 1) := fun hc =>
        hnone v (SpanningTree.isReached_iff.2 ⟨i, hc⟩)
      rw [if_neg hv]
      cases i with
      | zero => simpa [SpanningTree.discover, SpanningTree.empty, hv] using hz
      | succ i => simpa [SpanningTree.discover, SpanningTree.empty] using hz
  · simp [SpanningTree.discover, SpanningTree.empty]
  · intro i v hv
    simp [SpanningTree.discover, SpanningTree.empty] at hv
  · simp
  · intro e he
    rw [List.mem_singleton] at he
    subst he
    exact (isReached_discover none hnew).2 (Or.inl rfl)
  · intro e he w hw
    rw [List.mem_singleton] at he
    subst he
    exact hw
  · intro u hu w hw
    rcases (isReached_discover none hnew).1 hu with rfl | hu
    · exact Or.inr ⟨g.successors u, List.mem_singleton_self _, hw⟩
    · exact absurd hu (hnone u)
  · intro v
    rw [isReached_discover none hnew]
    simp only [SpanningTree.discover, SpanningTree.empty, List.map_cons, List.map_nil,
      List.mem_singleton]
    constructor
    · intro hc
      exact absurd hc (Array.not_mem_empty v)
    · rintro ⟨rfl | hr, hne⟩
      · exact absurd rfl hne
      · exact absurd hr (hnone v)

include hg hs

theorem depthFirst_invariant :
    Consistent g start (g.depthFirst start) ∧ Open g [] (g.depthFirst start) := by
  obtain ⟨hc, ho⟩ := first_invariant hs
  rw [depthFirst, if_pos (isUnseen_empty hs)]
  exact traverse_invariant hg _ _ hc ho

/-- **The traversal finds exactly the reachable nodes.** -/
theorem isReached_depthFirst (v : Nat) :
    (g.depthFirst start).isReached v = true ↔ g.Reaches start v := by
  obtain ⟨hc, ho⟩ := depthFirst_invariant hg hs
  constructor
  · intro hv
    obtain ⟨i, hi⟩ := hc.isReached_iff_mem.1 hv
    obtain ⟨l, hl, -⟩ := hc.exists_walk i v hi
    exact ⟨l, hl⟩
  · intro hv
    refine hv.induct (p := fun x => (g.depthFirst start).isReached x = true)
      (hc.isReached_iff_mem.2 ⟨0, hc.first⟩) fun u w hu hw => ?_
    rcases ho.edges u hu w hw with hr | ⟨ws, hmem, -⟩
    · exact hr
    · exact absurd hmem List.not_mem_nil

/-- Every reachable node is finished. -/
theorem mem_postorder_depthFirst (v : Nat) :
    v ∈ (g.depthFirst start).postorder ↔ g.Reaches start v := by
  rw [(depthFirst_invariant hg hs).2.finished, isReached_depthFirst hg hs]
  simp

end Finished

end Adjacency
end FlowVerifier
