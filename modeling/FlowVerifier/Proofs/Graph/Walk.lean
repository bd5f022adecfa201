import FlowVerifier.Graph.DepthFirst

/-!
# Walks and dominance

A *walk* follows edges from a fixed start and lists the nodes it visits.  This
file has the theory of walks that the results on traversals and on dominators
are stated in:

* `Adjacency.Reaches` says that there is a walk, and `Adjacency.Dominates` that
  every walk to a node visits another one;
* `Walk.append` and `Walk.cut` put walks together and take them apart;
* `Dominates.trans`, `Dominates.antisymm` and `Dominates.total` say that the
  dominators of one node form a chain.
-/

namespace FlowVerifier
namespace Adjacency

variable {g : Adjacency}

/-! ## Walks -/

/-- `g.Walk s l v` says that `l` lists the nodes of a walk from `s` to `v`, both
ends included. -/
inductive Walk (g : Adjacency) (s : Nat) : List Nat → Nat → Prop
  /-- The walk that stays where it starts. -/
  | start : Walk g s [s] s
  /-- A walk that follows one more edge. -/
  | step {l : List Nat} {u v : Nat} : Walk g s l u → v ∈ g.successors u → Walk g s (l ++ [v]) v

/-- Is there a walk from `s` to `v`? -/
def Reaches (g : Adjacency) (s v : Nat) : Prop := ∃ l, g.Walk s l v

/-- `a` dominates `b`: there are walks from `s` to `b`, and all of them visit
`a`. -/
def Dominates (g : Adjacency) (s a b : Nat) : Prop :=
  g.Reaches s b ∧ ∀ l, g.Walk s l b → a ∈ l

/-- Every edge leads to a node of the graph. -/
def InRange (g : Adjacency) : Prop := ∀ l ∈ g.lists, ∀ w ∈ l, w < g.size

theorem InRange.lt_size (hg : g.InRange) {v w : Nat} (h : w ∈ g.successors v) : w < g.size := by
  simp only [successors] at h
  cases hl : g.lists[v]? with
  | none => simp [hl] at h
  | some l =>
      rw [hl, Option.getD_some] at h
      exact hg l (Array.mem_of_getElem? hl) w h

theorem lt_size_of_mem_successors {v w : Nat} (h : w ∈ g.successors v) : v < g.size := by
  by_cases hv : v < g.lists.size
  · exact hv
  · simp [successors, Array.getElem?_eq_none (Nat.le_of_not_lt hv)] at h

namespace Walk

variable {s u v : Nat} {l m : List Nat}

theorem start_mem (h : g.Walk s l v) : s ∈ l := by
  induction h with
  | start => exact List.mem_singleton_self s
  | step _ _ ih => exact List.mem_append_left _ ih

theorem end_mem (h : g.Walk s l v) : v ∈ l := by
  cases h with
  | start => exact List.mem_singleton_self _
  | step _ _ => exact List.mem_append_right _ (List.mem_singleton_self _)

/-- A walk lists its start first. -/
theorem exists_cons (h : g.Walk s l v) : ∃ m, l = s :: m := by
  induction h with
  | start => exact ⟨[], rfl⟩
  | @step l u v _ _ ih =>
      obtain ⟨m, rfl⟩ := ih
      exact ⟨m ++ [v], rfl⟩

/-- Only the last node of a walk may be outside the graph. -/
theorem lt_size (h : g.Walk s l v) (hv : v < g.size) {x : Nat} (hx : x ∈ l) : x < g.size := by
  induction h with
  | start => exact List.mem_singleton.1 hx ▸ hv
  | step _ hw ih =>
      rcases List.mem_append.1 hx with hx | hx
      · exact ih (lt_size_of_mem_successors hw) hx
      · exact List.mem_singleton.1 hx ▸ hv

/-- A walk that goes on where another one ends. -/
theorem append (h : g.Walk s l u) (k : g.Walk u (u :: m) v) : g.Walk s (l ++ m) v := by
  generalize hn : u :: m = n at k
  induction k generalizing m with
  | start =>
      obtain ⟨-, rfl⟩ := List.cons.inj hn
      simpa using h
  | @step n' x y k hy ih =>
      cases n' with
      | nil => exact absurd k.start_mem List.not_mem_nil
      | cons a n' =>
          rw [List.cons_append, List.cons.injEq] at hn
          obtain ⟨rfl, rfl⟩ := hn
          rw [← List.append_assoc]
          exact (ih rfl).step hy

/-- What a walk visits from one of its nodes on is a walk. -/
theorem drop {z : Nat} {a b : List Nat} (h : g.Walk s l v) (hl : l = a ++ z :: b) :
    g.Walk z (z :: b) v := by
  induction h generalizing b with
  | start =>
      cases a with
      | nil =>
          obtain ⟨rfl, rfl⟩ := List.cons.inj hl
          exact .start
      | cons x a =>
          rw [List.cons_append, List.cons.injEq] at hl
          exact absurd hl.2.symm (by simp)
  | @step l u w _ hw ih =>
      rcases List.eq_nil_or_concat b with rfl | ⟨b, y, rfl⟩
      · obtain ⟨-, hz⟩ := List.append_inj' hl rfl
        rw [List.singleton_inj.1 hz]
        exact .start
      · rw [List.concat_eq_append,
          show a ++ z :: (b ++ [y]) = (a ++ z :: b) ++ [y] by simp] at hl
        obtain ⟨hl, hy⟩ := List.append_inj' hl rfl
        rw [List.concat_eq_append, ← List.singleton_inj.1 hy]
        exact (ih hl).step hw

/-- A walk of more than one node ends with an edge. -/
theorem exists_edge (h : g.Walk s (l ++ [v]) v) (hl : l ≠ []) :
    ∃ u, g.Walk s l u ∧ v ∈ g.successors u := by
  generalize hm : l ++ [v] = m at h
  cases h with
  | start => exact absurd (by simpa using hm) hl
  | @step m u _ hwalk hv =>
      obtain ⟨rfl, -⟩ := List.append_inj' hm rfl
      exact ⟨u, hwalk, hv⟩

/-- A walk has a last node with a property. -/
theorem last (p : Nat → Prop) (h : g.Walk s l v) (hp : ∃ x ∈ l, p x) :
    ∃ n x m, l = n ++ x :: m ∧ p x ∧ g.Walk x (x :: m) v ∧ (∀ y ∈ m, ¬ p y) := by
  induction h with
  | start =>
      obtain ⟨x, hx, hpx⟩ := hp
      rw [List.mem_singleton] at hx
      subst hx
      exact ⟨[], x, [], rfl, hpx, .start, by simp⟩
  | @step l u w hl hw ih =>
      by_cases hpw : p w
      · exact ⟨l, w, [], rfl, hpw, .start, by simp⟩
      · have hl' : ∃ x ∈ l, p x := by
          obtain ⟨x, hx, hpx⟩ := hp
          rcases List.mem_append.1 hx with hx | hx
          · exact ⟨x, hx, hpx⟩
          · rw [List.mem_singleton] at hx
            exact absurd (hx ▸ hpx) hpw
        obtain ⟨n, x, m, rfl, hpx, hm, hno⟩ := ih hl'
        refine ⟨n, x, m ++ [w], by simp, hpx, hm.step hw, ?_⟩
        intro y hy
        rcases List.mem_append.1 hy with hy | hy
        · exact hno y hy
        · rw [List.mem_singleton] at hy
          exact hy ▸ hpw

/-- A walk has a first node with a property. -/
theorem first (p : Nat → Prop) (h : g.Walk s l v) (hp : ∃ x ∈ l, p x) :
    ∃ n x m, l = n ++ x :: m ∧ p x ∧ g.Walk s (n ++ [x]) x ∧ (∀ y ∈ n, ¬ p y) := by
  induction h with
  | start =>
      obtain ⟨x, hx, hpx⟩ := hp
      rw [List.mem_singleton] at hx
      subst hx
      exact ⟨[], x, [], rfl, hpx, .start, by simp⟩
  | @step l u w hl hw ih =>
      by_cases hbefore : ∃ x ∈ l, p x
      · obtain ⟨n, x, m, rfl, hpx, hn, hno⟩ := ih hbefore
        exact ⟨n, x, m ++ [w], by simp, hpx, hn, hno⟩
      · obtain ⟨x, hx, hpx⟩ := hp
        rcases List.mem_append.1 hx with hx | hx
        · exact absurd ⟨x, hx, hpx⟩ hbefore
        · rw [List.mem_singleton] at hx
          subst hx
          exact ⟨l, x, [], rfl, hpx, hl.step hw, fun y hy hpy => hbefore ⟨y, hy, hpy⟩⟩

/-- The part of a walk from the last node with a property on: what comes after
it does not have the property. -/
theorem cut (p : Nat → Prop) (h : g.Walk s l v) (hp : ∃ x ∈ l, p x) :
    ∃ x m, p x ∧ x ∈ l ∧ g.Walk x (x :: m) v ∧ (∀ y ∈ m, ¬ p y) := by
  obtain ⟨n, x, m, rfl, hpx, hm, hno⟩ := h.last p hp
  exact ⟨x, m, hpx, by simp, hm, hno⟩

/-- The part of a walk up to the first node with a property: what comes before it
does not have the property. -/
theorem upTo (p : Nat → Prop) (h : g.Walk s l v) (hp : ∃ x ∈ l, p x) :
    ∃ x m, p x ∧ g.Walk s (m ++ [x]) x ∧ (∀ y ∈ m, ¬ p y) := by
  obtain ⟨n, x, -, -, hpx, hn, hno⟩ := h.first p hp
  exact ⟨x, n, hpx, hn, hno⟩

/-- Every node of a walk is the end of a walk through nodes of the first. -/
theorem reaches_of_mem (h : g.Walk s l v) {x : Nat} (hx : x ∈ l) :
    ∃ m, g.Walk s m x ∧ m ⊆ l := by
  induction h with
  | start =>
      rw [List.mem_singleton] at hx
      subst hx
      exact ⟨[x], .start, fun _ hy => hy⟩
  | @step l u w hl hw ih =>
      rcases List.mem_append.1 hx with hx | hx
      · obtain ⟨m, hm, hsub⟩ := ih hx
        exact ⟨m, hm, fun y hy => List.mem_append_left _ (hsub hy)⟩
      · rw [List.mem_singleton] at hx
        subst hx
        exact ⟨l ++ [x], hl.step hw, fun _ hy => hy⟩

end Walk

/-! ## Reachability -/

namespace Reaches

variable {s u v : Nat}

theorem refl (g : Adjacency) (s : Nat) : g.Reaches s s := ⟨[s], .start⟩

theorem step (h : g.Reaches s u) (hv : v ∈ g.successors u) : g.Reaches s v := by
  obtain ⟨l, hl⟩ := h
  exact ⟨l ++ [v], hl.step hv⟩

theorem trans {w : Nat} (h : g.Reaches s u) (h' : g.Reaches u w) : g.Reaches s w := by
  obtain ⟨l, hl⟩ := h
  obtain ⟨k, hk⟩ := h'
  obtain ⟨m, rfl⟩ := hk.exists_cons
  exact ⟨l ++ m, hl.append hk⟩

/-- What is closed under edges and holds of the start holds wherever a walk
leads. -/
theorem induct {p : Nat → Prop} (h : g.Reaches s v) (hs : p s)
    (hstep : ∀ u w, p u → w ∈ g.successors u → p w) : p v := by
  obtain ⟨l, hl⟩ := h
  induction hl with
  | start => exact hs
  | step _ hw ih => exact hstep _ _ ih hw

end Reaches

/-! ## Dominance -/

namespace Dominates

variable {s a b c u : Nat}

theorem self (h : g.Reaches s b) : g.Dominates s b b := ⟨h, fun _ hl => hl.end_mem⟩

/-- A dominator is reachable itself. -/
theorem reaches (h : g.Dominates s a b) : g.Reaches s a := by
  obtain ⟨⟨l, hl⟩, hall⟩ := h
  obtain ⟨m, hm, -⟩ := hl.reaches_of_mem (hall l hl)
  exact ⟨m, hm⟩

theorem trans (hab : g.Dominates s a b) (hbc : g.Dominates s b c) : g.Dominates s a c := by
  refine ⟨hbc.1, fun l hl => ?_⟩
  obtain ⟨m, hm, hsub⟩ := hl.reaches_of_mem (hbc.2 l hl)
  exact hsub (hab.2 m hm)

/-- Only the start dominates the start. -/
theorem eq_entry (h : g.Dominates s a s) : a = s := List.mem_singleton.1 (h.2 [s] .start)

/-- Two nodes that dominate each other are the same: the one that a walk visits first
is reached without the other. -/
theorem antisymm (hab : g.Dominates s a b) (hba : g.Dominates s b a) : a = b := by
  obtain ⟨l, hl⟩ := hab.1
  obtain ⟨x, m, hx, hm, hno⟩ := hl.upTo (fun y => y = a ∨ y = b) ⟨b, hl.end_mem, Or.inr rfl⟩
  rcases hx with rfl | rfl
  · rcases List.mem_append.1 (hba.2 _ hm) with hb | hb
    · exact absurd (Or.inr rfl) (hno b hb)
    · exact (List.mem_singleton.1 hb).symm
  · rcases List.mem_append.1 (hab.2 _ hm) with ha | ha
    · exact absurd (Or.inl rfl) (hno a ha)
    · exact List.mem_singleton.1 ha

/-- **The dominators of a node form a chain.**  The last of two dominators on a
walk can be reached without the other one only if it is dominated by it. -/
theorem total (ha : g.Dominates s a c) (hb : g.Dominates s b c) :
    g.Dominates s a b ∨ g.Dominates s b a := by
  by_cases hab : g.Dominates s a b
  · exact Or.inl hab
  refine Or.inr ⟨ha.reaches, fun l hl => ?_⟩
  -- a walk to `b` that avoids `a`
  obtain ⟨m, hm, ham⟩ : ∃ m, g.Walk s m b ∧ a ∉ m := by
    by_cases hex : ∃ m, g.Walk s m b ∧ a ∉ m
    · exact hex
    · refine absurd ⟨hb.reaches, fun m hm => ?_⟩ hab
      by_cases ham : a ∈ m
      · exact ham
      · exact absurd ⟨m, hm, ham⟩ hex
  obtain ⟨k, hk⟩ := ha.1
  obtain ⟨x, n, hx, -, hn, hno⟩ := hk.cut (fun y => y = a ∨ y = b) ⟨a, ha.2 k hk, Or.inl rfl⟩
  rcases hx with rfl | rfl
  · -- `a` is the last of the two, so a walk to `a` that avoids `b` leads on to `c`
    have hc := hb.2 _ (hl.append hn)
    rcases List.mem_append.1 hc with hc | hc
    · exact hc
    · exact absurd (Or.inr rfl) (hno b hc)
  · have hc := ha.2 _ (hm.append hn)
    rcases List.mem_append.1 hc with hc | hc
    · exact absurd hc ham
    · exact absurd (Or.inl rfl) (hno a hc)

end Dominates

/-! ## Edges turned around -/

theorem ofEdges_cons (n : Nat) (e : Nat × Nat) (edges : List (Nat × Nat)) :
    ofEdges n (e :: edges) = ⟨(ofEdges n edges).lists.modify e.1 (e.2 :: ·)⟩ := rfl

theorem size_ofEdges (n : Nat) (edges : List (Nat × Nat)) : (ofEdges n edges).lists.size = n := by
  induction edges with
  | nil => simp [ofEdges]
  | cons e edges ih => rw [ofEdges_cons, Array.size_modify, ih]

/-- Edges of nodes outside the graph are left out. -/
theorem ofEdges_cons_of_le {n : Nat} {e : Nat × Nat} (he : n ≤ e.1) (edges : List (Nat × Nat)) :
    ofEdges n (e :: edges) = ofEdges n edges := by
  rw [ofEdges_cons]
  refine congrArg Adjacency.mk (Array.ext_getElem? fun i => ?_)
  rw [Array.getElem?_modify]
  split
  · have hnone : (ofEdges n edges).lists[i]? = none :=
      Array.getElem?_eq_none (by rw [size_ofEdges]; omega)
    show Option.map _ (ofEdges n edges).lists[i]? = (ofEdges n edges).lists[i]?
    rw [hnone, Option.map_none]
  · rfl

theorem ofEdges_filter (n : Nat) (edges : List (Nat × Nat)) :
    ofEdges n (edges.filter fun e => decide (e.1 < n)) = ofEdges n edges := by
  induction edges with
  | nil => rfl
  | cons e edges ih =>
      by_cases he : e.1 < n
      · rw [List.filter_cons_of_pos (by simpa using he), ofEdges_cons, ofEdges_cons, ih]
      · rw [List.filter_cons_of_neg (by simpa using he), ih,
          ofEdges_cons_of_le (Nat.le_of_not_lt he)]

theorem mem_successors_ofEdges {n u v : Nat} {edges : List (Nat × Nat)} :
    v ∈ (ofEdges n edges).successors u ↔ (u, v) ∈ edges ∧ u < n := by
  induction edges with
  | nil => by_cases hu : u < n <;> simp [ofEdges, successors, hu]
  | cons e edges ih =>
      rw [List.mem_cons]
      by_cases hn : e.1 < n
      · have hsize := size_ofEdges n edges
        rw [ofEdges_cons, successors, Array.getElem?_modify]
        split
        · rename_i hu
          subst hu
          rw [successors, Array.getElem?_eq_getElem (hsize.symm ▸ hn), Option.getD_some] at ih
          rw [Array.getElem?_eq_getElem (hsize.symm ▸ hn), Option.map_some, Option.getD_some,
            List.mem_cons, ih]
          simp [hn, Prod.ext_iff]
        · rename_i hu
          have hne : (u, v) ≠ e := fun h => hu (h ▸ rfl)
          rw [or_iff_right hne]
          exact ih
      · rw [ofEdges_cons_of_le (Nat.le_of_not_lt hn), ih]
        refine ⟨fun h => ⟨Or.inr h.1, h.2⟩, ?_⟩
        rintro ⟨rfl | h, hlt⟩
        · exact absurd hlt hn
        · exact ⟨h, hlt⟩

/-- Where the edges of some nodes lead when they are turned around. -/
theorem mem_reversedFrom {u v : Nat} {nodes : List Nat} :
    u ∈ (g.reversedFrom nodes).successors v ↔ u ∈ nodes ∧ v ∈ g.successors u ∧ v < g.size := by
  rw [reversedFrom, mem_successors_ofEdges]
  simp only [List.mem_flatMap, List.mem_map, Prod.mk.injEq]
  constructor
  · rintro ⟨⟨x, hx, y, hy, rfl, rfl⟩, hlt⟩
    exact ⟨hx, hy, hlt⟩
  · rintro ⟨hu, hedge, hlt⟩
    exact ⟨⟨u, hu, v, hedge, rfl, rfl⟩, hlt⟩

theorem mem_successors_restrict {p : Nat → Bool} {u v : Nat} :
    u ∈ (g.restrict p).successors v ↔ u ∈ g.successors v ∧ p u = true := by
  simp only [restrict, successors, Array.getElem?_map]
  cases g.lists[v]? with
  | none => simp
  | some l => simp

end Adjacency
end FlowVerifier
