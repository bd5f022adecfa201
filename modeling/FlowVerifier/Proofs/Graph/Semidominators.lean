import FlowVerifier.Proofs.Graph.Ancestry

/-!
# Semidominators

The theory behind the computation of immediate dominators, on a finished
depth-first tree (`DepthFirstTree`).

A node `x` *leads past* others to `w` (`LeadsPast`) if it leads to `w` over nodes
numbered after `w` only.  The semidominator of `w` is the first numbered node
that does (`IsSemi`).

* `dominates_iff`: an ancestor `d` of `w` dominates `w` exactly if no node on the
  tree path below `d` down to `w` has a semidominator numbered before `d`.
* `isImmediate_of_least` and `isImmediate_of_shared` read the immediate dominator
  of `w` off the semidominators between the semidominator of `w` and `w`.
* `exists_above` and `leadsPast_of_above` say among which nodes the semidominator of
  `w` is to be found, given those of the nodes numbered after `w`.
-/

namespace FlowVerifier
namespace Adjacency

open SpanningTree

variable {g : Adjacency}

/-! ## Finished trees -/

/-- What is known of the tree that a traversal from `start` has finished. -/
structure DepthFirstTree (g : Adjacency) (start : Nat) (t : SpanningTree) : Prop where
  /-- Preorder and numbers fit together. -/
  consistent : Consistent g start t
  /-- No node is open. -/
  closed : Open g [] t
  /-- Parents fit to edges and numbers. -/
  linked : Linked g start t
  /-- Numbers fit to ancestors. -/
  kinship : Kinship g [] t

theorem depthFirst_tree {start : Nat} (hg : g.InRange) (hs : start < g.size) :
    DepthFirstTree g start (g.depthFirst start) :=
  ⟨(depthFirst_invariant hg hs).1, (depthFirst_invariant hg hs).2,
    (depthFirst_kinship hg hs).1, (depthFirst_kinship hg hs).2⟩

/-- `x` leads to `w` over nodes numbered after `w` only. -/
def LeadsPast (g : Adjacency) (t : SpanningTree) (x w : Nat) : Prop :=
  ∃ m u, g.Walk x (x :: m) u ∧ (∀ y ∈ m, t.numberOf w < t.numberOf y) ∧ w ∈ g.successors u

/-- `s` is the first numbered node that leads past others to `w`. -/
structure IsSemi (g : Adjacency) (start : Nat) (t : SpanningTree) (s w : Nat) : Prop where
  /-- It is reachable. -/
  reaches : g.Reaches start s
  /-- It leads to `w`. -/
  leads : g.LeadsPast t s w
  /-- No node that does so has a smaller number. -/
  least : ∀ x, g.Reaches start x → g.LeadsPast t x w → t.numberOf s ≤ t.numberOf x

/-- `d` is a dominator of `b` other than `b`, and all others dominate `d`. -/
structure IsImmediate (g : Adjacency) (start d b : Nat) : Prop where
  /-- It is another node. -/
  ne : d ≠ b
  /-- It dominates `b`. -/
  dominates : g.Dominates start d b
  /-- It is the closest such node. -/
  closest : ∀ c, c ≠ b → g.Dominates start c b → g.Dominates start c d

/-- `u` lies on the tree path from `a` to `v`, but is not `a`. -/
def Below (t : SpanningTree) (a v u : Nat) : Prop :=
  Ancestor t.parent a u ∧ u ≠ a ∧ Ancestor t.parent u v

namespace DepthFirstTree

variable {start : Nat} {t : SpanningTree} {a b c d u v w x y : Nat}

/-! ## Numbers and ancestors -/

theorem numberOf_pos_iff (T : DepthFirstTree g start t) :
    0 < t.numberOf v ↔ g.Reaches start v := by
  rw [← isReached_iff_pos]
  constructor
  · intro hv
    obtain ⟨i, hi⟩ := T.consistent.isReached_iff_mem.1 hv
    obtain ⟨l, hl, -⟩ := T.consistent.exists_walk i v hi
    exact ⟨l, hl⟩
  · rintro ⟨l, hl⟩
    exact T.closed.reached_of_walk
      (T.consistent.isReached_iff_mem.2 ⟨0, T.consistent.first⟩) hl

theorem numberOf_start (T : DepthFirstTree g start t) : t.numberOf start = 1 := by
  rw [numberOf, (T.consistent.listed start 0).1 T.consistent.first, Option.getD_some]

theorem lt_size (T : DepthFirstTree g start t) (hv : 0 < t.numberOf v) : v < g.size := by
  obtain ⟨n, hn⟩ := isReached_iff.1 (isReached_iff_pos.2 hv)
  exact T.consistent.size ▸ (Array.getElem?_eq_some_iff.1 hn).1

/-- Two nodes with the same number are the same. -/
theorem eq_of_numberOf_eq (T : DepthFirstTree g start t) (hu : 0 < t.numberOf u)
    (h : t.numberOf u = t.numberOf v) : u = v := by
  obtain ⟨n, hn⟩ := isReached_iff.1 (isReached_iff_pos.2 hu)
  obtain ⟨m, hm⟩ := isReached_iff.1 (isReached_iff_pos.2 (h ▸ hu))
  have hnm : n = m := by
    rw [numberOf, hn, Option.getD_some, numberOf, hm, Option.getD_some] at h
    omega
  have hpu := (T.consistent.listed u n).2 hn
  rw [hnm, (T.consistent.listed v m).2 hm, Option.some.injEq] at hpu
  exact hpu.symm

theorem pos_of_ancestor (T : DepthFirstTree g start t) (h : Ancestor t.parent a v)
    (hv : 0 < t.numberOf v) : 0 < t.numberOf a := T.linked.numberOf_pos h hv

/-- An ancestor that is another node has a smaller number. -/
theorem lt_of_ancestor (T : DepthFirstTree g start t) (h : Ancestor t.parent a v)
    (hne : a ≠ v) (hv : 0 < t.numberOf v) : t.numberOf a < t.numberOf v :=
  Nat.lt_of_le_of_ne (T.linked.numberOf_le h) fun heq =>
    hne (T.eq_of_numberOf_eq (T.pos_of_ancestor h hv) heq)

/-- The ancestors of a node descend from each other in the order of their
numbers. -/
theorem chain (T : DepthFirstTree g start t) (hv : 0 < t.numberOf v)
    (ha : Ancestor t.parent a v) (hb : Ancestor t.parent b v)
    (hle : t.numberOf a ≤ t.numberOf b) : Ancestor t.parent a b :=
  T.kinship.between a b v (T.pos_of_ancestor ha hv) ha hle (T.linked.numberOf_le hb)

/-- Every reachable node but the start has a parent. -/
theorem exists_parent (T : DepthFirstTree g start t) (hv : 0 < t.numberOf v)
    (hne : v ≠ start) : ∃ p, t.parent[v]? = some (some p) := by
  have hlt : v < t.parent.size := T.linked.size ▸ T.lt_size hv
  cases hp : t.parent[v] with
  | none =>
      exact absurd (T.linked.orphan v hv
        ((Array.getElem?_eq_getElem hlt).trans (congrArg some hp))) hne
  | some p => exact ⟨p, (Array.getElem?_eq_getElem hlt).trans (congrArg some hp)⟩

/-- An ancestor that is another node is one of the parent. -/
theorem ancestor_parent {p : Nat} (h : Ancestor t.parent a v) (hne : a ≠ v)
    (hp : t.parent[v]? = some (some p)) : Ancestor t.parent a p := by
  cases h with
  | self => exact absurd rfl hne
  | @child u _ hu hlink =>
      obtain rfl : u = p := by simpa using hlink.symm.trans hp
      exact hu

/-- The tree path to a node is a walk. -/
theorem exists_walk (T : DepthFirstTree g start t) (h : Ancestor t.parent a v) :
    ∃ m, g.Walk a (a :: m) v ∧ ∀ x ∈ a :: m, Ancestor t.parent a x ∧ Ancestor t.parent x v := by
  induction h with
  | self => exact ⟨[], .start, fun x hx => by rw [List.mem_singleton.1 hx]; exact ⟨.self, .self⟩⟩
  | @child u v hu hlink ih =>
      obtain ⟨m, hm, hall⟩ := ih
      refine ⟨m ++ [v], hm.step (T.linked.edge u v hlink).1, fun x hx => ?_⟩
      rcases List.mem_append.1 (List.cons_append ▸ hx : x ∈ (a :: m) ++ [v]) with hx | hx
      · exact ⟨(hall x hx).1, (hall x hx).2.child hlink⟩
      · rw [List.mem_singleton.1 hx]
        exact ⟨hu.child hlink, .self⟩

/-- Every reachable node descends from the start. -/
theorem ancestor_start (T : DepthFirstTree g start t) (hv : 0 < t.numberOf v) :
    Ancestor t.parent start v := by
  obtain ⟨l, hl⟩ := T.numberOf_pos_iff.1 hv
  have hone := T.numberOf_start
  obtain ⟨c, -, hcs, hcv⟩ := T.kinship.exists_common T.linked T.closed
    (isReached_iff_pos.2 (by omega)) hl (by omega)
  have hpos := T.pos_of_ancestor hcv hv
  have hle := T.linked.numberOf_le hcs
  rwa [T.eq_of_numberOf_eq hpos (show t.numberOf c = t.numberOf start by omega)] at hcv

/-- A dominator is an ancestor: the tree path to the node is a walk. -/
theorem ancestor_of_dominates (T : DepthFirstTree g start t) (h : g.Dominates start a b) :
    Ancestor t.parent a b := by
  obtain ⟨m, hm, hall⟩ := T.exists_walk (T.ancestor_start (T.numberOf_pos_iff.2 h.1))
  exact (hall a (h.2 _ hm)).2

/-! ## Nodes below others -/

theorem below_iff (T : DepthFirstTree g start t) (hv : 0 < t.numberOf v)
    (ha : Ancestor t.parent a v) :
    Below t a v u ↔ Ancestor t.parent u v ∧ t.numberOf a < t.numberOf u := by
  constructor
  · rintro ⟨hau, hne, huv⟩
    exact ⟨huv, T.lt_of_ancestor hau (Ne.symm hne) (T.pos_of_ancestor huv hv)⟩
  · rintro ⟨huv, hlt⟩
    exact ⟨T.chain hv ha huv (Nat.le_of_lt hlt), fun h => absurd (h ▸ hlt) (Nat.lt_irrefl _), huv⟩

/-- What leads past others to `w` has a smaller number only if it is an ancestor. -/
theorem ancestor_of_leadsPast (T : DepthFirstTree g start t) (hx : g.Reaches start x)
    (h : g.LeadsPast t x w) (hlt : t.numberOf x < t.numberOf w) : Ancestor t.parent x w := by
  obtain ⟨m, u, hm, hpast, hw⟩ := h
  have hxpos := T.numberOf_pos_iff.2 hx
  obtain ⟨c, hc, hcx, hcw⟩ := T.kinship.exists_common T.linked T.closed
    (isReached_iff_pos.2 hxpos) (hm.step hw) (Nat.le_of_lt hlt)
  have hcle := T.linked.numberOf_le hcx
  have hcwle := T.linked.numberOf_le hcw
  rcases List.mem_append.1 hc with hc | hc
  · rcases List.mem_cons.1 hc with rfl | hc
    · exact hcw
    · exact absurd (hpast c hc) (by omega)
  · rw [List.mem_singleton.1 hc] at hcle
    omega

/-- A walk that visits no ancestor of its last node on the way stays at larger
numbers. -/
theorem lt_of_no_ancestor (T : DepthFirstTree g start t) (hx : g.Reaches start x) {n : List Nat}
    (hwalk : g.Walk x (x :: n ++ [y]) y) (hno : ∀ c ∈ n, ¬ Ancestor t.parent c y) {z : Nat}
    (hz : z ∈ n) : t.numberOf y < t.numberOf z := by
  by_contra hlt
  have hzreach : g.Reaches start z := by
    obtain ⟨m, hm, -⟩ := hwalk.reaches_of_mem
      (List.mem_append_left _ (List.mem_cons_of_mem x hz))
    exact hx.trans ⟨m, hm⟩
  have hzpos := T.numberOf_pos_iff.2 hzreach
  obtain ⟨n₁, n₂, rfl⟩ := List.append_of_mem hz
  have hzy : g.Walk z (z :: (n₂ ++ [y])) y := hwalk.drop (a := x :: n₁) (by simp)
  -- the path lemma gives an ancestor, which is none of the nodes before the last
  obtain ⟨c, hc, hcz, hcy⟩ := T.kinship.exists_common T.linked T.closed
    (isReached_iff_pos.2 hzpos) hzy (Nat.le_of_not_lt hlt)
  rw [← List.cons_append] at hc
  rcases List.mem_append.1 hc with hc | hc
  · exact hno c (List.mem_append_right _ hc) hcy
  · rw [List.mem_singleton] at hc
    subst hc
    have hle := T.linked.numberOf_le hcz
    have heq := T.eq_of_numberOf_eq hzpos (show t.numberOf z = t.numberOf c by omega)
    exact hno c (heq ▸ hz) .self

/-- **Ways around an ancestor.**  A walk to `w` that avoids an ancestor `d` of `w`
enters the tree path below `d` from a node numbered before `d`. -/
theorem exists_leadsPast (T : DepthFirstTree g start t) (hd : Ancestor t.parent d w) {l : List Nat}
    (hl : g.Walk start l w) (havoid : d ∉ l) :
    ∃ x y, g.Reaches start x ∧ t.numberOf x < t.numberOf d ∧ Below t d w y ∧
      g.LeadsPast t x y := by
  have hw : 0 < t.numberOf w := T.numberOf_pos_iff.2 ⟨l, hl⟩
  have hdw := T.linked.numberOf_le hd
  have hstart : t.numberOf start < t.numberOf d := by
    refine T.lt_of_ancestor (T.ancestor_start (T.pos_of_ancestor hd hw)) ?_
      (T.pos_of_ancestor hd hw)
    rintro rfl
    exact havoid hl.start_mem
  -- the last node `x` numbered before `d`, and the first node `y` of the tree path after it
  obtain ⟨l₀, x, m, rfl, hx, hm, hge⟩ :=
    hl.last (fun z => t.numberOf z < t.numberOf d) ⟨start, hl.start_mem, hstart⟩
  obtain ⟨n, y, k, hsplit, ⟨hdy, hyw⟩, hwalk, hno⟩ := hm.first
    (fun z => Ancestor t.parent d z ∧ Ancestor t.parent z w) ⟨w, hm.end_mem, hd, .self⟩
  have hreach : g.Reaches start x := by
    obtain ⟨m', hm', -⟩ := hl.reaches_of_mem (x := x) (by simp)
    exact ⟨m', hm'⟩
  cases n with
  | nil =>
      obtain ⟨rfl, -⟩ := List.cons.inj hsplit
      exact absurd (T.linked.numberOf_le hdy) (by omega)
  | cons x' n =>
      rw [List.cons_append, List.cons.injEq] at hsplit
      obtain ⟨rfl, rfl⟩ := hsplit
      obtain ⟨u, hu, hedge⟩ := hwalk.exists_edge (by simp)
      refine ⟨x, y, hreach, hx, ⟨hdy, fun h => havoid (h ▸ by simp), hyw⟩, n, u, hu, ?_, hedge⟩
      -- an ancestor of `y` on the way would be on the tree path before it
      refine fun z hz => T.lt_of_no_ancestor hreach hwalk (fun c hc hcy => ?_) hz
      have hcge := hge c (List.mem_append_left _ hc)
      have hcw := hcy.trans hyw
      exact hno c (List.mem_cons_of_mem _ hc)
        ⟨T.chain hw hd hcw (Nat.le_of_not_lt hcge), hcw⟩

/-- A dominator of `w` dominates the nodes on the tree path to `w` below it: who
enters that path from a node numbered before it avoids it. -/
theorem le_of_leadsPast (T : DepthFirstTree g start t) (hdom : g.Dominates start d w)
    (hy : Below t d w y) (hx : g.Reaches start x) (hxy : g.LeadsPast t x y) :
    t.numberOf d ≤ t.numberOf x := by
  have hw : 0 < t.numberOf w := T.numberOf_pos_iff.2 hdom.1
  obtain ⟨hdy, hne, hyw⟩ := hy
  have hlt := T.lt_of_ancestor hdy (Ne.symm hne) (T.pos_of_ancestor hyw hw)
  by_contra hxd
  -- down the tree to `x`, past the others to `y`, and down the tree to `w`
  obtain ⟨l, hl, hlx⟩ := T.exists_walk (T.ancestor_start (T.numberOf_pos_iff.2 hx))
  obtain ⟨m, u, hm, hpast, hedge⟩ := hxy
  obtain ⟨k, hk, hky⟩ := T.exists_walk hyw
  rcases List.mem_append.1 (hdom.2 _ (((hl.append hm).step hedge).append hk)) with hd | hd
  · rcases List.mem_append.1 hd with hd | hd
    · rcases List.mem_append.1 hd with hd | hd
      · exact hxd (T.linked.numberOf_le (hlx d hd).2)
      · exact absurd (hpast d hd) (by omega)
    · exact hne (List.mem_singleton.1 hd).symm
  · have := T.linked.numberOf_le (hky d (List.mem_cons_of_mem _ hd)).1
    omega

/-! ## Dominance by semidominators -/

section Semidominators

variable {semi : Nat → Nat}

/-- The semidominator of a node is an ancestor of it. -/
theorem ancestor_of_isSemi (T : DepthFirstTree g start t) (hw : 0 < t.numberOf w)
    (hne : w ≠ start) (h : IsSemi g start t v w) :
    Ancestor t.parent v w ∧ t.numberOf v < t.numberOf w := by
  obtain ⟨p, hp⟩ := T.exists_parent hw hne
  obtain ⟨hedge, hppos, hlt⟩ := T.linked.edge p w hp
  -- the parent is a candidate
  have hle := h.least p (T.numberOf_pos_iff.1 hppos) ⟨[], p, .start, by simp, hedge⟩
  exact ⟨T.ancestor_of_leadsPast h.reaches h.leads (by omega), by omega⟩

/-- **Dominance by semidominators.**  An ancestor of a node dominates it exactly if
no node between them has a semidominator numbered before it. -/
theorem dominates_iff (T : DepthFirstTree g start t)
    (hsemi : ∀ y, 0 < t.numberOf y → y ≠ start → IsSemi g start t (semi y) y)
    (hw : 0 < t.numberOf w) (hd : Ancestor t.parent d w) :
    g.Dominates start d w ↔ ∀ y, Below t d w y → t.numberOf d ≤ t.numberOf (semi y) := by
  have hbelow : ∀ y, Below t d w y → IsSemi g start t (semi y) y := by
    rintro y ⟨hdy, hne, hyw⟩
    have hy := T.pos_of_ancestor hyw hw
    refine hsemi y hy ?_
    rintro rfl
    have hlt := T.lt_of_ancestor hdy (Ne.symm hne) hy
    have hle := T.linked.numberOf_le (T.ancestor_start (T.pos_of_ancestor hd hw))
    omega
  constructor
  · intro hdom y hy
    exact T.le_of_leadsPast hdom hy (hbelow y hy).reaches (hbelow y hy).leads
  · intro hall
    refine ⟨T.numberOf_pos_iff.1 hw, fun l hl => ?_⟩
    by_contra havoid
    obtain ⟨x, y, hx, hlt, hy, hxy⟩ := T.exists_leadsPast hd hl havoid
    have hleast := (hbelow y hy).least x hx hxy
    have hd := hall y hy
    omega

/-- What strictly dominates a node is no lower than its semidominator, and
dominates all nodes on the tree path from there. -/
theorem dominates_of_below (T : DepthFirstTree g start t)
    (hsemi : ∀ y, 0 < t.numberOf y → y ≠ start → IsSemi g start t (semi y) y)
    (hc : g.Dominates start c w) (hne : c ≠ w) (huw : Ancestor t.parent u w)
    (hle : t.numberOf (semi w) ≤ t.numberOf u) : g.Dominates start c u := by
  have hw : 0 < t.numberOf w := T.numberOf_pos_iff.2 hc.1
  have hcw := T.ancestor_of_dominates hc
  have hu := T.pos_of_ancestor huw hw
  have hcsemi := (T.dominates_iff hsemi hw hcw).1 hc w ⟨hcw, Ne.symm hne, .self⟩
  have hcu := T.chain hw hcw huw (by omega)
  rw [T.dominates_iff hsemi hu hcu]
  rintro y ⟨hcy, hyne, hyu⟩
  exact (T.dominates_iff hsemi hw hcw).1 hc y ⟨hcy, hyne, hyu.trans huw⟩

/-- If no node below the semidominator of `w` down to `w` has an earlier one, it
is the immediate dominator. -/
theorem isImmediate_of_least (T : DepthFirstTree g start t)
    (hsemi : ∀ y, 0 < t.numberOf y → y ≠ start → IsSemi g start t (semi y) y)
    (hw : 0 < t.numberOf w) (hne : w ≠ start)
    (hleast : ∀ u, Below t (semi w) w u → t.numberOf (semi w) ≤ t.numberOf (semi u)) :
    IsImmediate g start (semi w) w := by
  obtain ⟨hanc, hlt⟩ := T.ancestor_of_isSemi hw hne (hsemi w hw hne)
  refine ⟨fun h => absurd (h ▸ hlt) (Nat.lt_irrefl _), (T.dominates_iff hsemi hw hanc).2 hleast,
    fun c hcw hc => T.dominates_of_below hsemi hc hcw hanc (Nat.le_refl _)⟩

/-- **A shared immediate dominator.**  Of the nodes below the semidominator of `w`
down to `w`, the one with the earliest semidominator has the immediate dominator
of `w`. -/
theorem isImmediate_of_shared (T : DepthFirstTree g start t)
    (hsemi : ∀ y, 0 < t.numberOf y → y ≠ start → IsSemi g start t (semi y) y)
    (hw : 0 < t.numberOf w) (hne : w ≠ start) (hu : Below t (semi w) w u)
    (hleast : ∀ y, Below t (semi w) w y → t.numberOf (semi u) ≤ t.numberOf (semi y))
    (hd : IsImmediate g start d u) : IsImmediate g start d w := by
  obtain ⟨hanc, -⟩ := T.ancestor_of_isSemi hw hne (hsemi w hw hne)
  obtain ⟨hsu, hune, huw⟩ := hu
  have hupos := T.pos_of_ancestor huw hw
  have hdu := T.ancestor_of_dominates hd.dominates
  have hdw := hdu.trans huw
  have hdsemi := (T.dominates_iff hsemi hupos hdu).1 hd.dominates u ⟨hdu, Ne.symm hd.ne, .self⟩
  have hlow := T.lt_of_ancestor hsu (Ne.symm hune) hupos
  refine ⟨?_, (T.dominates_iff hsemi hw hdw).2 ?_, ?_⟩
  · rintro rfl
    have := T.lt_of_ancestor hdu hd.ne hupos
    have := T.linked.numberOf_le huw
    omega
  · rintro y ⟨hdy, hyne, hyw⟩
    by_cases hyu : t.numberOf y ≤ t.numberOf u
    · exact (T.dominates_iff hsemi hupos hdu).1 hd.dominates y
        ⟨hdy, hyne, T.chain hw hyw huw hyu⟩
    · have := hleast y ((T.below_iff hw hanc).2 ⟨hyw, by omega⟩)
      omega
  · intro c hcw hc
    have hcs := (T.dominates_iff hsemi hw (T.ancestor_of_dominates hc)).1 hc w
      ⟨T.ancestor_of_dominates hc, Ne.symm hcw, .self⟩
    refine hd.closest c ?_ (T.dominates_of_below hsemi hc hcw huw (Nat.le_of_lt hlow))
    rintro rfl
    omega

end Semidominators

/-! ## Finding semidominators -/

/-- What leads past others to a node above a predecessor of `w` leads past others
to `w`, if that node is numbered after `w`. -/
theorem leadsPast_of_above (T : DepthFirstTree g start t) (hedge : w ∈ g.successors v)
    (huv : Ancestor t.parent u v) (hwu : t.numberOf w < t.numberOf u) (hx : g.LeadsPast t x u) :
    g.LeadsPast t x w := by
  obtain ⟨m, z, hm, hpast, hzu⟩ := hx
  obtain ⟨k, hk, hall⟩ := T.exists_walk huv
  refine ⟨m ++ [u] ++ k, v, ?_, ?_, hedge⟩
  · rw [← List.cons_append, ← List.cons_append]
    exact (hm.step hzu).append hk
  · intro y hy
    rcases List.mem_append.1 hy with hy | hy
    · rcases List.mem_append.1 hy with hy | hy
      · have := hpast y hy
        omega
      · rw [List.mem_singleton.1 hy]
        exact hwu
    · have := T.linked.numberOf_le (hall y (List.mem_cons_of_mem _ hy)).1
      omega

/-- What leads past others to `w` from before `w` is a predecessor of `w`, or it
leads past others to a node above a predecessor that is numbered after `w`. -/
theorem exists_above (T : DepthFirstTree g start t) (hx : g.Reaches start x)
    (h : g.LeadsPast t x w) (hlt : t.numberOf x < t.numberOf w) :
    ∃ v, g.Reaches start v ∧ w ∈ g.successors v ∧
      (x = v ∨ ∃ u, Ancestor t.parent u v ∧ t.numberOf w < t.numberOf u ∧ g.LeadsPast t x u) := by
  obtain ⟨m, v, hm, hpast, hedge⟩ := h
  refine ⟨v, hx.trans ⟨_, hm⟩, hedge, ?_⟩
  rcases List.mem_cons.1 hm.end_mem with hv | hv
  · exact Or.inl hv.symm
  -- the first node of the walk that is above `v` and numbered after `w`
  obtain ⟨n, u, k, hsplit, ⟨huv, hwu⟩, hwalk, hno⟩ := hm.first
    (fun z => Ancestor t.parent z v ∧ t.numberOf w < t.numberOf z)
    ⟨v, hm.end_mem, .self, hpast v hv⟩
  cases n with
  | nil =>
      obtain ⟨rfl, -⟩ := List.cons.inj hsplit
      exact absurd hwu (by omega)
  | cons x' n =>
      rw [List.cons_append, List.cons.injEq] at hsplit
      obtain ⟨rfl, rfl⟩ := hsplit
      obtain ⟨z, hz, hzu⟩ := hwalk.exists_edge (by simp)
      refine Or.inr ⟨u, huv, hwu, n, z, hz, fun y hy => ?_, hzu⟩
      refine T.lt_of_no_ancestor hx hwalk (fun c hc hcu => ?_) hy
      exact hno c (List.mem_cons_of_mem _ hc)
        ⟨hcu.trans huv, hpast c (List.mem_append_left _ hc)⟩

end DepthFirstTree

end Adjacency
end FlowVerifier
