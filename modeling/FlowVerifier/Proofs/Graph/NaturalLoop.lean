import FlowVerifier.Graph.NaturalLoop
import FlowVerifier.Proofs.BitSets
import FlowVerifier.Proofs.Graph.Dominators
import Mathlib

/-!
# Correctness of the natural loops

The loops that `NaturalLoop.find` lists are compared with walks.  An edge is a
*back edge* if its target dominates its source (`Adjacency.BackEdge`).

* `Filling.complete_spec` says what filling a body yields: everything on the way
  belongs to the loop, and in the end nothing that leads to the body is missing,
  except for what leads to the header.
* `Natural` is what holds of each loop whenever the edges of one more header and
  tail were added (`Natural.addTail`), and `Found` what holds of all loops
  (`Found.addEdge`).  A walk that avoids the header leads backward from a tail
  through the body.
* `mem_find` says which loops there are in the end, and `find_exact` says it in
  terms of walks.

Edges that lead out of the graph play no part in this: `Adjacency.inner` is the
graph without them, and traversals and dominators are the same there.
-/

namespace FlowVerifier
namespace Adjacency

variable {g : Adjacency} {s u v a b : Nat} {l : List Nat}

/-! ## Edges that lead out of the graph -/

/-- The graph without the edges that lead out of it. -/
def inner (g : Adjacency) : Adjacency := g.restrict fun v => decide (v < g.size)

theorem size_restrict (g : Adjacency) (p : Nat → Bool) : (g.restrict p).size = g.size :=
  Array.size_map

theorem size_inner (g : Adjacency) : g.inner.size = g.size := size_restrict g _

theorem mem_successors_inner : v ∈ g.inner.successors u ↔ v ∈ g.successors u ∧ v < g.size := by
  rw [inner, mem_successors_restrict, decide_eq_true_eq]

theorem inRange_of_successors (h : ∀ u v, v ∈ g.successors u → v < g.size) : g.InRange := by
  intro l hl w hw
  obtain ⟨u, hu⟩ := Array.getElem?_of_mem hl
  refine h u w ?_
  rw [successors, hu]
  exact hw

theorem inRange_inner (g : Adjacency) : g.inner.InRange :=
  inRange_of_successors fun _ _ hv => g.size_inner.symm ▸ (mem_successors_inner.1 hv).2

theorem Walk.of_inner (h : g.inner.Walk s l v) : g.Walk s l v := by
  induction h with
  | start => exact .start
  | step _ hw ih => exact ih.step (mem_successors_inner.1 hw).1

theorem Walk.inner (h : g.Walk s l v) (hv : v < g.size) : g.inner.Walk s l v := by
  induction h with
  | start => exact .start
  | step _ hw ih =>
      exact (ih (lt_size_of_mem_successors hw)).step (mem_successors_inner.2 ⟨hw, hv⟩)

theorem reaches_inner (hv : v < g.size) : g.inner.Reaches s v ↔ g.Reaches s v :=
  ⟨fun ⟨l, hl⟩ => ⟨l, hl.of_inner⟩, fun ⟨l, hl⟩ => ⟨l, hl.inner hv⟩⟩

theorem dominates_inner (hb : b < g.size) : g.inner.Dominates s a b ↔ g.Dominates s a b := by
  unfold Dominates
  rw [reaches_inner hb]
  exact and_congr_right fun _ => forall_congr' fun l =>
    ⟨fun h hl => h (hl.inner hb), fun h hl => h hl.of_inner⟩

theorem successors_inner (g : Adjacency) (v : Nat) :
    g.inner.successors v = (g.successors v).filter fun w => decide (w < g.size) := by
  unfold inner restrict successors
  rw [Array.getElem?_map]
  cases g.lists[v]? <;> rfl

/-- A traversal passes over edges that lead out of the graph. -/
theorem traverse_inner (stack : List (Nat × List Nat)) (t : SpanningTree)
    (ht : t.number.size = g.size) :
    g.inner.traverse (stack.map fun e => (e.1, e.2.filter fun w => decide (w < g.size))) t =
      g.traverse stack t := by
  fun_induction traverse g stack t with
  | case1 t => rw [List.map_nil, traverse]
  | case2 t v rest ih =>
      rw [List.map_cons, List.filter_nil, traverse]
      exact ih ht
  | case3 t v w ws rest hnew ih =>
      have hlt : w < g.size := by
        rw [← ht]
        exact (Array.getElem?_eq_some_iff.1 (SpanningTree.isUnseen_iff.1 hnew)).1
      rw [List.map_cons, List.filter_cons_of_pos (by simpa using hlt), traverse, dif_pos hnew,
        successors_inner]
      exact ih (by simpa [SpanningTree.discover] using ht)
  | case4 t v w ws rest hold ih =>
      by_cases hlt : w < g.size
      · rw [List.map_cons, List.filter_cons_of_pos (by simpa using hlt), traverse, dif_neg hold]
        exact ih ht
      · rw [List.map_cons, List.filter_cons_of_neg (by simpa using hlt)]
        exact ih ht

theorem depthFirst_inner (g : Adjacency) (start : Nat) :
    g.inner.depthFirst start = g.depthFirst start := by
  unfold depthFirst
  rw [size_inner, successors_inner]
  dsimp only
  split
  · exact traverse_inner [(start, g.successors start)] _ (by simp [SpanningTree.discover,
      SpanningTree.empty])
  · rfl

/-- Edges that lead out of the graph cannot be turned around. -/
theorem reversedFrom_inner (g : Adjacency) (nodes : List Nat) :
    g.inner.reversedFrom nodes = g.reversedFrom nodes := by
  unfold reversedFrom
  rw [size_inner]
  refine Eq.trans (congrArg _ ?_) (ofEdges_filter _ _)
  rw [List.filter_flatMap]
  simp only [successors_inner, List.filter_map, Function.comp_def]

/-- The lists of `sources` give the predecessors of the nodes of the graph. -/
def Agree (g sources : Adjacency) : Prop :=
  ∀ u v, u < g.size → v < g.size → (u ∈ sources.successors v ↔ v ∈ g.successors u)

/-- A start outside the graph leads nowhere. -/
theorem Reaches.eq_of_size_le (h : g.Reaches s v) (hs : g.size ≤ s) : v = s :=
  h.induct (p := fun v => v = s) rfl fun _ _ hu hw =>
    absurd (lt_size_of_mem_successors hw) (Nat.not_lt.2 (hu ▸ hs))

end Adjacency

/-! ## Dominators on any graph -/

namespace Dominators

variable {g : Adjacency} {entry a b : Nat}

theorem compute_inner (g : Adjacency) (entry : Nat) : compute g.inner entry = compute g entry := by
  unfold compute DominatorTables.finished DominatorTables.processed
  dsimp only
  rw [Adjacency.depthFirst_inner, Adjacency.reversedFrom_inner, Adjacency.size_inner]

theorem depthFirst_of_size_le (he : g.size ≤ entry) :
    g.depthFirst entry = SpanningTree.empty g.size := by
  have hstart : (SpanningTree.empty g.size).isUnseen entry = false := by
    simp [SpanningTree.isUnseen, SpanningTree.empty, he]
  rw [Adjacency.depthFirst, hstart, if_neg Bool.false_ne_true]

theorem isReachable_of_size_le (he : g.size ≤ entry) (v : Nat) :
    (compute g entry).isReachable v = false := by
  show (g.depthFirst entry).isReached v = false
  rw [depthFirst_of_size_le he]
  by_cases hv : v < g.size <;> simp [SpanningTree.isReached, SpanningTree.empty, hv]

/-- A node that counts as reachable is a node of the graph. -/
theorem lt_size_of_isReachable (hb : (compute g entry).isReachable b = true) : b < g.size := by
  by_cases he : entry < g.size
  · have hc := (Adjacency.depthFirst_invariant g.inRange_inner (g.size_inner.symm ▸ he)).1
    rw [← compute_inner] at hb
    obtain ⟨n, hn⟩ := SpanningTree.isReached_iff.1 hb
    exact g.size_inner ▸ hc.size ▸ (Array.getElem?_eq_some_iff.1 hn).1
  · rw [isReachable_of_size_le (Nat.le_of_not_lt he)] at hb
    cases hb

/-- The reachable nodes are listed. -/
theorem mem_reachable : b ∈ (compute g entry).reachable ↔
    (compute g entry).isReachable b = true := by
  by_cases he : entry < g.size
  · have hc := (Adjacency.depthFirst_invariant g.inRange_inner (g.size_inner.symm ▸ he)).1
    rw [← compute_inner]
    show b ∈ (g.inner.depthFirst entry).preorder.toList ↔
      (g.inner.depthFirst entry).isReached b = true
    rw [hc.isReached_iff_mem, Array.mem_toList_iff, Array.mem_iff_getElem?]
  · have hle := Nat.le_of_not_lt he
    rw [isReachable_of_size_le hle]
    show b ∈ (g.depthFirst entry).preorder.toList ↔ false = true
    rw [depthFirst_of_size_le hle]
    simp [SpanningTree.empty]

/-- The nodes of the graph that count as reachable are the ones that walks lead
to. -/
theorem isReachable_compute (hb : b < g.size) :
    (compute g entry).isReachable b = true ↔ g.Reaches entry b := by
  by_cases he : entry < g.size
  · rw [← Adjacency.reaches_inner hb, ← compute_inner]
    exact Adjacency.isReached_depthFirst g.inRange_inner (g.size_inner.symm ▸ he) b
  · have hle := Nat.le_of_not_lt he
    rw [isReachable_of_size_le hle]
    refine ⟨fun h => absurd h Bool.false_ne_true, fun h => ?_⟩
    exact absurd hb (h.eq_of_size_le hle ▸ he)

/-- The computed relation is dominance by walks, also on graphs with edges that
lead out of them. -/
theorem dominates_compute (hb : b < g.size) :
    (compute g entry).dominates a b = true ↔ g.Dominates entry a b := by
  by_cases he : entry < g.size
  · rw [← Adjacency.dominates_inner hb, ← compute_inner]
    exact dominates_iff g.inRange_inner (g.size_inner.symm ▸ he) a b
  · have hle := Nat.le_of_not_lt he
    rw [dominates, isReachable_of_size_le hle, Bool.false_and]
    refine ⟨fun h => absurd h Bool.false_ne_true, fun h => ?_⟩
    exact absurd hb (h.1.eq_of_size_le hle ▸ he)

end Dominators

/-! ## Back edges and loops -/

namespace Adjacency

variable {g : Adjacency} {entry h u v : Nat}

/-- The edge from `u` to `h` closes a loop: `u` is reachable, and `h` dominates
it. -/
def BackEdge (g : Adjacency) (entry u h : Nat) : Prop :=
  h ∈ g.successors u ∧ g.Reaches entry u ∧ g.Dominates entry h u

/-- The nodes from which a walk leads to a tail without visiting the header, and the
header itself. -/
def BodyOf (g : Adjacency) (entry h : Nat) (tail : Nat → Prop) (v : Nat) : Prop :=
  v = h ∨ g.Reaches entry v ∧ ∃ u l, tail u ∧ g.Walk v l u ∧ h ∉ l

/-- The nodes of the loop of `h`: the header itself, and every reachable node from
which a walk leads to a tail without visiting the header. -/
def InLoop (g : Adjacency) (entry h v : Nat) : Prop :=
  v = h ∨ g.Reaches entry v ∧ ∃ u l, g.BackEdge entry u h ∧ g.Walk v l u ∧ h ∉ l

theorem BackEdge.tail_lt (hb : g.BackEdge entry u h) : u < g.size :=
  lt_size_of_mem_successors hb.1

theorem BackEdge.header_reaches (hb : g.BackEdge entry u h) : g.Reaches entry h := hb.2.2.reaches

/-- A header is a node of the graph: walks to a tail visit it. -/
theorem BackEdge.header_lt (hb : g.BackEdge entry u h) : h < g.size := by
  obtain ⟨l, hl⟩ := hb.2.1
  exact hl.lt_size hb.tail_lt (hb.2.2.2 l hl)

/-- **A header dominates its loop.**  A way around the header would lead on to a
tail. -/
theorem InLoop.dominates (hheader : g.Reaches entry h) (hv : g.InLoop entry h v) :
    g.Dominates entry h v := by
  rcases hv with rfl | ⟨hreach, u, l, hback, hl, hno⟩
  · exact .self hheader
  refine ⟨hreach, fun k hk => ?_⟩
  obtain ⟨m, rfl⟩ := hl.exists_cons
  rcases List.mem_append.1 (hback.2.2.2 _ (hk.append hl)) with hmem | hmem
  · exact hmem
  · exact absurd (List.mem_cons_of_mem _ hmem) hno

theorem BodyOf.mono {tail tail' : Nat → Prop} (hsub : ∀ u, tail u → tail' u)
    (hv : g.BodyOf entry h tail v) : g.BodyOf entry h tail' v := by
  rcases hv with rfl | ⟨hreach, u, l, hu, hl⟩
  · exact Or.inl rfl
  · exact Or.inr ⟨hreach, u, l, hsub u hu, hl⟩

theorem BodyOf.tail {tail : Nat → Prop} (hu : tail u) (hreach : g.Reaches entry u) :
    g.BodyOf entry h tail u := by
  by_cases huh : u = h
  · exact Or.inl huh
  · exact Or.inr ⟨hreach, u, [u], hu, .start, fun hmem => huh (List.mem_singleton.1 hmem).symm⟩

/-- A reachable predecessor of a node of the body other than the header belongs to the
body. -/
theorem BodyOf.predecessor {tail : Nat → Prop} (hv : g.BodyOf entry h tail v) (hvh : v ≠ h)
    (hu : g.Reaches entry u) (hedge : v ∈ g.successors u) : g.BodyOf entry h tail u := by
  by_cases huh : u = h
  · exact Or.inl huh
  rcases hv with rfl | ⟨-, t, l, ht, hl, hno⟩
  · exact absurd rfl hvh
  obtain ⟨m, rfl⟩ := hl.exists_cons
  refine Or.inr ⟨hu, t, [u] ++ [v] ++ m, ht, ?_, ?_⟩
  · exact ((Walk.start (s := u)).step hedge).append hl
  · intro hmem
    rw [List.append_assoc] at hmem
    rcases List.mem_append.1 hmem with hmem | hmem
    · exact huh (List.mem_singleton.1 hmem).symm
    · exact hno hmem

theorem InLoop.tail (hb : g.BackEdge entry u h) : g.InLoop entry h u :=
  (BodyOf.tail hb hb.2.1 : g.BodyOf entry h (fun u => g.BackEdge entry u h) u)

theorem InLoop.predecessor (hv : g.InLoop entry h v) (hvh : v ≠ h) (hu : g.Reaches entry u)
    (hedge : v ∈ g.successors u) : g.InLoop entry h u :=
  BodyOf.predecessor hv hvh hu hedge

end Adjacency

/-! ## Filling a body -/

namespace NaturalLoop

open Adjacency Dominators

variable {g sources : Adjacency} {entry h u v w : Nat}

namespace Filling

variable {s : Filling} {d : Dominators}

/-- **Entering a node.** -/
theorem enter_spec (hv : v < s.body.capacity) :
    (s.enter v).body.capacity = s.body.capacity ∧
    (∀ w, (s.enter v).body.contains w = true ↔ s.body.contains w = true ∨ w = v) ∧
    ∀ w, w ∈ (s.enter v).stack ↔ w ∈ s.stack ∨ s.body.contains w = false ∧ w = v := by
  unfold enter
  by_cases hold : s.body.contains v = true
  · rw [if_pos hold]
    refine ⟨rfl, fun w => ⟨Or.inl, ?_⟩, fun w => ⟨Or.inl, ?_⟩⟩
    · rintro (hw | rfl)
      · exact hw
      · exact hold
    · rintro (hw | ⟨hnew, rfl⟩)
      · exact hw
      · exact absurd hold (Bool.eq_false_iff.1 hnew)
  · obtain ⟨body, hbody⟩ : ∃ body, s.body.insert? v = some body := by
      simp [BitSet.insert?, hv]
    obtain rfl : s.body.insert v = body := by rw [BitSet.insert, hbody, Option.getD_some]
    rw [if_neg hold, hbody]
    refine ⟨BitSet.capacity_insert _ _, fun w => ?_, fun w => ?_⟩
    · rw [BitSet.contains_insert]
      simp [hv]
    · rw [List.mem_cons]
      constructor
      · rintro (rfl | hw)
        · exact Or.inr ⟨Bool.eq_false_iff.2 hold, rfl⟩
        · exact Or.inl hw
      · rintro (hw | ⟨-, rfl⟩)
        · exact Or.inr hw
        · exact Or.inl rfl

/-- **Entering the reachable nodes of a list.**  What is new is put on the stack. -/
theorem foldl_enterReachable (hd : ∀ w, d.isReachable w = true → w < s.body.capacity)
    (l : List Nat) :
    (l.foldl (enterReachable d) s).body.capacity = s.body.capacity ∧
    (∀ w, (l.foldl (enterReachable d) s).body.contains w = true ↔
      s.body.contains w = true ∨ w ∈ l ∧ d.isReachable w = true) ∧
    ∀ w, w ∈ (l.foldl (enterReachable d) s).stack ↔
      w ∈ s.stack ∨ s.body.contains w = false ∧ w ∈ l ∧ d.isReachable w = true := by
  induction l generalizing s with
  | nil => simp
  | cons v l ih =>
      rw [List.foldl_cons]
      by_cases hv : d.isReachable v = true
      · have hstep : enterReachable d s v = s.enter v := if_pos hv
        obtain ⟨hcapacity, hbody, hstack⟩ := enter_spec (hd v hv)
        obtain ⟨hcapacity', hbody', hstack'⟩ := ih (s := s.enter v) (hcapacity.symm ▸ hd)
        rw [hstep]
        refine ⟨hcapacity'.trans hcapacity, fun w => ?_, fun w => ?_⟩
        · rw [hbody', hbody, List.mem_cons]
          grind
        · rw [hstack', hstack, ← Bool.not_eq_true ((s.enter v).body.contains w), hbody,
            List.mem_cons]
          grind
      · have hstep : enterReachable d s v = s := if_neg hv
        obtain ⟨hcapacity', hbody', hstack'⟩ := ih hd
        rw [hstep]
        refine ⟨hcapacity', fun w => ?_, fun w => ?_⟩
        · rw [hbody', List.mem_cons]
          grind
        · rw [hstack', List.mem_cons]
          grind

/-- Nothing that leads to the node is missing. -/
def Closed (g : Adjacency) (entry : Nat) (body : BitSet) (v : Nat) : Prop :=
  ∀ u, g.Reaches entry u → v ∈ g.successors u → body.contains u = true

/-- What holds while the body of the loop at `h` is filled with nodes that have the
property `p`. -/
structure Within (g : Adjacency) (entry h : Nat) (p : Nat → Prop) (s : Filling) : Prop where
  /-- Every node of the graph can be entered. -/
  capacity : s.body.capacity = g.size
  /-- The header belongs to the body. -/
  header : s.body.contains h = true
  /-- Everything in the body has the property. -/
  sound : ∀ v, s.body.contains v = true → p v
  /-- What is on the stack belongs to the body, and is not the header. -/
  stack : ∀ v ∈ s.stack, s.body.contains v = true ∧ v ≠ h
  /-- Only the predecessors of the header and of what is on the stack may be missing. -/
  closed : ∀ v, s.body.contains v = true → v ≠ h → v ∉ s.stack → Closed g entry s.body v

/-- **One step.**  The predecessors of a node from the stack are entered. -/
theorem Within.step {p : Nat → Prop} {stack : List Nat} {body : BitSet}
    (hs : Within g entry h p ⟨v :: stack, body⟩) (hsources : Agree g sources)
    (hp : ∀ v u, p v → v ≠ h → g.Reaches entry u → v ∈ g.successors u → p u) :
    Within g entry h p
      ((sources.successors v).foldl (enterReachable (compute g entry)) ⟨stack, body⟩) ∧
    ∀ w, body.contains w = true → ((sources.successors v).foldl
      (enterReachable (compute g entry)) ⟨stack, body⟩).body.contains w = true := by
  have hd : ∀ w, (compute g entry).isReachable w = true → w < body.capacity := fun w hw =>
    hs.capacity.symm ▸ lt_size_of_isReachable hw
  obtain ⟨hcapacity, hbody, hstack⟩ :=
    foldl_enterReachable (s := ⟨stack, body⟩) hd (sources.successors v)
  generalize (sources.successors v).foldl (enterReachable (compute g entry)) ⟨stack, body⟩ = s'
    at hcapacity hbody hstack ⊢
  have hmono : ∀ w, body.contains w = true → s'.body.contains w = true := fun w hw =>
    (hbody w).2 (Or.inl hw)
  obtain ⟨hvbody, hvh⟩ := hs.stack v List.mem_cons_self
  have hv : v < g.size := hs.capacity ▸ BitSet.lt_capacity hvbody
  -- what is entered now are the reachable predecessors of `v`
  have hpred : ∀ u, (u ∈ sources.successors v ∧ (compute g entry).isReachable u = true) ↔
      g.Reaches entry u ∧ v ∈ g.successors u := by
    intro u
    constructor
    · rintro ⟨hu, hreach⟩
      have hlt := lt_size_of_isReachable hreach
      exact ⟨(isReachable_compute hlt).1 hreach, (hsources u v hlt hv).1 hu⟩
    · rintro ⟨hreach, hedge⟩
      have hlt := lt_size_of_mem_successors hedge
      exact ⟨(hsources u v hlt hv).2 hedge, (isReachable_compute hlt).2 hreach⟩
  simp only [hpred] at hbody hstack
  refine ⟨⟨hcapacity.trans hs.capacity, hmono h hs.header, fun u hu => ?_, fun u hu => ?_,
    fun x hx hxh hxs u hu hedge => ?_⟩, hmono⟩
  · rcases (hbody u).1 hu with hold | ⟨hreach, hedge⟩
    · exact hs.sound u hold
    · exact hp v u (hs.sound v hvbody) hvh hreach hedge
  · rcases (hstack u).1 hu with hold | ⟨hnew, hreach, hedge⟩
    · exact (hs.stack u (List.mem_cons_of_mem _ hold)).imp_left (hmono u)
    · refine ⟨(hbody u).2 (Or.inr ⟨hreach, hedge⟩), ?_⟩
      rintro rfl
      exact absurd hs.header (Bool.eq_false_iff.1 hnew)
  · rw [hstack, not_or] at hxs
    by_cases hxv : x = v
    · subst hxv
      exact (hbody u).2 (Or.inr ⟨hu, hedge⟩)
    · have hold : body.contains x = true := by
        by_contra hnew
        rcases (hbody x).1 hx with hold | hpred
        · exact hnew hold
        · exact hxs.2 ⟨Bool.eq_false_iff.2 hnew, hpred⟩
      refine hmono u (hs.closed x hold hxh ?_ u hu hedge)
      rw [List.mem_cons, not_or]
      exact ⟨hxv, hxs.1⟩

/-- **Filling a body.**  Nothing that was in the body is lost, what is added has the
property, and in the end only predecessors of the header may be missing. -/
theorem complete_spec {p : Nat → Prop} (hs : Within g entry h p s) (hsources : Agree g sources)
    (hp : ∀ v u, p v → v ≠ h → g.Reaches entry u → v ∈ g.successors u → p u) :
    (s.complete sources (compute g entry)).capacity = g.size ∧
    (∀ v, s.body.contains v = true →
      (s.complete sources (compute g entry)).contains v = true) ∧
    (∀ v, (s.complete sources (compute g entry)).contains v = true → p v) ∧
    ∀ v, (s.complete sources (compute g entry)).contains v = true → v ≠ h →
      Closed g entry (s.complete sources (compute g entry)) v := by
  fun_induction complete sources (compute g entry) s with
  | case1 s hstack =>
      refine ⟨hs.capacity, fun _ hv => hv, hs.sound, fun v hv hvh => hs.closed v hv hvh ?_⟩
      rw [hstack]
      exact List.not_mem_nil
  | case2 s v rest hstack ih =>
      obtain ⟨stack, body⟩ := s
      obtain rfl : stack = v :: rest := hstack
      obtain ⟨hstep, hmono⟩ := hs.step hsources hp
      obtain ⟨hcapacity, hsub, hrest⟩ := ih hstep
      exact ⟨hcapacity, fun w hw => hsub w (hmono w hw), hrest⟩

/-- A walk that avoids the header stays in the body if it ends there. -/
theorem contains_of_walk {body : BitSet} {l : List Nat}
    (hclosed : ∀ v, body.contains v = true → v ≠ h → Closed g entry body v)
    (hl : g.Walk v l w) (hno : h ∉ l) (hv : g.Reaches entry v)
    (hw : body.contains w = true) : body.contains v = true := by
  induction hl with
  | start => exact hw
  | @step l x y hx hedge ih =>
      rw [List.mem_append, not_or, List.mem_singleton] at hno
      exact ih hno.1 (hclosed y hw (Ne.symm hno.2) x (hv.trans ⟨l, hx⟩) hedge)

end Filling

/-! ## Adding an edge -/

/-- What holds of a loop whenever an edge was added. -/
structure Natural (g : Adjacency) (entry : Nat) (l : NaturalLoop) : Prop where
  capacity : l.body.capacity = g.size
  nodup : l.tails.Nodup
  back : ∀ u ∈ l.tails, g.BackEdge entry u l.header
  body : ∀ v, l.body.contains v = true ↔ g.BodyOf entry l.header (· ∈ l.tails) v

theorem natural_atHeader (hh : h < g.size) : Natural g entry (atHeader g.size h) where
  capacity := BitSet.capacity_insert _ _
  nodup := List.nodup_nil
  back _ hu := absurd hu List.not_mem_nil
  body v := by
    have hempty : (BitSet.empty g.size).contains v = false := Nat.zero_testBit v
    show ((BitSet.empty g.size).insert h).contains v = true ↔ _
    rw [BitSet.contains_insert, hempty]
    simp [BodyOf, atHeader, BitSet.empty, hh]

theorem mem_tails_addTail {d : Dominators} {l : NaturalLoop} :
    v ∈ (addTail sources d u l).tails ↔ v ∈ l.tails ∨ v = u := by
  unfold addTail
  by_cases hu : u ∈ l.tails
  · rw [if_pos (List.contains_iff_mem.2 hu)]
    refine ⟨Or.inl, ?_⟩
    rintro (hv | rfl)
    · exact hv
    · exact hu
  · rw [if_neg (mt List.contains_iff_mem.1 hu), List.mem_append, List.mem_singleton]

theorem nodup_addTail {d : Dominators} {l : NaturalLoop} (hl : l.tails.Nodup) :
    (addTail sources d u l).tails.Nodup := by
  unfold addTail
  by_cases hu : u ∈ l.tails
  · rw [if_pos (List.contains_iff_mem.2 hu)]
    exact hl
  · rw [if_neg (mt List.contains_iff_mem.1 hu)]
    exact List.nodup_append.2 ⟨hl, List.nodup_singleton u, by grind⟩

/-- When a tail was entered, filling can start. -/
theorem Natural.within_enter {l : NaturalLoop} {tail : Nat → Prop} (hl : Natural g entry l)
    (hu : g.BackEdge entry u l.header) (htail : ∀ x, tail x ↔ x ∈ l.tails ∨ x = u) :
    Filling.Within g entry l.header (g.BodyOf entry l.header tail)
      (Filling.enter ⟨[], l.body⟩ u) := by
  obtain ⟨hcapacity, hbody, hstack⟩ := Filling.enter_spec (s := ⟨[], l.body⟩) (v := u)
    (hl.capacity.symm ▸ hu.tail_lt)
  have hheader : l.body.contains l.header = true := (hl.body _).2 (Or.inl rfl)
  refine ⟨hcapacity.trans hl.capacity, (hbody _).2 (Or.inl hheader), fun v hv => ?_,
    fun v hv => ?_, fun v hv hvh hvs x hx hedge => ?_⟩
  · rcases (hbody v).1 hv with hold | rfl
    · exact ((hl.body v).1 hold).mono fun x hx => (htail x).2 (Or.inl hx)
    · exact .tail ((htail v).2 (Or.inr rfl)) hu.2.1
  · rcases (hstack v).1 hv with hold | ⟨hnew, rfl⟩
    · exact absurd hold List.not_mem_nil
    · refine ⟨(hbody v).2 (Or.inr rfl), fun hvh => ?_⟩
      rw [hvh, hheader] at hnew
      cases hnew
  · -- a node of the body that is not on the stack was there before
    rw [hstack, not_or] at hvs
    have hold : l.body.contains v = true := by
      by_contra hnew
      rcases (hbody v).1 hv with hold | rfl
      · exact hnew hold
      · exact hvs.2 ⟨Bool.eq_false_iff.2 hnew, rfl⟩
    exact (hbody x).2 (Or.inl ((hl.body x).2 (((hl.body v).1 hold).predecessor hvh hx hedge)))

/-- **One more tail.**  A walk that leads to a tail without visiting the header is walked
backward: what leads to a node of the body was entered too. -/
theorem Natural.addTail {l : NaturalLoop} (hl : Natural g entry l) (hsources : Agree g sources)
    (hu : g.BackEdge entry u l.header) :
    Natural g entry (addTail sources (compute g entry) u l) := by
  have hmem : ∀ x, x ∈ (NaturalLoop.addTail sources (compute g entry) u l).tails ↔
      x ∈ l.tails ∨ x = u := fun x => mem_tails_addTail
  have hwithin := hl.within_enter hu hmem
  obtain ⟨hcapacity, hsub, hsound, hclosed⟩ := Filling.complete_spec hwithin hsources
    fun v x hv hvh hx hedge => hv.predecessor hvh hx hedge
  refine ⟨hcapacity, nodup_addTail hl.nodup, fun x hx => ?_, fun v => ⟨hsound v, ?_⟩⟩
  · rcases (hmem x).1 hx with hx | rfl
    · exact hl.back x hx
    · exact hu
  · rintro (rfl | ⟨hv, t, k, ht, hk, hno⟩)
    · exact hsub _ hwithin.header
    · refine Filling.contains_of_walk hclosed hk hno hv (hsub t ?_)
      have hentered := (Filling.enter_spec (s := ⟨[], l.body⟩) (v := u)
        (hl.capacity.symm ▸ hu.tail_lt)).2.1 t
      refine hentered.2 (((hmem t).1 ht).imp_left fun hold => ?_)
      exact (hl.body t).2 (.tail hold (hl.back t hold).2.1)

/-! ## All edges -/

/-- What holds of the loops when some of the edges were added. -/
structure Found (g : Adjacency) (entry : Nat) (edges : List (Nat × Nat))
    (loops : List NaturalLoop) : Prop where
  natural : ∀ l ∈ loops, Natural g entry l
  distinct : (loops.map header).Nodup
  headers : ∀ h, h ∈ loops.map header ↔ ∃ u, (u, h) ∈ edges
  tails : ∀ l ∈ loops, ∀ u, u ∈ l.tails ↔ (u, l.header) ∈ edges

variable {edges : List (Nat × Nat)} {loops : List NaturalLoop}

/-- The first loop with a header in its place. -/
theorem exists_split {k : Nat} (hk : loops.findIdx? (·.header == h) = some k) :
    ∃ before l after, loops = before ++ l :: after ∧ l.header = h ∧
      ∀ f, loops.modify k f = before ++ f l :: after := by
  obtain ⟨hlt, hheader, -⟩ := List.findIdx?_eq_some_iff_getElem.1 hk
  refine ⟨loops.take k, loops[k], loops.drop (k + 1), ?_, beq_iff_eq.1 hheader,
    fun f => List.modify_eq_take_cons_drop hlt⟩
  rw [List.cons_getElem_drop_succ, List.take_append_drop]

theorem header_ne_of_findIdx? (hnone : loops.findIdx? (·.header == h) = none) :
    ∀ l ∈ loops, l.header ≠ h := fun l hl =>
  ne_of_beq_false (List.findIdx?_eq_none_iff.1 hnone l hl)

/-- The headers after an edge was added. -/
theorem header_addEdge {n : Nat} {d : Dominators} :
    (addEdge n sources d loops (u, h)).map header =
      if h ∈ loops.map header then loops.map header else loops.map header ++ [h] := by
  unfold addEdge
  dsimp only
  split
  · rename_i k hk
    obtain ⟨before, l, after, rfl, rfl, hmodify⟩ := exists_split hk
    rw [hmodify, if_pos (by simp)]
    simp [addTail]
  · rename_i hnone
    have hnot : h ∉ loops.map header := by
      rw [List.mem_map]
      rintro ⟨l, hl, hheader⟩
      exact header_ne_of_findIdx? hnone l hl hheader
    rw [if_neg hnot, List.map_append]
    rfl

/-- The loops after an edge was added: those with another header, and the loop with
this one, which had been there or is new. -/
theorem mem_addEdge {n : Nat} {d : Dominators} (hdistinct : (loops.map header).Nodup)
    {x : NaturalLoop} (hx : x ∈ addEdge n sources d loops (u, h)) :
    x ∈ loops ∧ x.header ≠ h ∨ ∃ l, x = addTail sources d u l ∧ l.header = h ∧
      (l ∈ loops ∨ l = atHeader n h ∧ ∀ y ∈ loops, y.header ≠ h) := by
  unfold addEdge at hx
  dsimp only at hx
  split at hx
  · rename_i k hk
    obtain ⟨before, l, after, rfl, rfl, hmodify⟩ := exists_split hk
    rw [List.map_append, List.map_cons, List.nodup_middle, List.nodup_cons, ← List.map_append]
      at hdistinct
    rw [hmodify, List.mem_append, List.mem_cons] at hx
    have hother : ∀ y ∈ before ++ after, y.header ≠ l.header := fun y hy hsame =>
      hdistinct.1 (List.mem_map.2 ⟨y, hy, hsame⟩)
    rcases hx with hx | rfl | hx
    · exact Or.inl ⟨by simp [hx], hother x (by simp [hx])⟩
    · exact Or.inr ⟨l, rfl, rfl, Or.inl (by simp)⟩
    · exact Or.inl ⟨by simp [hx], hother x (by simp [hx])⟩
  · rename_i hnone
    have hne := header_ne_of_findIdx? hnone
    rw [List.mem_append, List.mem_singleton] at hx
    rcases hx with hx | rfl
    · exact Or.inl ⟨hx, hne x hx⟩
    · exact Or.inr ⟨atHeader n h, rfl, rfl, Or.inr ⟨rfl, hne⟩⟩

/-- **One more edge.** -/
theorem Found.addEdge (hf : Found g entry edges loops) (hsources : Agree g sources)
    (hu : g.BackEdge entry u h) :
    Found g entry (edges ++ [(u, h)])
      (addEdge g.size sources (compute g entry) loops (u, h)) where
  natural x hx := by
    rcases mem_addEdge hf.distinct hx with ⟨hold, -⟩ | ⟨l, rfl, rfl, hold | ⟨hnew, -⟩⟩
    · exact hf.natural x hold
    · exact (hf.natural l hold).addTail hsources hu
    · have hl : Natural g entry l := hnew ▸ natural_atHeader hu.header_lt
      exact hl.addTail hsources hu
  distinct := by
    rw [header_addEdge]
    split
    · exact hf.distinct
    · rename_i hnew
      exact List.nodup_append.2 ⟨hf.distinct, List.nodup_singleton h, by grind⟩
  headers h' := by
    rw [header_addEdge]
    have hold := hf.headers h'
    simp only [List.mem_append, List.mem_singleton, Prod.mk.injEq, exists_or, exists_eq_left,
      ← hold]
    split
    · rename_i hmem
      refine ⟨Or.inl, ?_⟩
      rintro (hh' | rfl)
      · exact hh'
      · exact hmem
    · rw [List.mem_append, List.mem_singleton]
  tails x hx v := by
    rw [List.mem_append, List.mem_singleton, Prod.mk.injEq]
    rcases mem_addEdge hf.distinct hx with ⟨hold, hne⟩ | ⟨l, rfl, hheader, hold | ⟨rfl, hnew⟩⟩
    · rw [hf.tails x hold]
      exact ⟨Or.inl, fun hv => hv.resolve_right fun heq => hne heq.2⟩
    · rw [mem_tails_addTail, hf.tails l hold]
      exact or_congr_right (and_iff_left hheader).symm
    · -- no edge led to a header without a loop
      have hno : (v, h) ∉ edges := fun hmem => by
        obtain ⟨y, hy, hsame⟩ := List.mem_map.1 ((hf.headers h).2 ⟨v, hmem⟩)
        exact hnew y hy hsame
      rw [mem_tails_addTail]
      show v ∈ ([] : List Nat) ∨ v = u ↔ (v, h) ∈ edges ∨ v = u ∧ h = h
      simp [hno]

/-- **All edges**, one after the other. -/
theorem found_foldl (hsources : Agree g sources) (hf : Found g entry edges loops)
    (rest : List (Nat × Nat)) (hrest : ∀ e ∈ rest, g.BackEdge entry e.1 e.2) :
    Found g entry (edges ++ rest)
      (rest.foldl (addEdge g.size sources (compute g entry)) loops) := by
  induction rest generalizing edges loops with
  | nil => rwa [List.append_nil]
  | cons e rest ih =>
      obtain ⟨he, hrest⟩ := List.forall_mem_cons.1 hrest
      have hfound := ih (hf.addEdge hsources he) hrest
      rwa [List.append_assoc] at hfound

theorem mem_backEdges : (u, h) ∈ backEdges g (compute g entry) ↔ g.BackEdge entry u h := by
  unfold backEdges
  simp only [List.mem_flatMap, List.mem_map, List.mem_filter, Prod.mk.injEq]
  constructor
  · rintro ⟨x, hx, y, ⟨hy, hdom⟩, rfl, rfl⟩
    have hlt := lt_size_of_mem_successors hy
    exact ⟨hy, (isReachable_compute hlt).1 (mem_reachable.1 hx), (dominates_compute hlt).1 hdom⟩
  · rintro ⟨hedge, hreach, hdom⟩
    have hlt := lt_size_of_mem_successors hedge
    exact ⟨u, mem_reachable.2 ((isReachable_compute hlt).2 hreach), h,
      ⟨hedge, (dominates_compute hlt).2 hdom⟩, rfl, rfl⟩

/-! ## The loops in order -/

/-- The loop that a header has in the graph. -/
structure IsLoop (g : Adjacency) (entry : Nat) (l : NaturalLoop) : Prop where
  /-- The body is a set of nodes of the graph. -/
  capacity : l.body.capacity = g.size
  /-- The tails are ascending. -/
  ascending : l.tails.Pairwise (· < ·)
  /-- The tails are the sources of the back edges to the header. -/
  mem_tails : ∀ u, u ∈ l.tails ↔ g.BackEdge entry u l.header
  /-- The body is what it should be. -/
  contains : ∀ v, l.body.contains v = true ↔ g.InLoop entry l.header v

/-- A header has one loop. -/
theorem IsLoop.ext {l l' : NaturalLoop} (hl : IsLoop g entry l) (hl' : IsLoop g entry l')
    (hheader : l.header = l'.header) : l = l' := by
  obtain ⟨header, tails, body⟩ := l
  obtain ⟨header', tails', body'⟩ := l'
  obtain rfl : header = header' := hheader
  have htails : tails = tails' := by
    refine List.Perm.eq_of_pairwise (fun a b _ _ hab hba => absurd hab (Nat.lt_asymm hba))
      hl.ascending hl'.ascending ?_
    refine (List.perm_ext_iff_of_nodup (hl.ascending.imp Nat.ne_of_lt)
      (hl'.ascending.imp Nat.ne_of_lt)).2 fun u => ?_
    rw [hl.mem_tails, hl'.mem_tails]
  have hbody : body = body' := by
    refine BitSet.ext (hl.capacity.trans hl'.capacity.symm) fun v => ?_
    rw [Bool.eq_iff_iff, hl.contains, hl'.contains]
  rw [htails, hbody]

/-- Sorting by different numbers yields an ascending list of them. -/
theorem pairwise_mergeSort_lt {α : Type} (f : α → Nat) {l : List α} (hl : (l.map f).Nodup) :
    ((l.mergeSort fun a b => decide (f a ≤ f b)).map f).Pairwise (· < ·) := by
  have hsorted : (l.mergeSort fun a b => decide (f a ≤ f b)).Pairwise
      fun a b => decide (f a ≤ f b) = true := by
    refine List.pairwise_mergeSort (fun a b c => ?_) (fun a b => ?_) l
    · simp only [decide_eq_true_eq]
      omega
    · simp only [Bool.or_eq_true, decide_eq_true_eq]
      omega
  have hnodup := ((List.mergeSort_perm l fun a b => decide (f a ≤ f b)).map f).nodup_iff.2 hl
  rw [List.Nodup, List.pairwise_map] at hnodup
  rw [List.pairwise_map]
  exact (hsorted.and hnodup).imp fun hab => Nat.lt_of_le_of_ne (of_decide_eq_true hab.1) hab.2

theorem isLoop_sortTails (hf : Found g entry (backEdges g (compute g entry)) loops)
    {l : NaturalLoop} (hl : l ∈ loops) : IsLoop g entry (sortTails l) where
  capacity := (hf.natural l hl).capacity
  ascending := by
    have hlt := pairwise_mergeSort_lt id ((List.map_id l.tails).symm ▸ (hf.natural l hl).nodup)
    rw [List.map_id] at hlt
    exact hlt
  mem_tails u := by
    show u ∈ l.tails.mergeSort ↔ _
    rw [List.mem_mergeSort, hf.tails l hl, mem_backEdges]
    rfl
  contains v := by
    show l.body.contains v = true ↔ _
    rw [(hf.natural l hl).body]
    have htails : (· ∈ l.tails) = fun u => g.BackEdge entry u l.header := by
      funext u
      rw [hf.tails l hl, mem_backEdges]
    rw [htails]
    rfl

/-- The loops as they were collected. -/
theorem found_backEdges (entry : Nat) (hsources : Agree g sources) :
    Found g entry (backEdges g (compute g entry)) ((backEdges g (compute g entry)).foldl
      (addEdge g.size sources (compute g entry)) []) := by
  have hempty : Found g entry [] [] := ⟨by simp, by simp, by simp, by simp⟩
  exact found_foldl hsources hempty _ fun e he => mem_backEdges.1 he

/-- **The loops that are found** are the loops of the headers of back edges. -/
theorem mem_find (hsources : Agree g sources) {l : NaturalLoop} :
    l ∈ find g sources (compute g entry) ↔
      (∃ u, g.BackEdge entry u l.header) ∧ IsLoop g entry l := by
  have hf := found_backEdges entry hsources
  have hheader := hf.headers l.header
  simp only [mem_backEdges] at hheader
  rw [find, List.mem_mergeSort, List.mem_map, ← hheader, List.mem_map]
  constructor
  · rintro ⟨k, hk, rfl⟩
    exact ⟨⟨k, hk, rfl⟩, isLoop_sortTails hf hk⟩
  · rintro ⟨⟨k, hk, hsame⟩, hl⟩
    exact ⟨k, hk, (isLoop_sortTails hf hk).ext hl hsame⟩

/-- The headers of the loops come in ascending order. -/
theorem pairwise_find (hsources : Agree g sources) :
    ((find g sources (compute g entry)).map header).Pairwise (· < ·) := by
  refine pairwise_mergeSort_lt header ?_
  rw [List.map_map]
  exact (found_backEdges entry hsources).distinct

theorem exists_mem_find (hsources : Agree g sources) :
    h ∈ (find g sources (compute g entry)).map header ↔ ∃ u, g.BackEdge entry u h := by
  have hheader := (found_backEdges entry hsources).headers h
  simp only [mem_backEdges] at hheader
  rw [← hheader, find, ((List.mergeSort_perm _ _).map header).mem_iff, List.map_map]
  rfl

/-! ## The main result -/

/-- **The natural loops are exact.**  Of a graph whose predecessor lists agree with its
successor lists, there is one loop for each node that a back edge leads to, by ascending
header.  Its tails are the sources of the back edges, ascending; its body consists of the
header and of every reachable node from which a walk leads to a tail without visiting the
header; and the header dominates the whole body. -/
theorem find_exact (g sources : Adjacency) (entry : Nat)
    (hsources : ∀ u v, u < g.size → v < g.size →
      (u ∈ sources.successors v ↔ v ∈ g.successors u)) :
    ((find g sources (compute g entry)).map header).Pairwise (· < ·) ∧
    (∀ h, h ∈ (find g sources (compute g entry)).map header ↔
      ∃ u, h ∈ g.successors u ∧ g.Reaches entry u ∧ g.Dominates entry h u) ∧
    ∀ loop ∈ find g sources (compute g entry),
      loop.tails.Pairwise (· < ·) ∧
      (∀ u, u ∈ loop.tails ↔
        loop.header ∈ g.successors u ∧ g.Reaches entry u ∧ g.Dominates entry loop.header u) ∧
      (∀ v, loop.body.contains v = true ↔ v = loop.header ∨
        g.Reaches entry v ∧ ∃ u ∈ loop.tails, ∃ l, g.Walk v l u ∧ loop.header ∉ l) ∧
      ∀ v, loop.body.contains v = true → g.Dominates entry loop.header v := by
  refine ⟨pairwise_find hsources, fun h => exists_mem_find hsources, fun loop hloop => ?_⟩
  obtain ⟨⟨u, hu⟩, hl⟩ := (mem_find hsources).1 hloop
  refine ⟨hl.ascending, hl.mem_tails, fun v => ?_, fun v hv => ?_⟩
  · rw [hl.contains, InLoop]
    refine or_congr_right (and_congr_right fun _ => ?_)
    constructor
    · rintro ⟨u, l, hback, hl'⟩
      exact ⟨u, (hl.mem_tails u).2 hback, l, hl'⟩
    · rintro ⟨u, hmem, l, hl'⟩
      exact ⟨u, l, (hl.mem_tails u).1 hmem, hl'⟩
  · exact ((hl.contains v).1 hv).dominates hu.header_reaches

/-- The result on a graph with two edges back to one header. -/
theorem find_exact_two_tails :
    let g : Adjacency := ⟨#[[1], [2, 4], [1, 3], [1], []]⟩
    let sources : Adjacency := ⟨#[[], [0, 2, 3], [1], [2], [1]]⟩
    (∀ u v, u < g.size → v < g.size → (u ∈ sources.successors v ↔ v ∈ g.successors u)) ∧
    ((find g sources (compute g 0)).map fun l => (l.header, l.tails, l.body.toList)) =
      [(1, [2, 3], [1, 2, 3])] ∧
    g.Dominates 0 1 3 := by
  intro g sources
  have hsources : ∀ u v, u < g.size → v < g.size →
      (u ∈ sources.successors v ↔ v ∈ g.successors u) := by
    have hsmall : ∀ u < 5, ∀ v < 5, (u ∈ sources.successors v ↔ v ∈ g.successors u) := by decide
    exact fun u v hu hv => hsmall u hu v hv
  have hfound : ((find g sources (compute g 0)).map fun l => (l.header, l.tails, l.body.toList)) =
      [(1, [2, 3], [1, 2, 3])] := by
    cbv
  refine ⟨hsources, hfound, ?_⟩
  obtain ⟨loop, hloop, heq⟩ : ∃ loop ∈ find g sources (compute g 0),
      (loop.header, loop.tails, loop.body.toList) = (1, [2, 3], [1, 2, 3]) :=
    List.mem_map.1 (hfound ▸ List.mem_cons_self)
  obtain ⟨hheader, -, hbody⟩ : loop.header = 1 ∧ loop.tails = [2, 3] ∧
      loop.body.toList = [1, 2, 3] := by simpa only [Prod.mk.injEq] using heq
  have hmem : loop.body.contains 3 = true := BitSet.mem_toList.1 (by rw [hbody]; decide)
  exact hheader ▸ ((find_exact g sources 0 hsources).2.2 loop hloop).2.2.2 3 hmem

end NaturalLoop
end FlowVerifier
