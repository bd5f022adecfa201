import FlowVerifier.Graph.Semidominators
import FlowVerifier.Proofs.Graph.Semidominators

/-!
# The computation of immediate dominators

The tables are followed from the last numbered node to the first.  `k` is the
number of the next node, and the nodes numbered after it are processed.

* `Forest` says what the forest of the processed nodes knows: whom a node hangs
  below, and the best node on the way there.  Shortening ways keeps it
  (`Forest.compress`), so that `eval` finds the best of all processed ancestors
  (`Forest.eval_best`).
* `Progress` adds the semidominators found so far and what is known of the
  immediate dominators: a processed node is settled, or waits and has unprocessed
  nodes on the way up to its semidominator.  `Progress.process` is the step, and
  `progress_processed` the run.
* `Progress.resolve` follows the last pass, which leaves every node with its
  immediate dominator (`isImmediate_finished`).
-/

namespace FlowVerifier
namespace DominatorTables

open Adjacency SpanningTree

variable {g : Adjacency} {start k : Nat} {t : SpanningTree} {s s' : DominatorTables}
  {a b c p u v w x : Nat}

/-! ## The forest -/

/-- What the forest of the nodes numbered after `k` says. -/
structure Forest (t : SpanningTree) (size k : Nat) (s : DominatorTables) : Prop where
  /-- Every node has an entry in the table. -/
  sizeAbove : s.above.size = size
  /-- Every node has an entry in the table. -/
  sizeBest : s.best.size = size
  /-- The roots are the nodes that are not processed. -/
  root : ∀ v, s.aboveOf v = none ↔ t.numberOf v ≤ k
  /-- A processed node hangs below an ancestor, with processed nodes between them. -/
  hangs : ∀ v a, s.aboveOf v = some a → Ancestor t.parent a v ∧ a ≠ v ∧
    ∀ u, Below t a v u → k < t.numberOf u
  /-- A node that is not processed knows of itself. -/
  fresh : ∀ v, t.numberOf v ≤ k → s.bestOf v = v
  /-- A processed node knows of the best one up to where it hangs. -/
  best : ∀ v a, s.aboveOf v = some a → Below t a v (s.bestOf v) ∧
    ∀ u, Below t a v u → s.rank t (s.bestOf v) ≤ s.rank t u

/-- The tables differ in the forest at most. -/
structure SameElse (s s' : DominatorTables) : Prop where
  /-- The semidominators are the same. -/
  semi : s'.semi = s.semi
  /-- The same nodes wait. -/
  waiting : s'.waiting = s.waiting
  /-- The immediate dominators are the same. -/
  immediate : s'.immediate = s.immediate

namespace SameElse

theorem refl (s : DominatorTables) : SameElse s s := ⟨rfl, rfl, rfl⟩

theorem trans {s'' : DominatorTables} (h : SameElse s s') (h' : SameElse s' s'') :
    SameElse s s'' :=
  ⟨h'.semi.trans h.semi, h'.waiting.trans h.waiting, h'.immediate.trans h.immediate⟩

theorem semiOf (h : SameElse s s') (v : Nat) : s'.semiOf v = s.semiOf v := by
  rw [DominatorTables.semiOf, h.semi, DominatorTables.semiOf]

theorem rank (h : SameElse s s') (v : Nat) : s'.rank t v = s.rank t v := by
  rw [DominatorTables.rank, h.semiOf, DominatorTables.rank]

theorem waitingAt (h : SameElse s s') (v : Nat) : s'.waitingAt v = s.waitingAt v := by
  rw [DominatorTables.waitingAt, h.waiting, DominatorTables.waitingAt]

theorem immediateOf (h : SameElse s s') (v : Nat) : s'.immediateOf v = s.immediateOf v := by
  rw [DominatorTables.immediateOf, h.immediate, DominatorTables.immediateOf]

end SameElse

/-! ### Shortening ways -/

/-- Looking into a table after a change. -/
theorem join_setIfInBounds {α : Type} (l : Array (Option α)) (hv : v < l.size) (y : Option α) :
    (l.setIfInBounds v y)[u]?.join = if u = v then y else l[u]?.join := by
  rw [Array.getElem?_setIfInBounds]
  by_cases h : v = u
  · subst h
    simp [hv]
  · simp [h, Ne.symm h]

theorem getD_setIfInBounds {α : Type} (l : Array α) (hv : v < l.size) (y d : α) :
    (l.setIfInBounds v y)[u]?.getD d = if u = v then y else l[u]?.getD d := by
  rw [Array.getElem?_setIfInBounds]
  by_cases h : v = u
  · subst h
    simp [hv]
  · simp [h, Ne.symm h]

/-- The nodes below an upper and a lower part of a tree path. -/
theorem below_append (T : DepthFirstTree g start t) (hv : 0 < t.numberOf v)
    (hca : Ancestor t.parent c a) (hav : Ancestor t.parent a v) :
    Below t c v u ↔ Below t c a u ∨ Below t a v u := by
  have ha := T.pos_of_ancestor hav hv
  have hle := T.linked.numberOf_le hca
  rw [T.below_iff hv (hca.trans hav), T.below_iff ha hca, T.below_iff hv hav]
  constructor
  · rintro ⟨huv, hlt⟩
    by_cases hua : t.numberOf u ≤ t.numberOf a
    · exact Or.inl ⟨T.chain hv huv hav hua, hlt⟩
    · exact Or.inr ⟨huv, by omega⟩
  · rintro (⟨hua, hlt⟩ | ⟨huv, hlt⟩)
    · exact ⟨hua.trans hav, hlt⟩
    · exact ⟨huv, by omega⟩

/-- The better of two nodes. -/
theorem bestOf_shorten (h : s.aboveOf v = some a) (hv : v < s.best.size) :
    (shorten t v s).bestOf u =
      if u = v ∧ s.rank t (s.bestOf a) < s.rank t (s.bestOf v) then s.bestOf a
      else s.bestOf u := by
  unfold shorten
  rw [h]
  by_cases hless : s.rank t (s.bestOf a) < s.rank t (s.bestOf v)
  · simp only [hless, and_true]
    exact getD_setIfInBounds _ hv _ _
  · simp only [hless, and_false, if_false]
    rfl

theorem aboveOf_shorten (h : s.aboveOf v = some a) (hv : v < s.above.size) :
    (shorten t v s).aboveOf u = if u = v then s.aboveOf a else s.aboveOf u := by
  unfold shorten
  rw [h]
  exact join_setIfInBounds _ hv _

theorem sameElse_shorten : SameElse s (shorten t v s) := by
  unfold shorten
  split
  · exact .refl s
  · exact ⟨rfl, rfl, rfl⟩

/-- A node may skip the one above it. -/
theorem Forest.shorten (T : DepthFirstTree g start t) (F : Forest t g.size k s)
    (hv : s.aboveOf v = some a) (ha : s.aboveOf a = some c) :
    Forest t g.size k (shorten t v s) := by
  have hpos : k < t.numberOf v := by
    by_contra h
    rw [(F.root v).2 (by omega)] at hv
    exact absurd hv (by simp)
  have hlt : v < g.size := T.lt_size (by omega)
  have habove : ∀ u, (DominatorTables.shorten t v s).aboveOf u =
      if u = v then some c else s.aboveOf u :=
    fun u => ha ▸ aboveOf_shorten hv (F.sizeAbove ▸ hlt)
  have hbest := fun u => bestOf_shorten (t := t) (u := u) hv (F.sizeBest ▸ hlt)
  have hrank : ∀ u, (DominatorTables.shorten t v s).rank t u = s.rank t u :=
    fun u => sameElse_shorten.rank u
  obtain ⟨hav, hane, hbetween⟩ := F.hangs v a hv
  obtain ⟨hca, hcne, hbetween'⟩ := F.hangs a c ha
  obtain ⟨hbv, hminv⟩ := F.best v a hv
  obtain ⟨hba, hmina⟩ := F.best a c ha
  have hvpos : 0 < t.numberOf v := by omega
  refine ⟨?_, ?_, fun u => ?_, fun u d hd => ?_, fun u hu => ?_, fun u d hd => ?_⟩
  · rw [← F.sizeAbove]
    simp [DominatorTables.shorten, hv]
  · rw [← F.sizeBest]
    simp only [DominatorTables.shorten, hv]
    split <;> simp
  · rw [habove]
    by_cases huv : u = v
    · subst huv
      simp
      omega
    · rw [if_neg huv, F.root]
  · rw [habove] at hd
    by_cases huv : u = v
    · subst huv
      rw [if_pos rfl, Option.some.injEq] at hd
      subst hd
      refine ⟨hca.trans hav, ?_, fun y hy => ?_⟩
      · have hlt₁ := T.lt_of_ancestor hav hane hvpos
        have hlt₂ := T.linked.numberOf_le hca
        rintro rfl
        omega
      · rcases (below_append T hvpos hca hav).1 hy with hy | hy
        · exact hbetween' y hy
        · exact hbetween y hy
    · rw [if_neg huv] at hd
      exact F.hangs u d hd
  · rw [hbest, if_neg, F.fresh u hu]
    rintro ⟨rfl, -⟩
    omega
  · rw [habove] at hd
    simp only [hrank, hbest]
    by_cases huv : u = v
    · subst huv
      rw [if_pos rfl, Option.some.injEq] at hd
      subst hd
      simp only [below_append T hvpos hca hav, true_and]
      split
      · rename_i hless
        refine ⟨Or.inl hba, fun y hy => ?_⟩
        rcases hy with hy | hy
        · exact hmina y hy
        · exact (Nat.le_of_lt hless).trans (hminv y hy)
      · rename_i hless
        refine ⟨Or.inr hbv, fun y hy => ?_⟩
        rcases hy with hy | hy
        · exact (Nat.le_of_not_lt hless).trans (hmina y hy)
        · exact hminv y hy
    · rw [if_neg huv] at hd
      rw [if_neg fun h => huv h.1]
      exact F.best u d hd

/-- **Shortening a way** leaves every node on it directly below the root, and
touches nothing else. -/
theorem Forest.compress (T : DepthFirstTree g start t) (F : Forest t g.size k s)
    (hv : k < t.numberOf v) :
    Forest t g.size k (s.compress t v) ∧ SameElse s (s.compress t v) ∧
      (∃ a, (s.compress t v).aboveOf v = some a ∧ t.numberOf a ≤ k) ∧
      ∀ x, t.numberOf v < t.numberOf x → (s.compress t v).aboveOf x = s.aboveOf x := by
  unfold DominatorTables.compress
  fun_induction wayUp t s v with
  | case1 v hnone =>
      exact absurd ((F.root v).1 hnone) (by omega)
  | case2 v a ha hguard ih =>
      obtain ⟨hsome, hlt⟩ := hguard
      have hak : k < t.numberOf a := by
        by_contra h
        rw [(F.root a).2 (by omega)] at hsome
        exact absurd hsome (by simp)
      obtain ⟨F', hsame, ⟨c, hc, hck⟩, hframe⟩ := ih hak
      have hva := (hframe v hlt).trans ha
      have hvlt : v < g.size := T.lt_size (by omega)
      rw [List.foldr_cons]
      refine ⟨F'.shorten T hva hc, hsame.trans sameElse_shorten, ⟨c, ?_, hck⟩, fun x hx => ?_⟩
      · rw [aboveOf_shorten hva (F'.sizeAbove ▸ hvlt), if_pos rfl, hc]
      · rw [aboveOf_shorten hva (F'.sizeAbove ▸ hvlt), if_neg, hframe x (by omega)]
        rintro rfl
        omega
  | case3 v a ha hguard =>
      obtain ⟨hav, hne, -⟩ := F.hangs v a ha
      have hlt := T.lt_of_ancestor hav hne (by omega)
      refine ⟨F, .refl s, ⟨a, ha, ?_⟩, fun _ _ => rfl⟩
      by_contra hak
      refine hguard ⟨?_, hlt⟩
      rw [Option.isSome_iff_ne_none]
      intro hnone
      exact hak ((F.root a).1 hnone)

/-- The answer of `eval` at a node that is not processed. -/
theorem Forest.eval_root (F : Forest t g.size k s) (hv : t.numberOf v ≤ k) :
    s.eval t v = (v, s) := by
  rw [eval, (F.root v).2 hv]
  rfl

/-- **`eval` finds the best processed ancestor.** -/
theorem Forest.eval_best (T : DepthFirstTree g start t) (F : Forest t g.size k s)
    (hv : k < t.numberOf v) :
    Forest t g.size k (s.eval t v).2 ∧ SameElse s (s.eval t v).2 ∧
      Ancestor t.parent (s.eval t v).1 v ∧ k < t.numberOf (s.eval t v).1 ∧
      ∀ x, Ancestor t.parent x v → k < t.numberOf x → s.rank t (s.eval t v).1 ≤ s.rank t x := by
  have hsome : (s.aboveOf v).isNone = false := by
    rw [← Option.not_isSome, Bool.not_eq_false', Option.isSome_iff_ne_none]
    intro hnone
    exact absurd ((F.root v).1 hnone) (by omega)
  obtain ⟨F', hsame, ⟨a, ha, hak⟩, -⟩ := F.compress T hv
  rw [eval, hsome, if_neg Bool.false_ne_true]
  obtain ⟨hav, -, hbetween⟩ := F'.hangs v a ha
  obtain ⟨hb, hmin⟩ := F'.best v a ha
  refine ⟨F', hsame, hb.2.2, hbetween _ hb, fun x hx hxk => ?_⟩
  have hle := hmin x ((T.below_iff (by omega) hav).2 ⟨hx, by omega⟩)
  rwa [hsame.rank, hsame.rank] at hle

/-- The forest compares the ranks of processed nodes only. -/
theorem Forest.congr (F : Forest t g.size k s) (habove : s'.above = s.above)
    (hbest : s'.best = s.best) (hrank : ∀ u, k < t.numberOf u → s'.rank t u = s.rank t u) :
    Forest t g.size k s' := by
  have habove' : ∀ v, s'.aboveOf v = s.aboveOf v := fun v => by rw [aboveOf, habove, aboveOf]
  have hbest' : ∀ v, s'.bestOf v = s.bestOf v := fun v => by rw [bestOf, hbest, bestOf]
  refine ⟨by rw [habove, F.sizeAbove], by rw [hbest, F.sizeBest], fun v => by rw [habove', F.root],
    fun v a h => F.hangs v a (habove' v ▸ h), fun v hv => by rw [hbest', F.fresh v hv],
    fun v a h => ?_⟩
  rw [habove'] at h
  obtain ⟨hb, hmin⟩ := F.best v a h
  obtain ⟨-, -, hbetween⟩ := F.hangs v a h
  rw [hbest', hrank _ (hbetween _ hb)]
  exact ⟨hb, fun u hu => hrank u (hbetween u hu) ▸ hmin u hu⟩

/-! ## The semidominator of the next node -/

/-- What is known of the semidominators and of who waits when the nodes numbered
after `k` are processed. -/
structure Sound (g : Adjacency) (start : Nat) (t : SpanningTree) (k : Nat)
    (s : DominatorTables) : Prop where
  /-- The forest is right. -/
  forest : Forest t g.size k s
  /-- Every node has an entry in the table. -/
  sizeSemi : s.semi.size = g.size
  /-- Every node has an entry in the table. -/
  sizeWaiting : s.waiting.size = g.size
  /-- Every node has an entry in the table. -/
  sizeImmediate : s.immediate.size = g.size
  /-- The semidominators of the processed nodes are found. -/
  semi : ∀ v, k < t.numberOf v → IsSemi g start t (s.semiOf v) v
  /-- The other nodes have themselves. -/
  fresh : ∀ v, t.numberOf v ≤ k → s.semiOf v = v
  /-- A processed node waits at its semidominator, if at all. -/
  waiting : ∀ v q, v ∈ s.waitingAt q → k < t.numberOf v ∧ s.semiOf v = q

/-- The tables when some predecessors of `w` were taken into account. -/
structure Improved (g : Adjacency) (start : Nat) (t : SpanningTree) (w : Nat)
    (seen : List Nat) (s s' : DominatorTables) : Prop where
  /-- The forest is right. -/
  forest : Forest t g.size (t.numberOf w) s'
  /-- No entry was added. -/
  size : s'.semi.size = s.semi.size
  /-- The same nodes wait. -/
  waiting : s'.waiting = s.waiting
  /-- The immediate dominators are the same. -/
  immediate : s'.immediate = s.immediate
  /-- The semidominators of other nodes are the same. -/
  others : ∀ v, v ≠ w → s'.semiOf v = s.semiOf v
  /-- The node has itself, or what leads past others to it. -/
  candidate : s'.semiOf w = w ∨
    g.Reaches start (s'.semiOf w) ∧ g.LeadsPast t (s'.semiOf w) w
  /-- It has the earliest of what was seen. -/
  least : ∀ v ∈ seen, (t.numberOf v < t.numberOf w → s'.rank t w ≤ t.numberOf v) ∧
    ∀ u, Ancestor t.parent u v → t.numberOf w < t.numberOf u → s'.rank t w ≤ s.rank t u

namespace Improved

variable {seen l : List Nat} {s₀ : DominatorTables}

/-- Nothing was seen yet. -/
theorem nil (S : Sound g start t (t.numberOf w) s₀) : Improved g start t w [] s₀ s₀ :=
  ⟨S.forest, rfl, rfl, rfl, fun _ _ => rfl, Or.inl (S.fresh w (Nat.le_refl _)),
    fun _ h => absurd h List.not_mem_nil⟩

/-- Seeing one more node, in which nothing better is found. -/
theorem keep (I : Improved g start t w seen s₀ s) (F : Forest t g.size (t.numberOf w) s')
    (hsame : SameElse s s')
    (hv : (t.numberOf v < t.numberOf w → s.rank t w ≤ t.numberOf v) ∧
      ∀ u, Ancestor t.parent u v → t.numberOf w < t.numberOf u → s.rank t w ≤ s₀.rank t u) :
    Improved g start t w (seen ++ [v]) s₀ s' := by
  refine ⟨F, by rw [hsame.semi, I.size], hsame.waiting.trans I.waiting,
    hsame.immediate.trans I.immediate, fun x hx => by rw [hsame.semiOf, I.others x hx],
    by rw [hsame.semiOf]; exact I.candidate, fun x hx => ?_⟩
  rw [hsame.rank]
  rcases List.mem_append.1 hx with hx | hx
  · exact I.least x hx
  · rw [List.mem_singleton.1 hx]
    exact hv

/-- Seeing one more node, in which `x` is found to be better. -/
theorem replace (I : Improved g start t w seen s₀ s) (hw : w < s.semi.size)
    (F : Forest t g.size (t.numberOf w) s') (hsame : SameElse s s')
    (hbetter : t.numberOf x < s.rank t w) (hx : g.Reaches start x) (hxw : g.LeadsPast t x w)
    (hv : (t.numberOf v < t.numberOf w → t.numberOf x ≤ t.numberOf v) ∧
      ∀ u, Ancestor t.parent u v → t.numberOf w < t.numberOf u → t.numberOf x ≤ s₀.rank t u) :
    Improved g start t w (seen ++ [v]) s₀ { s' with semi := s'.semi.setIfInBounds w x } := by
  have hsemi : ∀ u, ({ s' with semi := s'.semi.setIfInBounds w x } : DominatorTables).semiOf u =
      if u = w then x else s.semiOf u := by
    intro u
    rw [← hsame.semiOf u]
    exact getD_setIfInBounds _ (hsame.semi ▸ hw) _ _
  have hrank : ∀ u, ({ s' with semi := s'.semi.setIfInBounds w x } : DominatorTables).rank t u =
      if u = w then t.numberOf x else s.rank t u := by
    intro u
    rw [rank, hsemi]
    split <;> rfl
  refine ⟨F.congr rfl rfl fun u hu => ?_, ?_, hsame.waiting.trans I.waiting,
    hsame.immediate.trans I.immediate, fun u hu => ?_, ?_, fun u hu => ?_⟩
  · rw [hrank, if_neg (fun h => absurd (h ▸ hu) (Nat.lt_irrefl _)), hsame.rank]
  · simp [hsame.semi, I.size]
  · rw [hsemi, if_neg hu, I.others u hu]
  · rw [hsemi, if_pos rfl]
    exact Or.inr ⟨hx, hxw⟩
  · rw [hrank, if_pos rfl]
    rcases List.mem_append.1 hu with hu | hu
    · obtain ⟨hlow, hhigh⟩ := I.least u hu
      exact ⟨fun h => by have := hlow h; omega, fun y hy h => by have := hhigh y hy h; omega⟩
    · rw [List.mem_singleton.1 hu]
      exact hv

/-- **One predecessor.**  Before `w` it is a candidate itself, and after `w` the
best node above it has the best candidate. -/
theorem improve (T : DepthFirstTree g start t) (S : Sound g start t (t.numberOf w) s₀)
    (hw : 0 < t.numberOf w) (I : Improved g start t w seen s₀ s) (hv : g.Reaches start v)
    (hedge : w ∈ g.successors v) :
    Improved g start t w (seen ++ [v]) s₀ (s.improve t w v) := by
  have hwlt : w < s.semi.size := by
    rw [I.size, S.sizeSemi]
    exact T.lt_size hw
  have hrank : ∀ u, u ≠ w → s.rank t u = s₀.rank t u := fun u hu => by
    rw [rank, I.others u hu, rank]
  by_cases hvw : t.numberOf v ≤ t.numberOf w
  · -- no ancestor of `v` is numbered after `w`
    have hnone : ∀ u, Ancestor t.parent u v → ¬ t.numberOf w < t.numberOf u := by
      intro u hu
      have := T.linked.numberOf_le hu
      omega
    simp only [DominatorTables.improve, I.forest.eval_root hvw]
    by_cases hwv : v = w
    · subst hwv
      rw [if_neg (Nat.lt_irrefl _)]
      exact I.keep I.forest (.refl s)
        ⟨fun h => absurd h (Nat.lt_irrefl _), fun u hu h => absurd h (hnone u hu)⟩
    · have hself : s.semiOf v = v := by rw [I.others v hwv, S.fresh v hvw]
      have hrankv : s.rank t v = t.numberOf v := by rw [rank, hself]
      rw [hrankv, hself]
      split
      · rename_i hbetter
        exact I.replace hwlt I.forest (.refl s) hbetter hv ⟨[], v, .start, by simp, hedge⟩
          ⟨fun _ => Nat.le_refl _, fun u hu h => absurd h (hnone u hu)⟩
      · rename_i hworse
        exact I.keep I.forest (.refl s)
          ⟨fun _ => Nat.le_of_not_lt hworse, fun u hu h => absurd h (hnone u hu)⟩
  · obtain ⟨F, hsame, huv, hwu, hmin⟩ := I.forest.eval_best T (Nat.lt_of_not_le hvw)
    have hne : ∀ u, t.numberOf w < t.numberOf u → u ≠ w := by
      rintro u hu rfl
      exact Nat.lt_irrefl _ hu
    have hlow : t.numberOf v < t.numberOf w → ∀ n, n ≤ t.numberOf v := by
      intro h
      omega
    simp only [DominatorTables.improve, hsame.rank, hsame.semiOf]
    have hleast : ∀ u, Ancestor t.parent u v → t.numberOf w < t.numberOf u →
        s.rank t (s.eval t v).1 ≤ s₀.rank t u :=
      fun u hu h => hrank u (hne u h) ▸ hmin u hu h
    split
    · rename_i hbetter
      have hsemi := S.semi _ hwu
      rw [← I.others _ (hne _ hwu)] at hsemi
      exact I.replace hwlt F hsame hbetter hsemi.reaches
        (T.leadsPast_of_above hedge huv hwu hsemi.leads) ⟨fun h => hlow h _, hleast⟩
    · rename_i hworse
      exact I.keep F hsame ⟨fun h => hlow h _, fun u hu h =>
        (Nat.le_of_not_lt hworse).trans (hleast u hu h)⟩

/-- Several predecessors, one after the other. -/
theorem foldl (T : DepthFirstTree g start t) (S : Sound g start t (t.numberOf w) s₀)
    (hw : 0 < t.numberOf w) (I : Improved g start t w seen s₀ s)
    (hl : ∀ v ∈ l, g.Reaches start v ∧ w ∈ g.successors v) :
    Improved g start t w (seen ++ l) s₀ (l.foldl (DominatorTables.improve t w) s) := by
  induction l generalizing seen s with
  | nil => rwa [List.append_nil]
  | cons v l ih =>
      rw [List.foldl_cons, List.append_cons]
      obtain ⟨hv, hedge⟩ := hl v List.mem_cons_self
      exact ih (I.improve T S hw hv hedge) fun u hu => hl u (List.mem_cons_of_mem _ hu)

/-- **The semidominator is found** when all predecessors are seen. -/
theorem isSemi (T : DepthFirstTree g start t) (S : Sound g start t (t.numberOf w) s₀)
    (hw : 0 < t.numberOf w) (hne : w ≠ start) (I : Improved g start t w seen s₀ s)
    (hall : ∀ v, g.Reaches start v → w ∈ g.successors v → v ∈ seen) :
    IsSemi g start t (s.semiOf w) w := by
  obtain ⟨p, hp⟩ := T.exists_parent hw hne
  obtain ⟨hedge, hppos, hpw⟩ := T.linked.edge p w hp
  have hlow := (I.least p (hall p (T.numberOf_pos_iff.1 hppos) hedge)).1 hpw
  rw [rank] at hlow
  rcases I.candidate with hself | ⟨hreach, hleads⟩
  · rw [hself] at hlow
    omega
  refine ⟨hreach, hleads, fun x hx hxw => ?_⟩
  by_cases hlt : t.numberOf x < t.numberOf w
  · obtain ⟨v, hv, hvw, rfl | ⟨u, huv, hwu, hxu⟩⟩ := T.exists_above hx hxw hlt
    · exact (I.least x (hall x hv hvw)).1 hlt
    · exact ((I.least v (hall v hv hvw)).2 u huv hwu).trans ((S.semi u hwu).least x hx hxu)
  · omega

end Improved

/-! ## Processing a node -/

/-- What is known of the immediate dominator of a settled node. -/
inductive Settled (t : SpanningTree) (s : DominatorTables) (v : Nat) : Prop
  /-- It is the semidominator, and no node between them has an earlier one. -/
  | own : s.immediateOf v = some (s.semiOf v) →
      (∀ u, Below t (s.semiOf v) v u → s.rank t v ≤ s.rank t u) → Settled t s v
  /-- It is shared with the node between them that has the earliest. -/
  | shared {u : Nat} : s.immediateOf v = some u → Below t (s.semiOf v) v u →
      s.rank t u < s.rank t v →
      (∀ y, Below t (s.semiOf v) v y → s.rank t u ≤ s.rank t y) → Settled t s v

/-- What is known when the nodes numbered after `k` are processed. -/
structure Progress (g : Adjacency) (start : Nat) (t : SpanningTree) (k : Nat)
    (s : DominatorTables) : Prop extends Sound g start t k s where
  /-- A processed node is settled, and all nodes up to its semidominator are
  processed, or it waits for one of them. -/
  settled : ∀ v, k < t.numberOf v →
    Settled t s v ∧ (∀ u, Below t (s.semiOf v) v u → k < t.numberOf u) ∨
    v ∈ s.waitingAt (s.semiOf v) ∧ ∃ u, Below t (s.semiOf v) v u ∧ t.numberOf u ≤ k

/-- A node stays settled if nothing changes for it and the nodes up to its
semidominator. -/
theorem Settled.congr (h : Settled t s v) (hsemi : s'.semiOf v = s.semiOf v)
    (himm : s'.immediateOf v = s.immediateOf v)
    (hrank : ∀ u, Below t (s.semiOf v) v u → s'.rank t u = s.rank t u) : Settled t s' v := by
  have hrankv : s'.rank t v = s.rank t v := by rw [rank, hsemi, rank]
  cases h with
  | own himm' hleast =>
      refine .own (by rw [himm, himm', hsemi]) fun u hu => ?_
      rw [hsemi] at hu
      rw [hrankv, hrank u hu]
      exact hleast u hu
  | @shared u himm' hu hlt hleast =>
      refine .shared (himm.trans himm') (by rwa [hsemi]) (by rwa [hrank u hu, hrankv])
        fun y hy => ?_
      rw [hsemi] at hy
      rw [hrank u hu, hrank y hy]
      exact hleast y hy

/-! ### Waiting at the semidominator -/

/-- Looking into the table of waiting nodes. -/
theorem mem_waitingAt_link (hw : s.semiOf w < s.waiting.size) :
    v ∈ (s.link w p).waitingAt x ↔ v ∈ s.waitingAt x ∨ v = w ∧ x = s.semiOf w := by
  simp only [waitingAt, link, Array.getElem?_modify]
  by_cases hx : s.semiOf w = x
  · subst hx
    simp [hw]
  · simp [hx, Ne.symm hx]

/-- Hanging the next node below its parent. -/
theorem Forest.link (T : DepthFirstTree g start t) (F : Forest t g.size (k + 1) s)
    (hw : t.numberOf w = k + 1) (hp : t.parent[w]? = some (some p)) :
    Forest t g.size k (s.link w p) := by
  have hwpos : 0 < t.numberOf w := by omega
  have habove : ∀ u, (s.link w p).aboveOf u = if u = w then some p else s.aboveOf u := fun u =>
    join_setIfInBounds _ (F.sizeAbove ▸ T.lt_size hwpos) _
  have hpw : Ancestor t.parent p w := .child .self hp
  have hlt := (T.linked.edge p w hp).2.2
  -- only the node itself is on the tree path from its parent
  have honly : ∀ u, Below t p w u → u = w := by
    rintro u ⟨hpu, hne, huw⟩
    by_contra huw'
    have hup := T.linked.numberOf_le (DepthFirstTree.ancestor_parent huw huw' hp)
    have := T.lt_of_ancestor hpu (Ne.symm hne) (T.pos_of_ancestor huw hwpos)
    omega
  have hne : p ≠ w := by
    rintro rfl
    exact Nat.lt_irrefl _ hlt
  refine ⟨?_, F.sizeBest, fun v => ?_, fun v a hv => ?_, fun v hv => F.fresh v (by omega),
    fun v a hv => ?_⟩
  · rw [← F.sizeAbove]
    simp [DominatorTables.link]
  · rw [habove]
    by_cases hvw : v = w
    · subst hvw
      simp
      omega
    · rw [if_neg hvw, F.root]
      have : t.numberOf v ≠ k + 1 := fun h =>
        hvw (T.eq_of_numberOf_eq (by omega) (h.trans hw.symm))
      omega
  · rw [habove] at hv
    by_cases hvw : v = w
    · subst hvw
      rw [if_pos rfl, Option.some.injEq] at hv
      subst hv
      exact ⟨hpw, hne, fun u hu => by rw [honly u hu]; omega⟩
    · rw [if_neg hvw] at hv
      obtain ⟨hav, hane, hbetween⟩ := F.hangs v a hv
      exact ⟨hav, hane, fun u hu => by have := hbetween u hu; omega⟩
  · rw [habove] at hv
    by_cases hvw : v = w
    · subst hvw
      rw [if_pos rfl, Option.some.injEq] at hv
      subst hv
      have hself : (s.link v p).bestOf v = v := F.fresh v (by omega)
      rw [hself]
      exact ⟨⟨hpw, Ne.symm hne, .self⟩, fun u hu => by rw [honly u hu]⟩
    · rw [if_neg hvw] at hv
      exact F.best v a hv

/-- Processing the next node up to its place in the forest.  A node that waits at
the parent may have nothing left to wait for. -/
theorem Progress.link (T : DepthFirstTree g start t) (P : Progress g start t (k + 1) s)
    (hw : t.numberOf w = k + 1) (hne : w ≠ start) (hp : t.parent[w]? = some (some p))
    {l : List Nat} (I : Improved g start t w l s s') (hsemi : IsSemi g start t (s'.semiOf w) w) :
    Sound g start t k (s'.link w p) ∧
      ∀ v, k < t.numberOf v →
        Settled t (s'.link w p) v ∧
          (∀ u, Below t ((s'.link w p).semiOf v) v u → k < t.numberOf u) ∨
        v ∈ (s'.link w p).waitingAt ((s'.link w p).semiOf v) ∧
          ((s'.link w p).semiOf v = p ∨
            ∃ u, Below t ((s'.link w p).semiOf v) v u ∧ t.numberOf u ≤ k) := by
  have hwpos : 0 < t.numberOf w := by omega
  have hcases : ∀ v, k < t.numberOf v → v = w ∨ v ≠ w ∧ k + 1 < t.numberOf v := by
    intro v hv
    by_cases hvw : v = w
    · exact Or.inl hvw
    · have : t.numberOf v ≠ k + 1 := fun h =>
        hvw (T.eq_of_numberOf_eq (by omega) (h.trans hw.symm))
      exact Or.inr ⟨hvw, by omega⟩
  obtain ⟨hanc, hlow⟩ := T.ancestor_of_isSemi hwpos hne hsemi
  have hsize : s'.semiOf w < s'.waiting.size := by
    rw [I.waiting, P.sizeWaiting]
    exact T.lt_size (T.numberOf_pos_iff.2 hsemi.reaches)
  have hmem : ∀ v x, v ∈ (s'.link w p).waitingAt x ↔
      v ∈ s.waitingAt x ∨ v = w ∧ x = s'.semiOf w := by
    intro v x
    rw [mem_waitingAt_link hsize]
    simp only [waitingAt, I.waiting]
  have hplt := (T.linked.edge p w hp).2.2
  have hparent : ∀ a, Ancestor t.parent a w → a ≠ w → a ≠ p → Below t a w p := fun a ha haw hap =>
    ⟨DepthFirstTree.ancestor_parent ha haw hp, Ne.symm hap, .child .self hp⟩
  refine ⟨⟨.link T (hw ▸ I.forest) hw hp, I.size.trans P.sizeSemi, ?_, ?_, fun v hv => ?_,
    fun v hv => ?_, fun v q hv => ?_⟩, fun v hv => ?_⟩
  · rw [← P.sizeWaiting, ← I.waiting]
    simp [DominatorTables.link]
  · exact (congrArg Array.size I.immediate).trans P.sizeImmediate
  · rcases hcases v hv with rfl | ⟨hvw, hv⟩
    · exact hsemi
    · exact (I.others v hvw).symm ▸ P.semi v hv
  · have hvw : v ≠ w := by
      rintro rfl
      omega
    exact (I.others v hvw).trans (P.fresh v (by omega))
  · rcases (hmem v q).1 hv with hv | ⟨rfl, rfl⟩
    · obtain ⟨hk, hq⟩ := P.waiting v q hv
      have hvw : v ≠ w := by
        rintro rfl
        omega
      exact ⟨by omega, (I.others v hvw).trans hq⟩
    · exact ⟨by omega, rfl⟩
  · have hsame : ∀ u, (s'.link w p).semiOf u = s'.semiOf u := fun _ => rfl
    simp only [hmem, hsame]
    rcases hcases v hv with rfl | ⟨hvw, hv⟩
    · -- the new node waits for its parent
      refine Or.inr ⟨Or.inr ⟨rfl, rfl⟩, ?_⟩
      by_cases hsp : s'.semiOf v = p
      · exact Or.inl hsp
      · refine Or.inr ⟨p, hparent _ hanc ?_ hsp, by omega⟩
        intro h
        rw [h] at hlow
        exact Nat.lt_irrefl _ hlow
    · have hsemiv : s'.semiOf v = s.semiOf v := I.others v hvw
      rcases P.settled v hv with ⟨hset, hbetween⟩ | ⟨hwait, u, hu, huk⟩
      · refine Or.inl ⟨hset.congr hsemiv ?_ fun u hu => ?_, fun u hu => ?_⟩
        · exact congrArg (fun l : Array (Option Nat) => l[v]?.join) I.immediate
        · have huw : u ≠ w := by
            rintro rfl
            have := hbetween u hu
            omega
          exact congrArg t.numberOf (I.others u huw)
        · have := hbetween u (hsemiv ▸ hu)
          omega
      · refine Or.inr ⟨Or.inl (hsemiv ▸ hwait), ?_⟩
        rw [hsemiv]
        by_cases huw : u = w
        · subst huw
          by_cases hsp : s.semiOf v = p
          · exact Or.inl hsp
          · exact Or.inr ⟨p, ⟨(hparent _ hu.1 hu.2.1.symm hsp).1, Ne.symm hsp,
              (hparent _ hu.1 hu.2.1.symm hsp).2.2.trans hu.2.2⟩, by omega⟩
        · have : t.numberOf u ≠ k + 1 := fun h =>
            huw (T.eq_of_numberOf_eq (by omega) (h.trans hw.symm))
          exact Or.inr ⟨u, hu, by omega⟩

/-! ### Settling who has waited -/

/-- **Settling a node.**  All nodes up to its semidominator are processed, so `eval` finds the
best of them. -/
theorem Sound.settle (T : DepthFirstTree g start t) (S : Sound g start t k s)
    (hv : k < t.numberOf v) (hp : s.semiOf v = p) (hne : v ≠ start)
    (hbetween : ∀ u, Below t p v u → k < t.numberOf u) (hpk : t.numberOf p ≤ k) :
    Sound g start t k (s.settle t p v) ∧ (s.settle t p v).semi = s.semi ∧
      (s.settle t p v).waiting = s.waiting ∧ Settled t (s.settle t p v) v ∧
      ∀ u, Settled t s u → Settled t (s.settle t p v) u := by
  have hvpos : 0 < t.numberOf v := by omega
  obtain ⟨hanc, hlow⟩ := T.ancestor_of_isSemi hvpos hne (hp ▸ S.semi v hv)
  obtain ⟨F, hsame, huv, huk, hmin⟩ := S.forest.eval_best T hv
  have hvlt : v < (s.eval t v).2.immediate.size := by
    rw [hsame.immediate, S.sizeImmediate]
    exact T.lt_size hvpos
  have hsemi : ∀ u, (s.settle t p v).semiOf u = s.semiOf u := fun u => hsame.semiOf u
  have hrank : ∀ u, (s.settle t p v).rank t u = s.rank t u := fun u => hsame.rank u
  have himm : ∀ u, (s.settle t p v).immediateOf u =
      if u = v then
        some (if s.rank t (s.eval t v).1 = s.rank t v then p else (s.eval t v).1)
      else s.immediateOf u := by
    intro u
    rw [← hsame.immediateOf u, ← hsame.rank, ← hsame.rank (v := v)]
    exact join_setIfInBounds _ hvlt _
  have hself : Settled t (s.settle t p v) v := by
    have hbelow : ∀ u, Below t p v u → s.rank t (s.eval t v).1 ≤ s.rank t u := fun u hu =>
      hmin u hu.2.2 (hbetween u hu)
    by_cases heq : s.rank t (s.eval t v).1 = s.rank t v
    · refine .own (by rw [himm, if_pos rfl, if_pos heq, hsemi, hp]) fun u hu => ?_
      rw [hsemi, hp] at hu
      rw [hrank, hrank, ← heq]
      exact hbelow u hu
    · refine .shared (u := (s.eval t v).1) (by rw [himm, if_pos rfl, if_neg heq]) ?_ ?_
        fun y hy => ?_
      · rw [hsemi, hp]
        exact (T.below_iff hvpos hanc).2 ⟨huv, by omega⟩
      · rw [hrank, hrank]
        exact Nat.lt_of_le_of_ne (hmin v .self hv) heq
      · rw [hsemi, hp] at hy
        rw [hrank, hrank]
        exact hbelow y hy
  refine ⟨⟨F.congr rfl rfl fun _ _ => rfl, ?_, ?_, ?_, fun u hu => ?_, fun u hu => ?_,
    fun u q hu => ?_⟩, hsame.semi, hsame.waiting, hself, fun u hu => ?_⟩
  · exact (congrArg Array.size hsame.semi).trans S.sizeSemi
  · exact (congrArg Array.size hsame.waiting).trans S.sizeWaiting
  · rw [DominatorTables.settle, Array.size_setIfInBounds, hsame.immediate, S.sizeImmediate]
  · rw [hsemi]
    exact S.semi u hu
  · rw [hsemi]
    exact S.fresh u hu
  · rw [hsemi]
    exact S.waiting u q (hsame.waitingAt q ▸ hu)
  · by_cases huv' : u = v
    · exact huv' ▸ hself
    · exact hu.congr (hsemi u) (by rw [himm, if_neg huv']) fun y _ => hrank y

/-- Settling several nodes that have waited at `p`. -/
theorem Sound.foldl_settle (T : DepthFirstTree g start t) (hpk : t.numberOf p ≤ k) (l : List Nat)
    (S : Sound g start t k s)
    (hl : ∀ v ∈ l, k < t.numberOf v ∧ s.semiOf v = p ∧ v ≠ start ∧
      ∀ u, Below t p v u → k < t.numberOf u) :
    Sound g start t k (l.foldl (DominatorTables.settle t p) s) ∧
      (l.foldl (DominatorTables.settle t p) s).semi = s.semi ∧
      (l.foldl (DominatorTables.settle t p) s).waiting = s.waiting ∧
      ∀ u, u ∈ l ∨ Settled t s u → Settled t (l.foldl (DominatorTables.settle t p) s) u := by
  induction l generalizing s with
  | nil => exact ⟨S, rfl, rfl, fun u hu => hu.resolve_left List.not_mem_nil⟩
  | cons v l ih =>
      obtain ⟨hv, hp, hne, hbetween⟩ := hl v List.mem_cons_self
      obtain ⟨S', hsemi, hwaiting, hself, hkeep⟩ := S.settle T hv hp hne hbetween hpk
      have hsemi' : ∀ u, (s.settle t p v).semiOf u = s.semiOf u := fun u => by
        rw [semiOf, hsemi, semiOf]
      obtain ⟨S'', hsemi'', hwaiting'', hall⟩ := ih S' fun u hu => by
        rw [hsemi']
        exact hl u (List.mem_cons_of_mem _ hu)
      refine ⟨S'', hsemi''.trans hsemi, hwaiting''.trans hwaiting, fun u hu => hall u ?_⟩
      rcases hu with hu | hu
      · rcases List.mem_cons.1 hu with rfl | hu
        · exact Or.inr hself
        · exact Or.inl hu
      · exact Or.inr (hkeep u hu)

/-- Who has waited at the parent of the next node has nothing left to wait for: a
node between them would be above the next one as well. -/
theorem lt_of_below_parent (T : DepthFirstTree g start t) (hw : t.numberOf w = k + 1)
    (hp : t.parent[w]? = some (some p)) (hv : k < t.numberOf v) (hu : Below t p v u) :
    k < t.numberOf u := by
  obtain ⟨hpu, hne, huv⟩ := hu
  by_contra huk
  have hupos := T.pos_of_ancestor huv (by omega)
  have huw := T.kinship.between u w v hupos huv (by omega) (by omega)
  have hup := DepthFirstTree.ancestor_parent huw (by rintro rfl; omega) hp
  have hlt := T.lt_of_ancestor hpu (Ne.symm hne) hupos
  have hle := T.linked.numberOf_le hup
  omega

/-- Settling everyone who has waited at the parent of the next node `w`. -/
theorem Sound.release (T : DepthFirstTree g start t) (S : Sound g start t k s)
    (hw : t.numberOf w = k + 1) (hne : w ≠ start) (hp : t.parent[w]? = some (some p))
    (hlinked : ∀ v, k < t.numberOf v →
      Settled t s v ∧ (∀ u, Below t (s.semiOf v) v u → k < t.numberOf u) ∨
      v ∈ s.waitingAt (s.semiOf v) ∧
        (s.semiOf v = p ∨ ∃ u, Below t (s.semiOf v) v u ∧ t.numberOf u ≤ k)) :
    Progress g start t k (s.release t p) := by
  have hplt := (T.linked.edge p w hp).2
  have hpsize : p < s.waiting.size := by
    rw [S.sizeWaiting]
    exact T.lt_size hplt.1
  have hmem : ∀ v q, v ∈ ({ s with waiting := s.waiting.setIfInBounds p [] } :
      DominatorTables).waitingAt q ↔ q ≠ p ∧ v ∈ s.waitingAt q := by
    intro v q
    rw [waitingAt, getD_setIfInBounds _ hpsize]
    by_cases hq : q = p
    · simp [hq]
    · rw [if_neg hq]
      exact ⟨fun h => ⟨hq, h⟩, fun h => h.2⟩
  have S' : Sound g start t k { s with waiting := s.waiting.setIfInBounds p [] } :=
    ⟨S.forest.congr rfl rfl fun _ _ => rfl, S.sizeSemi, by simp [S.sizeWaiting],
      S.sizeImmediate, S.semi, S.fresh, fun v q hv => S.waiting v q ((hmem v q).1 hv).2⟩
  have hwaited : ∀ v ∈ s.waitingAt p, k < t.numberOf v ∧ s.semiOf v = p ∧ v ≠ start ∧
      ∀ u, Below t p v u → k < t.numberOf u := by
    intro v hv
    obtain ⟨hvk, hvp⟩ := S.waiting v p hv
    refine ⟨hvk, hvp, ?_, fun u hu => lt_of_below_parent T hw hp hvk hu⟩
    rintro rfl
    have hone := T.numberOf_start
    exact hne (T.eq_of_numberOf_eq (by omega) (by omega))
  obtain ⟨S'', hsemi, hwaiting, hall⟩ := S'.foldl_settle T (by omega) _ hwaited
  have hsemi' : ∀ v, (s.release t p).semiOf v = s.semiOf v := fun v =>
    congrArg (fun l : Array Nat => l[v]?.getD v) hsemi
  refine ⟨S'', fun v hv => ?_⟩
  rw [hsemi']
  rcases hlinked v hv with ⟨hset, hbetween⟩ | ⟨hwait, hsp⟩
  · exact Or.inl ⟨hall v (Or.inr (hset.congr rfl rfl fun _ _ => rfl)), hbetween⟩
  · by_cases hvp : s.semiOf v = p
    · rw [hvp] at hwait ⊢
      exact Or.inl ⟨hall v (Or.inl hwait), (hwaited v hwait).2.2.2⟩
    · refine Or.inr ⟨?_, hsp.resolve_left hvp⟩
      have hkeep : (s.release t p).waitingAt (s.semiOf v) =
          ({ s with waiting := s.waiting.setIfInBounds p [] } :
            DominatorTables).waitingAt (s.semiOf v) :=
        congrArg (fun l : Array (List Nat) => l[s.semiOf v]?.getD []) hwaiting
      rw [hkeep, hmem]
      exact ⟨hvp, hwait⟩

/-- **Processing a node.** -/
theorem Progress.process (T : DepthFirstTree g start t) (P : Progress g start t (k + 1) s)
    (hw : t.numberOf w = k + 1) (hne : w ≠ start) {preds : Adjacency}
    (hpreds : ∀ v, v ∈ preds.successors w ↔ g.Reaches start v ∧ w ∈ g.successors v) :
    Progress g start t k (s.process t preds w) := by
  have hwpos : 0 < t.numberOf w := by omega
  obtain ⟨p, hp⟩ := T.exists_parent hwpos hne
  have S₀ : Sound g start t (t.numberOf w) s := hw ▸ P.toSound
  have I := (Improved.nil S₀).foldl T S₀ hwpos fun v hv => (hpreds v).1 hv
  rw [List.nil_append] at I
  obtain ⟨S, hlinked⟩ := P.link T hw hne hp I
    (I.isSemi T S₀ hwpos hne fun v hv hedge => (hpreds v).2 ⟨hv, hedge⟩)
  have heq : s.process t preds w =
      (((preds.successors w).foldl (DominatorTables.improve t w) s).link w p).release t p := by
    simp [DominatorTables.process, hp]
  rw [heq]
  exact S.release T hw hne hp hlinked

/-! ## All nodes -/

/-- The predecessors that are looked at. -/
theorem mem_incoming (T : DepthFirstTree g start t) (hw : w < g.size) :
    v ∈ (g.reversedFrom t.preorder.toList).successors w ↔
      g.Reaches start v ∧ w ∈ g.successors v := by
  rw [mem_reversedFrom, ← T.numberOf_pos_iff, ← isReached_iff_pos,
    T.consistent.isReached_iff_mem, ← Array.mem_iff_getElem?, Array.mem_toList_iff, and_iff_left hw]

/-- Before any node is processed. -/
theorem progress_initial (T : DepthFirstTree g start t) :
    Progress g start t t.preorder.size (initial g.size) := by
  have hle := T.consistent.numberOf_le
  have hsemi : ∀ v, (initial g.size).semiOf v = v := fun v => by
    by_cases hv : v < g.size <;> simp [semiOf, initial, hv]
  have habove : ∀ v, (initial g.size).aboveOf v = none := fun v => by
    by_cases hv : v < g.size <;> simp [aboveOf, initial, hv]
  have hbest : ∀ v, (initial g.size).bestOf v = v := fun v => by
    by_cases hv : v < g.size <;> simp [bestOf, initial, hv]
  have hwaiting : ∀ v, (initial g.size).waitingAt v = [] := fun v => by
    by_cases hv : v < g.size <;> simp [waitingAt, initial, hv]
  refine ⟨⟨⟨by simp [initial], by simp [initial], fun v => by simp [habove, hle v],
    fun v a h => by simp [habove] at h, fun v _ => hbest v, fun v a h => by simp [habove] at h⟩,
    by simp [initial], by simp [initial], by simp [initial], fun v hv => ?_, fun v _ => hsemi v,
    fun v q h => by simp [hwaiting] at h⟩, fun v hv => ?_⟩
  · exact absurd (hle v) (by omega)
  · exact absurd (hle v) (by omega)

/-- The nodes of a tree but its first, by their numbers. -/
theorem getElem?_tail_preorder (T : DepthFirstTree g start t) {i : Nat} :
    t.preorder.toList.tail[i]? = some v ↔ t.numberOf v = i + 2 := by
  rw [List.getElem?_tail, Array.getElem?_toList, T.consistent.listed, numberOf]
  cases t.number[v]? with
  | none => simp
  | some n => simp

/-- **All nodes are processed** but the first. -/
theorem progress_processed (T : DepthFirstTree g start t) :
    Progress g start t 1 (processed g t) := by
  have key : ∀ (l : List Nat) (k : Nat),
      (∀ (i : Nat) v, l[i]? = some v → t.numberOf v = k + i + 1) →
      1 ≤ k → k + l.length = t.preorder.size →
      Progress g start t k
        (l.foldr (process t (g.reversedFrom t.preorder.toList)) (initial g.size)) := by
    intro l
    induction l with
    | nil =>
        intro k _ _ hk
        rw [show k = t.preorder.size by simpa using hk]
        exact progress_initial T
    | cons w l ih =>
        intro k hl hpos hk
        have hw : t.numberOf w = k + 1 := hl 0 w rfl
        have hne : w ≠ start := by
          rintro rfl
          have := T.numberOf_start
          omega
        have P := ih (k + 1) (fun i v hv => by have := hl (i + 1) v hv; omega) (by omega)
          (by rw [← hk, List.length_cons]; omega)
        exact P.process T hw hne fun v => mem_incoming T (T.lt_size (by omega))
  refine key _ 1 (fun i v hv => ?_) (Nat.le_refl _) ?_
  · have := (getElem?_tail_preorder T).1 hv
    omega
  · have hpos : 0 < t.preorder.size := (Array.getElem?_eq_some_iff.1 T.consistent.first).1
    rw [List.length_tail, Array.length_toList]
    omega

/-! ## The last pass -/

/-- What is known when the nodes numbered up to `k` are resolved: they have their immediate
dominators, and nothing has changed for the others. -/
structure Resolved (g : Adjacency) (start : Nat) (t : SpanningTree) (k : Nat)
    (s₀ s : DominatorTables) : Prop where
  /-- The semidominators are the same. -/
  semi : s.semi = s₀.semi
  /-- No entry was added. -/
  size : s.immediate.size = s₀.immediate.size
  /-- A resolved node has its immediate dominator. -/
  done : ∀ v, 1 < t.numberOf v → t.numberOf v ≤ k →
    ∃ d, s.immediateOf v = some d ∧ IsImmediate g start d v
  /-- The others have what they had. -/
  rest : ∀ v, k < t.numberOf v → s.immediateOf v = s₀.immediateOf v

/-- At the end of the processing every node is settled. -/
theorem Progress.settled_of_one (T : DepthFirstTree g start t) (P : Progress g start t 1 s)
    (hv : 1 < t.numberOf v) : Settled t s v := by
  rcases P.settled v hv with h | ⟨-, u, ⟨hsu, hne, huv⟩, hu⟩
  · exact h.1
  · have hupos := T.pos_of_ancestor huv (by omega)
    have hlt := T.lt_of_ancestor hsu (Ne.symm hne) hupos
    have hpos := T.pos_of_ancestor hsu hupos
    omega

/-- **Resolving a node.**  A node that shares its immediate dominator has a larger number than
the node it shares it with. -/
theorem Resolved.resolve (T : DepthFirstTree g start t) {s₀ : DominatorTables}
    (P : Progress g start t 1 s₀) (hk : 1 ≤ k) (R : Resolved g start t k s₀ s)
    (hw : t.numberOf w = k + 1) : Resolved g start t (k + 1) s₀ (s.resolve w) := by
  have hwpos : 0 < t.numberOf w := by omega
  have hone := T.numberOf_start
  have hstart : ∀ v, 1 < t.numberOf v → v ≠ start := by
    rintro v hv rfl
    omega
  have hsemi : ∀ y, 0 < t.numberOf y → y ≠ start → IsSemi g start t (s₀.semiOf y) y := by
    intro y hy hne
    have : t.numberOf y ≠ t.numberOf start := fun h => hne (T.eq_of_numberOf_eq hy h)
    exact P.semi y (by omega)
  have hsemiw : s.semiOf w = s₀.semiOf w := congrArg (fun l : Array Nat => l[w]?.getD w) R.semi
  have hwlt : w < s.immediate.size := by
    rw [R.size, P.sizeImmediate]
    exact T.lt_size hwpos
  have himmw : s.immediateOf w = s₀.immediateOf w := R.rest w (by omega)
  have hcases : ∀ v, t.numberOf v ≤ k + 1 → v = w ∨ t.numberOf v ≤ k := by
    intro v hv
    by_cases hvk : t.numberOf v ≤ k
    · exact Or.inr hvk
    · exact Or.inl (T.eq_of_numberOf_eq (by omega) (by omega))
  unfold DominatorTables.resolve
  rw [hsemiw, himmw]
  cases P.settled_of_one T (show 1 < t.numberOf w by omega) with
  | own himm hleast =>
      rw [if_pos himm]
      refine ⟨R.semi, R.size, fun v hv hvk => ?_, fun v hv => R.rest v (by omega)⟩
      rcases hcases v hvk with rfl | hvk
      · exact ⟨_, himmw.trans himm,
          T.isImmediate_of_least hsemi hwpos (hstart v hv) hleast⟩
      · exact R.done v hv hvk
  | @shared u himm hu hlt hleast =>
      have hne : s₀.immediateOf w ≠ some (s₀.semiOf w) := by
        rw [himm, Ne, Option.some.injEq]
        exact hu.2.1
      have hupos := T.pos_of_ancestor hu.2.2 hwpos
      have hlow := T.lt_of_ancestor hu.1 (Ne.symm hu.2.1) hupos
      have huw := T.lt_of_ancestor hu.2.2 (by rintro rfl; exact Nat.lt_irrefl _ hlt) hwpos
      have hsemipos := T.pos_of_ancestor hu.1 hupos
      obtain ⟨d, hd, hdu⟩ := R.done u (by omega) (by omega)
      rw [if_neg hne, himm, Option.bind_some, hd]
      have himm' : ∀ v, ({ s with immediate := s.immediate.setIfInBounds w (some d) } :
          DominatorTables).immediateOf v = if v = w then some d else s.immediateOf v :=
        fun v => join_setIfInBounds _ hwlt _
      refine ⟨R.semi, by simp [R.size], fun v hv hvk => ?_, fun v hv => ?_⟩
      · rw [himm']
        rcases hcases v hvk with rfl | hvk
        · rw [if_pos rfl]
          exact ⟨d, rfl, T.isImmediate_of_shared hsemi hwpos (hstart v hv) hu hleast hdu⟩
        · rw [if_neg (by rintro rfl; omega)]
          exact R.done v hv hvk
      · rw [himm', if_neg (by rintro rfl; omega)]
        exact R.rest v (by omega)

/-- **The tables hold the immediate dominators** in the end. -/
theorem isImmediate_finished (T : DepthFirstTree g start t) :
    (finished g t).immediate.size = g.size ∧ ∀ v, g.Reaches start v → v ≠ start →
      ∃ d, (finished g t).immediateOf v = some d ∧ IsImmediate g start d v := by
  have P := progress_processed T
  have key : ∀ (l : List Nat) (k : Nat) (s : DominatorTables),
      (∀ (i : Nat) v, l[i]? = some v → t.numberOf v = k + i + 1) → 1 ≤ k →
      Resolved g start t k (processed g t) s →
      Resolved g start t (k + l.length) (processed g t) (l.foldl resolve s) := by
    intro l
    induction l with
    | nil => exact fun _ _ _ _ R => R
    | cons w l ih =>
        intro k s hl hk R
        have R' := ih (k + 1) (s.resolve w) (fun i v hv => by have := hl (i + 1) v hv; omega)
          (by omega) (R.resolve T P hk (hl 0 w rfl))
        rw [List.length_cons, show k + (l.length + 1) = k + 1 + l.length by omega]
        exact R'
  have R := key t.preorder.toList.tail 1 (processed g t)
    (fun i v hv => by have := (getElem?_tail_preorder T).1 hv; omega) (Nat.le_refl _)
    ⟨rfl, rfl, fun v hv hv' => absurd hv (by omega), fun _ _ => rfl⟩
  refine ⟨R.size.trans P.sizeImmediate, fun v hv hne => ?_⟩
  have hpos := T.numberOf_pos_iff.2 hv
  have hone := T.numberOf_start
  have hle := T.consistent.numberOf_le v
  have hne' : t.numberOf v ≠ t.numberOf start := fun h => hne (T.eq_of_numberOf_eq hpos h)
  refine R.done v (by omega) ?_
  rw [List.length_tail, Array.length_toList]
  omega

end DominatorTables
end FlowVerifier
