import FlowVerifier.Proofs.Reports
import FlowVerifier.Proofs.Simplify.Edits
import FlowVerifier.Proofs.Simplify.Neighbours
import FlowVerifier.Proofs.Simplify.Worklist
import Mathlib

/-!
# Where the worklist ends

A block comes back on the worklist when a pass reports it.  The worklist relies on the
passes: at every block that does not wait, all of them rest.  A visit preserves this as
long as no offer is careless (`Offer.isCareless`), so that nothing is left to be done when
the list is empty (`run_fixpoint`).

An elision is careless if it loses the last read of a variable that is written elsewhere,
or a call whose return site could then be fused.  It reports its predecessors and its
target, and not the blocks that have become simpler: a second simplification goes further
(`run_unfinished`).
-/

namespace FlowVerifier
namespace Simplify

open FlowGraph

variable {α β : Type} {g g' : FlowGraph} {id : BlockId} {passes rest : List Pass}
  {queue : List BlockId}

/-! ## Runs -/

/-- Whatever was recorded before, the transformation succeeds with this result and leaves
this graph. -/
def Runs (x : Transform α) (g : FlowGraph) (a : α) (g' : FlowGraph) : Prop :=
  ∀ log, ∃ log', outcome x ⟨g, log⟩ = (.ok a, ⟨g', log'⟩)

namespace Runs

theorem pure (a : α) (g : FlowGraph) : Runs (pure a) g a g := fun log => ⟨log, rfl⟩

theorem graph (g : FlowGraph) : Runs Transform.graph g g g := fun log => ⟨log, rfl⟩

theorem bind {x : Transform α} {f : α → Transform β} {a : α} {b : β} {g'' : FlowGraph}
    (hx : Runs x g a g') (hf : Runs (f a) g' b g'') : Runs (x >>= f) g b g'' := by
  intro log
  obtain ⟨log', hx⟩ := hx log
  obtain ⟨log'', hf⟩ := hf log'
  exact ⟨log'', by rw [outcome_bind_ok hx, hf]⟩

theorem record (event : Event) (g : FlowGraph) : Runs (Transform.record event) g () g :=
  fun _ => ⟨_, rfl⟩

theorem forIn_record {l : List α} {event : α → Event} :
    Runs (ForIn.forIn l PUnit.unit fun a _ => do
      Transform.record (event a)
      Pure.pure (ForInStep.yield PUnit.unit)) g PUnit.unit g := by
  induction l with
  | nil => exact .pure _ g
  | cons a l ih =>
      rw [List.forIn_cons]
      exact .bind (.bind (.record _ g) (.pure _ g)) ih

/-- A transformation that does not look at the log. -/
theorem of_oblivious {x : Transform α} {errs : Prop} (h : Oblivious errs x) {w : Workspace}
    {a : α} (hrun : outcome x ⟨g, .empty⟩ = (.ok a, w)) : Runs x g a w.graph := by
  intro log
  obtain ⟨log', hlog, -⟩ := h.of_empty hrun log
  exact ⟨log', hlog⟩

theorem checkValid (hg : WellFormed g) : Runs checkValid g () g := by
  refine .bind (.graph g) ?_
  rw [validate_iff.2 hg]
  exact .pure () g

end Runs

/-- The graph breaks no rule, its blocks have distinct names, and no predecessor is listed
twice. -/
structure Orderly (g : FlowGraph) : Prop where
  proper : Proper g
  listed : ListedOnce g

/-- **One pass at one block.** -/
theorem runs_apply (pass : Pass) (hg : Orderly g) (id : BlockId) :
    ∃ changed, Runs (pass.apply id) g changed (g.after (pass.apply id)) ∧
      Orderly (g.after (pass.apply id)) ∧
      (pass.AtRest g id → changed = [] ∧ g.after (pass.apply id) = g) ∧
      (¬ pass.AtRest g id → Progress g id changed (g.after (pass.apply id)) pass) := by
  obtain ⟨changed, w', hrun, -, hrest, hbusy⟩ :=
    outcome_apply pass (w := { graph := g }) hg.proper.wellFormed id
  have hafter : g.after (pass.apply id) = w'.graph := congrArg (·.2.graph) hrun
  have hproper : Proper w'.graph := by
    have hsound : Sound True (pass.apply id) := sound_apply (fun _ => trivial) id
    obtain ⟨a, w₁, hrun', hstands⟩ := hsound { graph := g } hg.proper
    obtain ⟨-, rfl⟩ := Prod.mk.inj (hrun'.symm.trans hrun)
    exact hstands.proper
  have hlisted : ListedOnce w'.graph := by
    have hleft := stable_listedOnce.apply pass id { graph := g } hg.listed
    rwa [hrun] at hleft
  rw [hafter]
  exact ⟨changed, .of_oblivious (.apply pass id) hrun, ⟨hproper, hlisted⟩, hrest, hbusy⟩

/-! ## Offers -/

/-- A block that was offered to a pass, with the graph before and after. -/
structure Offer where
  /-- The pass. -/
  pass : Pass
  /-- The block. -/
  block : BlockId
  /-- The graph that the pass was given. -/
  before : FlowGraph
  /-- The graph that the pass left. -/
  after : FlowGraph

namespace Offer

/-- Is a variable that is written read no more? -/
def losesRead (o : Offer) : Bool :=
  o.before.readVariables.any fun x =>
    o.after.writtenVariables.contains x && !o.after.readVariables.contains x

/-- Is a block gone that was on record for a call? -/
def losesCall (o : Offer) : Bool :=
  !o.after.contains o.block &&
    o.before.functions.any fun info => info.calls.any (·.caller == o.block)

/-- Was a detour taken out that gave a pass something to do elsewhere? -/
def isCareless (passes : List Pass) (o : Offer) : Bool :=
  o.pass == .emptyBlocks &&
    (passes.contains (.constants true) && o.losesRead || passes.contains .fusion && o.losesCall)

/-- An elision that is not careless loses nothing that the passes rely on. -/
theorem careful {o : Offer} (h : o.isCareless passes = false) (hpass : o.pass = .emptyBlocks) :
    (.constants true ∈ passes → o.losesRead = false) ∧
      (.fusion ∈ passes → o.losesCall = false) := by
  unfold isCareless at h
  rw [hpass, beq_self_eq_true, Bool.true_and, Bool.or_eq_false_iff] at h
  refine ⟨fun hmem => ?_, fun hmem => ?_⟩
  · simpa [hmem] using h.1
  · simpa [hmem] using h.2

theorem losesNoRead {o : Offer} (h : o.losesRead = false) : LosesNoRead o.before o.after := by
  intro x hx hwritten
  unfold losesRead at h
  by_contra hnone
  have hlost := List.any_eq_false.1 h x hx
  exact hlost (by simp [hwritten, hnone])

theorem losesNoCall {o : Offer} (h : o.losesCall = false)
    (hgone : o.after.contains o.block = false) : LosesNoCall o.before o.block := by
  intro k info c hk hc hcaller
  unfold losesCall at h
  rw [hgone, Bool.not_false, Bool.true_and, Array.any_eq_false'] at h
  have hmem : info ∈ o.before.functions := Array.mem_of_getElem? hk
  refine h info hmem (List.any_eq_true.2 ⟨c, hc, by simp [hcaller]⟩)

end Offer

/-- The offers of a visit. -/
def visitOffers (id : BlockId) : List Pass → FlowGraph → List Offer
  | [], _ => []
  | pass :: rest, g =>
    if g.contains id then
      ⟨pass, id, g, g.after (pass.apply id)⟩ :: visitOffers id rest (g.after (pass.apply id))
    else []

/-- The offers of at most `left` visits. -/
def drainOffers (passes : List Pass) : Nat → List BlockId → FlowGraph → List Offer
  | left + 1, id :: rest, g =>
    visitOffers id passes g ++
      match outcome (visit id passes (rest, 0)) { graph := g } with
      | (.ok (queue, _), w) => drainOffers passes left queue w.graph
      | (.error _, _) => []
  | _, _, _ => []

/-- The offers of a run. -/
def runOffers (cap : Nat) (passes : List Pass) (g : FlowGraph) : List Offer :=
  drainOffers passes cap (initialQueue g) g

/-! ## The invariant of the worklist -/

/-- At every block that does not wait, the passes rest. -/
def Rested (passes : List Pass) (g : FlowGraph) (queue : List BlockId) : Prop :=
  ∀ j ∉ queue, ∀ pass ∈ passes, pass.AtRest g j

/-- There is nothing to do at a block that is gone. -/
theorem atRest_of_gone (pass : Pass) (h : g.contains id = false) : pass.AtRest g id := by
  have hnone : g.block? id = none := by simpa [contains] using h
  cases pass with
  | constants removeUnused =>
      intro b hb
      rw [bare?, hnone] at hb
      cases hb
  | emptyBlocks => simp [Pass.AtRest, detourTarget?, hnone]
  | fusion => simp [Pass.AtRest, fusionTarget?, hnone]

theorem mem_enqueue {j : BlockId} (queue changed : List BlockId) :
    j ∈ enqueue g queue changed ↔ j ∈ queue ∨ j ∈ changed ∧ g.contains j = true := by
  unfold enqueue
  induction changed generalizing queue with
  | nil => simp
  | cons i changed ih =>
      rw [List.foldl_cons, ih, List.mem_cons]
      by_cases hi : g.contains i = true ∧ i ∉ queue
      · rw [if_pos (by simpa using hi), List.mem_append, List.mem_singleton]
        constructor
        · rintro ((hj | rfl) | ⟨hj, hlive⟩)
          · exact .inl hj
          · exact .inr ⟨.inl rfl, hi.1⟩
          · exact .inr ⟨.inr hj, hlive⟩
        · rintro (hj | ⟨rfl | hj, hlive⟩)
          · exact .inl (.inl hj)
          · exact .inl (.inr rfl)
          · exact .inr ⟨hj, hlive⟩
      · rw [if_neg (by simpa using hi)]
        constructor
        · rintro (hj | ⟨hj, hlive⟩)
          · exact .inl hj
          · exact .inr ⟨.inr hj, hlive⟩
        · rintro (hj | ⟨rfl | hj, hlive⟩)
          · exact .inl hj
          · exact .inl (by_contra fun hout => hi ⟨hlive, hout⟩)
          · exact .inr ⟨hj, hlive⟩

/-- A pass that does something reports something, and the block itself if it is still
there. -/
theorem Progress.reported {changed : List BlockId} {pass : Pass}
    (h : Progress g id changed g' pass) :
    changed ≠ [] ∧ (g'.contains id = true → id ∈ changed) := by
  cases h with
  | constants hb h ht => exact ⟨List.ne_nil_of_mem ht.reported, fun _ => ht.reported⟩
  | @emptyBlocks target b bn hd hnew h hchanged =>
      have hmem : target ∈ changed := by
        rw [hchanged]
        simp [hd.distinct]
      refine ⟨List.ne_nil_of_mem hmem, fun hlive => ?_⟩
      rw [contains_eq_isSome_bare?, h.bare, if_pos rfl] at hlive
      cases hlive
  | fusion hf h hchanged =>
      refine ⟨by simp [hchanged], fun hlive => ?_⟩
      rw [contains_eq_isSome_bare?, h.bare, if_pos rfl] at hlive
      cases hlive

/-- **One change.**  If the offer is not careless, the passes rest at the blocks that do
not wait after those that are reported have joined the queue. -/
theorem Progress.rested {changed : List BlockId} {pass : Pass}
    (h : Progress g id changed g' pass) (hg : Orderly g) (hg' : Orderly g')
    (hcare : Offer.isCareless passes ⟨pass, id, g, g'⟩ = false)
    (hrest : ∀ j ∉ queue, j ≠ id → ∀ p ∈ passes, p.AtRest g j) :
    Rested passes g' (enqueue g' queue changed) := by
  intro j hj p hp
  rw [mem_enqueue, not_or, not_and] at hj
  by_cases hlive : g'.contains j = true
  · have hout : j ∉ changed := fun hin => hj.2 hin hlive
    have hne : j ≠ id := fun heq => hout (by rw [heq]; exact h.reported.2 (heq ▸ hlive))
    have hcareful : pass = .emptyBlocks →
        (p = .constants true → LosesNoRead g g') ∧ (p = .fusion → LosesNoCall g id) := by
      rintro rfl
      have hgone : g'.contains id = false := by
        cases h with
        | emptyBlocks hd hnew h hchanged =>
            rw [contains_eq_isSome_bare?, h.bare, if_pos rfl]
            rfl
      obtain ⟨hread, hcall⟩ := Offer.careful hcare rfl
      constructor
      · intro hremove
        exact Offer.losesNoRead (o := ⟨.emptyBlocks, id, g, g'⟩) (hread (hremove ▸ hp))
      · intro hfuse
        exact Offer.losesNoCall (hcall (hfuse ▸ hp)) hgone
    exact h.atRest hg.proper hg.listed hg'.proper hlive hout (fun he => (hcareful he).1)
      (fun he => (hcareful he).2) (hrest j hj.1 hne p hp)
  · exact atRest_of_gone p (by simpa using hlive)

/-- **One visit.**  The passes that were offered the block already rest at it, as long as
it does not wait. -/
theorem runs_visit (hg : Orderly g) (queue : List BlockId) (done : List Pass)
    (hrest : ∀ p ∈ rest, p ∈ passes)
    (hall : ∀ p ∈ passes, p ∈ done ∨ p ∈ rest)
    (hothers : ∀ j ∉ queue, j ≠ id → ∀ p ∈ passes, p.AtRest g j)
    (hdone : id ∉ queue → ∀ p ∈ done, p.AtRest g id)
    (hcare : ∀ o ∈ visitOffers id rest g, o.isCareless passes = false) :
    ∃ queue' n g', (∀ m, Runs (visit id rest (queue, m)) g (queue', m + n) g') ∧ Orderly g' ∧
      Rested passes g' queue' := by
  induction rest generalizing g queue done with
  | nil =>
      refine ⟨queue, 0, g, fun m => .pure _ g, hg, fun j hj p hp => ?_⟩
      by_cases heq : j = id
      · subst heq
        exact hdone hj p ((hall p hp).resolve_right (by simp))
      · exact hothers j hj heq p hp
  | cons pass rest ih =>
      by_cases hlive : g.contains id = true
      · obtain ⟨changed, hrun, hg', hstill, hbusy⟩ := runs_apply pass hg id
        simp only [visitOffers, hlive, if_true, List.forall_mem_cons] at hcare
        obtain ⟨hcare, hlater⟩ := hcare
        have hsub : ∀ p ∈ rest, p ∈ passes := fun p hp => hrest p (List.mem_cons_of_mem _ hp)
        by_cases hidle : pass.AtRest g id
        · obtain ⟨rfl, hsame⟩ := hstill hidle
          rw [hsame] at hrun hlater
          have hoffered : ∀ p ∈ passes, p ∈ pass :: done ∨ p ∈ rest := by
            intro p hp
            rcases hall p hp with h | h
            · exact .inl (List.mem_cons_of_mem _ h)
            · rcases List.mem_cons.1 h with rfl | h
              · exact .inl List.mem_cons_self
              · exact .inr h
          obtain ⟨queue', n, g', hvisit, hg', hrested⟩ := ih hg queue (pass :: done) hsub
            hoffered hothers (fun hid => List.forall_mem_cons.2 ⟨hidle, hdone hid⟩) hlater
          refine ⟨queue', n, g', fun m => ?_, hg', hrested⟩
          refine .bind (.graph g) ?_
          rw [if_pos hlive]
          exact .bind hrun (hvisit m)
        · have hprogress := hbusy hidle
          have hrested := hprogress.rested hg hg' hcare hothers
          obtain ⟨queue', n, g', hvisit, hg', hrested⟩ := ih hg' _ passes hsub
            (fun p hp => .inl hp) (fun j hj _ => hrested j hj) (fun hid => hrested id hid) hlater
          refine ⟨queue', n + 1, g', fun m => ?_, hg', hrested⟩
          refine .bind (.graph g) ?_
          rw [if_pos hlive]
          refine .bind hrun ?_
          rw [if_neg (by simpa using hprogress.reported.1), Nat.add_comm n, ← Nat.add_assoc]
          exact .bind (.graph _) (hvisit (m + 1))
      · refine ⟨queue, 0, g, fun m => ?_, hg, fun j hj p hp => ?_⟩
        · refine .bind (.graph g) ?_
          rw [if_neg hlive]
          exact .pure _ g
        · by_cases heq : j = id
          · exact atRest_of_gone p (by simpa [heq] using hlive)
          · exact hothers j hj heq p hp

/-- **The worklist.**  If it is emptied, the passes rest everywhere. -/
theorem runs_drain (cap left : Nat) (hg : Orderly g) (hrest : Rested passes g queue)
    (hcare : ∀ o ∈ drainOffers passes left queue g, o.isCareless passes = false)
    (stats : Stats) :
    ∃ stats' g', Runs (drain cap passes left queue stats) g stats' g' ∧ Orderly g' ∧
      (stats'.converged = true → Rested passes g' []) := by
  induction left generalizing g queue stats with
  | zero =>
      cases queue with
      | nil => exact ⟨stats, g, .pure stats g, hg, fun _ => hrest⟩
      | cons id rest =>
          exact ⟨{ stats with converged := false }, g, .bind (.record _ g) (.pure _ g), hg, nofun⟩
  | succ left ih =>
      cases queue with
      | nil => exact ⟨stats, g, .pure stats g, hg, fun _ => hrest⟩
      | cons id rest =>
          have hvisit : ∀ o ∈ visitOffers id passes g, o.isCareless passes = false :=
            fun o ho => hcare o (List.mem_append_left _ ho)
          obtain ⟨queue', n, g', hrun, hg', hrested⟩ := runs_visit hg rest []
            (fun p hp => hp) (fun p hp => .inr hp)
            (fun j hj hne => hrest j (by simp [hj, hne])) (fun _ p hp => by cases hp) hvisit
          have hlater : ∀ o ∈ drainOffers passes left queue' g', o.isCareless passes = false := by
            intro o ho
            obtain ⟨log, hempty⟩ := hrun 0 .empty
            refine hcare o (List.mem_append_right _ ?_)
            rw [hempty]
            exact ho
          obtain ⟨stats', g'', hdrain, hg'', hend⟩ := ih hg' hrested hlater
            { stats with visits := stats.visits + 1, changes := stats.changes + n }
          exact ⟨stats', g'', .bind (hrun stats.changes) hdrain, hg'', hend⟩

/-! ## Where all passes rest -/

/-- A pass that rests reports nothing and leaves the graph alone. -/
theorem runs_apply_rested {pass : Pass} (hg : Orderly g) (h : pass.AtRest g id) :
    Runs (pass.apply id) g [] g := by
  obtain ⟨changed, hrun, -, hstill, -⟩ := runs_apply pass hg id
  obtain ⟨rfl, hsame⟩ := hstill h
  rwa [hsame] at hrun

theorem runs_visit_rested (hg : Orderly g) (h : ∀ p ∈ rest, p.AtRest g id)
    (state : List BlockId × Nat) : Runs (visit id rest state) g state g := by
  induction rest with
  | nil => exact .pure state g
  | cons pass rest ih =>
      obtain ⟨queue, changes⟩ := state
      obtain ⟨hpass, hrest⟩ := List.forall_mem_cons.1 h
      refine .bind (.graph g) ?_
      split
      · exact .bind (runs_apply_rested hg hpass) (ih hrest)
      · exact .pure _ g

theorem runs_drain_rested (cap left : Nat) (hg : Orderly g) (h : Rested passes g [])
    (queue : List BlockId) (stats : Stats) :
    ∃ stats', Runs (drain cap passes left queue stats) g stats' g ∧
      stats'.changes = stats.changes := by
  induction left generalizing queue stats with
  | zero =>
      cases queue with
      | nil => exact ⟨stats, .pure stats g, rfl⟩
      | cons id rest =>
          exact ⟨{ stats with converged := false }, .bind (.record _ g) (.pure _ g), rfl⟩
  | succ left ih =>
      cases queue with
      | nil => exact ⟨stats, .pure stats g, rfl⟩
      | cons id rest =>
          have hvisit := runs_visit_rested hg (h id (by simp)) (rest, stats.changes)
          obtain ⟨stats', hdrain, hchanges⟩ := ih rest
            { stats with visits := stats.visits + 1, changes := stats.changes }
          exact ⟨stats', .bind hvisit hdrain, hchanges⟩

/-! ## The run -/

/-- Every block waits to begin with. -/
theorem mem_initialQueue {j : BlockId} (h : g.contains j = true) : j ∈ initialQueue g := by
  unfold initialQueue
  rw [List.mem_eraseDups]
  obtain ⟨b, hb⟩ := contains_iff.1 h
  exact List.mem_append_right _ (List.mem_map.2 ⟨(j, b), mem_blocks.2 hb, rfl⟩)

theorem rested_initialQueue (passes : List Pass) (g : FlowGraph) :
    Rested passes g (initialQueue g) := fun j hj p _ =>
  atRest_of_gone p (by simpa using fun hlive => hj (mem_initialQueue hlive))

/-- A run works through the list and records what it does. -/
theorem runs_run {cap : Nat} {stats : Stats} (hpasses : passes.isEmpty = false)
    (hdrain : Runs (drain cap passes cap (initialQueue g) {}) g stats g') (hg' : WellFormed g') :
    Runs (run cap passes) g stats g' := by
  unfold run
  rw [if_neg (by simp [hpasses])]
  exact .bind .forIn_record (.bind (.graph g) (.bind hdrain
    (.bind (.checkValid hg') (.bind .forIn_record (.pure stats g')))))

/-- **A run that converges ends in a fixpoint.**  If no offer of the run is careless, then
no pass changes anything any more: offered any block that is left it reports nothing, and
a second run makes no change. -/
theorem run_fixpoint {w : Workspace} (hvalid : w.graph.validate = .ok ())
    (hnames : w.graph.UniqueNames) (hlisted : w.graph.ListedOnce) (cap : Nat)
    (passes : List Pass)
    (hcare : ∀ o ∈ runOffers cap passes w.graph, o.isCareless passes = false) :
    ∃ stats w', (run cap passes).runOn w = (.ok stats, w') ∧
      (stats.converged = true →
        (∀ pass ∈ passes, ∀ id, w'.graph.contains id = true →
          ∃ v, (pass.apply id).runOn w' = (.ok [], v) ∧ v.graph = w'.graph) ∧
        ∃ again v, (run cap passes).runOn w' = (.ok again, v) ∧ again.changes = 0 ∧
          v.graph = w'.graph) := by
  have hg : Orderly w.graph := ⟨⟨validate_iff.1 hvalid, hnames⟩, hlisted⟩
  cases hpasses : passes.isEmpty with
  | true =>
      obtain rfl := List.isEmpty_iff.1 hpasses
      exact ⟨{}, w, rfl, fun _ => ⟨nofun, {}, w, rfl, rfl, rfl⟩⟩
  | false =>
      obtain ⟨stats, g', hdrain, hg', hend⟩ :=
        runs_drain cap cap hg (rested_initialQueue passes w.graph) hcare {}
      obtain ⟨log, hrun⟩ := runs_run hpasses hdrain hg'.proper.wellFormed w.log
      refine ⟨stats, ⟨g', log⟩, hrun, fun hconverged => ?_⟩
      have hrested := hend hconverged
      constructor
      · intro pass hpass id _
        obtain ⟨log', happly⟩ := runs_apply_rested hg' (hrested id (by simp) pass hpass) log
        exact ⟨_, happly, rfl⟩
      · obtain ⟨again, hdrain', hchanges⟩ :=
          runs_drain_rested cap cap hg' hrested (initialQueue g') {}
        obtain ⟨log', hrun'⟩ := runs_run hpasses hdrain' hg'.proper.wellFormed log
        exact ⟨again, _, hrun', hchanges, rfl⟩

/-- A program that tests a variable to choose between a block and an empty block that leads
there.  The block prints `last`. -/
def choice (last : Operand) : FlowGraph where
  slots := #[
    some {
      name := "a"
      body := [.input "y", .assign "x" (.literal (.string "t"))]
      terminator := .branch ⟨.var "y", .lt, .literal (.number Double.zero)⟩ 1 2 },
    some {
      name := "b"
      body := [.print (.var "y")]
      terminator := .jump 2
      predecessors := [0] },
    some {
      name := "c"
      body := [.print (.var "y")]
      terminator := .branch ⟨.var "x", .eq, .literal (.string "t")⟩ 3 4
      predecessors := [0, 1] },
    some { name := "d", terminator := .jump 4, predecessors := [2] },
    some { name := "e", body := [.print last], predecessors := [2, 3] }]
  first := some 0
  last := some 4

/-- If the tested variable is printed, the elision of the empty block loses no read, and the
simplification ends in a fixpoint: the block that prints is fused. -/
theorem run_fixpoint_choice :
    (choice (.var "x")).validate = .ok () ∧ (choice (.var "x")).UniqueNames ∧
      (choice (.var "x")).ListedOnce ∧
      (∀ o ∈ runOffers 20 (Pass.enabled {}) (choice (.var "x")),
        o.isCareless (Pass.enabled {}) = false) ∧
      ∃ stats w', (run 20 (Pass.enabled {})).runOn { graph := choice (.var "x") } =
          (.ok stats, w') ∧ stats.converged = true ∧ stats.changes = 2 ∧
        (∀ pass ∈ Pass.enabled {}, ∀ id, w'.graph.contains id = true →
          ∃ v, (pass.apply id).runOn w' = (.ok [], v) ∧ v.graph = w'.graph) ∧
        ∃ again v, (run 20 (Pass.enabled {})).runOn w' = (.ok again, v) ∧ again.changes = 0 ∧
          v.graph = w'.graph := by
  have hvalid : (choice (.var "x")).validate = .ok () := by cbv
  have hnames : (choice (.var "x")).UniqueNames := uniqueNames_of_nodup (by decide)
  have hlisted : (choice (.var "x")).ListedOnce := listedOnce_of_nodup (by decide)
  have hcare : ∀ o ∈ runOffers 20 (Pass.enabled {}) (choice (.var "x")),
      o.isCareless (Pass.enabled {}) = false := by
    have hall : (runOffers 20 (Pass.enabled {}) (choice (.var "x"))).all
        (fun o => !o.isCareless (Pass.enabled {})) = true := by cbv
    intro o ho
    simpa using List.all_eq_true.1 hall o ho
  have heval : ((run 20 (Pass.enabled {})).runOn { graph := choice (.var "x") }).1.map
      (fun stats => (stats.converged, stats.changes)) = .ok (true, 2) := by cbv
  obtain ⟨stats, w', hrun, hfixpoint⟩ := run_fixpoint (w := { graph := choice (.var "x") })
    hvalid hnames hlisted 20 (Pass.enabled {}) hcare
  rw [hrun] at heval
  obtain ⟨hconverged, hchanges⟩ := Prod.mk.inj (Except.ok.inj heval)
  obtain ⟨hrests, hagain⟩ := hfixpoint hconverged
  exact ⟨hvalid, hnames, hlisted, hcare, stats, w', hrun, hconverged, hchanges, hrests, hagain⟩

/-- A program in which an empty block is on record for a call, which returns to a block
that only one other block leads to. -/
def uncalled : FlowGraph where
  slots := #[
    some {
      name := "a"
      body := [.input "y"]
      terminator := .branch ⟨.var "y", .lt, .literal (.number Double.zero)⟩ 3 1 },
    some { name := "p", body := [.print (.var "y")], terminator := .jump 2, predecessors := [0] },
    some { name := "s", body := [.print (.var "y")], predecessors := [1] },
    some { name := "m", terminator := .jump 4, predecessors := [0] },
    some { name := "t", body := [.print (.var "y")], predecessors := [3] }]
  functions := #[{ name := "f", calls := [⟨3, 2, 0⟩] }]
  first := some 0
  last := some 4

/-- The simplification of the program converges, and yet a pass reports something at a block
that is left, and a second simplification changes something. -/
structure LeftUnfinished (g : FlowGraph) (pass : Pass) (id : BlockId) : Prop where
  valid : g.validate = .ok ()
  names : g.UniqueNames
  listed : g.ListedOnce
  wanted : pass ∈ Pass.enabled {}
  unfinished : ∃ stats w', (simplify {}).runOn { graph := g } = (.ok stats, w') ∧
    stats.converged = true ∧ w'.graph.contains id = true ∧
    (∃ changed v, (pass.apply id).runOn w' = (.ok changed, v) ∧ changed ≠ []) ∧
    ∃ again v, (simplify {}).runOn w' = (.ok again, v) ∧ again.changes ≠ 0

/-- What two simplifications do can be read off their results. -/
theorem leftUnfinished_of_eval {pass : Pass} (changed : List BlockId) (n : Nat)
    (hvalid : g.validate = .ok ()) (hnames : g.UniqueNames) (hlisted : g.ListedOnce)
    (hwanted : pass ∈ Pass.enabled {})
    (hrun : ((simplify {}).runOn { graph := g }).1.map (·.converged) = .ok true)
    (hlive : ((simplify {}).runOn { graph := g }).2.graph.contains id = true)
    (hpass : ((pass.apply id).runOn ((simplify {}).runOn { graph := g }).2).1 = .ok changed)
    (hchanged : changed ≠ [])
    (hagain : ((simplify {}).runOn ((simplify {}).runOn { graph := g }).2).1.map (·.changes) =
      .ok (n + 1)) : LeftUnfinished g pass id := by
  obtain ⟨stats, hstats, hconverged⟩ := map_eq_ok_iff.1 hrun
  obtain ⟨again, hok, hchanges⟩ := map_eq_ok_iff.1 hagain
  refine ⟨hvalid, hnames, hlisted, hwanted, stats, _, Prod.ext hstats rfl, hconverged, hlive,
    ⟨changed, _, Prod.ext hpass rfl, hchanged⟩, again, _, Prod.ext hok rfl, ?_⟩
  rw [hchanges]
  exact Nat.succ_ne_zero n

/-- **A converged simplification may be no fixpoint.**  When the empty block goes that is one
side of a branch, nothing reads the tested variable any more, and the block that writes it
is not offered again.  When the empty block goes that is on record for a call, the block
where the call returned to could be fused, and is not offered again. -/
theorem run_unfinished :
    LeftUnfinished (choice (.var "y")) (.constants true) 0 ∧ LeftUnfinished uncalled .fusion 2 := by
  constructor
  · exact leftUnfinished_of_eval [0] 0 (by cbv) (uniqueNames_of_nodup (by decide))
      (listedOnce_of_nodup (by decide)) (by decide) (by cbv) (by cbv) (by cbv) (by decide)
      (by cbv)
  · exact leftUnfinished_of_eval [1] 0 (by cbv) (uniqueNames_of_nodup (by decide))
      (listedOnce_of_nodup (by decide)) (by decide) (by cbv) (by cbv) (by cbv) (by decide)
      (by cbv)

end Simplify
end FlowVerifier
