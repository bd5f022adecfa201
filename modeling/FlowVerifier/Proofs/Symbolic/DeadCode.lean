import FlowVerifier.Proofs.Flow.Removal
import FlowVerifier.Proofs.Invariants
import FlowVerifier.Proofs.Run.Machine
import FlowVerifier.Symbolic.DeadCode
import Mathlib

/-!
# Dead code

Dead code is what no path of a search enters, and it is removed block by block.

* `removal_validate_iff`: which removals keep a graph valid, and when the elimination of
  dead code does.  `circling` and `recursing` are graphs that it breaks.
* `drift` is a loop in which too much is dead: a path is cut where the record covers its
  values, although the record also knows a relation between two variables that no longer
  holds.
-/

namespace FlowVerifier

open FlowGraph Run

namespace Symbolic

variable {g g' : FlowGraph} {w : Workspace} {id : BlockId}

/-! ## Removing dead blocks -/

theorem outcome_tryRemove {r : Except Error Unit} (h : outcome (removeNode id) w.graph = (r, g'))
    {done : Bool} (hr : (r = .ok () ∧ done = true) ∨
      ∃ name, r = .error (.ambiguousExit name) ∧ done = false) :
    outcome (tryRemove id) w = (.ok done, { w with graph := g' }) := by
  unfold tryRemove
  rw [outcome_bind, outcome_get]
  dsimp only
  rw [show (removeNode id).runOn w.graph = (r, g') from h, outcome_bind, outcome_set]
  rcases hr with ⟨rfl, rfl⟩ | ⟨name, rfl, rfl⟩ <;> rfl

theorem maintains_tryRemove {I : FlowGraph → Prop} (h : Maintains I (removeNode id)) :
    Maintains (fun w : Workspace => I w.graph) (tryRemove id) := by
  intro w hw
  have hleft : I ((removeNode id).runOn w.graph).2 := h w.graph hw
  unfold tryRemove
  rw [outcome_bind_ok (outcome_get _)]
  dsimp only
  rw [outcome_bind_ok (outcome_set _ _)]
  rcases hrun : (removeNode id).runOn w.graph with ⟨r, g⟩
  rw [hrun] at hleft
  split <;> exact hleft

/-- What the removal of a block maintains, its removal as a dead block does. -/
theorem maintains_removeDead {I : FlowGraph → Prop} (h : Maintains I (removeNode id)) :
    Maintains (fun w : Workspace => I w.graph) (removeDead id) := by
  refine .graph_bind fun g _ => ?_
  split
  · exact .pure _
  · refine (maintains_tryRemove h).bind fun removed => ?_
    split
    · exact Maintains.bind (.modify fun _ hw => hw) fun _ =>
        Maintains.bind (.modify fun _ hw => hw) fun _ => .pure _
    · exact .pure _

/-- **One dead block.**  It is removed, or it stays and nothing changes. -/
theorem outcome_removeDead (h : WellFormed w.graph) (id : BlockId) :
    ∃ name w', outcome (removeDead id) w = (.ok name, w') ∧
      w'.graph = (outcome (removeNode id) w.graph).2 := by
  have hgraph : outcome Transform.graph w = (.ok w.graph, w) := rfl
  unfold removeDead
  rw [outcome_bind_ok hgraph]
  cases hb : w.graph.block? id with
  | none => exact ⟨none, w, rfl, by rw [outcome_removeNode_none hb]⟩
  | some b =>
      rcases removeNode_cases h hb with ⟨-, -, hfail⟩ | ⟨g', hok, -⟩
      · refine ⟨none, _, outcome_bind_ok (outcome_tryRemove hfail (.inr ⟨_, rfl, rfl⟩)), ?_⟩
        rw [hfail]
      · refine ⟨some b.name, _, outcome_bind_ok (outcome_tryRemove hok (.inl ⟨rfl, rfl⟩)), ?_⟩
        rw [hok]

/-- **Dead blocks one after the other.** -/
theorem outcome_filterMapM_removeDead {ids : List BlockId} (h : WellFormed w.graph)
    (hclean : CleanRun w.graph ids) :
    ∃ names w', outcome (ids.filterMapM removeDead) w = (.ok names, w') ∧
      WellFormed w'.graph := by
  induction ids generalizing w with
  | nil => exact ⟨[], w, rfl, h⟩
  | cons id ids ih =>
      obtain ⟨name, w', hrun, hgraph⟩ := outcome_removeDead h id
      have hwf : WellFormed w'.graph := hgraph ▸ (removeNode_step h id).2 hclean.1
      obtain ⟨names, w'', hrest, hwf'⟩ := ih hwf (hgraph ▸ hclean.2)
      rw [List.filterMapM_cons, outcome_bind_ok hrun]
      cases name with
      | none => exact ⟨names, w'', hrest, hwf'⟩
      | some name =>
          refine ⟨name :: names, w'', ?_, hwf'⟩
          dsimp only
          rw [outcome_bind_ok hrest]
          rfl

/-! ## Validity -/

/-- **Removal and validity.**  What the removal of a block from a valid graph leaves is
valid exactly if the block is no exit whose heir takes over an edge to it, and no return
of whose function some calls go and some stay; then no edge and no list refers to the
block any more.  Dead code elimination keeps a graph valid if this holds of each removal,
as it does where no exit leads to itself and no function calls itself. -/
theorem removal_validate_iff (h : g.validate = .ok ()) :
    (∀ id gone g', g.block? id = some gone → (removeNode id).runOn g = (.ok (), g') →
      (g'.validate = .ok () ↔ ¬ InheritsLoop g id gone ∧ ¬ ReturnsOn g id gone) ∧
        (g'.validate = .ok () → ∀ i, id ∉ g'.successors i ∧ id ∉ g'.predecessors i)) ∧
      (∀ s log, s.truncated = true ∨ CleanRun g (deadBlocks g s) →
        ∃ names w', (eliminateDeadCode s).runOn { graph := g, log } = (.ok names, w') ∧
          w'.graph.validate = .ok ()) ∧
      (Tame g → ∀ ids, CleanRun g ids) := by
  rw [validate_iff] at h
  refine ⟨fun id gone g' hb hrun => ?_, fun s log hclean => ?_, fun htame => htame.cleanRun h⟩
  · have hrun' : outcome (removeNode id) g = (.ok (), g') := hrun
    rcases removeNode_cases h hb with ⟨-, -, hfail⟩ | ⟨g'', hok, hgone, -, hiff⟩
    · rw [hfail] at hrun'
      exact absurd (congrArg Prod.fst hrun') (by simp)
    · obtain rfl : g'' = g' := congrArg Prod.snd (hok.symm.trans hrun')
      rw [validate_iff]
      exact ⟨hiff, fun hwf i => hwf.unlinked hgone i⟩
  · rw [show (eliminateDeadCode s).runOn { graph := g, log } =
      outcome (eliminateDeadCode s) { graph := g, log } from rfl]
    unfold eliminateDeadCode
    cases ht : s.truncated with
    | true => exact ⟨[], _, rfl, validate_iff.2 h⟩
    | false =>
        have hclean' := hclean.resolve_left (by simp [ht])
        obtain ⟨names, w', hrun, hwf⟩ :=
          outcome_filterMapM_removeDead (w := { graph := g, log }) h hclean'
        exact ⟨names, w', hrun, validate_iff.2 hwf⟩

/-- A test that always holds. -/
def always : Comparison := ⟨.literal (.number Double.zero), .le, .literal (.number Double.zero)⟩

/-- A function with two returns, one of them behind a test that always fails. -/
def guarded : FlowGraph where
  slots := #[
    some { name := "main", body := [.pushState "site"], terminator := .jump 2 },
    some { name := "site", predecessors := [3, 5] },
    some {
      name := "f"
      terminator := .branch always 3 4
      function := some 0
      predecessors := [0] },
    some { name := "return", terminator := .ret none, function := some 0, predecessors := [2] },
    some { name := "dead", terminator := .jump 5, function := some 0, predecessors := [2] },
    some {
      name := "exit"
      terminator := .ret none
      function := some 0
      isExit := true
      predecessors := [4] }]
  functions := #[
    { name := "f", entry := some 2, exit := some 5,
      calls := [{ caller := 0, returnTo := 1, saved := 0 }] }]
  first := some 0
  last := some 1

theorem tame_guarded : Tame guarded := by
  constructor
  · intro j b hb hexit
    match j, hb, hexit with
    | 5, rfl, _ => decide
  · intro f info c j b hf hc hend hb
    match f, hf with
    | 0, rfl =>
        obtain rfl := List.mem_singleton.1 hc
        rcases hend with rfl | rfl <;> cases hb <;> decide

/-- The exit of the function is handed on, and both blocks behind the test are dead. -/
theorem removal_validate_iff_guarded :
    (∃ g', (removeNode 5).runOn guarded = (.ok (), g') ∧ g'.validate = .ok ()) ∧
      ∃ summary log, searchFrom guarded {} {} = (.ok summary, log) ∧
        deadBlocks guarded summary = [4, 5] ∧
        ∃ names w', (eliminateDeadCode summary).runOn { graph := guarded, log } = (.ok names, w') ∧
          w'.graph.validate = .ok () := by
  have h := removal_validate_iff (g := guarded) (by cbv)
  refine ⟨⟨_, by cbv, ?_⟩, _, _, by cbv, by cbv, ?_⟩
  · exact ((h.1 5 _ _ rfl (by cbv)).1).2 (tame_guarded.clean rfl)
  · exact h.2.1 _ _ (.inr (h.2.2 tame_guarded _))

/-- A function with a dead exit that leads to itself.  The block before it is dead as
well, but an exit with two predecessors, and stays. -/
def circling : FlowGraph where
  slots := #[
    some { name := "main", body := [.pushState "site"], terminator := .jump 2 },
    some { name := "site", predecessors := [4] },
    some {
      name := "f"
      terminator := .branch always 3 5
      function := some 0
      predecessors := [0] },
    some {
      name := "again"
      terminator := .branch always 4 5
      function := some 0
      predecessors := [2] },
    some { name := "return", terminator := .ret none, function := some 0, predecessors := [3] },
    some {
      name := "leave"
      terminator := .jump 6
      function := some 0
      isExit := true
      predecessors := [2, 3] },
    some {
      name := "circle"
      terminator := .jump 6
      function := some 0
      isExit := true
      predecessors := [5, 6] }]
  functions := #[
    { name := "f", entry := some 2, exit := some 6,
      calls := [{ caller := 0, returnTo := 1, saved := 0 }] }]
  first := some 0
  last := some 1

/-- A function with a dead call of itself, after which it returns. -/
def recursing : FlowGraph where
  slots := #[
    some { name := "main", body := [.pushState "site"], terminator := .jump 2 },
    some { name := "site", predecessors := [3, 4] },
    some {
      name := "f"
      terminator := .branch always 3 5
      function := some 0
      predecessors := [0, 5] },
    some { name := "return", terminator := .ret none, function := some 0, predecessors := [2] },
    some {
      name := "back"
      terminator := .ret none
      function := some 0
      predecessors := [3, 4] },
    some {
      name := "call"
      body := [.pushState "back"]
      terminator := .jump 2
      function := some 0
      predecessors := [2] }]
  functions := #[
    { name := "f", entry := some 2,
      calls := [{ caller := 0, returnTo := 1, saved := 0 },
        { caller := 5, returnTo := 4, saved := 0 }] }]
  first := some 0
  last := some 1

/-- **Removals that break a graph.**  The heir of `circle` leads to `circle`, and `back`
stays in the list of `site`.  Dead code elimination makes both removals. -/
theorem removal_breaks :
    circling.validate = .ok () ∧ ((removeNode 6).runOn circling).1 = .ok () ∧
      ((removeNode 6).runOn circling).2.validate = .error (.internal (.deadEdge "leave" 6)) ∧
      (∃ summary log, searchFrom circling {} {} = (.ok summary, log) ∧
        ((eliminateDeadCode summary).runOn { graph := circling, log }).2.graph.validate =
          .error (.internal (.deadEdge "leave" 6))) ∧
    recursing.validate = .ok () ∧ ((removeNode 4).runOn recursing).1 = .ok () ∧
      ((removeNode 4).runOn recursing).2.validate =
        .error (.internal (.strayPredecessor "site" "n4")) ∧
      ∃ summary log, searchFrom recursing {} {} = (.ok summary, log) ∧
        ((eliminateDeadCode summary).runOn { graph := recursing, log }).2.graph.validate =
          .error (.internal (.strayPredecessor "site" "n4")) :=
  ⟨by cbv, by cbv, by cbv, ⟨_, _, by cbv, by cbv⟩, by cbv, by cbv, by cbv, _, _, by cbv, by cbv⟩

/-! ## Code that is lost -/

/-- A loop that is entered with `x` at most `y`, and left once an input is above
`y`. -/
def drift : FlowGraph where
  slots := #[
    some {
      name := "entry"
      body := [.input "x", .input "y"]
      terminator := .branch ⟨.var "x", .le, .var "y"⟩ 1 4 },
    some {
      name := "head"
      terminator := .branch ⟨.var "x", .le, .var "y"⟩ 2 3
      predecessors := [0, 2] },
    some { name := "body", body := [.input "x"], terminator := .jump 1, predecessors := [1] },
    some { name := "above", body := [.print (.var "x")], predecessors := [1] },
    some { name := "end", predecessors := [0] }]
  first := some 0

/-- The first two inputs are zero, and the others are one. -/
def rising : Environment where
  inputs k := some (.number (if k < 2 then Double.zero else Double.one))
  scalar _ type := some (match type with
    | .double => .number Double.zero
    | .string => .string "")
  element _ _ _ := none
  checked := true

/-- **Code that runs is removed.**  The search ends without being cut short and does
not enter the block that the loop is left to; dead code elimination removes the
block, and a run of four steps enters it. -/
theorem eliminateDeadCode_drift :
    drift.validate = .ok () ∧
      ∃ summary log, searchFrom drift {} {} = (.ok summary, log) ∧
        summary.truncated = false ∧ summary.isReached 3 = false ∧
        ((eliminateDeadCode summary).runOn { graph := drift, log }).2.graph.contains 3 = false ∧
        (drift.block? 3).any Block.populated = true ∧
        ∃ s, after rising drift 4 = .at 3 s :=
  ⟨by cbv, _, _, by cbv, by cbv, by cbv, by cbv, rfl, _, rfl⟩

end Symbolic
end FlowVerifier
