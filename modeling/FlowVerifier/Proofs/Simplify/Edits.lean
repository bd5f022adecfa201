import FlowVerifier.Proofs.Flow.Predecessors
import FlowVerifier.Proofs.Flow.Results
import FlowVerifier.Proofs.Simplify.Soundness
import FlowVerifier.Simplify.Worklist

/-!
# The edits that passes are made of

The passes change the graph by five edits and in no other way.  So a property that these
edits maintain is maintained by every pass (`StableOn.apply`) and by the worklist
(`StableOn.run`): that no predecessor is listed twice, for one, or that functions return values
of the types they did.
-/

namespace FlowVerifier
namespace Simplify

open FlowGraph

variable {α : Type} {I : FlowGraph → Prop}

/-- The property is maintained by the edits that passes are made of. -/
structure Stable (I : FlowGraph → Prop) : Prop where
  setBody : ∀ id body, Maintains I (setBody id body)
  setTerminator : ∀ id t, Maintains I (setTerminator id t)
  redirect : ∀ old new, Maintains I (redirect old new)
  removeNode : ∀ id, Maintains I (removeNode id)
  mergeInto : ∀ into gone, Maintains I (mergeInto into gone)

/-- The property is maintained by the edits that passes are made of, as long as bodies consist
of instructions of some kind.  Simplified instructions are of this kind again. -/
structure StableOn (kind : Instruction → Prop) (I : FlowGraph → Prop) : Prop where
  simplified : ∀ env i, kind i → kind (simplified env i)
  bodies : ∀ g, I g → ∀ id b, g.block? id = some b → ∀ i ∈ b.body, kind i
  setBody : ∀ id body, (∀ i ∈ body, kind i) → Maintains I (setBody id body)
  setTerminator : ∀ id t, Maintains I (setTerminator id t)
  redirect : ∀ old new, Maintains I (redirect old new)
  removeNode : ∀ id, Maintains I (removeNode id)
  mergeInto : ∀ into gone, Maintains I (mergeInto into gone)

theorem Stable.on (h : Stable I) : StableOn (fun _ => True) I where
  simplified _ _ _ := trivial
  bodies _ _ _ _ _ _ _ := trivial
  setBody id body _ := h.setBody id body
  setTerminator := h.setTerminator
  redirect := h.redirect
  removeNode := h.removeNode
  mergeInto := h.mergeInto

/-- What leaves the graph alone maintains all its properties. -/
theorem Silent.maintains {x : Transform α} (h : Silent x) :
    Maintains (fun w : Workspace => I w.graph) x := by
  intro w hw
  obtain ⟨a, w', hrun, hgraph⟩ := h w
  rw [hrun, hgraph]
  exact hw

namespace StableOn

variable {kind : Instruction → Prop}

theorem writeBody (h : StableOn kind I) (id : BlockId) (b : Block) {body : List Instruction}
    (hbody : ∀ i ∈ body, kind i) (notes : List String) :
    Maintains (fun w : Workspace => I w.graph) (writeBody id b body notes) := by
  unfold Simplify.writeBody
  split
  · exact .pure _
  · exact (h.setBody id body hbody).edit.bind fun _ =>
      (Maintains.forIn fun note _ =>
        (Silent.record _).maintains.bind fun _ => .pure _).bind fun _ => .pure _

theorem dropUnused (h : StableOn kind I) (id : BlockId) :
    Maintains (fun w : Workspace => I w.graph) (dropUnused id) := by
  refine Maintains.graph_bind fun g hg => ?_
  split
  · exact .pure _
  · rename_i b hb
    -- what is kept was in the body before
    have hkept : ∀ i ∈ (b.body.partition (isIdle g id b)).2, kind i := by
      intro i hi
      rw [List.partition_eq_filter_filter] at hi
      exact h.bodies g hg id b hb i (List.mem_filter.1 hi).1
    dsimp only
    split
    · exact .pure _
    · exact (h.setBody id _ hkept).edit.bind fun _ => .pure _

theorem finish (h : StableOn kind I) (removeUnused : Bool) (id : BlockId) (b : Block)
    (changed : List BlockId) :
    Maintains (fun w : Workspace => I w.graph)
      (propagateConstants.finish removeUnused id b changed) := by
  unfold propagateConstants.finish
  split
  · refine Maintains.bind ?_ fun _ => .pure _
    exact (h.dropUnused id).bind fun dropped =>
      (Maintains.forIn fun i _ =>
        (Silent.record _).maintains.bind fun _ => .pure _).bind fun _ => .pure _
  · exact .bind (.pure _) fun _ => .pure _

/-- Propagated constants leave instructions of the kind. -/
theorem propagate (h : StableOn kind I) {body : List Instruction} (hbody : ∀ i ∈ body, kind i)
    (env : Constants) : ∀ i ∈ (propagate env body).body, kind i := by
  induction body generalizing env with
  | nil => simp [Simplify.propagate]
  | cons i rest ih =>
      intro j hj
      rcases List.mem_cons.1 hj with rfl | hj
      · exact h.simplified env i (hbody i (List.mem_cons_self ..))
      · exact ih (fun k hk => hbody k (List.mem_cons_of_mem _ hk)) _ j hj

theorem propagateConstants (h : StableOn kind I) (removeUnused : Bool) (id : BlockId) :
    Maintains (fun w : Workspace => I w.graph) (propagateConstants removeUnused id) := by
  refine Maintains.graph_bind fun g hg => ?_
  split
  · exact .pure _
  · rename_i b hb
    have hbody := h.propagate (h.bodies g hg id b hb) .empty
    dsimp only
    split
    · exact (Silent.recordOnce _ _ _ _).maintains.bind fun _ => .pure _
    · exact (h.writeBody _ _ hbody _).bind fun _ => (h.setTerminator _ _).edit.bind fun _ =>
        Silent.graph.maintains.bind fun _ => (Silent.record _).maintains.bind fun _ =>
          h.finish _ _ _ _
    · refine (h.writeBody _ _ hbody _).bind fun changed => ?_
      split
      · exact h.finish _ _ _ _
      · exact (h.setTerminator _ _).edit.bind fun _ => h.finish _ _ _ _

/-- **Every pass** maintains what its edits maintain. -/
theorem apply (h : StableOn kind I) (pass : Pass) (id : BlockId) :
    Maintains (fun w : Workspace => I w.graph) (pass.apply id) := by
  cases pass with
  | constants removeUnused => exact h.propagateConstants removeUnused id
  | emptyBlocks =>
      refine Silent.graph.maintains.bind fun g => ?_
      split
      · exact .pure _
      · exact (h.redirect id _).edit.bind fun _ => (h.removeNode id).edit.bind fun _ =>
          (Silent.record _).maintains.bind fun _ => .pure _
  | fusion =>
      refine Silent.graph.maintains.bind fun g => ?_
      split
      · exact .pure _
      · exact (h.mergeInto _ id).edit.bind fun _ => (Silent.record _).maintains.bind fun _ =>
          Silent.graph.maintains.bind fun _ => .pure _

/-! ### The worklist -/

theorem visit (h : StableOn kind I) (id : BlockId) (passes : List Pass)
    (state : List BlockId × Nat) :
    Maintains (fun w : Workspace => I w.graph) (visit id passes state) := by
  induction passes generalizing state with
  | nil => exact .pure state
  | cons pass rest ih =>
      obtain ⟨queue, changes⟩ := state
      refine Silent.graph.maintains.bind fun g => ?_
      split
      · refine (h.apply pass id).bind fun changed => ?_
        split
        · exact ih _
        · exact Silent.graph.maintains.bind fun _ => ih _
      · exact .pure _

theorem drain (h : StableOn kind I) (cap : Nat) (passes : List Pass) (left : Nat)
    (queue : List BlockId) (stats : Stats) :
    Maintains (fun w : Workspace => I w.graph) (drain cap passes left queue stats) := by
  induction left generalizing queue stats with
  | zero =>
      cases queue with
      | nil => exact .pure stats
      | cons id rest => exact ((Silent.record _).bind fun _ => .pure _).maintains
  | succ left ih =>
      cases queue with
      | nil => exact .pure stats
      | cons id rest => exact (h.visit id passes _).bind fun state => ih _ _

/-- **The worklist** maintains what the edits of the passes maintain. -/
theorem run (h : StableOn kind I) (cap : Nat) (passes : List Pass) :
    Maintains (fun w : Workspace => I w.graph) (run cap passes) := by
  have hreports : ∀ event : Pass → Event, Maintains (fun w : Workspace => I w.graph)
      (forIn passes PUnit.unit fun pass _ => do
        Transform.record (event pass)
        pure (.yield PUnit.unit)) := fun event =>
    (Silent.forIn fun pass => (Silent.record _).bind fun _ => .pure _).maintains
  have hcheck : Maintains (fun w : Workspace => I w.graph) checkValid := by
    refine Silent.graph.maintains.bind fun g => ?_
    split
    · exact .pure _
    · exact .throw _
  unfold Simplify.run
  split
  · exact .pure _
  · exact (hreports _).bind fun _ => Silent.graph.maintains.bind fun g =>
      (h.drain cap passes cap _ _).bind fun stats => hcheck.bind fun _ =>
        (hreports _).bind fun _ => .pure _

end StableOn

namespace Stable

theorem dropUnused (h : Stable I) (id : BlockId) :
    Maintains (fun w : Workspace => I w.graph) (dropUnused id) := h.on.dropUnused id

theorem apply (h : Stable I) (pass : Pass) (id : BlockId) :
    Maintains (fun w : Workspace => I w.graph) (pass.apply id) := h.on.apply pass id

end Stable

theorem stable_listedOnce : Stable ListedOnce :=
  ⟨keepsListed_setBody, keepsListed_setTerminator, keepsListed_redirect, keepsListed_removeNode,
    keepsListed_mergeInto⟩

theorem stable_resultTypes (types : Array (Option ValueType)) :
    Stable fun g => g.resultTypes = types where
  setBody id body := Keeps.iff_maintains.1 (keepsResults_setBody id body) types
  setTerminator id t := Keeps.iff_maintains.1 (keepsResults_setTerminator id t) types
  redirect old new := Keeps.iff_maintains.1 (keepsResults_redirect old new) types
  removeNode id := Keeps.iff_maintains.1 (keepsResults_removeNode id) types
  mergeInto into gone := Keeps.iff_maintains.1 (keepsResults_mergeInto into gone) types

/-- No pass changes the type of a result. -/
theorem keepsResults_apply (pass : Pass) (id : BlockId) :
    Keeps Workspace.resultTypes (pass.apply id) :=
  Keeps.iff_maintains.2 fun types => (stable_resultTypes types).apply pass id

theorem keepsResults_dropUnused (id : BlockId) : Keeps Workspace.resultTypes (dropUnused id) :=
  Keeps.iff_maintains.2 fun types => (stable_resultTypes types).dropUnused id

end Simplify
end FlowVerifier
