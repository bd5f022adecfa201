import FlowVerifier.Proofs.Flow.Redirect
import FlowVerifier.Proofs.Invariants
import Mathlib.Data.List.Nodup

/-!
# No predecessor is listed twice

Blocks are entered in a list of predecessors by `addPredecessor` only, which looks whether
they are in it.  So every edit keeps the lists free of repetitions (`ListedOnce`).
Validation does not look at this: it asks which blocks a list holds, and not how often.
-/

namespace FlowVerifier
namespace FlowGraph

/-- No block lists a predecessor twice. -/
def ListedOnce (g : FlowGraph) : Prop := ∀ id, (g.predecessors id).Nodup

variable {g g' : FlowGraph} {id : BlockId}

theorem ListedOnce.congr (h : ListedOnce g)
    (hpreds : ∀ id, g'.predecessors id = g.predecessors id) : ListedOnce g' := by
  intro id
  rw [hpreds]
  exact h id

/-- Whether a predecessor is listed twice can be read off the list of blocks. -/
theorem listedOnce_of_nodup (h : ∀ p ∈ g.blocks, p.2.predecessors.Nodup) : ListedOnce g := by
  intro id
  unfold predecessors
  cases hb : g.block? id with
  | none => exact List.nodup_nil
  | some b => exact h (id, b) (mem_blocks.2 hb)

/-! ## Changes of the lists -/

theorem nodup_addPredecessor {b : Block} (h : b.predecessors.Nodup) :
    (b.addPredecessor id).predecessors.Nodup := by
  unfold Block.addPredecessor
  split
  · exact h
  · -- the blocks before the new one are smaller, those behind it are larger
    refine List.nodup_append.2 ⟨h.filter _, List.nodup_cons.2 ⟨by simp, h.filter _⟩, ?_⟩
    intro i hi j hj
    have hlt : i < id := by simpa using (List.mem_filter.1 hi).2
    rcases List.mem_cons.1 hj with rfl | hj
    · exact Nat.ne_of_lt hlt
    · have hgt : id < j := by simpa using (List.mem_filter.1 hj).2
      exact Nat.ne_of_lt (Nat.lt_trans hlt hgt)

theorem listedOnce_modifyBlock {f : Block → Block}
    (hf : ∀ b, b.predecessors.Nodup → (f b).predecessors.Nodup) (h : ListedOnce g)
    (id : BlockId) : ListedOnce (g.modifyBlock id f) := by
  intro j
  have hj := h j
  unfold predecessors at hj ⊢
  rw [block?_modifyBlock]
  split
  · cases hb : g.block? j with
    | none => exact List.nodup_nil
    | some b =>
        rw [hb] at hj
        exact hf b hj
  · exact hj

theorem listedOnce_foldl {α : Type} {f : FlowGraph → α → FlowGraph}
    (hf : ∀ g a, ListedOnce g → ListedOnce (f g a)) (l : List α) (h : ListedOnce g) :
    ListedOnce (l.foldl f g) := by
  induction l generalizing g with
  | nil => exact h
  | cons a l ih => exact ih (hf g a h)

theorem listedOnce_attach (h : ListedOnce g) (id : BlockId) : ListedOnce (g.attach id) :=
  listedOnce_foldl (fun _ s hg => listedOnce_modifyBlock (fun _ => nodup_addPredecessor) hg s) _ h

theorem listedOnce_detach (h : ListedOnce g) (id : BlockId) : ListedOnce (g.detach id) :=
  listedOnce_foldl (fun _ s hg => listedOnce_modifyBlock (fun _ hb => hb.filter _) hg s) _ h

theorem listedOnce_dropBlock (h : ListedOnce g) (id : BlockId) : ListedOnce (g.dropBlock id) := by
  intro j
  have hj := h j
  unfold predecessors at hj ⊢
  rw [block?_dropBlock]
  split
  · exact List.nodup_nil
  · exact hj

theorem listedOnce_editCalls (h : ListedOnce g) (k : FunctionId) (f : List Call → List Call) :
    ListedOnce (g.editCalls k f) := by
  unfold editCalls
  dsimp only
  refine listedOnce_foldl (fun g id hg => listedOnce_attach hg id) _ ?_
  exact ListedOnce.congr (listedOnce_foldl (fun g id hg => listedOnce_detach hg id) _ h)
    fun _ => rfl

theorem listedOnce_forgetIn (id : BlockId) (heir : Option BlockId) (g : FlowGraph)
    (k : FunctionId) (h : ListedOnce g) : ListedOnce (forgetIn id heir g k) := by
  unfold forgetIn
  dsimp only
  split
  · exact (listedOnce_editCalls h _ _).congr fun _ => rfl
  · exact h.congr fun _ => rfl

theorem listedOnce_redirectIn (old new : BlockId) (g : FlowGraph) (k : FunctionId)
    (h : ListedOnce g) : ListedOnce (redirectIn old new g k) := by
  unfold redirectIn
  dsimp only
  split
  · exact (listedOnce_editCalls h _ _).congr fun _ => rfl
  · exact h.congr fun _ => rfl

/-! ## Edits -/

theorem keepsListed_block (id : BlockId) : Maintains ListedOnce (Edit.block id) := by
  refine Maintains.get.bind fun g => ?_
  split
  · exact .pure _
  · exact .throw _

theorem keepsListed_modify {f : FlowGraph → FlowGraph} (hf : ∀ g, ListedOnce g → ListedOnce (f g)) :
    Maintains ListedOnce (modify f : Edit Unit) := .modify hf

/-- A change of a block that leaves its list alone. -/
theorem keepsListed_modifyBlock (id : BlockId) {f : Block → Block}
    (hf : ∀ b, (f b).predecessors = b.predecessors) :
    Maintains ListedOnce (modify (·.modifyBlock id f) : Edit Unit) :=
  .modify fun _ hg => hg.congr fun j => predecessors_modifyBlock hf _ id j

theorem keepsListed_setBody (id : BlockId) (body : List Instruction) :
    Maintains ListedOnce (setBody id body) :=
  (keepsListed_block id).bind fun _ => keepsListed_modifyBlock id fun _ => rfl

theorem keepsListed_setTerminator (id : BlockId) (t : Terminator) :
    Maintains ListedOnce (setTerminator id t) := by
  refine Maintains.bind (.forIn fun target _ => (keepsListed_block target).bind fun _ => .pure _)
    fun _ => ?_
  refine (keepsListed_modify fun _ hg => listedOnce_detach hg id).bind fun _ => ?_
  refine (keepsListed_block id).bind fun _ => ?_
  exact .bind (keepsListed_modifyBlock id fun _ => rfl) fun _ =>
    keepsListed_modify fun _ hg => listedOnce_attach hg id

theorem keepsListed_severPredecessor (id : BlockId) (gone : Block) (heir : Option BlockId)
    (pred : BlockId) : Maintains ListedOnce (severPredecessor id gone heir pred) := by
  refine Maintains.get.bind fun g => ?_
  split
  · exact .pure _
  · exact (keepsListed_setTerminator _ _).bind fun _ => .pure _

theorem keepsListed_installHeir (function : Option FunctionId) (heir : BlockId) :
    Maintains ListedOnce (installHeir function heir) := by
  refine (keepsListed_block heir).bind fun b =>
    .bind (keepsListed_modifyBlock heir fun _ => rfl) fun _ => ?_
  split
  · split
    · exact keepsListed_modify fun _ hg => hg.congr fun _ => rfl
    · exact .pure _
  · exact .pure _

/-- **Removing a block** lists no predecessor twice. -/
theorem keepsListed_removeNode (id : BlockId) : Maintains ListedOnce (removeNode id) := by
  refine (keepsListed_block id).bind fun gone => ?_
  dsimp only
  refine Maintains.guarded (fun hrest => .bind (.throw _) fun _ => hrest) ?_
  refine (keepsListed_modify fun _ hg => listedOnce_detach hg id).bind fun _ =>
    (Maintains.foldlM (keepsListed_severPredecessor id gone)).bind fun heir =>
    (keepsListed_modify fun _ hg => listedOnce_foldl (listedOnce_forgetIn id heir) _ hg).bind
      fun _ => ?_
  cases heir with
  | none =>
      exact .bind (keepsListed_modify fun _ hg => hg.congr fun _ => rfl) fun _ =>
        keepsListed_modify fun _ hg => listedOnce_dropBlock hg id
  | some h =>
      exact (keepsListed_installHeir gone.function h).bind fun _ =>
        .bind (keepsListed_modify fun _ hg => hg.congr fun _ => rfl) fun _ =>
          keepsListed_modify fun _ hg => listedOnce_dropBlock hg id

/-- **Redirecting a block** lists no predecessor twice. -/
theorem keepsListed_redirect (old new : BlockId) : Maintains ListedOnce (redirect old new) := by
  refine (keepsListed_block old).bind fun bo => (keepsListed_block new).bind fun bn =>
    Maintains.get.bind fun g => (Maintains.forIn fun pred _ => ?_).bind fun _ => ?_
  · exact (keepsListed_block pred).bind fun b =>
      (keepsListed_setTerminator _ _).bind fun _ => .pure _
  · have hbodies : ∀ g, ListedOnce g →
        ListedOnce (g.mapBodies (retargetMarker bo.name bn.name)) :=
      fun g hg => hg.congr fun j => predecessors_mapBodies g _ j
    exact (keepsListed_modify hbodies).bind fun _ =>
      (keepsListed_modify fun _ hg => listedOnce_foldl (listedOnce_redirectIn old new) _ hg).bind
        fun _ => keepsListed_modify fun _ hg => hg.congr fun _ => rfl

/-- **Merging two blocks** lists no predecessor twice. -/
theorem keepsListed_mergeInto (into absorbed : BlockId) :
    Maintains ListedOnce (mergeInto into absorbed) := by
  unfold mergeInto
  split
  · exact .throw _
  · exact (keepsListed_block absorbed).bind fun gone =>
      (keepsListed_setTerminator _ _).bind fun _ =>
      (keepsListed_modify fun _ hg => listedOnce_detach hg absorbed).bind fun _ =>
      .bind (keepsListed_modifyBlock absorbed fun _ => rfl) fun _ =>
      .bind (keepsListed_modify fun _ hg => hg.congr fun _ => rfl) fun _ =>
      .bind (keepsListed_modifyBlock into fun _ => rfl) fun _ =>
      (keepsListed_setTerminator _ _).bind fun _ =>
        keepsListed_modify fun _ hg => listedOnce_dropBlock hg absorbed

end FlowGraph
end FlowVerifier
