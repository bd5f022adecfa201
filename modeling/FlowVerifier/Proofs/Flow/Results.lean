import FlowVerifier.Proofs.Flow.Edges
import FlowVerifier.Proofs.Invariants
import FlowVerifier.Workspace

/-!
# Results of functions

Edits move the entry, the exit and the calls of a function.  None of them changes the
type of its result.
-/

namespace FlowVerifier

namespace FlowGraph

variable {g g' : FlowGraph}

/-- The types of the results, by function. -/
def resultTypes (g : FlowGraph) : Array (Option ValueType) :=
  g.functions.map FunctionInfo.returnType

theorem returnType?_congr (h : g'.resultTypes = g.resultTypes) :
    g'.returnType? = g.returnType? := by
  have hread : ∀ (g : FlowGraph) k, g.returnType? k = (g.resultTypes[k]?).join := by
    intro g k
    unfold returnType? function? resultTypes
    rw [Array.getElem?_map]
    cases g.functions[k]? <;> rfl
  funext k
  rw [hread, hread, h]

theorem resultTypes_congr (h : g'.functions = g.functions) : g'.resultTypes = g.resultTypes := by
  simp only [resultTypes, h]

/-! ## Changes of the record -/

theorem resultTypes_modifyFunction (g : FlowGraph) (k : FunctionId)
    {f : FunctionInfo → FunctionInfo} (hf : ∀ info, (f info).returnType = info.returnType) :
    (g.modifyFunction k f).resultTypes = g.resultTypes := by
  refine Array.ext_getElem? fun i => ?_
  simp only [resultTypes, modifyFunction, Array.getElem?_map, Array.getElem?_modify]
  split
  · cases g.functions[i]? <;> simp [hf]
  · rfl

theorem resultTypes_foldl {α : Type} {f : FlowGraph → α → FlowGraph}
    (hf : ∀ g a, (f g a).resultTypes = g.resultTypes) (l : List α) (g : FlowGraph) :
    (l.foldl f g).resultTypes = g.resultTypes := by
  induction l generalizing g with
  | nil => rfl
  | cons a l ih => rw [List.foldl_cons, ih, hf]

theorem resultTypes_attach (g : FlowGraph) (id : BlockId) :
    (g.attach id).resultTypes = g.resultTypes :=
  resultTypes_congr (sameButLists_attach g id).functions

theorem resultTypes_detach (g : FlowGraph) (id : BlockId) :
    (g.detach id).resultTypes = g.resultTypes :=
  resultTypes_congr (sameButLists_detach g id).functions

theorem resultTypes_editCalls (g : FlowGraph) (k : FunctionId) (f : List Call → List Call) :
    (g.editCalls k f).resultTypes = g.resultTypes := by
  unfold editCalls
  dsimp only
  rw [resultTypes_foldl resultTypes_attach]
  refine Eq.trans (resultTypes_modifyFunction _ _ (by intro info; rfl)) ?_
  exact resultTypes_foldl resultTypes_detach _ g

theorem resultTypes_forgetIn (id : BlockId) (heir : Option BlockId) (g : FlowGraph)
    (k : FunctionId) : (forgetIn id heir g k).resultTypes = g.resultTypes := by
  unfold forgetIn
  dsimp only
  refine Eq.trans (resultTypes_modifyFunction _ _ (by intro info; rfl)) ?_
  split
  · exact resultTypes_editCalls _ _ _
  · rfl

theorem resultTypes_redirectIn (old new : BlockId) (g : FlowGraph) (k : FunctionId) :
    (redirectIn old new g k).resultTypes = g.resultTypes := by
  unfold redirectIn
  dsimp only
  refine Eq.trans (resultTypes_modifyFunction _ _ (by intro info; rfl)) ?_
  split
  · exact resultTypes_editCalls _ _ _
  · rfl

/-! ## Edits -/

theorem keepsResults_block (id : BlockId) : Keeps resultTypes (Edit.block id) := by
  refine Keeps.get.bind fun g => ?_
  split
  · exact .pure _
  · exact .throw _

theorem keepsResults_setBody (id : BlockId) (body : List Instruction) :
    Keeps resultTypes (setBody id body) :=
  (keepsResults_block id).bind fun _ => .modify fun _ => rfl

theorem keepsResults_setTerminator (id : BlockId) (t : Terminator) :
    Keeps resultTypes (setTerminator id t) := by
  refine Keeps.bind (.forIn fun target _ => (keepsResults_block target).bind fun _ => .pure _)
    fun _ => ?_
  refine (Keeps.modify fun g => resultTypes_detach g id).bind fun _ => ?_
  refine (keepsResults_block id).bind fun _ => ?_
  exact .bind (.modify fun _ => rfl) fun _ => .modify fun g => resultTypes_attach g id

theorem keepsResults_severPredecessor (id : BlockId) (gone : Block) (heir : Option BlockId)
    (pred : BlockId) : Keeps resultTypes (severPredecessor id gone heir pred) := by
  refine Keeps.get.bind fun g => ?_
  split
  · exact .pure _
  · exact (keepsResults_setTerminator _ _).bind fun _ => .pure _

theorem keepsResults_installHeir (function : Option FunctionId) (heir : BlockId) :
    Keeps resultTypes (installHeir function heir) := by
  refine (keepsResults_block heir).bind fun b => .bind (.modify fun _ => rfl) fun _ => ?_
  split
  · split
    · exact .modify fun g => resultTypes_modifyFunction g _ fun _ => rfl
    · exact .pure _
  · exact .pure _

theorem keepsResults_removeNode (id : BlockId) : Keeps resultTypes (removeNode id) := by
  refine (keepsResults_block id).bind fun gone => ?_
  dsimp only
  refine Keeps.guarded (fun hrest => .bind (.throw _) fun _ => hrest) ?_
  refine (Keeps.modify fun g => resultTypes_detach g id).bind fun _ =>
    (Keeps.foldlM (keepsResults_severPredecessor id gone)).bind fun heir =>
    (Keeps.modify fun g => resultTypes_foldl (resultTypes_forgetIn id heir) _ g).bind fun _ => ?_
  cases heir with
  | none => exact .bind (.modify fun _ => rfl) fun _ => .modify fun _ => rfl
  | some h =>
      exact (keepsResults_installHeir gone.function h).bind fun _ =>
        .bind (.modify fun _ => rfl) fun _ => .modify fun _ => rfl

theorem keepsResults_redirect (old new : BlockId) : Keeps resultTypes (redirect old new) := by
  refine (keepsResults_block old).bind fun bo => (keepsResults_block new).bind fun bn =>
    Keeps.get.bind fun g => (Keeps.forIn fun pred _ => ?_).bind fun _ => ?_
  · exact (keepsResults_block pred).bind fun b =>
      (keepsResults_setTerminator _ _).bind fun _ => .pure _
  · exact .bind (.modify fun _ => rfl) fun _ =>
      .bind (.modify fun g => resultTypes_foldl (resultTypes_redirectIn old new) _ g)
        fun _ => .modify fun _ => rfl

theorem keepsResults_mergeInto (into absorbed : BlockId) :
    Keeps resultTypes (mergeInto into absorbed) := by
  unfold mergeInto
  split
  · exact .throw _
  · refine (keepsResults_block absorbed).bind fun gone =>
      (keepsResults_setTerminator _ _).bind fun _ =>
      (Keeps.modify fun g => resultTypes_detach g absorbed).bind fun _ =>
      .bind (.modify fun _ => rfl) fun _ => .bind (.modify fun g => ?_) fun _ =>
      .bind (.modify fun _ => rfl) fun _ =>
      (keepsResults_setTerminator _ _).bind fun _ => .modify fun _ => rfl
    simp only [resultTypes, Array.map_map]
    congr 1

end FlowGraph

/-! ## Transformations -/

/-- The types of the results in a workspace. -/
def Workspace.resultTypes (w : Workspace) : Array (Option ValueType) := w.graph.resultTypes

end FlowVerifier
