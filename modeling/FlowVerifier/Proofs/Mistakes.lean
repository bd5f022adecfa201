import FlowVerifier.Proofs.Computation
import FlowVerifier.Verifier

/-!
# Stages that keep mistakes inside

A mistake of the analysed program is meant to end one path and to be reported.
This file follows the stages of a verification: edits, the simplifier, the search
for loops, the symbolic search and the removal of dead code fail only fatally.
`FlowVerifier.Proofs.LoopTests` has the one stage that does not.
-/

namespace FlowVerifier

/-! ## Edits -/

namespace OnlyFatal

theorem block (id : BlockId) : OnlyFatal (Edit.block id) := by
  refine .bind .get fun g => ?_
  cases g.block? id with
  | none => exact .throw rfl
  | some b => exact .pure b

theorem setTerminator (id : BlockId) (t : Terminator) :
    OnlyFatal (FlowGraph.setTerminator id t) := by
  refine .bind (.forIn fun target _ => ?_) fun _ => ?_
  · exact (block target).bind fun _ => .pure _
  · exact (OnlyFatal.modify _).bind fun _ => (block id).bind fun _ =>
      (OnlyFatal.modify _).bind fun _ => .modify _

theorem setBody (id : BlockId) (body : List Instruction) :
    OnlyFatal (FlowGraph.setBody id body) :=
  (block id).bind fun _ => .modify _

theorem severPredecessor (id : BlockId) (gone : Block) (heir : Option BlockId) (pred : BlockId) :
    OnlyFatal (FlowGraph.severPredecessor id gone heir pred) := by
  refine .bind .get fun g => ?_
  split
  · exact .pure _
  · exact (setTerminator _ _).bind fun _ => .pure _

theorem installHeir (f : Option FunctionId) (heir : BlockId) :
    OnlyFatal (FlowGraph.installHeir f heir) := by
  refine (block heir).bind fun b => (OnlyFatal.modify _).bind fun _ => ?_
  split
  · split
    · exact .modify _
    · exact .pure _
  · exact .pure _

theorem removeNode (id : BlockId) : OnlyFatal (FlowGraph.removeNode id) := by
  refine (block id).bind fun gone => ?_
  dsimp only
  split
  · exact .throw rfl
  · refine (OnlyFatal.modify _).bind fun _ =>
      (OnlyFatal.foldlM (severPredecessor id gone)).bind fun heir =>
      (OnlyFatal.modify _).bind fun _ => ?_
    split
    · exact (installHeir _ _).bind fun _ => (OnlyFatal.modify _).bind fun _ => .modify _
    · exact (OnlyFatal.modify _).bind fun _ => .modify _

theorem redirect (old new : BlockId) : OnlyFatal (FlowGraph.redirect old new) := by
  refine (block old).bind fun o => (block new).bind fun n => OnlyFatal.get.bind fun g =>
    (OnlyFatal.forIn fun pred _ => ?_).bind fun _ => ?_
  · exact (block pred).bind fun b => (setTerminator _ _).bind fun _ => .pure _
  · exact (OnlyFatal.modify _).bind fun _ => (OnlyFatal.modify _).bind fun _ => .modify _

theorem mergeInto (into absorbed : BlockId) : OnlyFatal (FlowGraph.mergeInto into absorbed) := by
  unfold FlowGraph.mergeInto
  split
  · exact .throw rfl
  · exact (block absorbed).bind fun gone => (setTerminator _ _).bind fun _ =>
      (OnlyFatal.modify _).bind fun _ => (OnlyFatal.modify _).bind fun _ =>
      (OnlyFatal.modify _).bind fun _ => (OnlyFatal.modify _).bind fun _ =>
      (setTerminator _ _).bind fun _ => .modify _

/-! ## Transformations -/

theorem graph : OnlyFatal Transform.graph := OnlyFatal.get.bind fun _ => .pure _

theorem record (event : Event) : OnlyFatal (Transform.record event) := .modify _

theorem recordOnce (kind : EventKind) (node : String) (line : Option Nat) (message : String) :
    OnlyFatal (Transform.recordOnce kind node line message) := .modify _

/-- An edit of the graph of a workspace fails as the edit does. -/
theorem edit {α : Type} {x : Edit α} (hx : OnlyFatal x) : OnlyFatal (Transform.edit x) := by
  refine OnlyFatal.get.bind fun w => (OnlyFatal.set _).bind fun _ => ?_
  have hxg := hx w.graph
  split
  · exact .pure _
  · rename_i cause hr
    exact .throw (hxg cause hr)

/-! ## The simplifier -/

theorem recordConstant (b : Block) (kind : EventKind) (message : String) :
    OnlyFatal (Simplify.recordConstant b kind message) := record _

theorem writeBody (id : BlockId) (b : Block) (body : List Instruction) (notes : List String) :
    OnlyFatal (Simplify.writeBody id b body notes) := by
  unfold Simplify.writeBody
  split
  · exact .pure _
  · refine (edit (setBody id body)).bind fun _ =>
      (OnlyFatal.forIn fun note _ => ?_).bind fun _ => ?_
    · exact (recordConstant _ _ _).bind fun _ => .pure _
    · exact .pure _

theorem dropUnused (id : BlockId) : OnlyFatal (Simplify.dropUnused id) := by
  refine graph.bind fun g => ?_
  split
  · exact .pure _
  · dsimp only
    split
    · exact .pure _
    · exact (edit (setBody _ _)).bind fun _ => .pure _

theorem writeDropped (id : BlockId) (b : Block) (changed : List BlockId) :
    OnlyFatal (Simplify.writeDropped id b changed) := by
  refine (dropUnused id).bind fun dropped => (OnlyFatal.forIn fun i _ => ?_).bind fun _ => ?_
  · exact (recordConstant _ _ _).bind fun _ => .pure _
  · exact .pure _

theorem propagateFinish (removeUnused : Bool) (id : BlockId) (b : Block)
    (changed : List BlockId) :
    OnlyFatal (Simplify.propagateConstants.finish removeUnused id b changed) := by
  unfold Simplify.propagateConstants.finish
  split
  · exact (writeDropped id b changed).bind fun _ => .pure _
  · exact .bind (.pure _) fun _ => .pure _

theorem propagateConstants (removeUnused : Bool) (id : BlockId) :
    OnlyFatal (Simplify.propagateConstants removeUnused id) := by
  refine graph.bind fun g => ?_
  split
  · exact .pure _
  · dsimp only
    split
    · exact (recordOnce _ _ _ _).bind fun _ => .pure _
    · exact (writeBody _ _ _ _).bind fun _ => (edit (setTerminator _ _)).bind fun _ =>
        graph.bind fun _ => (recordConstant _ _ _).bind fun _ => propagateFinish _ _ _ _
    · refine (writeBody _ _ _ _).bind fun changed => ?_
      split
      · exact propagateFinish _ _ _ _
      · exact (edit (setTerminator _ _)).bind fun _ => propagateFinish _ _ _ _

theorem elideEmptyBlock (id : BlockId) : OnlyFatal (Simplify.elideEmptyBlock id) := by
  refine graph.bind fun g => ?_
  split
  · exact .pure _
  · exact (edit (redirect _ _)).bind fun _ => (edit (removeNode _)).bind fun _ =>
      (record _).bind fun _ => .pure _

theorem fuseBlock (id : BlockId) : OnlyFatal (Simplify.fuseBlock id) := by
  refine graph.bind fun g => ?_
  split
  · exact .pure _
  · exact (edit (mergeInto _ _)).bind fun _ => (record _).bind fun _ =>
      graph.bind fun _ => .pure _

theorem apply (pass : Simplify.Pass) (id : BlockId) : OnlyFatal (pass.apply id) := by
  cases pass with
  | constants removeUnused => exact propagateConstants removeUnused id
  | emptyBlocks => exact elideEmptyBlock id
  | fusion => exact fuseBlock id

theorem visitPasses (id : BlockId) (passes : List Simplify.Pass) :
    ∀ state, OnlyFatal (Simplify.visit id passes state) := by
  induction passes with
  | nil => intro state; exact .pure state
  | cons pass rest ih =>
      rintro ⟨queue, changes⟩
      refine graph.bind fun g => ?_
      split
      · refine (apply pass id).bind fun changed => ?_
        split
        · exact ih _
        · exact graph.bind fun _ => ih _
      · exact .pure _

theorem drain (cap : Nat) (passes : List Simplify.Pass) (left : Nat) :
    ∀ queue stats, OnlyFatal (Simplify.drain cap passes left queue stats) := by
  -- on the number of visits that are left
  induction left with
  | zero =>
      intro queue stats
      cases queue with
      | nil => exact .pure _
      | cons id rest => exact (record _).bind fun _ => .pure _
  | succ left ih =>
      intro queue stats
      cases queue with
      | nil => exact .pure _
      | cons id rest => exact (visitPasses id passes _).bind fun _ => ih _ _

theorem checkValid : OnlyFatal Simplify.checkValid := by
  refine graph.bind fun g => ?_
  cases hd : g.defect? with
  | none =>
      simp only [FlowGraph.validate, hd]
      exact .pure _
  | some d =>
      simp only [FlowGraph.validate, hd]
      exact .throw rfl

theorem simplify (s : SimplifySettings) : OnlyFatal (Simplify.simplify s) := by
  unfold Simplify.simplify Simplify.run
  split
  · exact .pure _
  · refine (OnlyFatal.forIn fun pass _ => ?_).bind fun _ => graph.bind fun g =>
      (drain _ _ _ _ _).bind fun stats => checkValid.bind fun _ =>
      (OnlyFatal.forIn fun pass _ => ?_).bind fun _ => .pure _
    · exact (record _).bind fun _ => .pure _
    · exact (record _).bind fun _ => .pure _

/-! ## Loops, search and dead code -/

theorem ofGraph (g : FlowGraph) :
    OnlyFatal (liftM (LoopForest.ofGraph g) : Transform LoopForest) := by
  refine .liftExcept fun e he => ?_
  unfold LoopForest.ofGraph LoopForest.nest at he
  dsimp only at he
  split at he
  · obtain rfl := Except.error.inj he
    rfl
  · exact absurd he (by simp)

theorem reportLoops (forest : LoopForest) : OnlyFatal (FlowVerifier.reportLoops forest) := by
  refine graph.bind fun g => (OnlyFatal.forIn fun k _ => ?_).bind fun _ => .pure _
  split
  · exact (record _).bind fun _ => .pure _
  · exact .pure _

end OnlyFatal

namespace Symbolic

/-- A mistake in a block ends the path and nothing else. -/
theorem conclude_fatal {f : Findings} {b : Block} {result : Except Error (List Side) × Trace}
    {e : Error} (h : (f.conclude b result).1 = .error e) : e.isRecoverable = false := by
  unfold Findings.conclude at h
  dsimp only at h
  split at h
  · exact absurd h (by simp)
  · exact absurd h (by simp)
  · rename_i e' hprogram _
    obtain rfl := Except.error.inj h
    cases e' with
    | program cause => exact absurd rfl (hprogram cause)
    | _ => rfl

theorem visit_fatal {g : FlowGraph} {limits : SearchSettings} {b : Block} {id : BlockId}
    {p : Path} {f : Findings} {e : Error} (h : (visit g limits b id p f).1 = .error e) :
    e.isRecoverable = false := by
  unfold visit at h
  split at h
  · dsimp only at h
    split at h
    · exact absurd h (by simp)
    · exact absurd h (by simp)
    · exact conclude_fatal h
    · exact conclude_fatal h
  · exact absurd h (by simp)

/-- Following paths never ends with a mistake of the program. -/
theorem explore_fatal {g : FlowGraph} {limits : SearchSettings} {frontier : Frontier Prospect}
    {f : Findings} {e : Error} (h : (explore g limits frontier f).1 = .error e) :
    e.isRecoverable = false := by
  fun_induction explore g limits frontier f with
  | case1 => exact absurd h (by simp)
  | case2 =>
      obtain rfl := Except.error.inj h
      rfl
  | case3 _ _ _ _ _ _ _ _ ih => exact ih h
  | case4 =>
      rename_i hvisit
      obtain rfl := Except.error.inj h
      exact visit_fatal (congrArg Prod.fst hvisit)
  | case5 =>
      rename_i ih
      exact ih h
  | case6 =>
      rename_i ih
      exact ih h

theorem searchFrom_fatal {g : FlowGraph} {limits : SearchSettings} {log : Log} {e : Error}
    (h : (searchFrom g limits log).1 = .error e) : e.isRecoverable = false := by
  unfold searchFrom at h
  split at h
  · exact absurd h (by simp)
  · split at h
    · rename_i hexplore
      obtain rfl := Except.error.inj h
      exact explore_fatal (congrArg Prod.fst hexplore)
    · exact absurd h (by simp)

end Symbolic

namespace OnlyFatal

theorem search (limits : SearchSettings) : OnlyFatal (Symbolic.search limits) := by
  refine OnlyFatal.get.bind fun w => (OnlyFatal.set _).bind fun _ => ?_
  split
  · exact .pure _
  · rename_i h
    exact .throw (Symbolic.searchFrom_fatal h)

theorem tryRemove (id : BlockId) : OnlyFatal (Symbolic.tryRemove id) := by
  refine OnlyFatal.get.bind fun w => (OnlyFatal.set _).bind fun _ => ?_
  dsimp only
  split
  · exact .pure _
  · exact .pure _
  · rename_i h
    exact .throw (removeNode id w.graph _ h)

theorem removeDead (id : BlockId) : OnlyFatal (Symbolic.removeDead id) := by
  refine graph.bind fun g => ?_
  split
  · exact .pure _
  · refine (tryRemove id).bind fun removed => ?_
    split
    · exact (record _).bind fun _ => (recordOnce _ _ _ _).bind fun _ => .pure _
    · exact .pure _

theorem eliminateDeadCode (s : Symbolic.SearchSummary) :
    OnlyFatal (Symbolic.eliminateDeadCode s) := by
  unfold Symbolic.eliminateDeadCode
  split
  · exact .pure _
  · exact graph.bind fun _ => .filterMapM removeDead

theorem searchAndPrune (s : SearchSettings) : OnlyFatal (FlowVerifier.searchAndPrune s) := by
  refine (search s).bind fun summary => ?_
  split
  · exact (eliminateDeadCode summary).bind fun _ => .pure _
  · exact .pure _

end OnlyFatal

end FlowVerifier
