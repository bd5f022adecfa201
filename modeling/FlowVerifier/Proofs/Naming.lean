import FlowVerifier.Proofs.Flow.Indexing
import FlowVerifier.Proofs.Flow.Relisting
import FlowVerifier.Proofs.Simplify.Edits
import FlowVerifier.Proofs.Symbolic.DeadCode

/-!
# Names after any sequence of operations

Graphs are made by edits and drafts, and changed by passes, the simplifier and the elimination
of dead code.  In whatever order that happens, names stay in step with identifiers.

* `Alteration` are the edits, `Alteration.indexed` is what they do if the names are kept in an
  index, and `mirrors_alteration` is the step: both do the same, and the index stays in step.
* `Operation` are the alterations and the transformations.  `Altered s g` says that alterations
  lead from the indexed graph `s` to the graph `g`; it goes through passes, sweeps and drafts
  (`stableOn_altered`, `Altered.next`, `maintains_assemble`).
* `names_in_step` is the result: a name finds the block that has it, a removed block does not
  come back, and in a valid graph every listing can be written back.
-/

namespace FlowVerifier

open FlowGraph

variable {s : Indexed} {g : FlowGraph}

/-! ## Alterations -/

/-- An edit by which a graph is made, revised or simplified. -/
inductive Alteration where
  /-- An edit by which graphs are made, or a removal. -/
  | revise (r : Revision)
  /-- Lets a block take the place of another. -/
  | redirect (old new : BlockId)
  /-- Appends a block to another. -/
  | mergeInto (into absorbed : BlockId)
  /-- Replaces a body by one without control instructions. -/
  | setBody (id : BlockId) (body : List Instruction) (straight : ∀ i ∈ body, i.isControl = false)

/-- What the edit does if there is an index of names. -/
def Construction.indexed : Construction → IndexedEdit Unit
  | createNode name isExit function => do
    let _ ← Indexed.createNode name false isExit function
  | setInstructions id instructions => Indexed.setInstructions id instructions
  | pushInstruction id instruction => Indexed.pushInstruction id instruction
  | c => Indexed.plain c.edit

/-- What the edit does if there is an index of names. -/
def Revision.indexed : Revision → IndexedEdit Unit
  | construct c => c.indexed
  | overwriteNode name isExit function => do
    let _ ← Indexed.createNode name true isExit function
  | removeNode id => Indexed.removeNode id

namespace Alteration

/-- What the edit does. -/
def edit : Alteration → Edit Unit
  | revise r => r.edit
  | redirect old new => FlowGraph.redirect old new
  | mergeInto into absorbed => FlowGraph.mergeInto into absorbed
  | setBody id body _ => FlowGraph.setBody id body

/-- What the edit does if there is an index of names. -/
def indexed : Alteration → IndexedEdit Unit
  | revise r => r.indexed
  | redirect old new => Indexed.plain (FlowGraph.redirect old new)
  | mergeInto into absorbed => Indexed.mergeInto into absorbed
  | setBody id body _ => Indexed.plain (FlowGraph.setBody id body)

end Alteration

/-- Creating a block, if the identifier is not needed. -/
theorem mirrors_createNode_discard (name : String) (overwrite isExit : Bool)
    (function : Option FunctionId) :
    Mirrors (do let _ ← Indexed.createNode name overwrite isExit function)
      (do let _ ← createNode name overwrite isExit function) :=
  .bind (mirrors_createNode name overwrite isExit function) fun _ => .pure _

theorem mirrors_construction (c : Construction) : Mirrors c.indexed c.edit := by
  cases c <;> dsimp only [Construction.indexed, Construction.edit]
  case createNode name isExit function =>
    exact mirrors_createNode_discard name false isExit function
  case setInstructions id instructions => exact mirrors_setInstructions id instructions
  case pushInstruction id instruction => exact mirrors_pushInstruction id instruction
  case setTerminator id t => exact .plain fun _ => labelled_setTerminator id t
  case setFirst id => exact .plain fun _ => labelled_setFirst id
  case setLast id => exact .plain fun _ => labelled_setLast id
  case setLine id line => exact .plain fun _ => labelled_setLine id line
  case addFunction name params returnType =>
    exact .plain fun _ => (labelled_addFunction name params returnType).bind fun _ => .pure _
  case setFunctionEntry f id => exact .plain fun _ => labelled_setFunctionEntry f id
  case registerCall f caller returnTo saved =>
    exact .plain fun _ => labelled_registerCall f caller returnTo saved

theorem mirrors_revision (r : Revision) : Mirrors r.indexed r.edit := by
  cases r with
  | construct c => exact mirrors_construction c
  | overwriteNode name isExit function =>
      exact mirrors_createNode_discard name true isExit function
  | removeNode id => exact mirrors_removeNode id

/-- **The step.**  With an index, every alteration does what it does without, and the index
stays in step. -/
theorem mirrors_alteration (a : Alteration) : Mirrors a.indexed a.edit := by
  cases a <;> dsimp only [Alteration.indexed, Alteration.edit]
  case revise r => exact mirrors_revision r
  case redirect old new => exact .plain fun _ => labelled_redirect old new
  case mergeInto into absorbed => exact mirrors_mergeInto into absorbed
  case setBody id body straight => exact .plain fun _ => labelled_setBody id straight

/-! ## Sequences of alterations -/

namespace Indexed

/-- The indexed graph after alterations, whether these succeed or fail. -/
def after (s : Indexed) (as : List Alteration) : Indexed :=
  as.foldl (fun s a => (outcome a.indexed s).2) s

theorem after_append (s : Indexed) (as as' : List Alteration) :
    s.after (as ++ as') = (s.after as).after as' := List.foldl_append

end Indexed

theorem inStep_empty : InStep {} where
  unique := fun i j b c hb => by simp [bare?, block?, FlowGraph.empty] at hb
  straight := fun id b hb => by simp [block?, FlowGraph.empty] at hb
  found _ := rfl

/-- One alteration, and what comes after it. -/
theorem InStep.after_cons (h : InStep s) (a : Alteration) (as : List Alteration) :
    ∃ s', s.after (a :: as) = s'.after as ∧ s'.graph = (outcome a.edit s.graph).2 ∧ InStep s' ∧
      Fresher s.graph s'.graph := by
  obtain ⟨s', hrun, hgraph, hs', hfresh⟩ := mirrors_alteration a s h
  refine ⟨s', ?_, hgraph, hs', hfresh⟩
  rw [Indexed.after, List.foldl_cons, hrun]
  rfl

/-- **The run.**  The index stays in step along all alterations, and removed blocks stay
removed. -/
theorem InStep.after (h : InStep s) (as : List Alteration) :
    InStep (s.after as) ∧ Fresher s.graph (s.after as).graph := by
  induction as generalizing s with
  | nil => exact ⟨h, .refl _⟩
  | cons a as ih =>
      obtain ⟨s', hnext, -, hs', hfresh⟩ := h.after_cons a as
      rw [hnext]
      exact ⟨(ih hs').1, hfresh.trans (ih hs').2⟩

/-- Alterations of the indexed graph lead to this graph. -/
def Altered (s : Indexed) (g : FlowGraph) : Prop := ∃ as, (s.after as).graph = g

theorem Altered.refl (s : Indexed) : Altered s s.graph := ⟨[], rfl⟩

theorem maintains_altered (h : InStep s) (a : Alteration) : Maintains (Altered s) a.edit := by
  rintro _ ⟨as, rfl⟩
  obtain ⟨s', hnext, hgraph, -⟩ := (h.after as).1.after_cons a []
  refine ⟨as ++ [a], ?_⟩
  rw [Indexed.after_append, hnext, ← hgraph]
  rfl

/-! ## Passes -/

theorem isControl_simplified (env : Simplify.Constants) (i : Instruction) :
    (Simplify.simplified env i).isControl = i.isControl := by
  unfold Simplify.simplified Simplify.folded?
  cases i <;> try rfl
  dsimp only [Instruction.mapOperands]
  split
  · split <;> rfl
  · rfl

/-- **Passes** alter a graph. -/
theorem stableOn_altered (h : InStep s) :
    Simplify.StableOn (fun i => i.isControl = false) (Altered s) where
  simplified env i hi := (isControl_simplified env i).trans hi
  bodies := by
    rintro _ ⟨as, rfl⟩
    exact (h.after as).1.straight
  setBody id body hbody := maintains_altered h (.setBody id body hbody)
  setTerminator id t := maintains_altered h (.revise (.construct (.setTerminator id t)))
  redirect old new := maintains_altered h (.redirect old new)
  removeNode id := maintains_altered h (.revise (.removeNode id))
  mergeInto into gone := maintains_altered h (.mergeInto into gone)

/-! ## Dead code -/

section DeadCode

variable {I : FlowGraph → Prop}

/-- **Sweeps** of dead code maintain what removals maintain. -/
theorem maintains_eliminateDeadCode (h : ∀ id, Maintains I (removeNode id))
    (summary : Symbolic.SearchSummary) :
    Maintains (fun w : Workspace => I w.graph) (Symbolic.eliminateDeadCode summary) := by
  refine Maintains.guarded (fun _ => .pure _) ?_
  exact .graph_bind fun g _ => .filterMapM fun id _ => Symbolic.maintains_removeDead (h id)

end DeadCode

/-! ## Drafts -/

section Drafts

variable {I : FlowGraph → Prop} {d : Draft}

theorem maintains_createBlock (h : ∀ c : Construction, Maintains I c.edit) (b : BlockDraft) :
    Maintains I (Draft.createBlock b) := by
  refine (h (.createNode b.name b.isExit b.function)).of_discard.bind fun id => ?_
  cases b.line with
  | none => exact .pure _
  | some n => exact (h (.setLine id n)).bind fun _ => .pure _

theorem maintains_writeBlock (h : ∀ c : Construction, Maintains I c.edit) (ids : List BlockId)
    (b : BlockDraft) (id : BlockId) : Maintains I (d.writeBlock ids b id) := by
  unfold Draft.writeBlock
  split
  · exact h (.setInstructions id b.instructions)
  · split
    · exact .throw _
    · exact h (.setInstructions id _)

theorem maintains_recordCall (h : ∀ c : Construction, Maintains I c.edit) (ids : List BlockId)
    (b : BlockDraft) (id : BlockId) : Maintains I (d.recordCall ids b id) := by
  unfold Draft.recordCall
  split
  · split
    · refine Maintains.get.bind fun g => ?_
      split
      · exact .throw _
      · exact h (.registerCall _ id _ _)
    · exact .pure _
  · exact .pure _

/-- **Building a draft** maintains what the edits maintain by which graphs are made. -/
theorem maintains_assemble (h : ∀ c : Construction, Maintains I c.edit) (d : Draft) :
    Maintains I d.assemble := by
  unfold Draft.assemble
  cases d.error with
  | some e => exact .throw e
  | none =>
      dsimp only
      rw [← Array.forIn_toList]
      refine Maintains.bind (.forIn fun f _ => ?_) fun _ => ?_
      · exact (h (.addFunction f.name f.params f.returnType)).of_discard.bind fun _ => .pure _
      refine (Maintains.mapM (maintains_createBlock h)).bind fun ids => ?_
      refine Maintains.bind (.forIn fun f _ => ?_) fun _ => ?_
      · split
        · exact (h (.setFunctionEntry f _)).bind fun _ => .pure _
        · exact .pure _
      refine Maintains.bind (.forIn fun e _ => ?_) fun _ => ?_
      · exact (maintains_writeBlock h ids e.1 e.2).bind fun _ => .pure _
      refine Maintains.bind (.forIn fun e _ => ?_) fun _ => ?_
      · exact (maintains_recordCall h ids e.1 e.2).bind fun _ => .pure _
      split
      · exact h (.setLast _)
      · exact .pure _

end Drafts

/-- The graph of a draft is made by alterations. -/
theorem Altered.of_build {d : Draft} (hd : d.build = .ok g) : Altered {} g := by
  have hmade : Altered {} (outcome d.assemble .empty).2 :=
    maintains_assemble (fun c => maintains_altered inStep_empty (.revise (.construct c))) d .empty
      (.refl _)
  rw [Draft.build, show d.assemble.runOn .empty = outcome d.assemble .empty from rfl] at hd
  rcases hrun : outcome d.assemble .empty with ⟨r, g'⟩
  rw [hrun] at hd hmade
  cases r with
  | error e => cases hd
  | ok _ =>
      dsimp only at hd
      split at hd <;> cases hd
      exact hmade

/-! ## Operations -/

/-- What may happen to a graph.  A transformation writes to a log. -/
inductive Operation where
  /-- An edit. -/
  | alter (a : Alteration)
  /-- A pass over one block. -/
  | apply (pass : Simplify.Pass) (id : BlockId) (log : Log)
  /-- The simplifier. -/
  | simplify (settings : SimplifySettings) (log : Log)
  /-- The removal of dead code. -/
  | eliminateDeadCode (summary : Symbolic.SearchSummary) (log : Log)

/-- The graph after the operation, whether it succeeds or fails. -/
def Operation.next : Operation → FlowGraph → FlowGraph
  | alter a, g => (a.edit.runOn g).2
  | apply pass id log, g => ((pass.apply id).runOn ⟨g, log⟩).2.graph
  | simplify settings log, g => ((Simplify.simplify settings).runOn ⟨g, log⟩).2.graph
  | eliminateDeadCode summary log, g =>
    ((Symbolic.eliminateDeadCode summary).runOn ⟨g, log⟩).2.graph

/-- The graph that operations make. -/
def graphAfter (ops : List Operation) : FlowGraph := ops.foldl (fun g op => op.next g) .empty

theorem Altered.next (h : InStep s) (hg : Altered s g) (op : Operation) :
    Altered s (op.next g) := by
  have hstable := stableOn_altered h
  cases op with
  | alter a => exact maintains_altered h a g hg
  | apply pass id log => exact hstable.apply pass id ⟨g, log⟩ hg
  | simplify settings log => exact hstable.run settings.maxIterations _ ⟨g, log⟩ hg
  | eliminateDeadCode summary log =>
      exact maintains_eliminateDeadCode hstable.removeNode summary ⟨g, log⟩ hg

theorem Altered.foldl (h : InStep s) (hg : Altered s g) (ops : List Operation) :
    Altered s (ops.foldl (fun g op => op.next g) g) := by
  induction ops generalizing g with
  | nil => exact hg
  | cons op ops ih => exact ih (hg.next h op)

/-- More operations alter the graph further. -/
theorem altered_append {as : List Alteration} {ops : List Operation}
    (has : (Indexed.after {} as).graph = graphAfter ops) (more : List Operation) :
    Altered (Indexed.after {} as) (graphAfter (ops ++ more)) := by
  have hrest := Altered.foldl (inStep_empty.after as).1 (.refl (Indexed.after {} as)) more
  rw [graphAfter, List.foldl_append]
  rw [has] at hrest
  exact hrest

/-- With an index, alterations make the graph that they make without. -/
theorem graph_after (h : InStep s) (as : List Alteration) :
    (s.after as).graph = (as.map Operation.alter).foldl (fun g op => op.next g) s.graph := by
  induction as generalizing s with
  | nil => rfl
  | cons a as ih =>
      obtain ⟨s', hnext, hgraph, hs', -⟩ := h.after_cons a as
      rw [hnext, ih hs', hgraph]
      rfl

/-- **Names stay in step.**  With an index that edits take care of, sequences of edits make the
graphs that they make without, and the index finds what a search finds.  Passes, the
simplifier, sweeps and drafts only make graphs that edits make.  After any sequence of
operations a name finds the block that has it, no two blocks share a name, and blocks that were
removed do not come back.  If the graph is valid, then every block can be given its listing
again, and all blocks keep their bodies, terminators and predecessors. -/
theorem names_in_step :
    (∀ (as : List Alteration) (name : String),
      (Indexed.after {} as).graph = graphAfter (as.map .alter) ∧
        (Indexed.after {} as).index.get? name = (graphAfter (as.map .alter)).idOf? name) ∧
    (∀ (d : Draft) (g : FlowGraph), d.build = .ok g →
      ∃ as : List Alteration, g = graphAfter (as.map .alter)) ∧
    ∀ ops : List Operation,
      (∃ as : List Alteration, graphAfter ops = graphAfter (as.map .alter)) ∧
      (∀ name id, (graphAfter ops).idOf? name = some id ↔
        ∃ b, (graphAfter ops).block? id = some b ∧ b.name = name) ∧
      (∀ i j b c, (graphAfter ops).block? i = some b → (graphAfter ops).block? j = some c →
        b.name = c.name → i = j) ∧
      (∀ more later id, (graphAfter ops).contains id = true →
        (graphAfter (ops ++ more)).contains id = false →
        (graphAfter (ops ++ more ++ later)).contains id = false) ∧
      ((graphAfter ops).validate = .ok () → ∀ id, (graphAfter ops).contains id = true →
        ∃ g', (setInstructions id ((graphAfter ops).listing id)).runOn (graphAfter ops) =
            (.ok (), g') ∧
          ∀ j, (g'.block? j).map (fun b => (b.body, b.terminator)) =
              ((graphAfter ops).block? j).map (fun b => (b.body, b.terminator)) ∧
            ∀ i, i ∈ g'.predecessors j ↔ i ∈ (graphAfter ops).predecessors j) := by
  have hgraph : ∀ as : List Alteration,
      (Indexed.after {} as).graph = graphAfter (as.map .alter) := graph_after inStep_empty
  refine ⟨fun as name => ⟨hgraph as, ?_⟩, fun d g hd => ?_, fun ops => ?_⟩
  · rw [← hgraph as]
    exact (inStep_empty.after as).1.found name
  · obtain ⟨as, has⟩ := Altered.of_build hd
    exact ⟨as, has.symm.trans (hgraph as)⟩
  obtain ⟨as, has⟩ := Altered.foldl inStep_empty (.refl {}) ops
  replace has : (Indexed.after {} as).graph = graphAfter ops := has
  have hs : InStep (Indexed.after {} as) := (inStep_empty.after as).1
  have hunique : UniqueNames (graphAfter ops) := has ▸ hs.unique
  refine ⟨⟨as, has.symm.trans (hgraph as)⟩, fun name id => ?_, fun i j b c hb hc heq => ?_,
    fun more later id hlive hgone => ?_, fun hvalid id hid => ?_⟩
  · rw [idOf?_eq_some_iff_name? hunique, name?, Option.map_eq_some_iff]
  · exact uniqueNames_iff.1 hunique i j c.name (heq ▸ name?_of_block? hb) (name?_of_block? hc)
  · obtain ⟨as', has'⟩ := altered_append has more
    rw [← Indexed.after_append] at has'
    obtain ⟨as'', has''⟩ := altered_append has' later
    have hs' : InStep (Indexed.after {} (as ++ as')) := (inStep_empty.after _).1
    have hfresh := (hs.after as').2
    rw [← Indexed.after_append, has', has] at hfresh
    have hfresh' := (hs'.after as'').2
    rw [has'', has'] at hfresh'
    refine hfresh'.not_contains (Nat.lt_of_lt_of_le ?_ hfresh.size) hgone
    obtain ⟨b, hb⟩ := contains_iff.1 hlive
    exact lt_size_of_block? hb
  · obtain ⟨b, hb⟩ := contains_iff.1 hid
    have hstraight : b.Straight := by
      rw [← has] at hb
      exact hs.straight id b hb
    obtain ⟨g', hrun, hsame⟩ := exists_relisted (validate_iff.1 hvalid) hunique hb hstraight
    refine ⟨g', hrun, fun j => ⟨?_, (hsame j).2⟩⟩
    have htext := congrArg (Option.map fun t : String × List Instruction × Terminator => t.2)
      (hsame j).1
    rwa [Option.map_map, Option.map_map] at htext

/-- A block that was only referred to is defined later and fused with the block before it. -/
theorem names_in_step_fused :
    ∃ ops : List Operation, (graphAfter ops).idOf? "b" = none ∧
      (∃ g', (setInstructions 0 ((graphAfter ops).listing 0)).runOn (graphAfter ops) =
        (.ok (), g')) ∧
      ∀ later, (graphAfter (ops ++ later)).contains 1 = false := by
  let made : List Operation :=
    [.alter (.revise (.construct (.createNode "a" false none))),
      .alter (.revise (.construct (.setInstructions 0 [.print (.var "x"), .jump "b"]))),
      .alter (.revise (.construct (.createNode "b" false none)))]
  let fused : List Operation := [.apply .fusion 1 .empty]
  obtain ⟨-, -, -, hback, -⟩ := names_in_step.2.2 made
  obtain ⟨-, -, -, -, hlisting⟩ := names_in_step.2.2 (made ++ fused)
  obtain ⟨g', hrun, -⟩ := hlisting (by cbv) 0 (by cbv)
  exact ⟨made ++ fused, by cbv, ⟨g', hrun⟩, fun later => hback fused later 1 (by cbv) (by cbv)⟩

end FlowVerifier
