import FlowVerifier.Proofs.Flow.Failures
import FlowVerifier.Proofs.Flow.Identities

/-!
# An index of names that is kept by hand

Looking for a name goes through all blocks.  An index of the names saves that, if every edit
that adds or removes a block takes care of it.  `Indexed` graphs have such an index, and look
names up nowhere else.  This file shows that nobody can tell the difference.

* `Indexed.enter` and `Indexed.dropping` are where the index changes.  All other edits are
  `Indexed.plain` ones.
* `InStep`: names are distinct, and the index finds what a search finds.
* `Fresher`: an identifier keeps its name for as long as its block exists, and is not given
  to another block later.
* `Mirrors` says of an edit of an indexed graph that it does what an edit of graphs does, and
  stays in step.  It passes from the parts of an edit to the whole, and so to every edit
  (`mirrors_setInstructions`, `mirrors_removeNode` and so on).
-/

namespace FlowVerifier

open FlowGraph

/-- A graph with an index of its names. -/
structure Indexed where
  /-- The graph. -/
  graph : FlowGraph := .empty
  /-- The identifiers by name. -/
  index : Table String BlockId := .empty

/-- An edit of an indexed graph.  Its changes survive a failure. -/
abbrev IndexedEdit (α : Type) := ExceptT Error (StateM Indexed) α

namespace Indexed

variable {α β : Type}

/-! ## Edits -/

/-- An edit of the graph for which the index does not matter. -/
def plain (x : Edit α) : IndexedEdit α := do
  let s ← get
  let (result, graph) := x.runOn s.graph
  set { s with graph }
  match result with
  | .ok a => return a
  | .error e => throw e

/-- Adds a block, and enters its name. -/
def enter (b : Block) : IndexedEdit BlockId := do
  let s ← get
  set (⟨s.graph.addBlock b, s.index.insert b.name s.graph.slots.size⟩ : Indexed)
  return s.graph.slots.size

/-- An edit that removes a block.  Its name is taken out at the end, if nothing failed. -/
def dropping (id : BlockId) (x : Edit Unit) : IndexedEdit Unit := do
  let before := (← get).graph
  plain x
  modify fun s => { s with index := (before.name? id).elim s.index s.index.erase }

/-- Finds the block of a name; one that is not there is created to be defined later. -/
def placeholder (name : String) : IndexedEdit BlockId := do
  match (← get).index.get? name with
  | some id => return id
  | none => enter { name, populated := false }

/-- Finds or creates the block of a name for `createNode`. -/
def findOrCreate (name : String) (overwrite isExit : Bool) (function : Option FunctionId) :
    IndexedEdit BlockId := do
  match (← get).index.get? name with
  | some id =>
    let b ← plain (Edit.block id)
    if b.populated && !overwrite then throw (.nodeExists name)
    plain <| modify fun g : FlowGraph => g.modifyBlock id fun b =>
      { b with
        populated := true
        isExit := b.isExit || isExit
        function := function.or b.function }
    return id
  | none => enter { name, isExit, function }

/-- Creates a block. -/
def createNode (name : String) (overwrite isExit : Bool) (function : Option FunctionId) :
    IndexedEdit BlockId := do
  if let some f := function then
    let _ ← plain (Edit.function f)
  let id ← findOrCreate name overwrite isExit function
  plain <| modify fun g : FlowGraph => { g with first := g.first.or (some id) }
  if isExit then
    if let some f := function then
      plain <| modify fun g : FlowGraph =>
        g.modifyFunction f fun info => { info with exit := some id }
  return id

/-- The terminator that control instructions stand for. -/
def resolveSuffix (owner : Block) : Suffix → IndexedEdit Terminator
  | .none => return .finish
  | .jump target => return .jump (← placeholder target)
  | .branch test onTrue onFalse => do
    let onTrue ← placeholder onTrue
    let onFalse ← placeholder onFalse
    return .branch test onTrue onFalse
  | .ret value => do
    if owner.function.isNone then throw (.returnOutsideFunction owner.name)
    return .ret value

/-- Replaces all instructions of a block. -/
def setInstructions (id : BlockId) (instructions : List Instruction) : IndexedEdit Unit := do
  let owner ← plain (Edit.block id)
  let body := instructions.takeWhile (!·.isControl)
  match parseSuffix (instructions.dropWhile (!·.isControl)) with
  | .error fault => throw (.malformedBlock owner.name fault)
  | .ok suffix =>
    let terminator ← resolveSuffix owner suffix
    plain (setTerminator id terminator)
    plain <| modify fun g : FlowGraph => g.modifyBlock id fun b =>
      { b with body, closed := terminator != .finish, pending := none }

/-- Appends one instruction to a block. -/
def pushInstruction (id : BlockId) (instruction : Instruction) : IndexedEdit Unit := do
  let owner ← plain (Edit.block id)
  if owner.closed then throw (.blockClosed owner.name)
  let waiting := owner.pending.isSome
  match instruction with
  | .jumpIf test target =>
    if waiting then throw (.malformedBlock owner.name .twoConditionals)
    let target ← placeholder target
    plain <| modify fun g : FlowGraph => g.modifyBlock id fun b =>
      { b with pending := some (test, target) }
  | .jump target =>
    let target ← placeholder target
    plain <| modify fun g : FlowGraph => g.modifyBlock id fun b => { b with pending := none }
    plain <| setTerminator id <|
      match owner.pending with
      | some (test, onTrue) => .branch test onTrue target
      | none => .jump target
    plain (closeBlock id)
  | .ret value =>
    if waiting then throw (.malformedBlock owner.name .returnAfterConditional)
    if owner.function.isNone then throw (.returnOutsideFunction owner.name)
    plain (setTerminator id (.ret value))
    plain (closeBlock id)
  | other =>
    if waiting then throw (.malformedBlock owner.name .bodyAfterConditional)
    plain <| modify fun g : FlowGraph => g.modifyBlock id fun b =>
      { b with body := b.body ++ [other] }

/-- Removes a block. -/
def removeNode (id : BlockId) : IndexedEdit Unit := dropping id (FlowGraph.removeNode id)

/-- Appends the block `absorbed` to the block `into`. -/
def mergeInto (into absorbed : BlockId) : IndexedEdit Unit :=
  dropping absorbed (FlowGraph.mergeInto into absorbed)

end Indexed

/-! ## In step -/

/-- Names are distinct, bodies are straight, and the index finds what a search finds. -/
structure InStep (s : Indexed) : Prop where
  unique : UniqueNames s.graph
  straight : s.graph.Straight
  found : ∀ name, s.index.get? name = s.graph.idOf? name

/-- Between the two graphs no identifier was given another name, and none that was in use came
back. -/
structure Fresher (g g' : FlowGraph) : Prop where
  size : g.slots.size ≤ g'.slots.size
  names : ∀ id, id < g.slots.size → g'.name? id = g.name? id ∨ g'.name? id = none

namespace Fresher

variable {g g' g'' : FlowGraph}

theorem refl (g : FlowGraph) : Fresher g g := ⟨Nat.le_refl _, fun _ _ => .inl rfl⟩

theorem trans (h : Fresher g g') (h' : Fresher g' g'') : Fresher g g'' := by
  refine ⟨h.size.trans h'.size, fun id hid => ?_⟩
  rcases h'.names id (Nat.lt_of_lt_of_le hid h.size) with heq | hnone
  · rw [heq]
    exact h.names id hid
  · exact .inr hnone

theorem of_names (h : g'.names = g.names) : Fresher g g' := by
  refine ⟨?_, fun id _ => .inl (name?_congr_names h id)⟩
  rw [← size_names, ← size_names, h]

/-- A block that was removed does not come back. -/
theorem not_contains (h : Fresher g g') {id : BlockId} (hid : id < g.slots.size)
    (hgone : g.contains id = false) : g'.contains id = false := by
  rw [contains_eq_isSome_name?, Option.isSome_eq_false_iff, Option.isNone_iff_eq_none] at hgone ⊢
  rcases h.names id hid with heq | hnone
  · rw [heq, hgone]
  · exact hnone

end Fresher

namespace InStep

variable {s : Indexed} {g : FlowGraph}

theorem labelled (h : InStep s) : Labelled s.graph.names s.graph := ⟨rfl, h.straight⟩

/-- Names that stay the same stay in step. -/
theorem of_labelled (h : InStep s) (hg : Labelled s.graph.names g) :
    InStep { s with graph := g } where
  unique := by
    refine uniqueNames_iff.2 fun i j name hi hj => ?_
    rw [name?_congr_names hg.names] at hi hj
    exact uniqueNames_iff.1 h.unique i j name hi hj
  straight := hg.straight
  found name := (h.found name).trans (idOf?_congr_names hg.names name).symm

/-- A graph is in step if the index finds the names of the blocks. -/
theorem of_name? {index : Table String BlockId} (hunique : UniqueNames g) (hstraight : g.Straight)
    (hfound : ∀ name id, index.get? name = some id ↔ g.name? id = some name) :
    InStep ⟨g, index⟩ :=
  ⟨hunique, hstraight, fun name => Option.ext fun id =>
    (hfound name id).trans (idOf?_eq_some_iff_name? hunique).symm⟩

theorem get?_eq_some_iff (h : InStep s) {name : String} {id : BlockId} :
    s.index.get? name = some id ↔ s.graph.name? id = some name := by
  rw [h.found, idOf?_eq_some_iff_name? h.unique]

/-- **A new block** with a name that is not in use. -/
theorem enter (h : InStep s) {b : Block} (hb : b.Straight) (hfree : s.index.get? b.name = none) :
    InStep ⟨s.graph.addBlock b, s.index.insert b.name s.graph.slots.size⟩ ∧
      Fresher s.graph (s.graph.addBlock b) := by
  have hname := name?_addBlock s.graph b
  have hnone : ∀ id, s.graph.name? id ≠ some b.name := by
    intro id hid
    rw [h.get?_eq_some_iff.2 hid] at hfree
    cases hfree
  have hnew : s.graph.name? s.graph.slots.size = none := by
    rw [name?_eq, ← size_names, Array.getElem?_size]
    rfl
  have hsize : s.graph.slots.size < (s.graph.addBlock b).slots.size := by simp [addBlock]
  refine ⟨of_name? (uniqueNames_iff.2 fun i j name hi hj => ?_)
    (h.labelled.addBlock hb).straight fun name id => ?_, hsize.le, fun id hid => .inl ?_⟩
  · rw [hname] at hi hj
    split at hi <;> split at hj
    · exact ‹i = _›.trans ‹j = _›.symm
    · cases hi
      exact absurd hj (hnone j)
    · cases hj
      exact absurd hi (hnone i)
    · exact uniqueNames_iff.1 h.unique i j name hi hj
  · rw [Table.get?_insert, hname]
    by_cases heq : b.name = name
    · subst heq
      by_cases hid : id = s.graph.slots.size
      · simp [hid]
      · simp [hid, Ne.symm hid, hnone id]
    · rw [if_neg heq, h.get?_eq_some_iff]
      by_cases hid : id = s.graph.slots.size
      · simp [hid, heq, hnew]
      · rw [if_neg hid]
  · rw [hname, if_neg (Nat.ne_of_lt hid)]

/-- **A block that is removed**, and its name with it. -/
theorem drop (h : InStep s) {id : BlockId}
    (hg : Labelled (s.graph.names.setIfInBounds id none) g) :
    InStep ⟨g, (s.graph.name? id).elim s.index s.index.erase⟩ ∧ Fresher s.graph g := by
  have hname := name?_of_emptied hg.names
  have hsize : g.slots.size = s.graph.slots.size := by
    rw [← size_names, hg.names, Array.size_setIfInBounds, size_names]
  refine ⟨of_name? (uniqueNames_iff.2 fun i j name hi hj => ?_) hg.straight fun name j => ?_,
    hsize.ge, fun j _ => ?_⟩
  · rw [hname] at hi hj
    split at hi <;> split at hj
    · cases hi
    · cases hi
    · cases hj
    · exact uniqueNames_iff.1 h.unique i j name hi hj
  · rw [hname]
    cases hgone : s.graph.name? id with
    | none =>
        rw [Option.elim_none, h.get?_eq_some_iff]
        by_cases hid : id = j
        · simp [← hid, hgone]
        · rw [if_neg hid]
    | some gone =>
        rw [Option.elim_some, Table.get?_erase]
        by_cases heq : gone = name
        · subst heq
          -- the name was in use at the slot that is emptied, and nowhere else
          by_cases hid : id = j
          · simp [hid]
          · have hother : s.graph.name? j ≠ some gone := fun hj =>
              hid (uniqueNames_iff.1 h.unique id j gone hgone hj)
            simp [hid, hother]
        · rw [if_neg heq, h.get?_eq_some_iff]
          by_cases hid : id = j
          · simp [← hid, hgone, heq]
          · rw [if_neg hid]
  · rw [hname]
    split
    · exact .inr rfl
    · exact .inl rfl

end InStep

/-! ## Edits that mirror each other -/

/-- The edit of indexed graphs does what the edit of graphs does, and stays in step. -/
def Mirrors {α : Type} (x : IndexedEdit α) (y : Edit α) : Prop :=
  ∀ s, InStep s → ∃ s', outcome x s = ((outcome y s.graph).1, s') ∧
    s'.graph = (outcome y s.graph).2 ∧ InStep s' ∧ Fresher s.graph s'.graph

namespace Mirrors

variable {α β : Type}

theorem pure (a : α) : Mirrors (pure a) (pure a) := fun s hs => ⟨s, rfl, rfl, hs, .refl _⟩

theorem throw (e : Error) : Mirrors (throw e : IndexedEdit α) (throw e) :=
  fun s hs => ⟨s, rfl, rfl, hs, .refl _⟩

theorem bind {x : IndexedEdit α} {y : Edit α} {f : α → IndexedEdit β} {h : α → Edit β}
    (hx : Mirrors x y) (hf : ∀ a, Mirrors (f a) (h a)) : Mirrors (x >>= f) (y >>= h) := by
  intro s hs
  obtain ⟨s₁, hrun, hgraph, hs₁, hfresh⟩ := hx s hs
  rcases hy : outcome y s.graph with ⟨r, g⟩
  rw [hy] at hrun hgraph
  rw [outcome_bind, outcome_bind, hrun, hy]
  cases r with
  | error e => exact ⟨s₁, rfl, hgraph, hs₁, hfresh⟩
  | ok a =>
      obtain ⟨s₂, hrun₂, hgraph₂, hs₂, hfresh₂⟩ := hf a s₁ hs₁
      rw [hgraph] at hrun₂ hgraph₂
      exact ⟨s₂, hrun₂, hgraph₂, hs₂, hfresh.trans hfresh₂⟩

/-- An edit that may fail before it starts. -/
theorem guarded {c : Prop} [Decidable c] {e : Error} {x : IndexedEdit α} {y : Edit α}
    (h : Mirrors x y) :
    Mirrors (if c then (MonadExcept.throw e : IndexedEdit PUnit) >>= fun _ => x else x)
      (if c then (MonadExcept.throw e : Edit PUnit) >>= fun _ => y else y) := by
  split
  · exact .bind (.throw e) fun _ => h
  · exact h

end Mirrors

theorem outcome_plain {α : Type} (x : Edit α) (s : Indexed) :
    outcome (Indexed.plain x) s =
      ((outcome x s.graph).1, { s with graph := (outcome x s.graph).2 }) := by
  unfold Indexed.plain
  rw [outcome_bind_ok (outcome_get s)]
  show outcome (set _ >>= fun _ => _) s = _
  rw [outcome_bind_ok (outcome_set _ s)]
  show outcome (match (outcome x s.graph).1 with | .ok a => pure a | .error e => throw e) _ = _
  cases (outcome x s.graph).1 <;> rfl

/-- **An edit that leaves names alone** need not care about the index. -/
theorem Mirrors.plain {α : Type} {x : Edit α} (hx : ∀ names, Maintains (Labelled names) x) :
    Mirrors (Indexed.plain x) x := by
  intro s hs
  have hleft := hx _ s.graph hs.labelled
  exact ⟨_, outcome_plain x s, rfl, hs.of_labelled hleft, .of_names hleft.names⟩

/-- **An edit that removes a block** takes its name out of the index. -/
theorem Mirrors.dropping {id : BlockId} {x : Edit Unit}
    (hx : ∀ names : Array (Option String), Turns names (names.setIfInBounds id none) x) :
    Mirrors (Indexed.dropping id x) x := by
  intro s hs
  have hleft := hx _ s.graph hs.labelled
  unfold Indexed.dropping
  rw [outcome_bind_ok (outcome_get s)]
  dsimp only
  rw [outcome_bind, outcome_plain]
  rcases hrun : outcome x s.graph with ⟨r, g⟩
  rw [hrun] at hleft
  cases r with
  | error e => exact ⟨_, rfl, rfl, hs.of_labelled hleft, .of_names hleft.names⟩
  | ok _ =>
      obtain ⟨hinStep, hfresh⟩ := hs.drop hleft
      exact ⟨_, rfl, rfl, hinStep, hfresh⟩

/-! ## The edits -/

theorem straight_of_body_nil {b : Block} (hb : b.body = []) : b.Straight := by
  intro i hi
  rw [hb] at hi
  cases hi

theorem outcome_enter (b : Block) (s : Indexed) :
    outcome (Indexed.enter b) s =
      (.ok s.graph.slots.size, ⟨s.graph.addBlock b, s.index.insert b.name s.graph.slots.size⟩) :=
  rfl

theorem mirrors_placeholder (name : String) :
    Mirrors (Indexed.placeholder name) (placeholder name) := by
  intro s hs
  rw [Indexed.placeholder, outcome_bind_ok (outcome_get s), outcome_placeholder, ← hs.found]
  cases hname : s.index.get? name with
  | some id => exact ⟨s, rfl, rfl, hs, .refl _⟩
  | none =>
      obtain ⟨hinStep, hfresh⟩ := hs.enter (b := { name, populated := false })
        (straight_of_body_nil rfl) hname
      exact ⟨_, outcome_enter _ s, rfl, hinStep, hfresh⟩

theorem mirrors_findOrCreate (name : String) (overwrite isExit : Bool)
    (function : Option FunctionId) :
    Mirrors (Indexed.findOrCreate name overwrite isExit function)
      (findOrCreate name overwrite isExit function) := by
  intro s hs
  rw [Indexed.findOrCreate, outcome_bind_ok (outcome_get s), findOrCreate,
    outcome_bind_ok (outcome_get s.graph)]
  dsimp only
  rw [← hs.found]
  cases hname : s.index.get? name with
  | some id =>
      -- the block is changed in the graph in which it was looked up
      have hset : ∀ f : Block → Block, outcome (do
            let b ← Edit.block id
            if b.populated && !overwrite then throw (.nodeExists name)
            set (s.graph.modifyBlock id f)
            return id) s.graph = outcome (do
            let b ← Edit.block id
            if b.populated && !overwrite then throw (.nodeExists name)
            modify fun g : FlowGraph => g.modifyBlock id f
            return id) s.graph := by
        intro f
        cases hb : s.graph.block? id with
        | none => rw [outcome_bind_error (outcome_block_none hb),
            outcome_bind_error (outcome_block_none hb)]
        | some b =>
            rw [outcome_bind_ok (outcome_block hb), outcome_bind_ok (outcome_block hb)]
            dsimp only
            split <;> rfl
      dsimp only
      rw [hset]
      refine Mirrors.bind (.plain fun _ => labelled_block id) (fun b => ?_) s hs
      exact .guarded (.bind (.plain fun _ => labelled_modifyBlock id (fun _ => rfl) fun _ => rfl)
        fun _ => .pure _)
  | none =>
      obtain ⟨hinStep, hfresh⟩ := hs.enter (b := { name, isExit, function })
        (straight_of_body_nil rfl) hname
      exact ⟨_, outcome_enter _ s, rfl, hinStep, hfresh⟩

theorem mirrors_createNode (name : String) (overwrite isExit : Bool)
    (function : Option FunctionId) :
    Mirrors (Indexed.createNode name overwrite isExit function)
      (createNode name overwrite isExit function) := by
  have hfirst : ∀ id : BlockId, Mirrors
      (Indexed.plain (modify fun g : FlowGraph => { g with first := g.first.or (some id) }))
      (modify fun g : FlowGraph => { g with first := g.first.or (some id) } : Edit Unit) :=
    fun id => .plain fun _ => labelled_modify fun _ => rfl
  unfold Indexed.createNode createNode
  cases function with
  | none =>
      refine .bind (mirrors_findOrCreate name overwrite isExit none) fun id =>
        .bind (hfirst id) fun _ => ?_
      cases isExit <;> exact .pure _
  | some f =>
      refine .bind (.plain fun _ => labelled_function f) fun _ =>
        .bind (mirrors_findOrCreate name overwrite isExit (some f)) fun id =>
        .bind (hfirst id) fun _ => ?_
      cases isExit with
      | false => exact .pure _
      | true => exact .bind (.plain fun _ => labelled_modify fun _ => rfl) fun _ => .pure _

theorem mirrors_resolveSuffix (owner : Block) (suffix : Suffix) :
    Mirrors (Indexed.resolveSuffix owner suffix) (resolveSuffix owner suffix) := by
  cases suffix with
  | none => exact .pure _
  | jump target => exact .bind (mirrors_placeholder _) fun _ => .pure _
  | branch test onTrue onFalse =>
      exact .bind (mirrors_placeholder _) fun _ => .bind (mirrors_placeholder _) fun _ => .pure _
  | ret value => exact .guarded (.pure _)

/-- **Replacing all instructions** of a block. -/
theorem mirrors_setInstructions (id : BlockId) (instructions : List Instruction) :
    Mirrors (Indexed.setInstructions id instructions) (setInstructions id instructions) := by
  refine .bind (.plain fun _ => labelled_block id) fun owner => ?_
  dsimp only
  cases parseSuffix (instructions.dropWhile (!·.isControl)) with
  | error fault => exact .throw _
  | ok suffix =>
      refine .bind (mirrors_resolveSuffix _ _) fun t =>
        .bind (.plain fun _ => labelled_setTerminator id t) fun _ => .plain fun names => ?_
      refine .modify fun g hg => hg.modifyBlock id (fun _ => rfl) fun b _ i hi => ?_
      simpa using List.mem_takeWhile_imp hi

/-- **Appending an instruction** to a block. -/
theorem mirrors_pushInstruction (id : BlockId) (instruction : Instruction) :
    Mirrors (Indexed.pushInstruction id instruction) (pushInstruction id instruction) := by
  refine .bind (.plain fun _ => labelled_block id) fun owner => .guarded ?_
  have hother : instruction.isControl = false → Mirrors
      (Indexed.plain (modify fun g : FlowGraph => g.modifyBlock id fun b =>
        { b with body := b.body ++ [instruction] }))
      (modify fun g : FlowGraph => g.modifyBlock id fun b =>
        { b with body := b.body ++ [instruction] } : Edit Unit) := by
    refine fun hi => .plain fun _ => .modify fun g hg => hg.modifyBlock id (fun _ => rfl) ?_
    intro b hb j hj
    rcases List.mem_append.1 hj with hj | hj
    · exact hb j hj
    · rwa [List.mem_singleton.1 hj]
  cases instruction with
  | jumpIf test target =>
      exact .guarded (.bind (mirrors_placeholder target) fun _ =>
        .plain fun _ => labelled_modifyBlock id (fun _ => rfl) fun _ => rfl)
  | jump target =>
      exact .bind (mirrors_placeholder target) fun _ =>
        .bind (.plain fun _ => labelled_modifyBlock id (fun _ => rfl) fun _ => rfl) fun _ =>
        .bind (.plain fun _ => labelled_setTerminator id _) fun _ =>
        .plain fun _ => labelled_closeBlock id
  | ret value =>
      exact .guarded (.guarded (.bind (.plain fun _ => labelled_setTerminator id _) fun _ =>
        .plain fun _ => labelled_closeBlock id))
  | _ => exact .guarded (hother rfl)

/-- **Removing a block.** -/
theorem mirrors_removeNode (id : BlockId) :
    Mirrors (Indexed.removeNode id) (removeNode id) :=
  .dropping fun _ => turns_removeNode id

/-- **Merging two blocks.** -/
theorem mirrors_mergeInto (into absorbed : BlockId) :
    Mirrors (Indexed.mergeInto into absorbed) (mergeInto into absorbed) :=
  .dropping fun _ => turns_mergeInto into absorbed

end FlowVerifier
