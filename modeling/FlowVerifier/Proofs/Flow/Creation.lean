import FlowVerifier.Proofs.Flow.Construction
import FlowVerifier.Proofs.Flow.Names

/-!
# Creating blocks and redefining them

`createNode` creates a block, or takes over the block that has the name.  A block that
returns leads to where its function is called from.  If another function takes it over, its
edges change although its terminator stays, and no list of predecessors follows.

* `createNode_cases` says what the edit does, and that it changes nothing where it fails.
* `createNode_validate_iff`: on a valid graph it leaves a valid one exactly if the block does
  not return, or its new function returns to the same blocks as the old one.
* `lent` is a valid graph that it breaks.
-/

namespace FlowVerifier
namespace FlowGraph

variable {g g' : FlowGraph} {id j : BlockId} {name : String} {overwrite isExit : Bool}
  {function : Option FunctionId}

/-! ## What the edit does -/

/-- The graph in which a block that was created plays its roles. -/
def appoint (g : FlowGraph) (id : BlockId) (isExit : Bool) (function : Option FunctionId) :
    FlowGraph :=
  let g := { g with first := g.first.or (some id) }
  match isExit, function with
  | true, some f => g.modifyFunction f fun info => { info with exit := some id }
  | _, _ => g

/-- The block is found or created, and then plays its roles. -/
def createOwned (name : String) (overwrite isExit : Bool) (function : Option FunctionId) :
    Edit BlockId := do
  let id ← findOrCreate name overwrite isExit function
  modify (·.appoint id isExit function)
  return id

theorem outcome_function (g : FlowGraph) (f : FunctionId) :
    outcome (Edit.function f) g =
      match g.function? f with
      | some info => (.ok info, g)
      | none => (.error (.unknownFunction (FunctionId.text f)), g) := by
  unfold Edit.function
  rw [outcome_bind_ok (outcome_get g)]
  cases g.function? f <;> rfl

/-- A function that does not exist is refused, and then the block is found or created. -/
theorem outcome_createNode (g : FlowGraph) (name : String) (overwrite isExit : Bool)
    (function : Option FunctionId) :
    (∃ e, outcome (createNode name overwrite isExit function) g = (.error e, g)) ∨
      outcome (createNode name overwrite isExit function) g =
        outcome (createOwned name overwrite isExit function) g := by
  unfold createNode createOwned
  cases function with
  | none => exact .inr (outcome_bind_congr _ g fun id g' => by cases isExit <;> rfl)
  | some f =>
      have hf := outcome_function g f
      split at hf
      · refine .inr ((outcome_bind_ok hf).trans ?_)
        exact outcome_bind_congr _ g fun id g' => by cases isExit <;> rfl
      · exact .inl ⟨_, outcome_bind_error hf⟩

theorem outcome_findOrCreate_new (hid : g.idOf? name = none) :
    outcome (findOrCreate name overwrite isExit function) g =
      (.ok g.slots.size, g.addBlock { name, isExit, function }) := by
  unfold findOrCreate
  rw [outcome_bind_ok (outcome_get g), hid]
  rfl

theorem outcome_findOrCreate_known {b : Block} (hid : g.idOf? name = some id)
    (hb : g.block? id = some b) (overwrite isExit : Bool) (function : Option FunctionId) :
    outcome (findOrCreate name overwrite isExit function) g =
      if b.populated && !overwrite then (.error (.nodeExists name), g)
      else (.ok id, g.modifyBlock id (Block.adopted isExit function)) := by
  unfold findOrCreate
  rw [outcome_bind_ok (outcome_get g), hid]
  dsimp only
  rw [outcome_bind_ok (outcome_block hb)]
  cases b.populated <;> cases overwrite <;> rfl

/-- **Creating a block** fails and changes nothing, takes over the block of the name, or adds
a new one. -/
theorem createNode_cases (g : FlowGraph) (name : String) (overwrite isExit : Bool)
    (function : Option FunctionId) :
    (∃ e, outcome (createNode name overwrite isExit function) g = (.error e, g)) ∨
      (∃ id b, g.idOf? name = some id ∧ g.block? id = some b ∧
        outcome (createNode name overwrite isExit function) g =
          (.ok id, (g.modifyBlock id (Block.adopted isExit function)).appoint id isExit function)) ∨
      (g.idOf? name = none ∧ outcome (createNode name overwrite isExit function) g =
        (.ok g.slots.size,
          (g.addBlock { name, isExit, function }).appoint g.slots.size isExit function)) := by
  rcases outcome_createNode g name overwrite isExit function with hfail | hrun
  · exact .inl hfail
  rw [hrun]
  unfold createOwned
  cases hid : g.idOf? name with
  | none => exact .inr (.inr ⟨rfl, outcome_bind_ok (outcome_findOrCreate_new hid)⟩)
  | some id =>
      obtain ⟨b, hbare, -⟩ := name_of_idOf? hid
      obtain ⟨b, hb, rfl⟩ := Option.map_eq_some_iff.1 hbare
      have hfind := outcome_findOrCreate_known hid hb overwrite isExit function
      split at hfind
      · exact .inl ⟨_, outcome_bind_error hfind⟩
      · exact .inr (.inl ⟨id, b, rfl, hb, outcome_bind_ok hfind⟩)

/-! ## Validity -/

theorem successors_appoint (g : FlowGraph) (id i : BlockId) (isExit : Bool)
    (function : Option FunctionId) : (g.appoint id isExit function).successors i =
      g.successors i := by
  unfold appoint
  dsimp only
  split
  · exact successors_modifyFunction_calls (by intro info; rfl) _ i
  · rfl

theorem bare?_appoint (g : FlowGraph) (id i : BlockId) (isExit : Bool)
    (function : Option FunctionId) : (g.appoint id isExit function).bare? i = g.bare? i := by
  unfold appoint
  dsimp only
  split <;> rfl

theorem predecessors_appoint (g : FlowGraph) (id i : BlockId) (isExit : Bool)
    (function : Option FunctionId) : (g.appoint id isExit function).predecessors i =
      g.predecessors i := by
  unfold appoint
  dsimp only
  split <;> rfl

/-- A block that exists may become the first of the program and the exit of a function. -/
theorem WellFormed.appoint (h : WellFormed g) (hid : g.contains id = true) (isExit : Bool)
    (function : Option FunctionId) : WellFormed (g.appoint id isExit function) := by
  have hfirst : ∀ k, g.first.or (some id) = some k → g.contains k = true := by
    intro k hk
    rcases Option.or_eq_some_iff.1 hk with hk | ⟨-, hk⟩
    · exact h.roles k (mem_designated.2 (.inl hk))
    · cases hk
      exact hid
  have hroles : WellFormed { g with first := g.first.or (some id) } :=
    h.withRoles hfirst fun k hk => h.roles k (mem_designated.2 (.inr (.inl hk)))
  unfold FlowGraph.appoint
  dsimp only
  split
  · refine hroles.modifyFunction (fun _ => rfl) fun info k hk => ?_
    rcases hk with hk | hk | hk
    · exact .inl (.inl hk)
    · cases hk
      exact .inr hid
    · exact .inl (.inr (.inr hk))
  · exact hroles

/-- The roles that a block is given break no rule and repair none. -/
theorem wellFormed_appoint_iff (hroles : ∀ k ∈ g.designated, g.contains k = true)
    (hid : g.contains id = true) (isExit : Bool) (function : Option FunctionId) :
    WellFormed (g.appoint id isExit function) ↔ WellFormed g := by
  refine ⟨fun h => ⟨?_, fun hb => ?_, hroles⟩, fun h => h.appoint hid isExit function⟩
  · exact h.edges.transport (fun j => (predecessors_appoint g id j isExit function).symm)
      fun i _ => (successors_appoint g id i isExit function).symm
  · exact h.exits ((bare?_appoint g id _ isExit function).trans hb)

/-- **Redefining a block and validity.**  What is left of a valid graph is valid exactly if
the block is new, does not return, or returns to the same blocks in its new function as in
its old one. -/
theorem createNode_validate_iff (h : g.validate = .ok ())
    (hrun : (createNode name overwrite isExit function).runOn g = (.ok id, g')) :
    g'.validate = .ok () ↔
      ∀ b, g.block? id = some b → b.terminator.isReturn = true → ∀ j,
        j ∈ g.returnSitesOf (function.or b.function) ↔ j ∈ g.returnSitesOf b.function := by
  rw [validate_iff] at h ⊢
  replace hrun : outcome (createNode name overwrite isExit function) g = (.ok id, g') := hrun
  rcases createNode_cases g name overwrite isExit function with
    ⟨e, hfail⟩ | ⟨i, b, -, hb, hknown⟩ | ⟨-, hnew⟩
  · rw [hfail] at hrun
    exact absurd (congrArg Prod.fst hrun) (by simp)
  · rw [hknown] at hrun
    obtain ⟨hi, rfl⟩ := Prod.mk.inj hrun
    obtain rfl : i = id := Except.ok.inj hi
    have hcontains : ∀ k, (g.modifyBlock i (Block.adopted isExit function)).contains k =
        g.contains k := fun k => contains_modifyBlock g i k _
    have hroles : ∀ k ∈ (g.modifyBlock i (Block.adopted isExit function)).designated,
        (g.modifyBlock i (Block.adopted isExit function)).contains k = true := by
      intro k hk
      rw [hcontains]
      exact h.roles k hk
    rw [wellFormed_appoint_iff hroles ((hcontains i).trans (contains_iff.2 ⟨b, hb⟩)),
      h.adopt_iff hb, hb]
    simp only [Option.some.injEq, forall_eq']
  · rw [hnew] at hrun
    obtain ⟨hi, rfl⟩ := Prod.mk.inj hrun
    obtain rfl : g.slots.size = id := Except.ok.inj hi
    have hlive : (g.addBlock { name, isExit, function }).contains g.slots.size = true :=
      contains_iff.2 ⟨_, by rw [block?_addBlock, if_pos rfl]⟩
    have hwf : WellFormed (g.addBlock { name, isExit, function }) := h.addBlock rfl rfl
    refine iff_of_true (hwf.appoint hlive isExit function) fun b hb => ?_
    rw [block?_size] at hb
    exact absurd hb (by simp)

/-- Of the three functions the first owns the block that returns.  The last is called from
another block, but its caller goes on at the same place; the second is never called. -/
def lent : FlowGraph where
  slots := #[
    some { name := "main", terminator := .jump 1 },
    some { name := "leave", terminator := .ret none, function := some 0, predecessors := [0, 3] },
    some { name := "site", predecessors := [1] },
    some { name := "other", terminator := .jump 1 }]
  functions := #[
    { name := "f", entry := some 1, calls := [{ caller := 0, returnTo := 2, saved := 0 }] },
    { name := "g" },
    { name := "h", calls := [{ caller := 3, returnTo := 2, saved := 0 }] }]
  first := some 0

/-- The last function can take the block over. -/
theorem createNode_validate_iff_lent :
    lent.validate = .ok () ∧
      ∃ g', (createNode "leave" true true (some 2)).runOn lent = (.ok 1, g') ∧
        (g'.function? 2).bind FunctionInfo.exit = some 1 ∧ g'.validate = .ok () := by
  have h : lent.validate = .ok () := by cbv
  have hrun : (createNode "leave" true true (some 2)).runOn lent =
      (.ok 1, ((createNode "leave" true true (some 2)).runOn lent).2) := Prod.ext (by cbv) rfl
  refine ⟨h, _, hrun, by cbv, (createNode_validate_iff h hrun).2 fun b hb _ j => ?_⟩
  cases hb
  have hsites : lent.returnSitesOf (some 2) = lent.returnSitesOf (some 0) := by cbv
  simp only [Option.some_or, hsites]

/-- **A redefinition that breaks a graph.**  The second function takes the block over, and
the block where callers go on still lists it. -/
theorem createNode_breaks :
    lent.validate = .ok () ∧ ((createNode "leave" true false (some 1)).runOn lent).1 = .ok 1 ∧
      ((createNode "leave" true false (some 1)).runOn lent).2.validate =
        .error (.internal (.strayPredecessor "site" "leave")) :=
  ⟨by cbv, by cbv, by cbv⟩

end FlowGraph
end FlowVerifier
