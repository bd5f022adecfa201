import FlowVerifier.Proofs.Simplify.Edits
import FlowVerifier.Proofs.Simplify.Unused
import FlowVerifier.Proofs.Symbolic.Simulation

/-!
# Unused variables and the search

A definition that `dropUnused` takes out leaves a trace in the states of the search, but no
instruction reads it.  The search notices nothing if two more things hold:

* The definitions of a variable agree in its type.  A constant of another type would be a
  mistake.
* Whenever a path comes back to a block, what is on record there covers the variable.  The
  path would be widened for its sake otherwise.
-/

namespace FlowVerifier
namespace Symbolic

open Exec Simplify

variable {slack : Slack} {p q : Path} {node node' : String} {i : Instruction}
  {resolve resolve' : String → Option BlockId}

/-! ## Definitions that are dropped -/

/-- The type that a plain definition gives its variable. -/
def plainType? : Instruction → Option ValueType
  | .declare _ type => some type
  | .assign _ (.literal l) => some (Value.ofLiteral l).type
  | _ => none

/-- A constant of the right type is stored in an unused variable on one side. -/
theorem tandem_assign_left {x : String} (h : p.Alike slack q) (hx : x ∈ slack.unused)
    {value : Value} (ht : value.type = slack.type x) (change : Trend) :
    Tandem (assign x value change) p (pure ()) q fun _ p' _ q' => p'.Alike slack q' := by
  refine .path_left ?_
  cases hv : p.var? x with
  | none => exact fun _ _ => .ok (h.insertVar_left hx ht)
  | some v =>
      dsimp only
      rw [if_pos ((h.typed x v hx hv).trans ht.symm)]
      exact fun _ _ => .ok (h.modifyVar_left hx fun _ => rfl)

/-- **A definition that is dropped** makes no difference. -/
theorem tandem_plain {x : String} (h : p.Alike slack q) (hx : x ∈ slack.unused)
    (hdefined : i.definedVariable = some x) (ht : plainType? i = some (slack.type x)) :
    Tandem (execute resolve node i) p (pure ()) q fun _ p' _ q' => p'.Alike slack q' := by
  unfold plainType? at ht
  split at ht
  · obtain rfl := Option.some.inj hdefined
    obtain rfl := Option.some.inj ht
    exact fun _ _ => .ok (h.insertVar_left hx rfl)
  · obtain rfl := Option.some.inj hdefined
    show Tandem (executeAssign _ _) _ _ _ _
    rw [executeAssign_literal]
    exact .path_left (tandem_assign_left h hx (Option.some.inj ht) _)
  · exact absurd ht (by simp)

/-- A body without some definitions does what the body does. -/
theorem tandem_filter {idle : Instruction → Bool} {body : List Instruction}
    (h : p.Alike slack q)
    (hidle : ∀ i ∈ body, idle i = true → ∃ x ∈ slack.unused, i.definedVariable = some x ∧
      plainType? i = some (slack.type x))
    (hkept : ∀ i ∈ body, idle i = false → Untouched slack resolve resolve' i) :
    Tandem (executeAll resolve node body) p
      (executeAll resolve' node' (body.filter fun i => !idle i)) q
      fun _ p' _ q' => p'.Alike slack q' := by
  induction body generalizing p q with
  | nil => exact .pure h
  | cons i rest ih =>
      have hrest : ∀ {p q : Path}, p.Alike slack q → _ := fun h' =>
        ih h' (fun j hj => hidle j (List.mem_cons_of_mem _ hj))
          fun j hj => hkept j (List.mem_cons_of_mem _ hj)
      rw [executeAll_cons]
      cases hi : idle i with
      | true =>
          obtain ⟨x, hx, hdefined, ht⟩ := hidle i List.mem_cons_self hi
          rw [List.filter_cons_of_neg (by simp [hi]),
            ← pure_bind () fun _ => executeAll resolve' node' _]
          exact (tandem_plain h hx hdefined ht).bind fun _ p' _ q' h' => hrest h'
      | false =>
          rw [List.filter_cons_of_pos (by simp [hi]), executeAll_cons]
          refine (tandem_execute h (hkept i List.mem_cons_self hi)).bind ?_
          rintro _ p' _ q' ⟨h', -⟩
          exact hrest h'

/-! ## The pass -/

variable {g g' : FlowGraph} {b : Block} {id : BlockId} {limits : SearchSettings}

/-- The variables that `dropUnused` takes out of a block. -/
def droppedVariables (g : FlowGraph) (id : BlockId) (b : Block) : List String :=
  (b.body.filterMap Instruction.definedVariable).filter (isUnused g id b)

/-- Do the definitions that are dropped agree in the types of their variables? -/
def agreesInTypes (g : FlowGraph) (id : BlockId) (b : Block) : Bool :=
  (b.body.filter (isIdle g id b)).all fun i => b.body.all fun j =>
    i.definedVariable != j.definedVariable || plainType? i == plainType? j

/-- The type that a variable is first defined with. -/
def firstType (b : Block) (x : String) : ValueType :=
  ((b.body.find? fun i => i.definedVariable == some x).bind plainType?).getD .double

/-- The slack that `dropUnused` needs. -/
def slackOfDropped (g : FlowGraph) (id : BlockId) (b : Block) : Slack where
  unused := droppedVariables g id b
  type := firstType b

theorem mem_droppedVariables {x : String} :
    x ∈ droppedVariables g id b ↔
      (∃ i ∈ b.body, i.definedVariable = some x) ∧ isUnused g id b x = true := by
  simp [droppedVariables, List.mem_filterMap]

theorem plainType?_of_isIdle (ht : agreesInTypes g id b = true) (hi : i ∈ b.body)
    (hidle : isIdle g id b i = true) :
    ∃ x ∈ droppedVariables g id b, i.definedVariable = some x ∧
      plainType? i = some (firstType b x) := by
  obtain ⟨x, hx, hunused⟩ := (Option.any_eq_true _ _).1 hidle
  refine ⟨x, mem_droppedVariables.2 ⟨⟨i, hi, hx⟩, hunused⟩, hx, ?_⟩
  obtain ⟨j, hj⟩ : ∃ j, (b.body.find? fun i => i.definedVariable == some x) = some j := by
    rw [← Option.isSome_iff_exists, List.find?_isSome]
    exact ⟨i, hi, by simp [hx]⟩
  have hjx : j.definedVariable = some x := by simpa using List.find?_some hj
  have hsame : plainType? i = plainType? j := by
    have hall := List.all_eq_true.1 ht i (List.mem_filter.2 ⟨hi, hidle⟩)
    simpa [hx, hjx] using List.all_eq_true.1 hall j (List.mem_of_find?_eq_some hj)
  obtain ⟨type, htype⟩ : ∃ type, plainType? i = some type := by
    obtain ⟨-, -, ⟨type, rfl⟩ | ⟨l, rfl⟩⟩ := plain_of_isIdle hi hidle <;> exact ⟨_, rfl⟩
  rw [firstType, hj, Option.bind_some, ← hsame, htype, Option.getD_some]

/-- Another block does not define what is dropped. -/
theorem not_defined_of_ne {x : String} {j : BlockId} {c : Block}
    (hx : isUnused g id b x = true) (hj : id ≠ j) (hc : g.block? j = some c) (hi : i ∈ c.body) :
    i.definedVariable ≠ some x := by
  intro hdefined
  have hwriters : g.writersOf x = [id] := by
    unfold isUnused at hx
    simp only [Bool.and_eq_true, beq_iff_eq] at hx
    exact hx.1.2
  have hmem : j ∈ g.writersOf x := by
    unfold FlowGraph.writersOf
    refine List.mem_map.2 ⟨(j, c), List.mem_filter.2 ⟨FlowGraph.mem_blocks.2 hc, ?_⟩, rfl⟩
    exact List.any_eq_true.2 ⟨i, hi, by simp [hdefined]⟩
  rw [hwriters, List.mem_singleton] at hmem
  exact hj hmem.symm

theorem untouched_of_dropped {j : BlockId} {c : Block} (hresolve : g'.idOf? = g.idOf?)
    (hc : g.block? j = some c) (hi : i ∈ c.body)
    (hw : ∀ x, i.definedVariable = some x → isUnused g id b x = false) :
    Untouched (slackOfDropped g id b) g.idOf? g'.idOf? i where
  reads o ho x hx hdropped := by
    have hunused : Unused g id b x := (mem_droppedVariables.1 hdropped).2
    refine hunused.not_read (c := c.bare) (by rw [FlowGraph.bare?, hc]; rfl) ?_
    refine List.mem_append_left _ (List.mem_flatMap.2 ⟨i, hi, ?_⟩)
    exact List.mem_append_left _ (List.mem_filterMap.2 ⟨o, ho, hx⟩)
  writes x hx hdropped := by
    have hunused := (mem_droppedVariables.1 hdropped).2
    simp [hw x hx] at hunused
  restores _ _ := List.not_mem_nil
  marks name _ := ⟨by rw [hresolve], fun _ _ => rfl⟩

theorem leadsAlike_of_dropped {j : BlockId} {c : Block} (hc : g.block? j = some c) :
    LeadsAlike (slackOfDropped g id b) c.terminator c.terminator := by
  refine .refl (fun _ _ => rfl) fun x hx hdropped => ?_
  have hunused : Unused g id b x := (mem_droppedVariables.1 hdropped).2
  exact hunused.not_read (c := c.bare) (by rw [FlowGraph.bare?, hc]; rfl)
    (List.mem_append_right _ hx)

theorem after_dropUnused_of_none (h : g.block? id = none) : g.after (dropUnused id) = g := by
  have hgraph : outcome Transform.graph { graph := g } = (.ok g, { graph := g }) := rfl
  show (outcome (dropUnused id) { graph := g }).2.graph = g
  rw [dropUnused, outcome_bind_ok hgraph, h]
  rfl

/-- What `dropUnused` does to its block. -/
theorem rewritten_dropUnused (hg : FlowGraph.WellFormed g) (hb : g.block? id = some b) :
    Rewritten g (g.after (dropUnused id)) id
      { b.bare with body := b.body.filter fun i => !isIdle g id b i } := by
  obtain ⟨w', hrun, hrewritten, -⟩ := outcome_dropUnused (w := { graph := g }) hg hb
  rwa [show g.after (dropUnused id) = w'.graph from congrArg (·.2.graph) hrun]

/-- **Dropping unused variables** goes unnoticed by the search, if their definitions agree
in type and the records at blocks that paths come back to cover them. -/
theorem searchedAlike_dropUnused (hg : Proper g)
    (htypes : ∀ b, g.block? id = some b → agreesInTypes g id b = true)
    (hcovers : ∀ b, g.block? id = some b → Covers g limits (droppedVariables g id b)) :
    SearchedAlike limits g (g.after (dropUnused id)) := by
  cases hfound : g.block? id with
  | none =>
      rw [after_dropUnused_of_none hfound]
      exact .refl limits g
  | some b =>
      have hrewritten := rewritten_dropUnused hg.wellFormed hfound
      have hresult : (g.after (dropUnused id)).resultTypes = g.resultTypes :=
        keepsResults_dropUnused id { graph := g }
      have hbare : g.bare? id = some b.bare := FlowGraph.bare?_of_block? hfound
      have hresolve : (g.after (dropUnused id)).idOf? = g.idOf? :=
        funext (FlowGraph.idOf?_congr hg.names (hrewritten.names hbare rfl))
      generalize g.after (dropUnused id) = g' at hrewritten hresult hresolve
      refine searchedAlike_of_blocks (slackOfDropped g id b) rfl hrewritten.first
        (hcovers b hfound) fun j c hc => ?_
      by_cases hj : id = j
      · subst hj
        obtain rfl := Option.some.inj (hfound.symm.trans hc)
        obtain ⟨b', hb', hsame⟩ := Option.map_eq_some_iff.1 hrewritten.found
        obtain ⟨hpop, hfunction, hbody, hexit⟩ := fields_of_bare hsame
        refine ⟨b', hb', hpop, fun _ => ⟨?_, fun p q h => ?_⟩⟩
        · rw [hfunction, FlowGraph.returnType?_congr hresult]
          rfl
        · rw [runBlock_eq, runBlock_eq, hbody, hexit]
          refine (tandem_filter h (fun i hi => plainType?_of_isIdle (htypes b hfound) hi)
            fun i hi hkept => untouched_of_dropped hresolve hfound hi fun x hx => ?_).bind ?_
          · simpa [isIdle, hx] using hkept
          · rintro _ p' _ q' h'
            exact tandem_leaveBy h' (leadsAlike_of_dropped hfound)
      · have hbj : g'.bare? j = g.bare? j := by rw [hrewritten.bare, if_neg hj]
        rw [FlowGraph.bare?, FlowGraph.bare?, hc] at hbj
        obtain ⟨c', hc', hsame⟩ := Option.map_eq_some_iff.1 hbj
        obtain ⟨hpop, hfunction, hbody, hexit⟩ := fields_of_bare hsame
        refine ⟨c', hc', hpop, fun _ => .of_untouched hresult hfunction hbody ?_ ?_⟩
        · refine fun i hi => untouched_of_dropped hresolve hc hi fun x hx => ?_
          cases hunused : isUnused g id b x with
          | false => rfl
          | true => exact absurd hx (not_defined_of_ne hunused hj hc hi)
        · rw [hexit]
          exact leadsAlike_of_dropped hc

end Symbolic
end FlowVerifier
