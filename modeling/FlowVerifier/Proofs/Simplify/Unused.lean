import FlowVerifier.Proofs.Simplify.Soundness
import FlowVerifier.Simplify.Constants

/-!
# Variables that nobody reads

`dropUnused` takes out declarations and constant assignments of variables that are
read nowhere in the program.  The states of the two programs then differ in these
variables and in nothing else, and no instruction can tell.
-/

namespace FlowVerifier
namespace Simplify

open FlowGraph Run

variable {lax : Prop} {g g' : FlowGraph} {id : BlockId} {b : Block}

theorem mem_readVariables {x : String} :
    x ∈ g.readVariables ↔ ∃ id b, g.block? id = some b ∧ x ∈ readNamesOf b := by
  unfold readVariables
  simp only [List.mem_eraseDups, List.mem_mergeSort, List.mem_flatMap, Prod.exists, mem_blocks]

/-- The variables whose definitions in a block can be dropped. -/
def Unused (g : FlowGraph) (id : BlockId) (b : Block) (x : String) : Prop :=
  isUnused g id b x = true

theorem Unused.not_read {x : String} (h : Unused g id b x) {j : BlockId} {c : Block}
    (hc : g.bare? j = some c) : x ∉ readNamesOf c := by
  obtain ⟨c', hc', rfl⟩ := Option.map_eq_some_iff.1 hc
  intro hx
  have hread : x ∈ g.readVariables := mem_readVariables.2 ⟨j, c', hc', hx⟩
  unfold Unused isUnused at h
  simp [hread] at h

/-- Only plain definitions are dropped. -/
theorem plain_of_isIdle {i : Instruction} (hi : i ∈ b.body) (h : isIdle g id b i = true) :
    ∃ x, Unused g id b x ∧
      ((∃ type, i = .declare x type) ∨ ∃ l, i = .assign x (.literal l)) := by
  unfold isIdle at h
  obtain ⟨x, hx, hunused⟩ := (Option.any_eq_true _ _).1 h
  refine ⟨x, hunused, ?_⟩
  have hall : (b.body.all fun i => isPlainDefinition i || i.definedVariable != some x) = true := by
    unfold isUnused at hunused
    simp only [Bool.and_eq_true] at hunused
    exact hunused.2
  have hplain := List.all_eq_true.1 hall i hi
  rw [hx] at hplain
  simp only [bne_self_eq_false, Bool.or_false] at hplain
  unfold isPlainDefinition at hplain
  split at hplain
  · cases hx
    exact .inl ⟨_, rfl⟩
  · cases hx
    exact .inr ⟨_, rfl⟩
  · exact nomatch hplain

/-- A block corresponds to itself without the definitions that are dropped. -/
theorem bodyAlike_dropUnused {resolve resolve' : String → Option BlockId}
    {body : List Instruction} (hsub : ∀ i ∈ body, i ∈ b.body)
    (hread : ∀ i ∈ body, InstructionAlike (Unused g id b) Eq resolve resolve' i i) :
    BodyAlike (Unused g id b) Eq resolve resolve' body
      (body.filter fun i => !isIdle g id b i) := by
  induction body with
  | nil => exact .nil
  | cons i rest ih =>
      have hrest := ih (fun j hj => hsub j (List.mem_cons_of_mem _ hj))
        fun j hj => hread j (List.mem_cons_of_mem _ hj)
      by_cases hi : isIdle g id b i = true
      · rw [List.filter_cons_of_neg (by simp [hi])]
        obtain ⟨x, hx, ⟨type, rfl⟩ | ⟨l, rfl⟩⟩ := plain_of_isIdle (hsub i List.mem_cons_self) hi
        · exact .declare hx hrest
        · exact .assign hx hrest
      · rw [List.filter_cons_of_pos (by simpa using hi)]
        exact .cons (hread i List.mem_cons_self) hrest

/-- **Dropping unused variables** does not change how a program runs. -/
theorem preserves_dropUnused {env : Environment} (hfree : env.checked = false)
    (hg : UniqueNames g) (hb : g.bare? id = some b)
    (h : Rewritten g g' id { b with body := b.body.filter fun i => !isIdle g id b i }) :
    Preserves lax env g g' := by
  have hresolve : g'.idOf? = g.idOf? := funext (idOf?_congr hg (h.names hb rfl))
  have hinstr : ∀ {j c}, g.bare? j = some c → ∀ i ∈ c.body,
      InstructionAlike (Unused g id b) Eq g.idOf? g'.idOf? i i := by
    intro j c hc i hi
    refine .refl (fun x hx hunused => hunused.not_read hc ?_) fun name _ => ?_
    · exact List.mem_append_left _ (List.mem_flatMap.2 ⟨i, hi, hx⟩)
    · rw [hresolve]
      cases g.idOf? name with
      | none => exact .inl ⟨rfl, rfl⟩
      | some k => exact .inr ⟨k, k, rfl, rfl, rfl⟩
  have hexit : ∀ {j c}, g.bare? j = some c →
      ExitAlike lax (Unused g id b) Eq c.terminator c.terminator := by
    intro j c hc
    exact .refl (fun x hx hunused => hunused.not_read hc (List.mem_append_right _ hx))
      fun _ _ => rfl
  refine (simulation_of_alike (X := Unused g id b) (M := Eq) ?_ ?_).preserves
  · refine start_alike (fun hf => h.first.trans hf) fun i hi => ⟨i, h.first.trans hi, rfl⟩
  · rintro i _ s t rfl hst
    have hi' : g'.bare? i = (g.bare? i).map fun c =>
        if id = i then { b with body := b.body.filter fun i => !isIdle g id b i } else c := by
      rw [h.bare]
      split
      · rename_i heq
        rw [← heq, hb]
        rfl
      · exact Option.map_id'.symm
    refine ⟨0, hst.step hfree hi' fun c hc => ?_⟩
    split
    · rename_i heq
      rw [← heq, hb, Option.some.injEq] at hc
      subst hc
      exact ⟨rfl, bodyAlike_dropUnused (fun i hi => hi) (hinstr hb), hexit hb⟩
    · exact ⟨rfl, .refl (hinstr hc), hexit hc⟩

/-- **Dropping the definitions of one block** keeps everything else. -/
theorem outcome_dropUnused {w : Workspace} (hw : WellFormed w.graph)
    (hb : w.graph.block? id = some b) :
    ∃ w', outcome (dropUnused id) w = (.ok (b.body.filter (isIdle w.graph id b)), w') ∧
      Rewritten w.graph w'.graph id
        { b.bare with body := b.body.filter fun i => !isIdle w.graph id b i } ∧
      (b.body.filter (isIdle w.graph id b) = [] → w' = w) := by
  have hgraph : outcome Transform.graph w = (.ok w.graph, w) := rfl
  have hbare : w.graph.bare? id = some b.bare := bare?_of_block? hb
  rw [dropUnused, outcome_bind_ok hgraph, hb]
  simp only [List.partition_eq_filter_filter]
  by_cases hnone : (b.body.filter (isIdle w.graph id b)).isEmpty = true
  · have hkept : (b.body.filter fun i => !isIdle w.graph id b i) = b.body := by
      rw [List.filter_eq_self]
      simpa [List.filter_eq_nil_iff] using hnone
    rw [if_pos hnone, hkept]
    exact ⟨w, rfl, .refl hw hbare, fun _ => rfl⟩
  · rw [if_neg hnone, outcome_bind_ok (outcome_edit (Rewritten.outcome_setBody hbare _))]
    exact ⟨_, rfl, .setBody hw hbare _, fun hempty => absurd (List.isEmpty_iff.2 hempty) hnone⟩

/-- The pass over the definitions of one block is sound. -/
theorem sound_dropUnused (id : BlockId) : Sound lax (dropUnused id) := by
  intro w hw
  cases hb : w.graph.block? id with
  | none =>
      refine SoundOn.graph_bind ?_
      rw [hb]
      exact Sound.pure [] w hw
  | some b =>
      have hbare : w.graph.bare? id = some b.bare := bare?_of_block? hb
      obtain ⟨w', hrun, hrewritten, -⟩ := outcome_dropUnused hw.wellFormed hb
      exact ⟨_, w', hrun, hrewritten.proper hw hbare rfl,
        fun env hfree => preserves_dropUnused hfree hw.names hbare hrewritten⟩

/-- Dropping the definitions of a block and recording it is sound. -/
theorem sound_writeDropped (id : BlockId) (b : Block) (changed : List BlockId) :
    Sound lax (writeDropped id b changed) := by
  refine (sound_dropUnused id).bind fun dropped => ?_
  have hloop : Silent (ForIn.forIn dropped PUnit.unit fun i _ => do
      recordConstant b .instructionRemoved s!"removed unused '{i}'"
      pure (ForInStep.yield PUnit.unit)) :=
    .forIn fun i => (Silent.record _).bind fun _ => .pure _
  exact (hloop.bind fun _ => .pure _).sound

end Simplify
end FlowVerifier
