import FlowVerifier.Proofs.Simplify.Fixpoint
import Mathlib

/-!
# The worklist drains

Every change makes a program simpler, in the sense of a *weight*: the number of blocks, of
instructions, of operations among them, of branches, and of operands that are variables.
Constants in the place of variables, an operation carried out, a branch that becomes a jump,
a definition dropped, a block taken out or appended to another one: each takes something
off the weight and puts nothing on (`Progress.weight_lt`, `weight_constants`).

So a pass changes a program at most as often as its weight says, and the worklist, which
grows by no more than the blocks there are when something has changed, is emptied after a
number of visits that the program alone determines (`run_drains`).
-/

namespace FlowVerifier

/-! ## Weight -/

/-- Is the operand a variable? -/
def Operand.isVariable (o : Operand) : Bool := o.var?.isSome

/-- Is the instruction an operation on two operands? -/
def Instruction.isOperation : Instruction → Bool
  | evaluate _ _ _ _ => true
  | _ => false

/-- The operands of the test of a branch, or the operand that is returned. -/
def Terminator.operands : Terminator → List Operand
  | branch test _ _ => [test.lhs, test.rhs]
  | ret value => value.toList
  | _ => []

/-- What there may be to simplify about a block: the block itself, its instructions, the
operations among them, its branch, and the operands that are variables. -/
def Block.weight (b : Block) : Nat :=
  1 + b.body.length + b.body.countP Instruction.isOperation + b.terminator.isBranch.toNat +
    (b.body.flatMap Instruction.operands ++ b.terminator.operands).countP Operand.isVariable

/-- What there may be to simplify about a program. -/
def FlowGraph.weight (g : FlowGraph) : Nat := (g.blocks.map fun (_, b) => b.weight).sum

namespace Simplify

open FlowGraph

variable {g g' : FlowGraph} {id into gone : BlockId} {b b' tail : Block} {env : Constants}
  {passes rest : List Pass}

/-- The part of an instruction in the weight of its block. -/
def instructionWeight (i : Instruction) : Nat :=
  1 + i.isOperation.toNat + i.operands.countP Operand.isVariable

/-- The part of a terminator in the weight of its block. -/
def exitWeight (t : Terminator) : Nat :=
  t.isBranch.toNat + t.operands.countP Operand.isVariable

/-- The weight of a block is the sum of the parts. -/
theorem weight_eq (b : Block) :
    b.weight = 1 + (b.body.map instructionWeight).sum + exitWeight b.terminator := by
  have hbody : ∀ body : List Instruction, (body.map instructionWeight).sum =
      body.length + body.countP Instruction.isOperation +
        (body.flatMap Instruction.operands).countP Operand.isVariable := by
    intro body
    induction body with
    | nil => rfl
    | cons i rest ih =>
        rw [List.map_cons, List.sum_cons, ih, List.length_cons, List.countP_cons,
          List.flatMap_cons, List.countP_append, instructionWeight]
        cases i.isOperation <;> simp <;> omega
  rw [Block.weight, exitWeight, hbody, List.countP_append]
  omega

theorem instructionWeight_pos (i : Instruction) : 0 < instructionWeight i := by
  unfold instructionWeight
  omega

/-- A block weighs the same without its record of predecessors. -/
theorem weight_bare (b : Block) : b.bare.weight = b.weight := rfl

theorem weight_pos (b : Block) : 0 < b.weight := by
  rw [weight_eq]
  omega

/-! ## Constants -/

theorem isVariable_substitute (env : Constants) (o : Operand) :
    (substitute env o).isVariable = (o.isVariable && !(known? env o).isSome) := by
  unfold substitute
  cases hk : known? env o with
  | some l =>
      cases o with
      | var x => rfl
      | literal l => rfl
  | none => simp

/-- Substitution leaves fewer variables where there is one to replace, and nowhere more. -/
theorem countP_substitute (env : Constants) (operands : List Operand) :
    (operands.map (substitute env)).countP Operand.isVariable +
        (isAffected env operands).toNat ≤ operands.countP Operand.isVariable := by
  induction operands with
  | nil => exact Nat.le_refl 0
  | cons o rest ih =>
      rw [List.map_cons, List.countP_cons, List.countP_cons, isVariable_substitute]
      unfold isAffected at ih ⊢
      rw [List.any_cons]
      cases hk : (known? env o).isSome with
      | false =>
          simp only [Bool.not_false, Bool.and_true, Bool.false_or]
          omega
      | true =>
          -- what is known of an operand is known of a variable
          have hvar : o.isVariable = true := by
            cases o with
            | var x => rfl
            | literal l => cases hk
          rw [hvar]
          cases rest.any fun o => (known? env o).isSome <;> simp at ih ⊢ <;> omega

theorem isOperation_mapOperands (f : Operand → Operand) (i : Instruction) :
    (i.mapOperands f).isOperation = i.isOperation := by
  cases i <;> rfl

/-- An instruction is lighter where something was simplified, and nowhere heavier. -/
theorem instructionWeight_simplified (env : Constants) (i : Instruction) :
    instructionWeight (simplified env i) + (isSimplifiable env i).toNat ≤ instructionWeight i := by
  have hcount := countP_substitute env i.operands
  have hmapped : instructionWeight (i.mapOperands (substitute env)) +
      (isAffected env i.operands).toNat ≤ instructionWeight i := by
    unfold instructionWeight
    rw [isOperation_mapOperands, operands_mapOperands]
    omega
  unfold simplified isSimplifiable
  dsimp only
  cases hj : folded? (i.mapOperands (substitute env)) with
  | none => simpa using hmapped
  | some j =>
      -- an operation on constants weighs two, the assignment of its result one
      obtain ⟨target, op, l, m, value, hi, rfl⟩ := eq_evaluate_of_folded? hj
      rw [hi] at hmapped
      have htwo : instructionWeight (.evaluate target op (.literal l) (.literal m)) = 2 := rfl
      have hone : instructionWeight (.assign target (.literal value)) = 1 := rfl
      simp only [Option.getD_some, Option.isSome_some, Bool.or_true, Bool.toNat_true]
      omega

/-- A body is lighter if there is something to note, and never heavier. -/
theorem weight_propagate (env : Constants) (body : List Instruction) :
    ((propagate env body).body.map instructionWeight).sum ≤
        (body.map instructionWeight).sum ∧
      ((propagate env body).notes ≠ [] →
        ((propagate env body).body.map instructionWeight).sum <
          (body.map instructionWeight).sum) := by
  induction body generalizing env with
  | nil => exact ⟨Nat.le_refl _, fun h => absurd rfl h⟩
  | cons i rest ih =>
      obtain ⟨hle, hlt⟩ := ih (env.after (simplified env i))
      have hi := instructionWeight_simplified env i
      simp only [propagate, List.map_cons, List.sum_cons]
      cases hs : isSimplifiable env i with
      | true =>
          rw [hs, Bool.toNat_true] at hi
          exact ⟨by omega, fun _ => by omega⟩
      | false =>
          rw [hs, Bool.toNat_false] at hi
          refine ⟨by omega, fun hnotes => ?_⟩
          have := hlt (by simpa using hnotes)
          omega

/-- A terminator that is kept is lighter if there is something to note, and never heavier. -/
theorem weight_rewire_keep {e e' : Terminator} {note : Option String}
    (h : rewire env e = .keep e' note) :
    exitWeight e' ≤ exitWeight e ∧ (note ≠ none → exitWeight e' < exitWeight e) := by
  cases e with
  | branch test onTrue onFalse =>
      have hcount := countP_substitute env [test.lhs, test.rhs]
      simp only [rewire] at h
      split at h
      · cases h
      · cases h
      · cases h
        simp only [exitWeight, Terminator.isBranch, Terminator.operands, List.map_cons,
          List.map_nil] at hcount ⊢
        refine ⟨by omega, fun hnote => ?_⟩
        split at hnote
        · rename_i haffected
          rw [haffected, Bool.toNat_true] at hcount
          omega
        · exact absurd rfl hnote
      · cases h
  | finish =>
      cases h
      exact ⟨Nat.le_refl _, fun hnote => absurd rfl hnote⟩
  | jump j =>
      cases h
      exact ⟨Nat.le_refl _, fun hnote => absurd rfl hnote⟩
  | ret value =>
      cases value with
      | none =>
          cases h
          exact ⟨Nat.le_refl _, fun hnote => absurd rfl hnote⟩
      | some o =>
          have hcount := countP_substitute env [o]
          cases h
          simp only [exitWeight, Terminator.isBranch, Terminator.operands, Option.toList_some,
            List.map_cons, List.map_nil] at hcount ⊢
          refine ⟨by omega, fun hnote => ?_⟩
          split at hnote
          · rename_i haffected
            rw [haffected, Bool.toNat_true] at hcount
            omega
          · exact absurd rfl hnote

theorem weight_rewire_collapse {e : Terminator} {test : Comparison} {taken : Bool}
    {target dropped : BlockId} (h : rewire env e = .collapse test taken target dropped) :
    exitWeight (.jump target) < exitWeight e := by
  cases e with
  | branch test' onTrue onFalse =>
      show 0 < exitWeight (.branch test' onTrue onFalse)
      simp only [exitWeight, Terminator.isBranch, Bool.toNat_true]
      omega
  | finish => cases h
  | jump j => cases h
  | ret value => cases value <;> cases h

/-- Dropping instructions makes a body lighter. -/
theorem weight_filter (drop : Instruction → Bool) (body : List Instruction) :
    ((body.filter (!drop ·)).map instructionWeight).sum ≤ (body.map instructionWeight).sum ∧
      ((∃ i ∈ body, drop i = true) →
        ((body.filter (!drop ·)).map instructionWeight).sum <
          (body.map instructionWeight).sum) := by
  induction body with
  | nil => exact ⟨Nat.le_refl _, fun ⟨_, hi, _⟩ => absurd hi List.not_mem_nil⟩
  | cons i rest ih =>
      obtain ⟨hle, hlt⟩ := ih
      have hpos := instructionWeight_pos i
      cases hi : drop i with
      | false =>
          rw [List.filter_cons_of_pos (by simp [hi])]
          simp only [List.map_cons, List.sum_cons]
          refine ⟨by omega, ?_⟩
          rintro ⟨j, hj, hdrop⟩
          rcases List.mem_cons.1 hj with rfl | hj
          · rw [hi] at hdrop
            cases hdrop
          · have := hlt ⟨j, hj, hdrop⟩
            omega
      | true =>
          rw [List.filter_cons_of_neg (by simp [hi])]
          simp only [List.map_cons, List.sum_cons]
          exact ⟨by omega, fun _ => by omega⟩

/-- **A simplified block** is lighter if the pass reports it, and never heavier. -/
theorem Reported.weight {reported : Option (List BlockId)} {body : List Instruction}
    {e : Terminator} (h : Reported id b reported body e) :
    { b.bare with body, terminator := e }.weight ≤ b.weight ∧
      (reported.getD [] ≠ [] → { b.bare with body, terminator := e }.weight < b.weight) := by
  obtain ⟨hbody, hnoted⟩ := weight_propagate .empty b.body
  rw [weight_eq b, weight_eq { b.bare with body, terminator := e }]
  cases h with
  | mistake _ => exact ⟨Nat.le_refl _, fun hne => absurd rfl hne⟩
  | idle _ _ => exact ⟨Nat.le_refl _, fun hne => absurd rfl hne⟩
  | collapse _ hr =>
      have hexit := weight_rewire_collapse hr
      exact ⟨by dsimp only; omega, fun _ => by dsimp only; omega⟩
  | @busy e note hnotes hr =>
      obtain ⟨hexit, hlt⟩ := weight_rewire_keep hr
      have hless : exitWeight e < exitWeight b.terminator ∨
          ((propagate .empty b.body).body.map instructionWeight).sum <
            (b.body.map instructionWeight).sum := by
        by_cases hnote : note = none
        · exact .inr (hnoted (by simpa [hnote] using hnotes))
        · exact .inl (hlt hnote)
      exact ⟨by dsimp only; omega, fun _ => by dsimp only; omega⟩

/-- **Propagation of constants** makes a block lighter when it reports anything. -/
theorem weight_propagateConstants (removeUnused : Bool) {w : Workspace}
    (hw : WellFormed w.graph) (hb : w.graph.block? id = some b) :
    ∃ changed w', outcome (propagateConstants removeUnused id) w = (.ok changed, w') ∧
      WellFormed w'.graph ∧ (changed = [] → w'.graph = w.graph) ∧
      (changed ≠ [] → ∃ b', Rewritten w.graph w'.graph id b' ∧ b'.weight < b.weight) := by
  obtain ⟨reported, w₁, body, e, hrun, hreported, hquiet, hrewritten⟩ :=
    outcome_propagateConstants removeUnused hw hb
  obtain ⟨hle, hlt⟩ := hreported.weight
  cases reported with
  | none => exact ⟨[], w₁, hrun, hrewritten.wellFormed, fun _ => hquiet rfl, fun h => absurd rfl h⟩
  | some changed =>
      obtain ⟨c, hc, hsame⟩ := Option.map_eq_some_iff.1 hrewritten.found
      obtain ⟨changed', w₂, hfinish, hrewritten₂, hsub, hdrops, hneeded⟩ :=
        outcome_finish removeUnused hrewritten.wellFormed hc b changed
      obtain ⟨hdropped, hfewer⟩ :=
        weight_filter (fun i => removeUnused && isIdle w₁.graph id c i) c.body
      have hweight : c.weight = { b.bare with body, terminator := e }.weight := by
        rw [← hsame, weight_bare]
      rw [weight_eq c] at hweight
      have hnone : (¬ ∃ i ∈ c.body, (removeUnused && isIdle w₁.graph id c i) = true) →
          w₂.graph = w₁.graph ∧ ∀ j ∈ changed', j ∈ changed := by
        intro hno
        refine hneeded fun i hi => ?_
        rw [Bool.eq_false_iff]
        exact fun hidle => hno ⟨i, hi, hidle⟩
      refine ⟨changed', w₂, hrun.trans hfinish, hrewritten₂.wellFormed, ?_, fun hsome =>
        ⟨_, hrewritten.trans hrewritten₂, ?_⟩⟩
      · rintro rfl
        obtain ⟨hgraph, -⟩ := hnone fun hidle => absurd (hdrops hidle) List.not_mem_nil
        have hempty : changed = [] :=
          List.eq_nil_iff_forall_not_mem.2 fun j hj => absurd (hsub j hj) List.not_mem_nil
        rw [hgraph, hquiet (by rw [hempty]; rfl)]
      · rw [weight_eq]
        show 1 + ((c.body.filter _).map instructionWeight).sum + exitWeight c.terminator < _
        by_cases hidle : ∃ i ∈ c.body, (removeUnused && isIdle w₁.graph id c i) = true
        · have := hfewer hidle
          omega
        · -- nothing was dropped, so something was put in before
          obtain ⟨j, hj⟩ := List.exists_mem_of_ne_nil _ hsome
          have := hlt (List.ne_nil_of_mem ((hnone hidle).2 j hj))
          omega

/-! ## The weight of a program -/

/-- The part of a block in the weight of the program. -/
def weightAt (g : FlowGraph) (i : BlockId) : Nat := (g.bare? i).elim 0 Block.weight

/-- The weight of a program is the sum of the parts. -/
theorem weight_eq_sum {n : Nat} (hn : g.slots.size ≤ n) :
    g.weight = ∑ i ∈ Finset.range n, weightAt g i := by
  have hlist : ∀ l : List BlockId,
      ((l.filterMap fun i => (g.block? i).map (i, ·)).map fun (_, b) => b.weight).sum =
        (l.map (weightAt g)).sum := by
    intro l
    induction l with
    | nil => rfl
    | cons i l ih =>
        rw [List.map_cons, List.sum_cons, ← ih, weightAt, bare?]
        cases h : g.block? i with
        | none => simp [h]
        | some b => simp [h, weight_bare]
  have hsum : g.weight = ∑ i ∈ Finset.range g.slots.size, weightAt g i := hlist _
  rw [hsum]
  refine Finset.sum_subset (Finset.range_subset_range.2 hn) fun i _ hi => ?_
  cases hb : g.block? i with
  | none => rw [weightAt, bare?, hb]; rfl
  | some b => exact absurd (Finset.mem_range.2 (lt_size_of_block? hb)) hi

theorem weightAt_of_bare? (h : g.bare? id = some b) : weightAt g id = b.weight := by
  rw [weightAt, h]
  rfl

/-- A program is lighter if one block is and no other is heavier. -/
theorem weight_lt_of_weightAt (id : BlockId) (hle : ∀ i, weightAt g' i ≤ weightAt g i)
    (hlt : weightAt g' id < weightAt g id) : g'.weight < g.weight := by
  have hid : id < g.slots.size := by
    cases hb : g.block? id with
    | none => simp [weightAt, bare?, hb] at hlt
    | some b => exact lt_size_of_block? hb
  rw [weight_eq_sum (le_max_left g.slots.size g'.slots.size),
    weight_eq_sum (le_max_right g.slots.size g'.slots.size)]
  exact Finset.sum_lt_sum (fun i _ => hle i)
    ⟨id, Finset.mem_range.2 (lt_of_lt_of_le hid (le_max_left _ _)), hlt⟩

/-- There are no more blocks than the weight says. -/
theorem length_ids_le (g : FlowGraph) : g.ids.length ≤ g.weight := by
  show (g.blocks.map (·.1)).length ≤ (g.blocks.map (·.2.weight)).sum
  induction g.blocks with
  | nil => exact Nat.le_refl 0
  | cons p rest ih =>
      have hpos := weight_pos p.2
      rw [List.map_cons, List.length_cons, List.map_cons, List.sum_cons]
      omega

/-- A program is lighter with a lighter block. -/
theorem Rewritten.weight_lt (h : Rewritten g g' id b')
    (hb : g.bare? id = some b) (hlt : b'.weight < b.weight) : g'.weight < g.weight := by
  refine weight_lt_of_weightAt id (fun i => ?_) ?_
  · rw [weightAt, h.bare]
    split
    · rename_i heq
      subst heq
      rw [weightAt_of_bare? hb]
      exact hlt.le
    · exact Nat.le_refl _
  · rw [weightAt_of_bare? hb, weightAt_of_bare? h.found]
    exact hlt

/-! ## Detours and fusions -/

theorem exitWeight_normalize (e : Terminator) : exitWeight e.normalize ≤ exitWeight e := by
  cases e with
  | branch test onTrue onFalse =>
      rw [Terminator.normalize]
      split
      · exact Nat.zero_le _
      · exact Nat.le_refl _
  | _ => exact Nat.le_refl _

theorem exitWeight_retarget (old new : BlockId) (e : Terminator) :
    exitWeight (e.retarget old new) ≤ exitWeight e := by
  cases e with
  | branch test onTrue onFalse => exact exitWeight_normalize (.branch test _ _)
  | _ => exact Nat.le_refl _

theorem weight_redirected (old new : BlockId) (oldName newName : String) (b : Block) :
    (redirected old new oldName newName b).weight ≤ b.weight := by
  have hmarker : instructionWeight ∘ retargetMarker oldName newName = instructionWeight := by
    funext i
    cases i <;> rfl
  have hexit := exitWeight_retarget old new b.terminator
  rw [weight_eq, weight_eq b]
  simp only [redirected, List.map_map, hmarker]
  omega

/-- **A program without a detour** is lighter than the one with it. -/
theorem Elided.weight_lt {old new : BlockId} {oldName newName : String}
    (h : Elided g g' old new oldName newName) (hold : g.bare? old = some b) :
    g'.weight < g.weight := by
  refine weight_lt_of_weightAt old (fun i => ?_) ?_
  · rw [weightAt, weightAt, h.bare]
    split
    · exact Nat.zero_le _
    · cases g.bare? i with
      | none => exact Nat.le_refl _
      | some c => exact weight_redirected old new oldName newName c
  · rw [weightAt_of_bare? hold, weightAt, h.bare, if_pos rfl]
    exact weight_pos b

/-- Two blocks weigh more than the one made of them. -/
theorem weight_merged (tail : Block) (hjump : b.terminator = .jump gone) :
    (merged b tail).weight + 1 = b.weight + tail.weight := by
  have hexit : exitWeight b.terminator = 0 := by
    rw [hjump]
    rfl
  rw [weight_eq, weight_eq b, weight_eq tail]
  simp only [merged, List.map_append, List.sum_append]
  omega

/-- **A program with fused blocks** is lighter than the one without. -/
theorem Fused.weight_lt (h : Fused g g' into gone b tail) (hf : Fusible g into gone b tail) :
    g'.weight < g.weight := by
  have hm := hf.mergeable
  have hinto : weightAt g into = b.weight := weightAt_of_bare? (b := b.bare) (by
    rw [bare?, hm.head]
    rfl)
  have hgone : weightAt g gone = tail.weight := weightAt_of_bare? (b := tail.bare) (by
    rw [bare?, hm.found]
    rfl)
  have hinto' : weightAt g' into = (merged b tail).weight := by
    rw [weightAt, h.bare, if_neg (Ne.symm hm.distinct), if_pos rfl]
    rfl
  have hgone' : weightAt g' gone = 0 := by
    rw [weightAt, h.bare, if_pos rfl]
    rfl
  have hothers : ∀ i, i ≠ gone → i ≠ into → weightAt g' i = weightAt g i := by
    intro i hi hi'
    rw [weightAt, h.bare, if_neg (Ne.symm hi), if_neg (Ne.symm hi')]
    rfl
  have hmerged := weight_merged tail hm.jumps
  let blocks := Finset.range (max g.slots.size g'.slots.size)
  have hmem : ∀ {i c}, g.block? i = some c → i ∈ blocks := fun hc =>
    Finset.mem_range.2 (lt_of_lt_of_le (lt_size_of_block? hc) (le_max_left _ _))
  have hsplit : ∀ f : BlockId → Nat, ∑ i ∈ blocks, f i =
      f gone + (f into + ∑ i ∈ (blocks.erase gone).erase into, f i) := by
    intro f
    rw [Finset.add_sum_erase _ f (Finset.mem_erase.2 ⟨hm.distinct, hmem hm.head⟩),
      Finset.add_sum_erase _ f (hmem hm.found)]
  have hrest : ∑ i ∈ (blocks.erase gone).erase into, weightAt g' i =
      ∑ i ∈ (blocks.erase gone).erase into, weightAt g i := by
    refine Finset.sum_congr rfl fun i hi => ?_
    obtain ⟨hi', hi⟩ := Finset.mem_erase.1 hi
    exact hothers i (Finset.mem_erase.1 hi).1 hi'
  rw [weight_eq_sum (le_max_left g.slots.size g'.slots.size),
    weight_eq_sum (le_max_right g.slots.size g'.slots.size), hsplit, hsplit, hrest, hinto, hgone,
    hinto', hgone']
  omega

/-! ## Passes and visits -/

/-- **One pass.**  The program stays valid, and it becomes lighter if the pass reports
anything. -/
theorem runs_apply_lighter (pass : Pass) (hg : WellFormed g) (id : BlockId) :
    ∃ changed g', Runs (pass.apply id) g changed g' ∧ WellFormed g' ∧
      (changed = [] → g' = g) ∧ (changed ≠ [] → g'.weight < g.weight) := by
  obtain ⟨changed, w', hrun, hg', hstill, hbusy⟩ :=
    outcome_apply pass (w := { graph := g }) hg id
  have hruns : Runs (pass.apply id) g changed w'.graph := .of_oblivious (.apply pass id) hrun
  refine ⟨changed, w'.graph, hruns, hg', ?_, fun hsome => ?_⟩
  · intro hnone
    by_contra hne
    exact (hbusy fun hrest => hne (hstill hrest).2).reported.1 hnone
  · have hprogress := hbusy fun hrest => hsome (hstill hrest).1
    cases hprogress with
    | emptyBlocks hd _ h _ => exact h.weight_lt hd.found
    | fusion hf h _ => exact h.weight_lt hf
    | @constants removeUnused b b' hb _ _ =>
        obtain ⟨c, hc, rfl⟩ := Option.map_eq_some_iff.1 hb
        obtain ⟨changed', w'', hrun', -, -, hlt⟩ :=
          weight_propagateConstants removeUnused (w := { graph := g }) hg hc
        obtain ⟨hsame, rfl⟩ := Prod.mk.inj (hrun'.symm.trans hrun)
        cases hsame
        obtain ⟨b'', hrewritten, hweight⟩ := hlt hsome
        exact hrewritten.weight_lt hb hweight

/-- The worklist grows by blocks that exist and were not on it. -/
theorem enqueue_eq_append (g : FlowGraph) (queue changed : List BlockId) :
    ∃ more, enqueue g queue changed = queue ++ more ∧ more.Nodup ∧
      ∀ j ∈ more, g.contains j = true ∧ j ∉ queue := by
  unfold enqueue
  induction changed generalizing queue with
  | nil => exact ⟨[], (List.append_nil queue).symm, List.nodup_nil, nofun⟩
  | cons i changed ih =>
      rw [List.foldl_cons]
      split
      · rename_i hi
        have hi : g.contains i = true ∧ i ∉ queue := by simpa using hi
        obtain ⟨more, hmore, hnodup, hnew⟩ := ih (queue ++ [i])
        refine ⟨i :: more, by rw [hmore, List.append_assoc]; rfl,
          List.nodup_cons.2 ⟨fun hin => ?_, hnodup⟩, List.forall_mem_cons.2 ⟨hi, fun j hj => ?_⟩⟩
        · exact (hnew i hin).2 (List.mem_append_right _ (List.mem_singleton_self i))
        · exact ⟨(hnew j hj).1, fun hin => (hnew j hj).2 (List.mem_append_left _ hin)⟩
      · exact ih queue

theorem length_enqueue_le (g : FlowGraph) (queue changed : List BlockId) :
    (enqueue g queue changed).length ≤ queue.length + g.weight := by
  obtain ⟨more, hmore, hnodup, hnew⟩ := enqueue_eq_append g queue changed
  have hlive : more ⊆ g.ids := by
    intro j hj
    obtain ⟨b, hb⟩ := contains_iff.1 (hnew j hj).1
    exact List.mem_map.2 ⟨(j, b), mem_blocks.2 hb, rfl⟩
  have hlength : more.length ≤ g.ids.length := (hnodup.subperm hlive).length_le
  have hweight := length_ids_le g
  rw [hmore, List.length_append]
  omega

/-- **One visit.**  What the worklist grows by is made up for by the square of the weight, and
the number of changes by the weight. -/
theorem runs_visit_lighter (id : BlockId) (passes : List Pass) (hg : WellFormed g)
    (queue : List BlockId) (changes : Nat) :
    ∃ queue' changes' g', Runs (visit id passes (queue, changes)) g (queue', changes') g' ∧
      WellFormed g' ∧
      queue'.length + g'.weight * g'.weight ≤ queue.length + g.weight * g.weight ∧
      changes' + g'.weight ≤ changes + g.weight := by
  induction passes generalizing g queue changes with
  | nil => exact ⟨queue, changes, g, .pure _ g, hg, Nat.le_refl _, Nat.le_refl _⟩
  | cons pass rest ih =>
      by_cases hlive : g.contains id = true
      · obtain ⟨changed, g₁, hrun, hg₁, hstill, hlt⟩ := runs_apply_lighter pass hg id
        by_cases hnone : changed = []
        · obtain rfl := hstill hnone
          obtain ⟨queue', changes', g', hvisit, hg', hqueue, hchanges⟩ := ih hg₁ queue changes
          refine ⟨queue', changes', g', .bind (.graph g₁) ?_, hg', hqueue, hchanges⟩
          rw [if_pos hlive]
          refine .bind hrun ?_
          rwa [if_pos (by simp [hnone])]
        · have hlighter := hlt hnone
          obtain ⟨queue', changes', g', hvisit, hg', hqueue, hchanges⟩ :=
            ih hg₁ (enqueue g₁ queue changed) (changes + 1)
          refine ⟨queue', changes', g', .bind (.graph g) ?_, hg', hqueue.trans ?_, by omega⟩
          · rw [if_pos hlive]
            refine .bind hrun ?_
            rw [if_neg (by simp [hnone])]
            exact .bind (.graph g₁) hvisit
          · have hgrown := length_enqueue_le g₁ queue changed
            have hsquare : g₁.weight * g₁.weight + g₁.weight ≤ g.weight * g.weight := by
              calc g₁.weight * g₁.weight + g₁.weight = g₁.weight * (g₁.weight + 1) := by ring
                _ ≤ g.weight * g.weight := Nat.mul_le_mul hlighter.le hlighter
            omega
      · refine ⟨queue, changes, g, .bind (.graph g) ?_, hg, Nat.le_refl _, Nat.le_refl _⟩
        rw [if_neg hlive]
        exact .pure _ g

/-! ## The worklist -/

/-- A number of visits after which the worklist is empty, whatever the passes are. -/
def visitBound (g : FlowGraph) : Nat := (initialQueue g).length + g.weight * g.weight

/-- **Working through the list** changes the program at most as often as its weight says, and
empties the list if enough visits are left. -/
theorem runs_drain_lighter (cap : Nat) (passes : List Pass) (left : Nat) (hg : WellFormed g)
    (queue : List BlockId) (stats : Stats) :
    ∃ stats' g', Runs (drain cap passes left queue stats) g stats' g' ∧ WellFormed g' ∧
      stats'.changes + g'.weight ≤ stats.changes + g.weight ∧
      (queue.length + g.weight * g.weight ≤ left → stats'.converged = stats.converged) := by
  induction left generalizing g queue stats with
  | zero =>
      cases queue with
      | nil => exact ⟨stats, g, .pure stats g, hg, Nat.le_refl _, fun _ => rfl⟩
      | cons id rest =>
          refine ⟨{ stats with converged := false }, g, .bind (.record _ g) (.pure _ g), hg,
            Nat.le_refl _, fun hleft => ?_⟩
          rw [List.length_cons] at hleft
          omega
  | succ left ih =>
      cases queue with
      | nil => exact ⟨stats, g, .pure stats g, hg, Nat.le_refl _, fun _ => rfl⟩
      | cons id rest =>
          obtain ⟨queue', changes, g₁, hvisit, hg₁, hqueue, hchanges⟩ :=
            runs_visit_lighter id passes hg rest stats.changes
          obtain ⟨stats', g', hdrain, hg', hless, hend⟩ :=
            ih hg₁ queue' { stats with visits := stats.visits + 1, changes }
          refine ⟨stats', g', .bind hvisit hdrain, hg', hless.trans hchanges, fun hleft => ?_⟩
          rw [List.length_cons] at hleft
          exact hend (by omega)

/-- **The worklist drains.**  On a valid program every pass succeeds at every block and leaves
a valid program, a lighter one if it reports anything.  So a run makes at most as many changes
as the weight of the program says, and it converges if it may make as many visits as the
program alone determines, whatever the passes are. -/
theorem run_drains {w : Workspace} (hvalid : w.graph.validate = .ok ()) :
    (∀ (pass : Pass) (id : BlockId), ∃ changed w',
      (pass.apply id).runOn w = (.ok changed, w') ∧ w'.graph.validate = .ok () ∧
        (changed ≠ [] → w'.graph.weight < w.graph.weight)) ∧
    ∀ (cap : Nat) (passes : List Pass), ∃ stats w', (run cap passes).runOn w = (.ok stats, w') ∧
      stats.changes ≤ w.graph.weight ∧
      (visitBound w.graph ≤ cap → stats.converged = true) := by
  have hg : WellFormed w.graph := validate_iff.1 hvalid
  constructor
  · intro pass id
    obtain ⟨changed, g', hruns, hg', -, hlt⟩ := runs_apply_lighter pass hg id
    obtain ⟨log, hrun⟩ := hruns w.log
    exact ⟨changed, ⟨g', log⟩, hrun, validate_iff.2 hg', hlt⟩
  · intro cap passes
    cases hpasses : passes.isEmpty with
    | true =>
        obtain rfl := List.isEmpty_iff.1 hpasses
        exact ⟨{}, w, rfl, Nat.zero_le _, fun _ => rfl⟩
    | false =>
        obtain ⟨stats, g', hdrain, hg', hchanges, hend⟩ :=
          runs_drain_lighter cap passes cap hg (initialQueue w.graph) {}
        obtain ⟨log, hrun⟩ := runs_run hpasses hdrain hg' w.log
        have hinitial : ({} : Stats).changes = 0 := rfl
        exact ⟨stats, ⟨g', log⟩, hrun, by omega, fun hcap => hend hcap⟩

/-- The program with the call makes at most thirteen changes, and its worklist is empty after
173 visits. -/
theorem run_drains_detour :
    detour.validate = .ok () ∧ ∃ stats w',
      (run 173 [.constants true, .emptyBlocks, .fusion]).runOn { graph := detour } =
        (.ok stats, w') ∧
      stats.changes ≤ 13 ∧ stats.converged = true := by
  have hvalid : detour.validate = .ok () := by cbv
  have hweight : detour.weight = 13 := by cbv
  have hbound : visitBound detour ≤ 173 := by cbv
  obtain ⟨stats, w', hrun, hchanges, hend⟩ :=
    (run_drains (w := { graph := detour }) hvalid).2 173 [.constants true, .emptyBlocks, .fusion]
  exact ⟨hvalid, stats, w', hrun, hweight ▸ hchanges, hend hbound⟩

end Simplify
end FlowVerifier
