import FlowVerifier.Proofs.Simplify.Constants

/-!
# What becomes of the uses of variables

Propagation of constants takes reads out of a block, but only of variables that the block
writes before it reads them (`mem_reads_propagate`).  It keeps every write and every marker.
Dropping what is unused takes out writes, and no reads.  So a variable that is read less
than before is still written by the block that was simplified, or by no block any more.
-/

namespace FlowVerifier
namespace Simplify

open FlowGraph

variable {env : Constants} {o : Operand} {i : Instruction} {body : List Instruction} {b : Block}
  {x : String} {e : Terminator}

/-- Some instruction writes the variable. -/
def Defines (body : List Instruction) (x : String) : Prop :=
  ∃ i ∈ body, i.definedVariable = some x

/-- The variables that the instructions read. -/
def reads (body : List Instruction) : List String := body.flatMap Instruction.readNames

theorem defines_cons : Defines (i :: body) x ↔ i.definedVariable = some x ∨ Defines body x := by
  simp [Defines]

theorem mem_readNamesOf : x ∈ readNamesOf b ↔ x ∈ reads b.body ∨ x ∈ b.terminator.readNames :=
  List.mem_append

/-! ## One instruction -/

theorem definedVariable_mapOperands (f : Operand → Operand) (i : Instruction) :
    (i.mapOperands f).definedVariable = i.definedVariable := by
  cases i <;> rfl

theorem operands_mapOperands (f : Operand → Operand) (i : Instruction) :
    (i.mapOperands f).operands = i.operands.map f := by
  cases i with
  | ret value => cases value <;> rfl
  | _ => rfl

/-- An operation that has a result is one on constants. -/
theorem eq_evaluate_of_folded? {j : Instruction} (h : folded? i = some j) :
    ∃ target op a b value, i = .evaluate target op (.literal a) (.literal b) ∧
      j = .assign target (.literal value) := by
  unfold folded? at h
  split at h
  · rename_i target op a b
    split at h
    · rename_i value _
      exact ⟨target, op, a, b, value, rfl, (Option.some.inj h).symm⟩
    · cases h
  · cases h

/-- An instruction writes what it wrote. -/
theorem definedVariable_simplified (env : Constants) (i : Instruction) :
    (simplified env i).definedVariable = i.definedVariable := by
  rw [← definedVariable_mapOperands (substitute env) i]
  unfold simplified
  dsimp only
  cases hj : folded? (i.mapOperands (substitute env)) with
  | none => rfl
  | some j =>
      obtain ⟨target, op, a, b, value, hi, rfl⟩ := eq_evaluate_of_folded? hj
      rw [hi]
      rfl

/-- A variable is read until a constant is put in its place. -/
theorem mem_operands_substitute (env : Constants) {operands : List Operand}
    (h : .var x ∈ operands) :
    .var x ∈ operands.map (substitute env) ∨ (env.get? x).isSome = true := by
  cases hx : env.get? x with
  | none => exact .inl (List.mem_map.2 ⟨_, h, by simp [substitute, known?, Operand.var?, hx]⟩)
  | some l => exact .inr rfl

theorem mem_filterMap_var? {operands : List Operand} :
    x ∈ operands.filterMap Operand.var? ↔ .var x ∈ operands := by
  constructor
  · intro h
    obtain ⟨o, ho, hx⟩ := List.mem_filterMap.1 h
    cases o with
    | literal l => cases hx
    | var y =>
        obtain rfl : y = x := Option.some.inj hx
        exact ho
  · exact fun h => List.mem_filterMap.2 ⟨_, h, rfl⟩

/-- An instruction reads what it read, but for the variables known to be constant. -/
theorem mem_readNames_simplified (env : Constants) (h : x ∈ i.readNames) :
    x ∈ (simplified env i).readNames ∨ (env.get? x).isSome = true := by
  have hoperands : .var x ∈ i.operands →
      .var x ∈ (i.mapOperands (substitute env)).operands ∨ (env.get? x).isSome = true := by
    intro hx
    rw [operands_mapOperands]
    exact mem_operands_substitute env hx
  unfold simplified
  dsimp only
  cases hj : folded? (i.mapOperands (substitute env)) with
  | some j =>
      -- nothing is left to read in an operation that has a result
      obtain ⟨target, op, a, b, value, hi, rfl⟩ := eq_evaluate_of_folded? hj
      rw [hi] at hoperands
      refine (hoperands ?_).imp_left fun hx => by simp [Instruction.operands] at hx
      cases i with
      | evaluate target op lhs rhs =>
          exact mem_filterMap_var?.1 (by simpa [Instruction.readNames] using h)
      | ret value => cases value <;> cases hi
      | _ => cases hi
  | none =>
      rcases List.mem_append.1 h with hx | hx
      · refine (hoperands (mem_filterMap_var?.1 hx)).imp_left fun hx => ?_
        exact List.mem_append_left _ (mem_filterMap_var?.2 hx)
      · refine .inl (List.mem_append_right _ ?_)
        cases i with
        | ret value => cases value <;> exact hx
        | _ => exact hx

theorem get?_after {j : Instruction} (h : ((env.after j).get? x).isSome = true) :
    (env.get? x).isSome = true ∨ j.definedVariable = some x := by
  unfold Constants.after at h
  split at h
  · rename_i target value
    rw [Table.get?_insert] at h
    split at h
    · rename_i heq
      exact .inr (by rw [heq]; rfl)
    · exact .inl h
  · cases hd : j.definedVariable with
    | none =>
        rw [hd] at h
        exact .inl h
    | some y =>
        rw [hd, Option.elim_some, Table.get?_erase] at h
        split at h
        · cases h
        · exact .inl h

/-! ## Bodies -/

theorem defines_propagate (env : Constants) (body : List Instruction) :
    Defines (propagate env body).body x ↔ Defines body x := by
  induction body generalizing env with
  | nil => rfl
  | cons i rest ih =>
      simp only [propagate, defines_cons, definedVariable_simplified, ih]

theorem mem_propagate_of_marker {name : String} (h : .pushState name ∈ body) (env : Constants) :
    .pushState name ∈ (propagate env body).body := by
  induction body generalizing env with
  | nil => cases h
  | cons i rest ih =>
      rcases List.mem_cons.1 h with rfl | h
      · exact List.mem_cons_self
      · exact List.mem_cons_of_mem _ (ih h _)

/-- What is known at the end was known at the beginning, or is written. -/
theorem get?_known_propagate (h : ((propagate env body).known.get? x).isSome = true) :
    (env.get? x).isSome = true ∨ Defines body x := by
  induction body generalizing env with
  | nil => exact .inl h
  | cons i rest ih =>
      rw [defines_cons]
      rcases ih h with hx | hx
      · exact (get?_after hx).imp_right fun hi =>
          .inl ((definedVariable_simplified env i).symm.trans hi)
      · exact .inr (.inr hx)

/-- **A body reads what it read**, but for variables that were known before it or that it
writes. -/
theorem mem_reads_propagate (env : Constants) (h : x ∈ reads body) :
    x ∈ reads (propagate env body).body ∨ (env.get? x).isSome = true ∨ Defines body x := by
  induction body generalizing env with
  | nil => cases h
  | cons i rest ih =>
      simp only [reads, List.flatMap_cons, List.mem_append] at h ih
      simp only [reads, propagate, List.flatMap_cons, List.mem_append, defines_cons]
      rcases h with h | h
      · rcases mem_readNames_simplified env h with hx | hx
        · exact .inl (.inl hx)
        · exact .inr (.inl hx)
      · rcases ih (env.after (simplified env i)) h with hx | hx | hx
        · exact .inl (.inr hx)
        · exact .inr ((get?_after hx).imp_right fun hi =>
            .inl ((definedVariable_simplified env i).symm.trans hi))
        · exact .inr (.inr (.inr hx))

/-! ## Terminators -/

theorem mem_readNames_iff {test : Comparison} :
    x ∈ test.readNames ↔ .var x ∈ [test.lhs, test.rhs] := by
  rw [← mem_filterMap_var?, Comparison.readNames]
  cases test.lhs <;> cases test.rhs <;> simp [Operand.var?, eq_comm]

theorem mem_readNames_rewire_keep {e' : Terminator} {note : Option String}
    (hr : rewire env e = .keep e' note) (h : x ∈ e.readNames) :
    x ∈ e'.readNames ∨ (env.get? x).isSome = true := by
  cases e with
  | branch test onTrue onFalse =>
      simp only [rewire] at hr
      split at hr
      · cases hr
      · cases hr
      · cases hr
        exact (mem_operands_substitute env (mem_readNames_iff.1 h)).imp_left fun hx =>
          mem_readNames_iff.2 hx
      · cases hr
  | finish => cases h
  | jump j => cases h
  | ret value =>
      cases value with
      | none => cases h
      | some o =>
          cases hr
          cases o with
          | literal l => cases h
          | var y =>
              obtain rfl : x = y := by simpa [Terminator.readNames, Operand.var?] using h
              cases hx : env.get? x with
              | none =>
                  refine .inl ?_
                  simp [Terminator.readNames, substitute, known?, Operand.var?, hx]
              | some l => exact .inr rfl

/-- A test that is made no more read variables that are known to be constant. -/
theorem get?_of_rewire_collapse {test : Comparison} {taken : Bool} {target dropped : BlockId}
    (hr : rewire env e = .collapse test taken target dropped) (h : x ∈ e.readNames) :
    (env.get? x).isSome = true := by
  have hliteral : ∀ {test : Comparison} {value : Bool}, test.fold = .ok (some value) →
      ∀ o ∈ [test.lhs, test.rhs], o ≠ .var x := by
    intro test value hfold o ho
    unfold Comparison.fold at hfold
    split at hfold
    · rename_i lhs rhs hl hr
      rcases List.mem_cons.1 ho with rfl | ho
      · rw [hl]
        exact nofun
      · rw [List.mem_singleton.1 ho, hr]
        exact nofun
    · cases hfold
  cases e with
  | branch test' onTrue onFalse =>
      have hx := mem_operands_substitute env (mem_readNames_iff.1 h)
      simp only [rewire] at hr
      split at hr
      · rename_i hfold
        exact hx.resolve_left fun hmem => hliteral hfold _ hmem rfl
      · rename_i hfold
        exact hx.resolve_left fun hmem => hliteral hfold _ hmem rfl
      · cases hr
      · cases hr
  | finish => cases h
  | jump j => cases h
  | ret value => cases value <;> cases hr

/-! ## Blocks -/

/-- **A simplified block** writes and marks what it did.  It reads what it read, but for
variables that it writes. -/
structure Rephrased (b b' : Block) : Prop where
  reads : ∀ x ∈ readNamesOf b, x ∈ readNamesOf b' ∨ Defines b.body x
  defines : ∀ x, Defines b'.body x ↔ Defines b.body x
  marks : ∀ name, .pushState name ∈ b.body → .pushState name ∈ b'.body

theorem Simplified.rephrased {body : List Instruction} (h : Simplified b body e) :
    Rephrased b { b with body, terminator := e } := by
  have hbody : ∀ {e'}, (∀ x ∈ b.terminator.readNames, x ∈ e'.readNames ∨
      ((propagate .empty b.body).known.get? x).isSome = true) →
      Rephrased b { b with body := (propagate .empty b.body).body, terminator := e' } := by
    intro e' hexit
    refine ⟨fun x hx => ?_, fun x => defines_propagate .empty b.body,
      fun name hname => mem_propagate_of_marker hname .empty⟩
    rw [mem_readNamesOf] at hx ⊢
    have hnone : ((Table.empty : Constants).get? x).isSome ≠ true := by simp
    rcases hx with hx | hx
    · rcases mem_reads_propagate .empty hx with hx | hx | hx
      · exact .inl (.inl hx)
      · exact absurd hx hnone
      · exact .inr hx
    · rcases hexit x hx with hx | hx
      · exact .inl (.inr hx)
      · exact .inr ((get?_known_propagate hx).resolve_left hnone)
  cases h with
  | same => exact ⟨fun x hx => .inl hx, fun x => .rfl, fun name hname => hname⟩
  | keep hr => exact hbody fun x hx => mem_readNames_rewire_keep hr hx
  | collapse hr => exact hbody fun x hx => .inr (get?_of_rewire_collapse hr hx)

end Simplify
end FlowVerifier
