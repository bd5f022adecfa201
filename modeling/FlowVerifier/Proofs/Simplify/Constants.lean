import FlowVerifier.Proofs.Simplify.Unused

/-!
# Constants stand for the variables that hold them

The table of constants kept by `propagate` is right about the state at every
instruction (`Fits`), whatever the state at the entry of the block.  So the
simplified body runs exactly like the original one (`execAll_propagate`), and the new
terminator leads where the old one led (`leave_of_rewire_keep`,
`leave_of_rewire_collapse`).
-/

namespace FlowVerifier
namespace Simplify

open FlowGraph Run

variable {lax : Prop} {env : Environment} {resolve : String → Option BlockId} {known : Constants}
  {s t : State} {i : Instruction}

/-- Every variable in the table holds its constant. -/
def Fits (known : Constants) (s : State) : Prop :=
  ∀ {x l}, known.get? x = some l → s.vars x = some l

theorem fits_empty (s : State) : Fits .empty s := by
  intro x l h
  cases h

/-! ## Substitution -/

theorem read_substitute (h : Fits known s) (o : Operand) :
    s.read (substitute known o) = s.read o := by
  unfold substitute
  split
  · rename_i l hl
    cases o with
    | literal l' => cases hl
    | var x => simp only [State.read, h hl]
  · rfl

theorem readNumber_substitute (h : Fits known s) (o : Operand) :
    s.readNumber (substitute known o) = s.readNumber o := by
  simp only [State.readNumber, read_substitute h]

theorem slot_substitute (hfree : env.checked = false) (h : Fits known s) (o : Operand) :
    s.slot env (substitute known o) = s.slot env o := by
  simp only [State.slot, read_substitute h, hfree, Bool.false_eq_true, if_false]

/-- Constants may be put in for the variables that hold them. -/
theorem exec_mapOperands (hfree : env.checked = false) (h : Fits known s) (i : Instruction) :
    s.exec env resolve (i.mapOperands (substitute known)) = s.exec env resolve i := by
  cases i with
  | assign target value => simp only [Instruction.mapOperands, State.exec, read_substitute h]
  | evaluate target op lhs rhs =>
      simp only [Instruction.mapOperands, State.exec, read_substitute h]
  | print value => simp only [Instruction.mapOperands, State.exec, read_substitute h]
  | push value => simp only [Instruction.mapOperands, State.exec, slot_substitute hfree h]
  | declareArray name type size =>
      simp only [Instruction.mapOperands, State.exec, State.declareArray,
        readNumber_substitute h]
  | readArray target array index =>
      simp only [Instruction.mapOperands, State.exec, State.readArray, readNumber_substitute h]
  | writeArray array index value =>
      simp only [Instruction.mapOperands, State.exec, State.writeArray, readNumber_substitute h,
        read_substitute h]
  | _ => rfl

/-- An operation on constants may be replaced by its result. -/
theorem exec_of_folded? {j : Instruction} (hj : folded? i = some j) :
    s.exec env resolve j = s.exec env resolve i := by
  unfold folded? at hj
  split at hj
  · rename_i target op a b
    split at hj
    · rename_i value hvalue
      cases hj
      have happly : State.apply op a b = .ok value := by
        unfold State.apply
        rw [hvalue]
      show s.write env target value = (State.apply op a b >>= s.write env target)
      rw [happly]
      rfl
    · cases hj
  · cases hj

theorem exec_simplified (hfree : env.checked = false) (h : Fits known s) (i : Instruction) :
    s.exec env resolve (simplified known i) = s.exec env resolve i := by
  unfold simplified
  dsimp only
  cases hj : folded? (i.mapOperands (substitute known)) with
  | none => exact exec_mapOperands hfree h i
  | some j => exact (exec_of_folded? hj).trans (exec_mapOperands hfree h i)

/-! ## What is known after an instruction -/

theorem vars_bind_of_ne {x name : String} (hne : x ≠ name) (s : State)
    (content : Option Literal) : (s.bind name content).vars x = s.vars x := if_neg hne

theorem vars_pop (hfree : env.checked = false) {target : Option String} {x : String}
    (h : s.pop env target = .ok t) (hx : target ≠ some x) : t.vars x = s.vars x := by
  unfold State.pop at h
  split at h
  · cases h
  · cases h
  · dsimp only at h
    split at h
    · cases h
      rfl
    · rename_i target
      have hne : x ≠ target := by
        rintro rfl
        exact hx rfl
      rw [State.write_unchecked hfree] at h
      split at h <;> cases h <;> exact vars_bind_of_ne hne _ _

/-- An instruction changes no variable but the one it defines. -/
theorem vars_exec (hfree : env.checked = false) (h : s.exec env resolve i = .ok t) {x : String}
    (hx : i.definedVariable ≠ some x) : t.vars x = s.vars x := by
  have hwrite : ∀ {target value}, s.write env target value = .ok t → some target ≠ some x →
      t.vars x = s.vars x := by
    intro target value hw hne
    rw [State.write_unchecked hfree] at hw
    cases hw
    exact vars_bind_of_ne (fun heq => hne (by rw [heq])) _ _
  cases i with
  | declare name type =>
      cases h
      exact vars_bind_of_ne (fun heq => hx (by rw [heq]; rfl)) _ _
  | assign target value =>
      obtain ⟨v, _, h⟩ := State.exists_of_bind_eq_ok h
      exact hwrite h hx
  | evaluate target op lhs rhs =>
      obtain ⟨a, _, h⟩ := State.exists_of_bind_eq_ok h
      obtain ⟨b, _, h⟩ := State.exists_of_bind_eq_ok h
      obtain ⟨v, _, h⟩ := State.exists_of_bind_eq_ok h
      exact hwrite h hx
  | print value =>
      obtain ⟨v, _, h⟩ := State.exists_of_bind_eq_ok h
      cases h
      rfl
  | input target =>
      simp only [State.exec, State.receive, hfree, Bool.false_and, Bool.false_eq_true,
        if_false] at h
      split at h
      · cases h
        exact vars_bind_of_ne (fun heq => hx (by rw [heq]; rfl)) _ _
      · cases h
  | push value =>
      obtain ⟨e, _, h⟩ := State.exists_of_bind_eq_ok h
      cases h
      rfl
  | pushState block =>
      simp only [State.exec] at h
      split at h
      · cases h
        rfl
      · cases h
  | pop target => exact vars_pop hfree h hx
  | declareArray name type size =>
      obtain ⟨v, _, h⟩ := State.exists_of_bind_eq_ok h
      split at h
      · split at h
        · cases h
          rfl
        · cases h
      · cases h
  | readArray target array index =>
      obtain ⟨v, _, h⟩ := State.exists_of_bind_eq_ok h
      obtain ⟨a, _, h⟩ := State.exists_of_bind_eq_ok h
      obtain ⟨place, _, h⟩ := State.exists_of_bind_eq_ok h
      split at h
      · exact hwrite h hx
      · cases h
  | writeArray array index value =>
      obtain ⟨v, _, h⟩ := State.exists_of_bind_eq_ok h
      obtain ⟨w, _, h⟩ := State.exists_of_bind_eq_ok h
      obtain ⟨a, _, h⟩ := State.exists_of_bind_eq_ok h
      simp only [hfree, Bool.false_and, Bool.false_eq_true, if_false] at h
      obtain ⟨place, _, h⟩ := State.exists_of_bind_eq_ok h
      cases h
      rfl
  | jumpIf test block => cases h
  | jump block => cases h
  | ret value => cases h

theorem fits_after (hfree : env.checked = false) (h : Fits known s)
    (hi : s.exec env resolve i = .ok t) : Fits (known.after i) t := by
  -- what is known of the other variables stays known
  have hothers : ∀ {x l}, i.definedVariable ≠ some x → known.get? x = some l →
      t.vars x = some l := by
    intro x l hx hl
    rw [vars_exec hfree hi hx]
    exact h hl
  have herase : ∀ {x l}, (i.definedVariable.elim known known.erase).get? x = some l →
      t.vars x = some l := by
    intro x l hl
    cases hd : i.definedVariable with
    | none =>
        rw [hd] at hl
        exact hothers (by simp [hd]) hl
    | some y =>
        rw [hd, Option.elim_some, Table.get?_erase] at hl
        split at hl
        · cases hl
        · rename_i hne
          exact hothers (by simpa [hd] using hne) hl
  intro x l hl
  unfold Constants.after at hl
  split at hl
  · rename_i target value
    rw [Table.get?_insert] at hl
    have hwrite : s.write env target value = .ok t := hi
    rw [State.write_unchecked hfree] at hwrite
    cases hwrite
    split at hl
    · rename_i heq
      subst heq
      rw [Option.some.inj hl]
      exact if_pos rfl
    · rename_i hne
      exact hothers (by simpa [Instruction.definedVariable] using hne) hl
  · exact herase hl

/-- **The simplified body** runs exactly like the original one, and the constants
known at its end are right. -/
theorem execAll_propagate (hfree : env.checked = false) (body : List Instruction)
    (h : Fits known s) :
    s.execAll env resolve (propagate known body).body = s.execAll env resolve body ∧
      ∀ t, s.execAll env resolve body = .ok t → Fits (propagate known body).known t := by
  induction body generalizing known s with
  | nil =>
      refine ⟨rfl, fun t ht => ?_⟩
      cases ht
      exact h
  | cons i rest ih =>
      have hi : s.exec env resolve (simplified known i) = s.exec env resolve i :=
        exec_simplified hfree h i
      simp only [propagate, State.execAll, hi]
      cases hrun : s.exec env resolve i with
      | error fault => exact ⟨rfl, fun t ht => absurd ht (by simp)⟩
      | ok s' => exact ih (fits_after hfree h (hi.trans hrun))

/-! ## Terminators -/

theorem holds_substitute (h : Fits known s) (test : Comparison) :
    s.holds { test with lhs := substitute known test.lhs, rhs := substitute known test.rhs } =
      s.holds test := by
  simp only [State.holds, read_substitute h]

/-- A test on constants holds if it is folded to true, in every state. -/
theorem holds_of_fold {test : Comparison} {value : Bool} (h : test.fold = .ok (some value))
    (s : State) : s.holds test = .ok value := by
  unfold Comparison.fold at h
  split at h
  · rename_i lhs rhs hlhs hrhs
    cases hfold : test.op.fold lhs rhs with
    | error e =>
        rw [hfold] at h
        cases h
    | ok v =>
        rw [hfold] at h
        cases h
        exact State.holds_eq_ok (by rw [hlhs]; rfl) (by rw [hrhs]; rfl) hfold
  · cases h

/-- A branch whose test is constant leads where the jump leads that replaces it. -/
theorem leave_of_rewire_collapse {e : Terminator} {test : Comparison} {taken : Bool}
    {target dropped : BlockId} (hr : rewire known e = .collapse test taken target dropped)
    (h : Fits known s) : leave s (.jump target) = leave s e := by
  cases e with
  | branch test' onTrue onFalse =>
      simp only [rewire] at hr
      have hleave : ∀ {value}, _ = Except.ok (some value) → s.holds test' = .ok value :=
        fun hfold => (holds_substitute h test').symm.trans (holds_of_fold hfold s)
      split at hr
      · rename_i hfold
        cases hr
        simp only [leave, hleave hfold]
      · rename_i hfold
        cases hr
        simp only [leave, hleave hfold]
      · cases hr
      · cases hr
  | finish => cases hr
  | jump j => cases hr
  | ret value => cases value <;> cases hr

theorem target_of_rewire_collapse {e : Terminator} {test : Comparison} {taken : Bool}
    {target dropped : BlockId} (hr : rewire known e = .collapse test taken target dropped) :
    target ∈ e.targets := by
  cases e with
  | branch test' onTrue onFalse =>
      simp only [rewire] at hr
      split at hr
      · cases hr
        exact List.mem_cons_self
      · cases hr
        exact List.mem_cons_of_mem _ List.mem_cons_self
      · cases hr
      · cases hr
  | finish => cases hr
  | jump j => cases hr
  | ret value => cases value <;> cases hr

/-- A terminator with constants put in leads where it led before. -/
theorem leave_of_rewire_keep {e e' : Terminator} {note : Option String}
    (hr : rewire known e = .keep e' note) (h : Fits known s) : leave s e' = leave s e := by
  cases e with
  | branch test onTrue onFalse =>
      simp only [rewire] at hr
      split at hr
      · cases hr
      · cases hr
      · cases hr
        simp only [leave, holds_substitute h]
      · cases hr
  | finish => cases hr; rfl
  | jump j => cases hr; rfl
  | ret value =>
      cases value with
      | none => cases hr; rfl
      | some o =>
          cases hr
          simp only [leave, leaveByReturn, Option.mapM_some, read_substitute h]

theorem soundExit_of_rewire_keep {e e' : Terminator} {note : Option String}
    {f : Option FunctionId} (hr : rewire known e = .keep e' note) (h : SoundExit e f) :
    SoundExit e' f ∧ e'.targets = e.targets := by
  cases e with
  | branch test onTrue onFalse =>
      simp only [rewire] at hr
      split at hr
      · cases hr
      · cases hr
      · cases hr
        refine ⟨⟨fun heq => ?_, fun hret => absurd hret (by simp [Terminator.isReturn])⟩, rfl⟩
        cases heq
        exact h.sides rfl
      · cases hr
  | finish => cases hr; exact ⟨h, rfl⟩
  | jump j => cases hr; exact ⟨h, rfl⟩
  | ret value =>
      cases value with
      | none => cases hr; exact ⟨h, rfl⟩
      | some o =>
          cases hr
          exact ⟨⟨fun heq => absurd heq (by simp), fun _ => h.returns rfl⟩, rfl⟩

/-! ## The pass -/

/-- A block that was simplified runs exactly like the original one. -/
theorem runBlock_propagate (hfree : env.checked = false) (b : Block) {body : List Instruction}
    (hbody : body = b.body ∨ body = (propagate .empty b.body).body) {e : Terminator}
    (hexit : ∀ t, Fits (propagate .empty b.body).known t → leave t e = leave t b.terminator)
    (s : State) :
    runBlock env resolve { b with body, terminator := e } s = runBlock env resolve b s := by
  obtain ⟨hsame, hfits⟩ :
      s.execAll env resolve (propagate .empty b.body).body = s.execAll env resolve b.body ∧
        ∀ t, s.execAll env resolve b.body = .ok t → Fits (propagate .empty b.body).known t :=
    execAll_propagate hfree b.body (fits_empty s)
  have hexec : s.execAll env resolve body = s.execAll env resolve b.body := by
    rcases hbody with rfl | rfl
    · rfl
    · exact hsame
  unfold runBlock
  dsimp only
  rw [hexec]
  split
  · cases hrun : s.execAll env resolve b.body with
    | error r => rfl
    | ok t => exact hexit t (hfits t hrun)
  · rfl

/-- The body is written if there is something to note. -/
theorem outcome_writeBody {w : Workspace} {id : BlockId} {b : Block}
    (hw : WellFormed w.graph) (hb : w.graph.bare? id = some b) (b₀ : Block)
    (body : List Instruction) (notes : List String) :
    ∃ changed w' body', outcome (writeBody id b₀ body notes) w = (.ok changed, w') ∧
      Rewritten w.graph w'.graph id { b with body := body' } ∧
      (changed = [] ∧ body' = b.body ∧ notes = [] ∧ w' = w ∨
        changed = [id] ∧ body' = body ∧ notes ≠ []) := by
  unfold writeBody
  by_cases hnotes : notes.isEmpty = true
  · rw [if_pos hnotes]
    exact ⟨[], w, b.body, rfl, .refl hw hb, .inl ⟨rfl, rfl, List.isEmpty_iff.1 hnotes, rfl⟩⟩
  · rw [if_neg hnotes]
    have hloop : Silent (ForIn.forIn notes PUnit.unit fun note _ => do
        recordConstant b₀ .constantFolded note
        pure (ForInStep.yield PUnit.unit)) :=
      .forIn fun note => (Silent.record _).bind fun _ => .pure _
    obtain ⟨_, w', hrun, hsame⟩ :=
      hloop { w with graph := w.graph.modifyBlock id fun b => { b with body } }
    refine ⟨[id], w', body, ?_, ?_, .inr ⟨rfl, rfl, by simpa using hnotes⟩⟩
    · rw [outcome_bind_ok (outcome_edit (Rewritten.outcome_setBody hb body)),
        outcome_bind_ok hrun]
      rfl
    · rw [hsame]
      exact .setBody hw hb body

theorem sound_finish (removeUnused : Bool) (id : BlockId) (b : Block) (changed : List BlockId) :
    Sound lax (propagateConstants.finish removeUnused id b changed) := by
  unfold propagateConstants.finish
  cases removeUnused with
  | false => exact .pure _
  | true => exact (sound_writeDropped id b changed).bind fun _ => .pure _

/-- The terminator of a block is replaced. -/
theorem Rewritten.outcome_setTerminator {g : FlowGraph} {id : BlockId} {b : Block}
    (hb : g.bare? id = some b) {e : Terminator} (hsound : SoundExit e b.function)
    (htargets : ∀ t ∈ e.targets, g.contains t = true) :
    outcome (FlowGraph.setTerminator id e) g = (.ok (), g.withTerminator id e) := by
  have hid : g.contains id = true := contains_of_bare? hb
  have hset := FlowGraph.outcome_setTerminator (t := e) hid (by rwa [hsound.normalize])
  rwa [hsound.normalize] at hset

/-- A block whose body and terminator were simplified stands in for the original. -/
theorem standsIn_of_rewritten {g g' : FlowGraph} {id : BlockId} {b : Block} (hg : Proper g)
    (hb : g.bare? id = some b) {body : List Instruction}
    (hbody : body = b.body ∨ body = (propagate .empty b.body).body) {e : Terminator}
    (hexit : ∀ t, Fits (propagate .empty b.body).known t → leave t e = leave t b.terminator)
    (h : Rewritten g g' id { b with body, terminator := e }) : StandsIn lax g g' :=
  ⟨h.proper hg hb rfl, fun _ hfree =>
    h.preserves hg.names hb rfl (runBlock_propagate hfree b hbody hexit)⟩

/-- A simplified block gets its new terminator. -/
theorem outcome_rewritten {w w₁ : Workspace} {id : BlockId} {b₁ : Block}
    (h : Rewritten w.graph w₁.graph id b₁) {e : Terminator}
    (hsound : SoundExit e b₁.function)
    (htargets : ∀ t ∈ e.targets, w.graph.contains t = true) :
    ∃ w₂, outcome (Transform.edit (FlowGraph.setTerminator id e)) w₁ = (.ok (), w₂) ∧
      Rewritten w.graph w₂.graph id { b₁ with terminator := e } := by
  have hlive : ∀ t ∈ e.targets, w₁.graph.contains t = true := by
    intro t ht
    have hsome := htargets t ht
    rw [contains_eq_isSome_bare?] at hsome ⊢
    rw [h.bare]
    split
    · rfl
    · exact hsome
  exact ⟨_, outcome_edit (Rewritten.outcome_setTerminator h.found hsound hlive),
    h.trans (.withTerminator h.wellFormed h.found hsound hlive)⟩

theorem mapOperands_eq {f : Operand → Operand} (h : ∀ o ∈ i.operands, f o = o) :
    i.mapOperands f = i := by
  cases i with
  | ret value => cases value <;> simp_all [Instruction.mapOperands, Instruction.operands]
  | _ => simp_all [Instruction.mapOperands, Instruction.operands]

/-- An instruction that cannot be simplified is left alone. -/
theorem simplified_eq (h : isSimplifiable known i = false) : simplified known i = i := by
  unfold isSimplifiable isAffected at h
  simp only [Bool.or_eq_false_iff, List.any_eq_false, Option.isSome_eq_false_iff,
    Option.isNone_iff_eq_none, Bool.not_eq_true] at h
  have hmap : i.mapOperands (substitute known) = i := by
    refine mapOperands_eq fun o ho => ?_
    simp only [substitute, h.1 o ho]
  unfold simplified
  dsimp only
  rw [h.2, hmap]
  rfl

/-- A body without anything to note is left alone. -/
theorem propagate_body_of_notes (body : List Instruction) (known : Constants)
    (h : (propagate known body).notes = []) : (propagate known body).body = body := by
  induction body generalizing known with
  | nil => rfl
  | cons i rest ih =>
      simp only [propagate] at h ⊢
      split at h
      · exact absurd h (by simp)
      · rename_i hi
        rw [simplified_eq (by simpa using hi)] at h ⊢
        rw [ih _ h]

/-- What the pass makes of a block: its simplified body, and the terminator that goes with
it. -/
inductive Simplified (b : Block) : List Instruction → Terminator → Prop where
  /-- Nothing was to be done. -/
  | same : Simplified b b.body b.terminator
  /-- The terminator is of its kind. -/
  | keep {e : Terminator} {note : Option String}
      (h : rewire (propagate .empty b.body).known b.terminator = .keep e note) :
      Simplified b (propagate .empty b.body).body e
  /-- A branch became a jump. -/
  | collapse {test : Comparison} {taken : Bool} {target dropped : BlockId}
      (h : rewire (propagate .empty b.body).known b.terminator =
        .collapse test taken target dropped) :
      Simplified b (propagate .empty b.body).body (.jump target)

/-- The blocks that the pass reports before it drops what is unused, with the body and the
terminator it leaves; at a mistake it ends without a report. -/
inductive Reported (id : BlockId) (b : Block) :
    Option (List BlockId) → List Instruction → Terminator → Prop where
  /-- The test is a mistake. -/
  | mistake {message : String}
      (h : rewire (propagate .empty b.body).known b.terminator = .mistake message) :
      Reported id b none b.body b.terminator
  /-- Nothing was to be done. -/
  | idle {e : Terminator} (hnotes : (propagate .empty b.body).notes = [])
      (h : rewire (propagate .empty b.body).known b.terminator = .keep e none) :
      Reported id b (some []) b.body b.terminator
  /-- The block was simplified. -/
  | busy {e : Terminator} {note : Option String}
      (hnotes : (propagate .empty b.body).notes ++ note.toList ≠ [])
      (h : rewire (propagate .empty b.body).known b.terminator = .keep e note) :
      Reported id b (some [id]) (propagate .empty b.body).body e
  /-- A branch became a jump. -/
  | collapse {test : Comparison} {taken : Bool} {target dropped : BlockId}
      (changed : List BlockId)
      (h : rewire (propagate .empty b.body).known b.terminator =
        .collapse test taken target dropped) :
      Reported id b (some (changed ++ [id, target, dropped])) (propagate .empty b.body).body
        (.jump target)

theorem Reported.simplified {id : BlockId} {b : Block} {reported : Option (List BlockId)}
    {body : List Instruction} {e : Terminator} (h : Reported id b reported body e) :
    Simplified b body e := by
  cases h with
  | mistake _ => exact .same
  | idle _ _ => exact .same
  | busy _ h => exact .keep h
  | collapse _ h => exact .collapse h

/-- **Propagation of constants** rewrites one block, before it drops what is unused. -/
theorem outcome_propagateConstants (removeUnused : Bool) {w : Workspace}
    (hw : WellFormed w.graph) {id : BlockId} {b : Block} (hfound : w.graph.block? id = some b) :
    ∃ reported w' body e, outcome (propagateConstants removeUnused id) w =
        outcome (reported.elim (pure []) (propagateConstants.finish removeUnused id b)) w' ∧
      Reported id b reported body e ∧
      (reported.getD [] = [] → w'.graph = w.graph) ∧
      Rewritten w.graph w'.graph id { b.bare with body, terminator := e } := by
  have hb : w.graph.bare? id = some b.bare := bare?_of_block? hfound
  have hsound : SoundExit b.bare.terminator b.bare.function := hw.exits hb
  have htargets : ∀ t ∈ b.terminator.targets, w.graph.contains t = true :=
    fun t ht => (hw.target_live hb ht).2
  have hgraph : outcome Transform.graph w = (.ok w.graph, w) := rfl
  unfold propagateConstants
  rw [outcome_bind_ok hgraph, hfound]
  dsimp only
  cases hr : rewire (propagate .empty b.body).known b.terminator with
  | mistake message =>
      exact ⟨none, _, b.body, b.terminator, rfl, .mistake hr, fun _ => rfl, .refl hw hb⟩
  | collapse test taken target dropped =>
      obtain ⟨changed, w₁, body, hwrite, hbody, hcase⟩ :=
        outcome_writeBody hw hb b (propagate .empty b.body).body
          (propagate .empty b.body).notes
      have hjump : ∀ t ∈ (Terminator.jump target).targets, w.graph.contains t = true := by
        intro t ht
        obtain rfl : t = target := by simpa [Terminator.targets] using ht
        exact htargets t (target_of_rewire_collapse hr)
      obtain ⟨w₂, hset, hboth⟩ := outcome_rewritten hbody (soundExit_jump target b.function) hjump
      obtain rfl : body = (propagate .empty b.body).body := by
        rcases hcase with ⟨-, rfl, hnotes, -⟩ | ⟨-, rfl, -⟩
        · exact (propagate_body_of_notes b.body .empty hnotes).symm
        · rfl
      refine ⟨_, { w₂ with log := w₂.log.record ?event }, _, .jump target, ?_,
        .collapse changed hr, fun hnone => by simp at hnone, hboth⟩
      rotate_left
      dsimp only
      rw [outcome_bind_ok hwrite, outcome_bind_ok hset]
      rfl
  | keep e note =>
      obtain ⟨changed, w₁, body, hwrite, hbody, hcase⟩ :=
        outcome_writeBody hw hb b (propagate .empty b.body).body
          ((propagate .empty b.body).notes ++ note.toList)
      rcases hcase with ⟨rfl, rfl, hnotes, rfl⟩ | ⟨rfl, rfl, hnotes⟩
      · obtain ⟨hquiet, hnote⟩ := List.append_eq_nil_iff.1 hnotes
        obtain rfl : note = none := by cases note <;> simp at hnote ⊢
        refine ⟨some [], w₁, b.body, b.terminator, ?_, .idle hquiet hr, fun _ => rfl, hbody⟩
        dsimp only
        rw [outcome_bind_ok hwrite]
        rfl
      · obtain ⟨hkept, hsame⟩ := soundExit_of_rewire_keep hr hsound
        obtain ⟨w₂, hset, hboth⟩ :=
          outcome_rewritten hbody hkept fun t ht => htargets t (hsame ▸ ht)
        refine ⟨some [id], w₂, _, e, ?_, .busy hnotes hr, fun hnone => by simp at hnone, hboth⟩
        dsimp only
        rw [outcome_bind_ok hwrite]
        exact outcome_bind_ok hset

/-- **Propagation of constants** is sound. -/
theorem sound_propagateConstants (removeUnused : Bool) (id : BlockId) :
    Sound lax (propagateConstants removeUnused id) := by
  intro w hw
  cases hfound : w.graph.block? id with
  | none =>
      refine SoundOn.graph_bind ?_
      rw [hfound]
      exact Sound.pure [] w hw
  | some b =>
      have hb : w.graph.bare? id = some b.bare := bare?_of_block? hfound
      obtain ⟨reported, w', body, e, hrun, hreported, -, hrewritten⟩ :=
        outcome_propagateConstants removeUnused hw.wellFormed hfound
      have hstands : StandsIn lax w.graph w'.graph := by
        cases hreported.simplified with
        | same => exact standsIn_of_rewritten hw hb (.inl rfl) (fun _ _ => rfl) hrewritten
        | keep hr =>
            exact standsIn_of_rewritten hw hb (.inr rfl)
              (fun t ht => leave_of_rewire_keep hr ht) hrewritten
        | collapse hr =>
            exact standsIn_of_rewritten hw hb (.inr rfl)
              (fun t ht => leave_of_rewire_collapse hr ht) hrewritten
      refine .after hrun hstands ?_
      cases reported with
      | none => exact Sound.pure [] w' hstands.proper
      | some changed => exact sound_finish removeUnused id b changed w' hstands.proper

end Simplify
end FlowVerifier
