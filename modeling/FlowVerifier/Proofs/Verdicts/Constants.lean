import FlowVerifier.Proofs.Simplify.Constants
import FlowVerifier.Proofs.Simplify.Edits
import FlowVerifier.Proofs.Symbolic.Constants
import FlowVerifier.Proofs.Symbolic.Simulation

/-!
# Constants and the search

The search knows of every variable in the table of constants what the table says
(`Knows`), so that it reads the same whether a constant was put in or not.  It notices
nothing of a simplified block if the block is `Faithful`:

* No constant is copied from one variable to another, or compared with a variable, since
  the search would record a relation between the two.
* What is folded is what the search comes to (`ArithOp.isExact`), and what is compared is no NaN.
* A variable whose constant is pushed in its place is not popped again: the search would
  restore it with all that was known about it.
-/

namespace FlowVerifier
namespace Symbolic

open Exec Simplify

variable {slack : Slack} {p p' q : Path} {env : Constants} {o : Operand} {node node' : String}
  {i j : Instruction} {resolve resolve' : String → Option BlockId}

/-! ## Operands -/

/-- A variable in whose place a constant is put is in the table. -/
theorem get?_of_substitute {x : String} {l : Literal} (h : substitute env (.var x) = .literal l) :
    env.get? x = some l := by
  unfold substitute known? at h
  cases hx : env.get? x with
  | none => simp [Operand.var?, hx] at h
  | some m => simpa [Operand.var?, hx] using h

/-- A variable that is left is none in the table. -/
theorem eq_var_of_substitute {x : String} (h : substitute env o = .var x) :
    o = .var x ∧ env.get? x = none := by
  cases o with
  | literal m => cases h
  | var y =>
      cases hy : env.get? y with
      | none =>
          obtain rfl : y = x := by simpa [substitute, known?, Operand.var?, hy] using h
          exact ⟨rfl, hy⟩
      | some m => simp [substitute, known?, Operand.var?, hy] at h

theorem substitute_of_unknown (h : (known? env o).isSome = false) : substitute env o = o := by
  simp only [Option.isSome_eq_false_iff, Option.isNone_iff_eq_none] at h
  simp only [substitute, h]

/-! ## What the search knows of constants -/

/-- The path knows of all variables in the table that they hold their constants, and of no
relation to others. -/
def Path.Knows (p : Path) (env : Constants) : Prop :=
  ∀ x l, env.get? x = some l → ∃ v, p.var? x = some v ∧ v.type = (Value.ofLiteral l).type ∧
    v.value = .ofLiteral l ∧ v.defined = true ∧ v.relations = []

namespace Path.Knows

theorem empty (p : Path) : p.Knows .empty := fun _ _ h => absurd h (by simp)

/-- Knowledge of variables that are left alone stays. -/
theorem erase {target : String} (h : p.Knows env)
    (hsame : ∀ x, x ≠ target → (env.get? x).isSome = true → p'.var? x = p.var? x) :
    p'.Knows (env.erase target) := by
  intro x l hx
  rw [Table.get?_erase] at hx
  split at hx
  · exact absurd hx (by simp)
  · rename_i hne
    rw [hsame x (Ne.symm hne) (by simp [hx])]
    exact h x l hx

theorem insert {target : String} {l : Literal} (h : p.Knows env)
    (hw : Path.Writes target (.ofLiteral l) p p') : p'.Knows (env.insert target l) := by
  intro x m hx
  rw [Table.get?_insert] at hx
  split at hx
  · rename_i heq
    subst heq
    obtain rfl := Option.some.inj hx
    exact hw.written
  · rename_i hne
    rw [hw.others x (Ne.symm hne)]
    exact h x m hx

theorem same (h : p.Knows env) (hsame : p'.vars = p.vars) : p'.Knows env := by
  intro x l hx
  have hvar : p'.var? x = p.var? x := by simp only [Path.var?, hsame]
  rw [hvar]
  exact h x l hx

/-- What is known after an instruction that stores no constant. -/
theorem after (h : p.Knows env) (hj : ∀ target l, j ≠ .assign target (.literal l))
    (hsame : ∀ x, j.definedVariable ≠ some x → (env.get? x).isSome = true →
      p'.var? x = p.var? x) : p'.Knows (env.after j) := by
  have hafter : env.after j = j.definedVariable.elim env env.erase := by
    unfold Constants.after
    split
    · rename_i target l
      exact absurd rfl (hj target l)
    · rfl
  rw [hafter]
  cases hd : j.definedVariable with
  | none =>
      intro x l hx
      rw [Option.elim_none] at hx
      rw [hsame x (by simp [hd]) (by simp [hx])]
      exact h x l hx
  | some target =>
      refine h.erase fun x hx hknown => hsame x ?_ hknown
      rw [hd]
      simpa using Ne.symm hx

theorem readOperand_eq {l : Literal} (h : p.Knows env) (ho : substitute env o = .literal l) :
    readOperand p o = .ok (.ofLiteral l) := by
  cases o with
  | literal m =>
      obtain rfl := Operand.literal.inj ho
      rfl
  | var x =>
      obtain ⟨v, hv, -, hvalue, -⟩ := h x l (get?_of_substitute ho)
      simp only [readOperand, hv, hvalue]

/-- A known constant is read like its variable. -/
theorem read (hk : p.Knows env) (h : p.Alike slack q) (ho : Avoids slack.unused o) :
    ReadAlike p o q (substitute env o) := by
  cases hs : substitute env o with
  | literal l =>
      unfold ReadAlike
      rw [hk.readOperand_eq hs]
      rfl
  | var x =>
      rw [← (eq_var_of_substitute hs).1]
      exact h.read ho

end Path.Knows

/-! ## Instructions -/

/-- Does the search not notice that an instruction was simplified?  Constants may be pushed
for the variables in `passed`. -/
def isFaithful (passed : List String) (env : Constants) (i : Instruction) : Bool :=
  match i with
  | .assign target (.var x) => (env.get? x).isNone || x == target
  | .push (.var x) => (env.get? x).isNone || passed.contains x
  | .evaluate _ op lhs rhs =>
    match substitute env lhs, substitute env rhs with
    | .literal l, .literal m => (op.fold l m).toOption.all (op.isExact l m)
    | _, _ => true
  | _ => true

/-- Does the search not notice that a body was simplified? -/
def isFaithfulBody (passed : List String) (env : Constants) : List Instruction → Bool
  | [] => true
  | i :: rest =>
    isFaithful passed env i && isFaithfulBody passed (env.after (simplified env i)) rest

theorem simplified_of_folded? (h : folded? (i.mapOperands (substitute env)) = none) :
    simplified env i = i.mapOperands (substitute env) := by
  simp only [simplified, h, Option.getD_none]

/-- Instructions whose operands are not replaced. -/
theorem tandem_kept (h : p.Alike slack q) (hk : p.Knows env)
    (hi : Untouched slack resolve resolve' i) (hsame : simplified env i = i)
    (hcopy : ∀ target x, i = .assign target (.var x) → env.get? x = none)
    (hstore : ∀ target l, i ≠ .assign target (.literal l)) :
    Tandem (execute resolve node i) p (execute resolve' node' (simplified env i)) q
      fun _ p' _ q' => p'.Alike slack q' ∧ p'.Knows (env.after (simplified env i)) := by
  rw [hsame]
  refine (tandem_execute h hi).imp ?_
  rintro _ p' _ q' ⟨h', hframe⟩
  refine ⟨h', hk.after hstore fun x hx hknown => hframe x ⟨hx, ?_⟩⟩
  rintro target rfl
  simp [hcopy target x rfl] at hknown

/-- An assignment.  A constant that is stored was there before, or the variable is its own
source. -/
theorem tandem_simplified_assign {target : String} {value : Operand} (h : p.Alike slack q)
    (hk : p.Knows env) (hi : Untouched slack resolve resolve' (.assign target value))
    (hf : isFaithful slack.passed env (.assign target value) = true) :
    Tandem (execute resolve node (.assign target value)) p
      (execute resolve' node' (simplified env (.assign target value))) q fun _ p' _ q' =>
        p'.Alike slack q' ∧ p'.Knows (env.after (simplified env (.assign target value))) := by
  have hsub : simplified env (.assign target value) = .assign target (substitute env value) :=
    simplified_of_folded? rfl
  cases hs : substitute env value with
  | literal l =>
      have hread := hs ▸ hk.read h (hi.reads _ List.mem_cons_self)
      rw [hsub, hs]
      refine (tandem_store h (hi.writes target rfl) hread ?_).imp ?_
      · cases value with
        | literal m => exact .inr hs
        | var x =>
            have hsource : x = target := by
              simpa [isFaithful, get?_of_substitute hs] using hf
            exact .inl (by simp [Operand.reads, Operand.var?, hsource])
      · rintro _ p' _ q' ⟨h', hw⟩
        exact ⟨h', hk.insert hw⟩
  | var x =>
      obtain ⟨rfl, hunknown⟩ := eq_var_of_substitute hs
      refine tandem_kept h hk hi (by rw [hsub, hs]) ?_ (by simp)
      rintro _ y hy
      cases hy
      exact hunknown

/-- An operation on constants is folded, and any other is carried out on both sides. -/
theorem tandem_simplified_evaluate {target : String} {op : ArithOp} {lhs rhs : Operand}
    (h : p.Alike slack q) (hk : p.Knows env)
    (hi : Untouched slack resolve resolve' (.evaluate target op lhs rhs))
    (hf : isFaithful slack.passed env (.evaluate target op lhs rhs) = true) :
    Tandem (execute resolve node (.evaluate target op lhs rhs)) p
      (execute resolve' node' (simplified env (.evaluate target op lhs rhs))) q fun _ p' _ q' =>
        p'.Alike slack q' ∧
          p'.Knows (env.after (simplified env (.evaluate target op lhs rhs))) := by
  have ht := hi.writes target rfl
  have hl := hk.read h (hi.reads _ List.mem_cons_self)
  have hr := hk.read h (hi.reads _ (List.mem_cons_of_mem _ List.mem_cons_self))
  have heval : Tandem (execute resolve node (.evaluate target op lhs rhs)) p
      (execute resolve' node' (.evaluate target op (substitute env lhs) (substitute env rhs))) q
      fun _ p' _ q' => p'.Alike slack q' ∧
        p'.Knows (env.after (.evaluate target op (substitute env lhs) (substitute env rhs))) := by
    refine (tandem_executeEvaluate h ht hl hr).imp ?_
    rintro _ p' _ q' ⟨h', hothers⟩
    refine ⟨h', hk.after (by simp) fun x hx _ => hothers x ?_⟩
    rintro rfl
    exact hx rfl
  unfold simplified
  dsimp only [Instruction.mapOperands]
  cases hls : substitute env lhs with
  | var x =>
      rw [hls] at heval
      exact heval
  | literal l =>
      cases hrs : substitute env rhs with
      | var x =>
          rw [hls, hrs] at heval
          exact heval
      | literal m =>
          rw [hls, hrs] at heval
          cases hfold : op.fold l m with
          | error e =>
              simp only [folded?, hfold, Option.getD_none]
              exact heval
          | ok r =>
              have hexact : op.isExact l m r = true := by
                simpa [isFaithful, hls, hrs, hfold, Except.toOption] using hf
              simp only [folded?, hfold, Option.getD_some]
              refine (tandem_folded h ht (hk.readOperand_eq hls) (hk.readOperand_eq hrs)
                (Value.apply_ofLiteral hfold hexact)).imp ?_
              rintro _ p' _ q' ⟨h', hw⟩
              exact ⟨h', hk.insert hw⟩

/-- A constant is pushed in the place of a variable only if that may be. -/
theorem tandem_simplified_push (h : p.Alike slack q) (hk : p.Knows env)
    (hi : Untouched slack resolve resolve' (.push o))
    (hf : isFaithful slack.passed env (.push o) = true) :
    Tandem (executePush o) p (executePush (substitute env o)) q fun _ p' _ q' =>
      p'.Alike slack q' ∧ p'.vars = p.vars := by
  have hkept := tandem_push h (hi.reads _ List.mem_cons_self)
  cases o with
  | literal m => exact hkept
  | var x =>
      cases hs : substitute env (.var x) with
      | var y =>
          rw [← (eq_var_of_substitute hs).1]
          exact hkept
      | literal m =>
          have hx := get?_of_substitute hs
          obtain ⟨v, hv, htype, hvalue, hdefined, -⟩ := hk x m hx
          refine tandem_pass h ?_ hv htype hvalue hdefined
          simpa [isFaithful, hx] using hf

/-- **A simplified instruction** does what the instruction does. -/
theorem tandem_simplified (h : p.Alike slack q) (hk : p.Knows env)
    (hi : Untouched slack resolve resolve' i) (hf : isFaithful slack.passed env i = true) :
    Tandem (execute resolve node i) p (execute resolve' node' (simplified env i)) q
      fun _ p' _ q' => p'.Alike slack q' ∧ p'.Knows (env.after (simplified env i)) := by
  have hread : ∀ {o}, o ∈ i.operands → ReadAlike p o q (substitute env o) :=
    fun ho => hk.read h (hi.reads _ ho)
  cases i with
  | assign target value => exact tandem_simplified_assign h hk hi hf
  | evaluate target op lhs rhs => exact tandem_simplified_evaluate h hk hi hf
  | push value =>
      rw [simplified_of_folded? rfl, Instruction.mapOperands]
      refine (tandem_simplified_push h hk hi hf).imp ?_
      rintro _ p' _ q' ⟨h', hvars⟩
      exact ⟨h', hk.same hvars⟩
  | print value =>
      rw [simplified_of_folded? rfl, Instruction.mapOperands]
      refine (tandem_print h (hread List.mem_cons_self)).imp ?_
      rintro _ p' _ q' ⟨h', rfl⟩
      exact ⟨h', hk⟩
  | declareArray name type size =>
      rw [simplified_of_folded? rfl, Instruction.mapOperands]
      refine (tandem_executeDeclareArray h (hread List.mem_cons_self) name type).imp ?_
      rintro _ p' _ q' ⟨h', hvars⟩
      exact ⟨h', hk.same hvars⟩
  | readArray target array index =>
      rw [simplified_of_folded? rfl, Instruction.mapOperands]
      refine (tandem_executeReadArray h (hi.writes target rfl) (hread List.mem_cons_self)
        array).imp ?_
      rintro _ p' _ q' ⟨h', hothers⟩
      refine ⟨h', hk.after (by simp) fun x hx _ => hothers x ?_⟩
      rintro rfl
      exact hx rfl
  | writeArray array index value =>
      rw [simplified_of_folded? rfl, Instruction.mapOperands]
      refine (tandem_executeWriteArray h (hread List.mem_cons_self)
        (hread (List.mem_cons_of_mem _ List.mem_cons_self)) array).imp ?_
      rintro _ p' _ q' ⟨h', hvars⟩
      exact ⟨h', hk.same hvars⟩
  | jumpIf test block => exact .throw rfl
  | ret value => exact .throw rfl
  | _ => exact tandem_kept h hk hi (simplified_of_folded? rfl) (by simp) (by simp)

/-- **A simplified body** does what the body does, and the search knows of the constants
at its end. -/
theorem tandem_propagate {body : List Instruction} (h : p.Alike slack q) (hk : p.Knows env)
    (hi : ∀ i ∈ body, Untouched slack resolve resolve' i)
    (hf : isFaithfulBody slack.passed env body = true) :
    Tandem (executeAll resolve node body) p (executeAll resolve' node' (propagate env body).body) q
      fun _ p' _ q' => p'.Alike slack q' ∧ p'.Knows (propagate env body).known := by
  induction body generalizing p q env with
  | nil => exact .pure ⟨h, hk⟩
  | cons i rest ih =>
      simp only [isFaithfulBody, Bool.and_eq_true] at hf
      rw [propagate, executeAll_cons, executeAll_cons]
      refine (tandem_simplified h hk (hi i List.mem_cons_self) hf.1).bind ?_
      rintro _ p' _ q' ⟨h', hk'⟩
      exact ih h' hk' (fun j hj => hi j (List.mem_cons_of_mem _ hj)) hf.2

/-! ## Terminators -/

variable {test : Comparison} {l m : Literal}

/-- What is known about two variables that hold constants is that they are equal, if they
are one. -/
theorem relation_of_knows {x y : String} (hk : p.Knows env) (hx : env.get? x = some l) :
    p.vars.relation x y = if x = y then some .eq else none := by
  obtain ⟨v, hv, -, -, -, hrel⟩ := hk x l hx
  unfold Scopes.relation
  split
  · rfl
  · have hsteps : p.vars.stepsFrom x .eq = [] := by
      have hget : p.vars.get? x = some v := hv
      simp [Scopes.stepsFrom, Scopes.currentRelations, hget, hrel]
    rw [hsteps, Scopes.follow]

/-- A relation is known only of a variable and itself. -/
theorem knownRelation?_of_knows {known : RelOp} (hk : p.Knows env)
    (hl : substitute env test.lhs = .literal l) (hm : substitute env test.rhs = .literal m)
    (hknown : knownRelation? p test = some known) : known = .eq ∧ l = m := by
  unfold knownRelation? at hknown
  split at hknown
  · rename_i x y hx hy
    rw [hx] at hl
    rw [hy] at hm
    have hxl := get?_of_substitute hl
    have hym := get?_of_substitute hm
    rw [relation_of_knows hk hxl] at hknown
    split at hknown
    · rename_i heq
      subst heq
      exact ⟨(Option.some.inj hknown).symm, Option.some.inj (hxl.symm.trans hym)⟩
    · cases hknown
  · cases hknown

/-- **A test between constants** is decided as it folds. -/
theorem judged_of_fold {taken : Bool} (hk : p.Knows env)
    (hl : substitute env test.lhs = .literal l) (hm : substitute env test.rhs = .literal m)
    (hfold : test.op.fold l m = .ok taken) (hnl : l.isNaN = false) (hnm : m.isNaN = false) :
    judged p test = .ok (if taken then .must else .cant) := by
  have hread : readTest p test = .ok (.ofLiteral l, .ofLiteral m) := by
    simp only [readTest, hk.readOperand_eq hl, hk.readOperand_eq hm]
  unfold judged
  rw [hread]
  dsimp only
  unfold judgedWith
  cases hkr : knownRelation? p test with
  | none => exact Value.canMeet_ofLiteral hfold hnl hnm
  | some known =>
      obtain ⟨rfl, rfl⟩ := knownRelation?_of_knows hk hl hm hkr
      obtain rfl : test.op.holds .eq = taken :=
        Except.ok.inj ((RelOp.fold_self test.op hnl).symm.trans hfold)
      cases test.op <;> rfl

/-- Does the search not notice that a terminator was rewired? -/
def isFaithfulExit (env : Constants) : Terminator → Bool
  | .branch test _ _ =>
    match substitute env test.lhs, substitute env test.rhs with
    | .literal l, .literal m => !l.isNaN && !m.isNaN
    | _, _ => !isAffected env [test.lhs, test.rhs]
  | _ => true

variable {e e' : Terminator}

/-- A terminator that stays of its kind does what it did. -/
theorem tandem_rewire_keep {note : Option String} (h : p.Alike slack q) (hk : p.Knows env)
    (hused : slack.unused = []) (hleads : ∀ id, slack.leads id id)
    (hf : isFaithfulExit env e = true) (hr : rewire env e = .keep e' note) :
    Tandem (leaveBy node e) p (leaveBy node' e') q fun sides _ sides' _ =>
      SidesAlike slack sides sides' := by
  have havoid : ∀ o, Avoids slack.unused o := fun o x _ => by simp [hused]
  cases e with
  | finish =>
      cases hr
      exact tandem_leaveBy h .finish
  | jump target =>
      cases hr
      exact tandem_leaveBy h (.jump (hleads target))
  | ret value =>
      cases value with
      | none =>
          cases hr
          exact tandem_leaveBy h (.ret nofun)
      | some o =>
          cases hr
          exact tandem_takeReturn h (.some (hk.read h (havoid o)))
  | branch test onTrue onFalse =>
      -- a test that is not decided was left as it is
      obtain rfl : e' = .branch test onTrue onFalse := by
        have hunaffected : (!isAffected env [test.lhs, test.rhs]) = true →
            (known? env test.lhs).isSome = false ∧ (known? env test.rhs).isSome = false := by
          intro hf
          simpa [isAffected] using hf
        simp only [rewire, Comparison.fold] at hr
        simp only [isFaithfulExit] at hf
        cases hl : substitute env test.lhs with
        | literal l =>
            cases hm : substitute env test.rhs with
            | literal m =>
                simp only [hl, hm] at hr
                cases hfold : test.op.fold l m with
                | error cause => simp [hfold, Except.map] at hr
                | ok b => cases b <;> simp [hfold, Except.map] at hr
            | var y =>
                simp only [hl, hm] at hr hf
                obtain ⟨hlhs, hrhs⟩ := hunaffected hf
                rw [substitute_of_unknown hlhs] at hl
                rw [substitute_of_unknown hrhs] at hm
                cases hr
                rw [← hl, ← hm]
        | var x =>
            simp only [hl] at hr hf
            obtain ⟨hlhs, hrhs⟩ := hunaffected hf
            rw [substitute_of_unknown hlhs] at hl
            rw [substitute_of_unknown hrhs, ← hl] at hr
            cases hr
            rfl
      exact tandem_leaveBy h (.branch ⟨havoid _, havoid _⟩ (hleads onTrue) (hleads onFalse))

/-- A branch whose test is decided does what the jump does. -/
theorem tandem_rewire_collapse {taken : Bool} {target dropped : BlockId} (h : p.Alike slack q)
    (hk : p.Knows env) (hleads : ∀ id, slack.leads id id) (hf : isFaithfulExit env e = true)
    (hr : rewire env e = .collapse test taken target dropped) :
    Tandem (leaveBy node e) p (leaveBy node' (.jump target)) q fun sides _ sides' _ =>
      SidesAlike slack sides sides' := by
  cases e with
  | finish => cases hr
  | jump target => cases hr
  | ret value => cases value <;> cases hr
  | branch test' onTrue onFalse =>
      simp only [rewire, Comparison.fold] at hr
      simp only [isFaithfulExit] at hf
      cases hl : substitute env test'.lhs with
      | var x => simp [hl] at hr
      | literal l =>
          cases hm : substitute env test'.rhs with
          | var y => simp [hl, hm] at hr
          | literal m =>
              simp only [hl, hm, Bool.and_eq_true, Bool.not_eq_true'] at hr hf
              cases hfold : test'.op.fold l m with
              | error cause => simp [hfold, Except.map] at hr
              | ok b =>
                  have hjudged := judged_of_fold hk hl hm hfold hf.1 hf.2
                  cases b with
                  | true =>
                      simp only [hfold, Except.map, Rewiring.collapse.injEq] at hr
                      obtain ⟨-, -, rfl, -⟩ := hr
                      exact tandem_decided true h hjudged (hleads onTrue)
                  | false =>
                      simp only [hfold, Except.map, Rewiring.collapse.injEq] at hr
                      obtain ⟨-, -, rfl, -⟩ := hr
                      exact tandem_decided false h hjudged (hleads onFalse)

/-! ## The pass -/

variable {g g' : FlowGraph} {b b' : Block} {id : BlockId} {limits : SearchSettings}
  {passed : List String}

/-- Does the search not notice that a block was simplified? -/
def isFaithfulBlock (passed : List String) (b : Block) : Bool :=
  isFaithfulBody passed .empty b.body && isFaithfulExit (propagate .empty b.body).known b.terminator

/-- Does the block pop none of the variables? -/
def sparesPops (passed : List String) (b : Block) : Bool :=
  b.body.all fun
    | .pop (some x) => !passed.contains x
    | _ => true

theorem untouched_of_sparesPops (hb : sparesPops passed b = true) (hresolve : g'.idOf? = g.idOf?)
    {i : Instruction} (hi : i ∈ b.body) : Untouched { passed } g.idOf? g'.idOf? i where
  reads _ _ _ _ := List.not_mem_nil
  writes _ _ := List.not_mem_nil
  restores x hx := by
    subst hx
    simpa using List.all_eq_true.1 hb _ hi
  marks name _ := ⟨by rw [hresolve], fun _ _ => rfl⟩

/-- **A simplified block** does what the block does. -/
theorem blocksAlike_simplified {body : List Instruction} (hpops : sparesPops passed b = true)
    (hf : isFaithfulBlock passed b = true) (hs : Simplified b body e)
    (hresult : g'.resultTypes = g.resultTypes) (hresolve : g'.idOf? = g.idOf?)
    (hfunction : b'.function = b.function) (hbody : b'.body = body) (hexit : b'.terminator = e) :
    BlocksAlike { passed } g g' b b' where
  result := by rw [hfunction, FlowGraph.returnType?_congr hresult]
  run p q h := by
    simp only [isFaithfulBlock, Bool.and_eq_true] at hf
    have huntouched := fun i (hi : i ∈ b.body) => untouched_of_sparesPops hpops hresolve hi
    have hsimple : Tandem (executeAll g.idOf? b.name b.body) p
        (executeAll g'.idOf? b'.name (propagate .empty b.body).body) q fun _ p' _ q' =>
          p'.Alike { passed } q' ∧ p'.Knows (propagate .empty b.body).known :=
      tandem_propagate h (.empty p) huntouched hf.1
    rw [runBlock_eq, runBlock_eq, hbody, hexit]
    cases hs with
    | same =>
        refine (tandem_executeAll h huntouched).bind ?_
        rintro _ p' _ q' h'
        exact tandem_leaveBy h' (.refl (fun _ _ => rfl) fun _ _ => List.not_mem_nil)
    | keep hr =>
        refine hsimple.bind ?_
        rintro _ p' _ q' ⟨h', hk⟩
        exact tandem_rewire_keep h' hk rfl (fun _ => rfl) hf.2 hr
    | collapse hr =>
        refine hsimple.bind ?_
        rintro _ p' _ q' ⟨h', hk⟩
        exact tandem_rewire_collapse h' hk (fun _ => rfl) hf.2 hr

/-- **Propagation of constants** goes unnoticed by the search, if the block is faithful. -/
theorem searchedAlike_propagateConstants (hg : Proper g) (passed : List String)
    (hfaithful : ∀ b, g.block? id = some b → Enters g limits id → isFaithfulBlock passed b = true)
    (hpops : ∀ j c, g.block? j = some c → Enters g limits j → sparesPops passed c = true) :
    SearchedAlike limits g (g.after (propagateConstants false id)) := by
  cases hfound : g.block? id with
  | none =>
      have hsame : g.after (propagateConstants false id) = g := by
        show (outcome (propagateConstants false id) { graph := g }).2.graph = g
        have hgraph : outcome Transform.graph { graph := g } = (.ok g, { graph := g }) := rfl
        unfold propagateConstants
        rw [outcome_bind_ok hgraph, hfound]
        rfl
      rw [hsame]
      exact .refl limits g
  | some b =>
      obtain ⟨reported, w', body, e, hrun, hreported, -, hrewritten⟩ :=
        outcome_propagateConstants false (w := { graph := g }) hg.wellFormed hfound
      have hgraph : g.after (propagateConstants false id) = w'.graph := by
        show (outcome (propagateConstants false id) { graph := g }).2.graph = _
        rw [hrun]
        cases reported <;> rfl
      have hbare : g.bare? id = some b.bare := FlowGraph.bare?_of_block? hfound
      have hresult : w'.graph.resultTypes = g.resultTypes := by
        rw [← hgraph]
        exact keepsResults_apply (.constants false) id { graph := g }
      have hresolve : w'.graph.idOf? = g.idOf? :=
        funext (FlowGraph.idOf?_congr hg.names (hrewritten.names hbare rfl))
      rw [hgraph]
      refine searchedAlike_of_blocks { passed } rfl hrewritten.first (covers_nil g limits)
        fun j c hc => ?_
      by_cases hj : id = j
      · subst hj
        obtain rfl := Option.some.inj (hfound.symm.trans hc)
        obtain ⟨b', hb', hsame⟩ := Option.map_eq_some_iff.1 hrewritten.found
        obtain ⟨hpop, hfunction, hbody, hexit⟩ := fields_of_bare hsame
        refine ⟨b', hb', hpop, fun henters => ?_⟩
        exact blocksAlike_simplified (hpops id b hfound henters) (hfaithful b hfound henters)
          hreported.simplified hresult hresolve hfunction hbody hexit
      · have hbj : w'.graph.bare? j = g.bare? j := by rw [hrewritten.bare, if_neg hj]
        rw [FlowGraph.bare?, FlowGraph.bare?, hc] at hbj
        obtain ⟨c', hc', hsame⟩ := Option.map_eq_some_iff.1 hbj
        obtain ⟨hpop, hfunction, hbody, hexit⟩ := fields_of_bare hsame
        refine ⟨c', hc', hpop, fun henters => .of_untouched hresult hfunction hbody ?_ ?_⟩
        · exact fun i hi => untouched_of_sparesPops (hpops j c hc henters) hresolve hi
        · exact hexit ▸ .refl (fun _ _ => rfl) fun _ _ => List.not_mem_nil

end Symbolic
end FlowVerifier
