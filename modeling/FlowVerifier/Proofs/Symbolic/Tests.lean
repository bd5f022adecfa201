import FlowVerifier.Proofs.Computation
import FlowVerifier.Proofs.Symbolic.Scopes
import FlowVerifier.Symbolic.Search

/-!
# Tests on a path

The questions that a branch asks of a path are computations that also collect
warnings.  This file says what they answer, as functions of the path alone.

* `readTest` reads both operands of a test.
* `judged` decides a test, and `outcome_decideTest` says that `decideTest` does
  nothing else.
* `narrowedTo` narrows a path to a test, and `outcome_constrain` and
  `outcome_sideOf` say that `constrain` and `sideOf` do nothing else.
-/

namespace FlowVerifier
namespace Symbolic

open Exec

/-! ## Operands -/

/-- The possible values of an operand, or the mistake of reading it. -/
def readOperand (p : Path) : Operand → Except ProgramError Value
  | .literal l => .ok (.ofLiteral l)
  | .var name =>
      match p.var? name with
      | none => .error (.undeclared name)
      | some v => .ok v.value

/-- The possible values of both operands of a test, or the mistake of reading
them. -/
def readTest (p : Path) (test : Comparison) : Except ProgramError (Value × Value) :=
  match readOperand p test.lhs, readOperand p test.rhs with
  | .error e, _ => .error e
  | .ok _, .error e => .error e
  | .ok a, .ok b => .ok (a, b)

/-- A result without a state as that of an execution. -/
def answer {α : Type} (r : Except ProgramError α) (t : Trace) : Except Error α × Trace :=
  match r with
  | .ok a => (.ok a, t)
  | .error e => (.error (.program e), t)

theorem outcome_path (t : Trace) : outcome path t = (.ok t.path, t) := rfl

theorem outcome_lift {α : Type} (r : Except ProgramError α) (t : Trace) :
    outcome (lift r) t = answer r t := by
  cases r <;> rfl

theorem outcome_operand (o : Operand) (t : Trace) :
    ∃ ws, outcome (operand o) t = answer (readOperand t.path o) { t with warnings := ws } := by
  cases o with
  | literal l => exact ⟨t.warnings, rfl⟩
  | var name =>
      have hrun : outcome (operand (.var name)) t = outcome (match t.path.var? name with
          | none => mistake (.undeclared name)
          | some v => do
            unless v.defined do warn s!"'{name}' may be used before initialization"
            return v.value) t := rfl
      rw [hrun, readOperand]
      cases t.path.var? name with
      | none => exact ⟨t.warnings, rfl⟩
      | some v =>
          cases hd : v.defined with
          | true => exact ⟨t.warnings, by simp only [hd]; rfl⟩
          | false =>
              refine ⟨t.warnings.push s!"'{name}' may be used before initialization", ?_⟩
              simp only [hd]
              rfl

/-- Reading both operands of a test changes nothing but the warnings. -/
theorem outcome_operands {α : Type} (test : Comparison) (f : Value → Value → Exec α)
    (t : Trace) :
    ∃ ws, outcome (do f (← operand test.lhs) (← operand test.rhs)) t =
      match readTest t.path test with
      | .ok (a, b) => outcome (f a b) { t with warnings := ws }
      | .error e => (.error (.program e), { t with warnings := ws }) := by
  obtain ⟨ws, hl⟩ := outcome_operand test.lhs t
  rw [outcome_bind, hl]
  cases ha : readOperand t.path test.lhs with
  | error e => exact ⟨ws, by simp [answer, readTest, ha]⟩
  | ok a =>
      obtain ⟨ws', hr⟩ := outcome_operand test.rhs { t with warnings := ws }
      refine ⟨ws', ?_⟩
      dsimp only [answer]
      rw [outcome_bind, hr]
      cases hb : readOperand t.path test.rhs <;> simp [answer, readTest, ha, hb]

/-! ## Deciding a test -/

/-- What is known about the variables of a test. -/
def knownRelation? (p : Path) (test : Comparison) : Option RelOp :=
  match test.lhs, test.rhs with
  | .var a, .var b => p.vars.relation a b
  | _, _ => none

/-- Does a test hold on the path, given the values of its operands? -/
def judgedWith (p : Path) (test : Comparison) (a b : Value) :
    Except ProgramError Satisfiability :=
  if (knownRelation? p test).any (·.implies test.op) then .ok .must
  else if (knownRelation? p test).any (·.implies test.op.negate) then .ok .cant
  else a.canMeet test.op b

/-- Does a test hold on the path? -/
def judged (p : Path) (test : Comparison) : Except ProgramError Satisfiability :=
  match readTest p test with
  | .error e => .error e
  | .ok (a, b) => judgedWith p test a b

/-- **Deciding a test** changes nothing but the warnings. -/
theorem outcome_decideTest (test : Comparison) (t : Trace) :
    ∃ ws, outcome (decideTest test) t =
      answer (judged t.path test) { t with warnings := ws } := by
  obtain ⟨ws, h⟩ := outcome_operands test (fun a b => do
    let vars := (← path).vars
    let known :=
      match test.lhs, test.rhs with
      | .var a, .var b => vars.relation a b
      | _, _ => none
    if known.any (·.implies test.op) then return .must
    else if known.any (·.implies test.op.negate) then return .cant
    else lift (a.canMeet test.op b)) t
  refine ⟨ws, Eq.trans h ?_⟩
  unfold judged
  cases readTest t.path test with
  | error e => rfl
  | ok v =>
      obtain ⟨a, b⟩ := v
      dsimp only
      rw [outcome_bind, outcome_path]
      show outcome (if (knownRelation? t.path test).any (·.implies test.op) then pure .must
          else if (knownRelation? t.path test).any (·.implies test.op.negate) then pure .cant
          else lift (a.canMeet test.op b) : Exec Satisfiability) _ = _
      unfold judgedWith
      split
      · rfl
      · split
        · rfl
        · exact outcome_lift _ _

/-! ## Narrowing a path -/

/-- A path on which an operand has fewer values. -/
def narrowOperand (p : Path) (o : Operand) (value : Value) : Path :=
  match o with
  | .var name => p.modifyVar name fun v => { v with value }
  | .literal _ => p

/-- A path on which the variables of a test are known to be related. -/
def relateOperands (p : Path) (test : Comparison) : Path :=
  match test.lhs, test.rhs with
  | .var a, .var b => { p with vars := p.vars.relate a test.op b }
  | _, _ => p

/-- What is left of a path if a test holds, and whether that is anything. -/
def narrowedTo (p : Path) (test : Comparison) : Except ProgramError (Bool × Path) :=
  match readTest p test with
  | .error e => .error e
  | .ok (a, b) =>
      match a.clip test.op b, b.clip test.op.flip a with
      | .error e, _ => .error e
      | .ok _, .error e => .error e
      | .ok left, .ok right =>
          if left.isEmpty || right.isEmpty then .ok (false, { p with feasible := false })
          else
            .ok (true,
              relateOperands (narrowOperand (narrowOperand p test.lhs left) test.rhs right) test)

/-- On a path that is narrowed to a test, only the operands are known better. -/
theorem narrowedTo_eq_possible {p q : Path} {test : Comparison}
    (h : narrowedTo p test = .ok (true, q)) :
    ∃ left right,
      q = relateOperands (narrowOperand (narrowOperand p test.lhs left) test.rhs right) test := by
  unfold narrowedTo at h
  split at h
  · cases h
  · split at h
    · cases h
    · cases h
    · rename_i left right _ _
      split at h <;> cases h
      exact ⟨left, right, rfl⟩

theorem arrays_narrowed (p : Path) (test : Comparison) (left right : Value) :
    (relateOperands (narrowOperand (narrowOperand p test.lhs left) test.rhs right) test).arrays =
      p.arrays := by
  have hnarrow : ∀ (p : Path) (o : Operand) (value : Value),
      (narrowOperand p o value).arrays = p.arrays := fun p o value => by cases o <;> rfl
  unfold relateOperands
  split
  · exact (hnarrow _ _ _).trans (hnarrow _ _ _)
  · exact (hnarrow _ _ _).trans (hnarrow _ _ _)

theorem outcome_narrow (o : Operand) (value : Value) (t : Trace) :
    outcome (narrow o value) t = (.ok (), { t with path := narrowOperand t.path o value }) := by
  cases o <;> rfl

/-- **Narrowing a path** changes nothing else. -/
theorem outcome_constrain (test : Comparison) (t : Trace) :
    ∃ ws, outcome (constrain test) t =
      match narrowedTo t.path test with
      | .ok (possible, p) => (.ok possible, { path := p, warnings := ws })
      | .error e => (.error (.program e), { t with warnings := ws }) := by
  obtain ⟨ws, h⟩ := outcome_operands test (fun lhs rhs => do
    let left ← lift (lhs.clip test.op rhs)
    let right ← lift (rhs.clip test.op.flip lhs)
    if left.isEmpty || right.isEmpty then
      modifyPath fun p => { p with feasible := false }
      return false
    else
      narrow test.lhs left
      narrow test.rhs right
      match test.lhs, test.rhs with
      | .var a, .var b => modifyPath fun p => { p with vars := p.vars.relate a test.op b }
      | _, _ => pure ()
      return true) t
  refine ⟨ws, Eq.trans h ?_⟩
  unfold narrowedTo
  cases readTest t.path test with
  | error e => rfl
  | ok v =>
      obtain ⟨a, b⟩ := v
      dsimp only
      rw [outcome_bind, outcome_lift]
      cases a.clip test.op b with
      | error e => rfl
      | ok left =>
          dsimp only [answer]
          rw [outcome_bind, outcome_lift]
          cases b.clip test.op.flip a with
          | error e => rfl
          | ok right =>
              dsimp only [answer]
              split
              · rfl
              · rw [outcome_bind, outcome_narrow]
                dsimp only
                rw [outcome_bind, outcome_narrow]
                dsimp only
                unfold relateOperands
                split <;> rfl

/-- **One side of a branch** is looked at on a fork of the path. -/
theorem outcome_sideOf (node : String) (test : Comparison) (target : BlockId) (t : Trace) :
    ∃ ws, outcome (sideOf node test target) t =
      match narrowedTo t.path.fork test with
      | .ok (possible, p) =>
          (.ok (if possible then some (target, p.assume node test) else none),
            { t with warnings := ws })
      | .error e => (.error (.program e), { path := t.path.fork, warnings := ws }) := by
  have hrun : outcome (sideOf node test target) t =
      outcome (constrain test >>= fun possible => do
        let after ← path
        modifyPath fun _ => t.path
        return if possible then some (target, after.assume node test) else none)
        { t with path := t.path.fork } := rfl
  obtain ⟨ws, h⟩ := outcome_constrain test { t with path := t.path.fork }
  refine ⟨ws, ?_⟩
  rw [hrun, outcome_bind, h]
  dsimp only
  cases narrowedTo t.path.fork test <;> rfl

end Symbolic
end FlowVerifier
