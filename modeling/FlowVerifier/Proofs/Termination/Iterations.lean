import FlowVerifier.Proofs.Loop.Nesting
import FlowVerifier.Proofs.Run.Blending
import FlowVerifier.Proofs.Symbolic.Movement
import FlowVerifier.Termination.Analysis

/-!
# Iterations of a loop

What one iteration of a loop is in a running program: it starts at the header, passes
blocks of the loop and runs the calls that they make to their return, and comes to the
exit test.

* `Move` is the passage of one block, `Way` what is left of an iteration, and
  `Iteration` the whole of one, after which the loop goes on.  The events on the way are
  collected.
* `Progress` says how the operands of the exit test have to move in one iteration, and
  `progress_of_good` that a way judged good moves them so.  `Closer` says it of two states.
* `Event.Regular` describes the iterations that a replay follows faithfully.
-/

namespace FlowVerifier

open Run Symbolic

namespace Termination

/-! ## Ways through a loop -/

/-- What happens on a way through a loop. -/
inductive Event where
  /-- A block is entered in a state. -/
  | entered (block : BlockId) (state : State)
  /-- A call of a function has returned. -/
  | called (function : FunctionId) (result : Option Literal) (before after : State)

/-- A block is passed, together with the call that it makes.  A block that returns
leaves the loop. -/
inductive Move (env : Environment) (g : FlowGraph) :
    BlockId → State → List Event → BlockId → State → Prop where
  | leave {id next : BlockId} {s s' : State} {b : Block} :
      g.block? id = some b → g.callAt? id = none → b.terminator.isReturn = false →
      step env g (.at id s) = .at next s' → Move env g id s [.entered id s] next s'
  | call {id entry : BlockId} {s s₁ s' : State} {b : Block} {function : FunctionId} {made : Call}
      {n : Nat} {rest : List Entry} {result : Option Literal} :
      g.block? id = some b → g.callAt? id = some (function, made) →
      b.terminator = .jump entry → step env g (.at id s) = .at entry s₁ →
      steps env g n (.at entry s₁) = .at made.returnTo s' →
      State.unwind? s₁.stack = some (made.returnTo, rest) →
      s'.stack = (result.map (Entry.value none)).toList ++ rest →
      Move env g id s [.entered id s, .called function result s₁ s'] made.returnTo s'

/-- What is left of an iteration that comes to the exit test, after the body of whose
block the loop goes on. -/
inductive Way (env : Environment) (g : FlowGraph) (l : Loop) (c : LoopCondition) :
    BlockId → State → List Event → State → Prop where
  | arrive {s e : State} {b : Block} :
      g.block? c.block = some b → s.execAll env g.idOf? b.body = .ok e →
      e.holds c.continuation = .ok true → Way env g l c c.block s [.entered c.block s] e
  | pass {id next : BlockId} {s s' e : State} {events more : List Event} :
      id ≠ c.block → Move env g id s events next s' → l.contains next = true →
      Way env g l c next s' more e → Way env g l c id s (events ++ more) e

/-- One iteration from the header to the exit test, after which the loop goes on. -/
def Iteration (env : Environment) (g : FlowGraph) (l : Loop) (c : LoopCondition) (s : State)
    (events : List Event) (e : State) : Prop :=
  ∃ first more next s', events = first ++ more ∧ Move env g l.header s first next s' ∧
    l.contains next = true ∧ Way env g l c next s' more e

/-! ## Progress -/

/-- The operands `l` and `m` of a test moved to `l'` and `m'` in a way that ends a loop
that goes on while `l op m` holds, if it is repeated often enough.  Nothing they can do
makes a difference end. -/
def Progress (op : RelOp) (l m l' m' : Literal) : Prop :=
  let below := RelOp.le.fold l l' = .ok true ∧ RelOp.le.fold m' m = .ok true ∧
    (RelOp.lt.fold l l' = .ok true ∨ RelOp.lt.fold m' m = .ok true)
  let above := RelOp.le.fold l' l = .ok true ∧ RelOp.le.fold m m' = .ok true ∧
    (RelOp.lt.fold l' l = .ok true ∨ RelOp.lt.fold m m' = .ok true)
  match op with
  | .lt => below
  | .le => below
  | .gt => above
  | .ge => above
  | .eq =>
    (RelOp.eq.fold l l' = .ok true ∧ RelOp.ne.fold m m' = .ok true) ∨
      (RelOp.ne.fold l l' = .ok true ∧ RelOp.eq.fold m m' = .ok true)
  | .ne => False

/-- From one state to another the operands of the exit test make progress. -/
def Closer (c : LoopCondition) (s e : State) : Prop :=
  ∃ l m l' m', s.read c.continuation.lhs = .ok l ∧ s.read c.continuation.rhs = .ok m ∧
    e.read c.continuation.lhs = .ok l' ∧ e.read c.continuation.rhs = .ok m' ∧
    Progress c.continuation.op l m l' m'

section Movement

variable {t u : Trend} {l m l' m' : Literal}

/-- What a trend that says something says. -/
structure Moves (t : Trend) (l l' : Literal) : Prop where
  up : t ≠ .decreasing → RelOp.le.fold l l' = .ok true
  down : t ≠ .increasing → RelOp.le.fold l' l = .ok true
  above : t = .increasing → RelOp.lt.fold l l' = .ok true
  below : t = .decreasing → RelOp.lt.fold l' l = .ok true
  same : t.isNeutral = true → RelOp.eq.fold l l' = .ok true
  other : t.isNeutral = false → RelOp.ne.fold l l' = .ok true

theorem moves_of_right (h : t.Right (some l) l') (ht : t ≠ .unpredictable)
    (hl : l.isNaN = false) (hl' : l'.isNaN = false) : Moves t l l' := by
  have hback : ∀ op, t.relation? = some op → op.fold l' l = .ok true ∧
      op.flip.fold l l' = .ok true := by
    intro op hop
    obtain ⟨_, heq, hfold⟩ := h op hop
    cases heq
    exact ⟨hfold, RelOp.fold_flip hl' hl hfold⟩
  have hweak : ∀ {r s : RelOp}, r.implies s = true → r.fold l l' = .ok true →
      s.fold l l' = .ok true := fun hi hr => RelOp.fold_of_implies hl hl' hi hr
  have hweak' : ∀ {r s : RelOp}, r.implies s = true → r.fold l' l = .ok true →
      s.fold l' l = .ok true := fun hi hr => RelOp.fold_of_implies hl' hl hi hr
  have heq : t.relation? = some .eq → t ≠ .increasing ∧ t ≠ .decreasing → t.isNeutral = true →
      Moves t l l' := by
    intro hop hne hneutral
    obtain ⟨h₁, h₂⟩ := hback .eq hop
    exact ⟨fun _ => hweak rfl h₂, fun _ => hweak' rfl h₁, fun h => absurd h hne.1,
      fun h => absurd h hne.2, fun _ => h₂, fun h => absurd hneutral (by simp [h])⟩
  cases t with
  | untouched => exact heq rfl (by simp) rfl
  | unchanged => exact heq rfl (by simp) rfl
  | increasing =>
      obtain ⟨-, h₂⟩ := hback .gt rfl
      exact ⟨fun _ => hweak rfl h₂, fun h => absurd rfl h, fun _ => h₂, fun h => absurd h (by simp),
        fun h => absurd h (by simp [Trend.isNeutral]), fun _ => hweak rfl h₂⟩
  | decreasing =>
      obtain ⟨h₁, h₂⟩ := hback .lt rfl
      exact ⟨fun h => absurd rfl h, fun _ => hweak' rfl h₁, fun h => absurd h (by simp),
        fun _ => h₁, fun h => absurd h (by simp [Trend.isNeutral]), fun _ => hweak rfl h₂⟩
  | unpredictable => exact absurd rfl ht

/-- A test with a side to move to is good if only that is moved to. -/
theorem directed_eq_good {toward away : Bool} :
    Verdict.directed toward away = .good ↔ toward = true ∧ away = false := by
  cases toward <;> cases away <;> decide

/-- **A good judgement** is right: the operands moved as they have to. -/
theorem progress_of_good {op : RelOp} (hgood : judgeProgress op t u = .good)
    (ht : t.Right (some l) l') (hu : u.Right (some m) m') (hl : l.isNaN = false)
    (hl' : l'.isNaN = false) (hm : m.isNaN = false) (hm' : m'.isNaN = false) :
    Progress op l m l' m' := by
  unfold judgeProgress at hgood
  split at hgood
  · cases hgood
  · rename_i hsaid
    rw [Bool.or_eq_true, not_or, decide_eq_true_eq, decide_eq_true_eq] at hsaid
    have ht := moves_of_right ht hsaid.1 hl hl'
    have hu := moves_of_right hu hsaid.2 hm hm'
    have hbelow : (t == .increasing || u == .decreasing) = true →
        (t == .decreasing || u == .increasing) = false → Progress .lt l m l' m' := by
      intro hclosing hparting
      simp only [Bool.or_eq_true, Bool.or_eq_false_iff, beq_iff_eq, beq_eq_false_iff_ne] at *
      exact ⟨ht.up hparting.1, hu.down hparting.2, hclosing.imp ht.above hu.below⟩
    have habove : (t == .decreasing || u == .increasing) = true →
        (t == .increasing || u == .decreasing) = false → Progress .gt l m l' m' := by
      intro hparting hclosing
      simp only [Bool.or_eq_true, Bool.or_eq_false_iff, beq_iff_eq, beq_eq_false_iff_ne] at *
      exact ⟨ht.down hclosing.1, hu.up hclosing.2, hparting.imp ht.below hu.above⟩
    cases op with
    | lt => exact hbelow (directed_eq_good.1 hgood).1 (directed_eq_good.1 hgood).2
    | le => exact hbelow (directed_eq_good.1 hgood).1 (directed_eq_good.1 hgood).2
    | gt => exact habove (directed_eq_good.1 hgood).1 (directed_eq_good.1 hgood).2
    | ge => exact habove (directed_eq_good.1 hgood).1 (directed_eq_good.1 hgood).2
    | eq =>
        cases htn : t.isNeutral <;> cases hun : u.isNeutral <;> rw [htn, hun] at hgood
        · cases hgood
        · exact .inr ⟨ht.other htn, hu.same hun⟩
        · exact .inl ⟨ht.same htn, hu.other hun⟩
        · cases hgood
    | ne =>
        dsimp only at hgood
        split at hgood <;> cases hgood

end Movement

/-! ## Regular events -/

/-- The names that a loop mentions. -/
def Loop.names (g : FlowGraph) (l : Loop) : List String :=
  l.body.toList.flatMap fun id =>
    ((g.block? id).map fun b => b.body.flatMap Instruction.names ++ b.terminator.readNames).getD []

/-- A value that goes back into the variable it was pushed from is of the type that the
variable has. -/
def Instruction.KeepsType (s : State) : Instruction → Prop
  | .pop (some x) => ∀ l rest old, s.stack = .value (some x) l :: rest →
    s.vars x = some old → old.type = l.type
  | _ => True

/-- The instructions make no NaN, change no types and are steady. -/
def Smooth (env : Environment) (resolve : String → Option BlockId) (watched : String → Prop) :
    List Instruction → State → Prop
  | [], _ => True
  | i :: rest, s => ∀ s', s.exec env resolve i = .ok s' →
    s'.Ordered ∧ i.Steady watched s s' ∧ Instruction.KeepsType s i ∧
      Smooth env resolve watched rest s'

/-- Neither operand of the test is NaN. -/
def NoNaN (test : Comparison) : Prop :=
  ∀ l, test.lhs = .literal l ∨ test.rhs = .literal l → l.isNaN = false

/-- The operands of the exit test of a loop. -/
def Watched (c : LoopCondition) (x : String) : Prop := x ∈ c.continuation.readNames

/-- A block is run smoothly, and tests no NaN.  A call returns a result of its type, and
what the loop mentions is as before. -/
def Event.Regular (env : Environment) (g : FlowGraph) (l : Loop) (c : LoopCondition) :
    Event → Prop
  | entered id s => ∀ b, g.block? id = some b →
    Smooth env g.idOf? (Watched c) b.body s ∧ ∀ test, b.test? = some test → NoNaN test
  | called function result s s' => result.map Literal.type = g.returnType? function ∧
    (∀ r, result = some r → r.isNaN = false) ∧
      ∀ x ∈ Loop.names g l, s'.vars x = s.vars x ∧ s'.arrays x = s.arrays x

end Termination
end FlowVerifier
