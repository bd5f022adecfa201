import Mathlib.Data.List.Forall2
import FlowVerifier.Proofs.Flow.Edges
import FlowVerifier.Proofs.Run.Refinement

/-!
# States that run alike

Two states are `Alike` if they differ in nothing but variables that are not read and
in the blocks that markers name.  Instructions, bodies and terminators that
correspond to each other keep states alike; this is shown once here, for assignments
that are not checked, and used for every change of a program that does not change
what its blocks compute.

The variables that may differ are given by `X`, and which block of the second
program stands for which block of the first by `M`.
-/

namespace FlowVerifier
namespace Run

variable {lax : Prop} {env : Environment} {X : String → Prop} {M : BlockId → BlockId → Prop}
  {resolve resolve' : String → Option BlockId}

/-! ## States -/

/-- Slots of the stack that correspond to each other. -/
inductive EntryAlike (M : BlockId → BlockId → Prop) : Entry → Entry → Prop where
  | value (source : Option String) (content : Literal) :
      EntryAlike M (.value source content) (.value source content)
  | marker {i j : BlockId} : M i j → EntryAlike M (.marker i) (.marker j)

/-- States that differ in unread variables and in the blocks of markers only. -/
structure Alike (X : String → Prop) (M : BlockId → BlockId → Prop) (s t : State) : Prop where
  vars : ∀ {x}, ¬ X x → s.vars x = t.vars x
  arrays : s.arrays = t.arrays
  stack : List.Forall₂ (EntryAlike M) s.stack t.stack
  printed : s.printed = t.printed
  consumed : s.consumed = t.consumed

/-- Both computations fail for the same reason, or both give results that correspond
to each other. -/
inductive Both {α β : Type} (R : α → β → Prop) : Except Fault α → Except Fault β → Prop where
  | ok {a : α} {b : β} : R a b → Both R (.ok a) (.ok b)
  | error (fault : Fault) : Both R (.error fault) (.error fault)

namespace Both

variable {α β γ δ : Type}

theorem refl (x : Except Fault α) : Both Eq x x := by
  cases x with
  | ok a => exact .ok rfl
  | error fault => exact .error fault

theorem of_eq {x y : Except Fault α} (h : x = y) : Both Eq x y := h ▸ refl x

theorem bind {R : α → β → Prop} {S : γ → δ → Prop} {x : Except Fault α} {y : Except Fault β}
    {f : α → Except Fault γ} {g : β → Except Fault δ} (h : Both R x y)
    (hf : ∀ a b, R a b → Both S (f a) (g b)) : Both S (x >>= f) (y >>= g) := by
  cases h with
  | ok hab => exact hf _ _ hab
  | error fault => exact .error fault

/-- The same computation, continued in two ways. -/
theorem bind_same {S : γ → δ → Prop} {x y : Except Fault α}
    {f : α → Except Fault γ} {g : α → Except Fault δ} (h : x = y)
    (hf : ∀ a, Both S (f a) (g a)) : Both S (x >>= f) (y >>= g) := by
  refine (of_eq h).bind ?_
  rintro a _ rfl
  exact hf a

end Both

namespace Alike

variable {s t : State}

theorem visible (h : Alike X M s t) : s.visible = t.visible := by
  unfold State.visible
  rw [h.printed, h.consumed]

theorem bind (h : Alike X M s t) (name : String) (content : Option Literal) :
    Alike X M (s.bind name content) (t.bind name content) := by
  refine ⟨fun hx => ?_, h.arrays, h.stack, h.printed, h.consumed⟩
  simp only [State.bind]
  split
  · rfl
  · exact h.vars hx

/-- A variable that is not read may change in the first state alone. -/
theorem bind_left (h : Alike X M s t) {name : String} (hname : X name)
    (content : Option Literal) : Alike X M (s.bind name content) t := by
  refine ⟨fun hx => ?_, h.arrays, h.stack, h.printed, h.consumed⟩
  simp only [State.bind]
  rw [if_neg ?_]
  · exact h.vars hx
  · rintro rfl
    exact hx hname

theorem bindArray (h : Alike X M s t) (name : String) (cells : Cells) :
    Alike X M (s.bindArray name cells) (t.bindArray name cells) := by
  refine ⟨h.vars, ?_, h.stack, h.printed, h.consumed⟩
  simp only [State.bindArray, h.arrays]

theorem push (h : Alike X M s t) {e e' : Entry} (he : EntryAlike M e e') :
    Alike X M (s.push e) (t.push e') :=
  ⟨h.vars, h.arrays, .cons he h.stack, h.printed, h.consumed⟩

theorem withStack (h : Alike X M s t) {entries entries' : List Entry}
    (hstack : List.Forall₂ (EntryAlike M) entries entries') :
    Alike X M { s with stack := entries } { t with stack := entries' } :=
  ⟨h.vars, h.arrays, hstack, h.printed, h.consumed⟩

theorem read (h : Alike X M s t) {o : Operand} (ho : ∀ x, o.var? = some x → ¬ X x) :
    s.read o = t.read o := by
  cases o with
  | literal l => rfl
  | var x =>
      simp only [State.read]
      rw [h.vars (ho x rfl)]

theorem readNumber (h : Alike X M s t) {o : Operand} (ho : ∀ x, o.var? = some x → ¬ X x) :
    s.readNumber o = t.readNumber o := by
  simp only [State.readNumber]
  rw [h.read ho]

theorem slot (h : Alike X M s t) {o : Operand} (ho : ∀ x, o.var? = some x → ¬ X x) :
    Both (EntryAlike M) (s.slot env o) (t.slot env o) :=
  .bind_same (h.read ho) fun v => .ok (.value _ v)

theorem cells (h : Alike X M s t) (name : String) : s.cells name = t.cells name := by
  simp only [State.cells]
  rw [h.arrays]

end Alike

/-! ## Instructions -/

theorem State.write_unchecked (hfree : env.checked = false) (s : State) (target : String)
    (value : Literal) : s.write env target value = .ok (s.bind target (some value)) := by
  unfold State.write
  cases s.vars target <;> simp [hfree]

theorem Alike.write (hfree : env.checked = false) {s t : State} (h : Alike X M s t)
    (target : String) (value : Literal) :
    Both (Alike X M) (s.write env target value) (t.write env target value) := by
  rw [State.write_unchecked hfree, State.write_unchecked hfree]
  exact .ok (h.bind target _)

theorem Alike.receive (hfree : env.checked = false) {s t : State} (h : Alike X M s t)
    (target : String) : Both (Alike X M) (s.receive env target) (t.receive env target) := by
  unfold State.receive
  rw [h.consumed]
  cases env.inputs t.consumed with
  | none => exact .error _
  | some value =>
      simp only [hfree, Bool.false_and, Bool.false_eq_true, if_false]
      have hb := h.bind target (some value)
      exact .ok ⟨hb.vars, hb.arrays, hb.stack, hb.printed, rfl⟩

theorem Alike.pop (hfree : env.checked = false) {s t : State} (h : Alike X M s t)
    (target : Option String) : Both (Alike X M) (s.pop env target) (t.pop env target) := by
  have hstack := h.stack
  unfold State.pop
  revert hstack
  generalize s.stack = entries, t.stack = entries'
  intro hstack
  cases hstack with
  | nil => exact .error _
  | cons he hrest =>
      cases he with
      | marker _ => exact .error _
      | value source content =>
          have hpopped := h.withStack hrest
          cases target with
          | none => exact .ok hpopped
          | some target =>
              dsimp only
              split
              · exact .ok (hpopped.bind target _)
              · exact hpopped.write hfree target content

/-- Instructions that correspond to each other: they are the same and read no variable
that may differ, or they push markers for blocks that correspond. -/
inductive InstructionAlike (X : String → Prop) (M : BlockId → BlockId → Prop)
    (resolve resolve' : String → Option BlockId) : Instruction → Instruction → Prop where
  | same {i : Instruction} : (∀ name, i ≠ .pushState name) → (∀ x ∈ i.readNames, ¬ X x) →
      InstructionAlike X M resolve resolve' i i
  | known {name name' : String} {i j : BlockId} : resolve name = some i →
      resolve' name' = some j → M i j →
      InstructionAlike X M resolve resolve' (.pushState name) (.pushState name')
  | unknown {name name' : String} : resolve name = none → resolve' name' = none →
      InstructionAlike X M resolve resolve' (.pushState name) (.pushState name')

/-- Both names are unknown, or they are names of blocks that correspond. -/
def NamesAlike (M : BlockId → BlockId → Prop) (x y : Option BlockId) : Prop :=
  (x = none ∧ y = none) ∨ ∃ i j, x = some i ∧ y = some j ∧ M i j

/-- An instruction corresponds to itself if it reads no variable that may differ and
its marker names blocks that correspond. -/
theorem InstructionAlike.refl {i : Instruction} (hread : ∀ x ∈ i.readNames, ¬ X x)
    (hnames : ∀ name, i = .pushState name → NamesAlike M (resolve name) (resolve' name)) :
    InstructionAlike X M resolve resolve' i i := by
  cases i with
  | pushState name =>
      rcases hnames name rfl with ⟨h, h'⟩ | ⟨i, j, h, h', hM⟩
      · exact .unknown h h'
      · exact .known h h' hM
  | _ => exact .same nofun hread

/-- **Corresponding instructions** keep states alike. -/
theorem Alike.exec (hfree : env.checked = false) {s t : State} (h : Alike X M s t)
    {i i' : Instruction} (hi : InstructionAlike X M resolve resolve' i i') :
    Both (Alike X M) (s.exec env resolve i) (t.exec env resolve' i') := by
  cases hi with
  | known hr hr' hM =>
      simp only [State.exec, hr, hr']
      exact .ok (h.push (.marker hM))
  | unknown hr hr' =>
      simp only [State.exec, hr, hr']
      exact .error _
  | same hno hread =>
      have hoperand : ∀ o ∈ i.operands, ∀ x, o.var? = some x → ¬ X x := by
        intro o ho x hx
        exact hread x (List.mem_append_left _ (List.mem_filterMap.2 ⟨o, ho, hx⟩))
      cases i with
      | declare name type => exact .ok (h.bind name _)
      | assign target value =>
          refine .bind_same (h.read (hoperand value (by simp [Instruction.operands]))) fun v => ?_
          exact h.write hfree target v
      | evaluate target op lhs rhs =>
          refine .bind_same (h.read (hoperand lhs (by simp [Instruction.operands]))) fun a => ?_
          refine .bind_same (h.read (hoperand rhs (by simp [Instruction.operands]))) fun b => ?_
          exact .bind_same rfl fun v => h.write hfree target v
      | print value =>
          refine .bind_same (h.read (hoperand value (by simp [Instruction.operands]))) fun v => ?_
          exact .ok ⟨h.vars, h.arrays, h.stack, by rw [h.printed], h.consumed⟩
      | input target => exact h.receive hfree target
      | push value =>
          refine (h.slot (hoperand value (by simp [Instruction.operands]))).bind fun e e' he => ?_
          exact .ok (h.push he)
      | pushState name => exact absurd rfl (hno name)
      | pop target => exact h.pop hfree target
      | declareArray name type size =>
          refine .bind_same (h.readNumber (hoperand size (by simp [Instruction.operands])))
            fun v => ?_
          cases State.whole? v with
          | none => exact .error _
          | some n =>
              dsimp only
              split
              · exact .ok (h.bindArray name _)
              · exact .error _
      | readArray target array index =>
          refine .bind_same (h.readNumber (hoperand index (by simp [Instruction.operands])))
            fun v => ?_
          refine .bind_same (h.cells array) fun a => ?_
          refine .bind_same rfl fun place => ?_
          cases a.element place with
          | none => exact .error _
          | some value => exact h.write hfree target value
      | writeArray array index value =>
          refine .bind_same (h.readNumber (hoperand index (by simp [Instruction.operands])))
            fun v => ?_
          refine .bind_same (h.read (hoperand value (by simp [Instruction.operands]))) fun w => ?_
          refine .bind_same (h.cells array) fun a => ?_
          simp only [hfree, Bool.false_and, Bool.false_eq_true, if_false]
          exact .bind_same rfl fun place => .ok (h.bindArray array _)
      | jumpIf test block => exact .error _
      | jump block => exact .error _
      | ret value => exact .error _

/-! ## Bodies -/

/-- Bodies that correspond to each other instruction by instruction, except that the
first one may also define variables that are not read. -/
inductive BodyAlike (X : String → Prop) (M : BlockId → BlockId → Prop)
    (resolve resolve' : String → Option BlockId) :
    List Instruction → List Instruction → Prop where
  | nil : BodyAlike X M resolve resolve' [] []
  | cons {i i' : Instruction} {rest rest' : List Instruction} :
      InstructionAlike X M resolve resolve' i i' → BodyAlike X M resolve resolve' rest rest' →
      BodyAlike X M resolve resolve' (i :: rest) (i' :: rest')
  | declare {x : String} {type : ValueType} {rest rest' : List Instruction} : X x →
      BodyAlike X M resolve resolve' rest rest' →
      BodyAlike X M resolve resolve' (.declare x type :: rest) rest'
  | assign {x : String} {l : Literal} {rest rest' : List Instruction} : X x →
      BodyAlike X M resolve resolve' rest rest' →
      BodyAlike X M resolve resolve' (.assign x (.literal l) :: rest) rest'

theorem BodyAlike.refl {body : List Instruction}
    (h : ∀ i ∈ body, InstructionAlike X M resolve resolve' i i) :
    BodyAlike X M resolve resolve' body body := by
  induction body with
  | nil => exact .nil
  | cons i rest ih =>
      exact .cons (h i List.mem_cons_self) (ih fun j hj => h j (List.mem_cons_of_mem _ hj))

/-- **Corresponding bodies** keep states alike, or fail alike. -/
theorem Alike.execAll (hfree : env.checked = false) {body body' : List Instruction}
    (hbody : BodyAlike X M resolve resolve' body body') {s t : State} (h : Alike X M s t) :
    (∃ s₁ t₁, s.execAll env resolve body = .ok s₁ ∧ t.execAll env resolve' body' = .ok t₁ ∧
        Alike X M s₁ t₁) ∨
      ∃ fault s₁ t₁, s.execAll env resolve body = .error (fault, s₁) ∧
        t.execAll env resolve' body' = .error (fault, t₁) ∧ Alike X M s₁ t₁ := by
  induction hbody generalizing s t with
  | nil => exact .inl ⟨s, t, rfl, rfl, h⟩
  | @cons i i' rest rest' hi _ ih =>
      have hboth := h.exec hfree hi
      simp only [State.execAll]
      revert hboth
      generalize s.exec env resolve i = x, t.exec env resolve' i' = y
      intro hboth
      cases hboth with
      | ok hnext => exact ih hnext
      | error fault => exact .inr ⟨fault, s, t, rfl, rfl, h⟩
  | @declare x type rest rest' hx _ ih =>
      simp only [State.execAll, State.exec]
      exact ih (h.bind_left hx _)
  | @assign x l rest rest' hx _ ih =>
      have hexec : s.exec env resolve (.assign x (.literal l)) = .ok (s.bind x (some l)) :=
        State.write_unchecked hfree s x l
      simp only [State.execAll, hexec]
      exact ih (h.bind_left hx _)

/-! ## Blocks -/

/-- Terminators that correspond to each other.  In a lax program a branch both of whose
sides lead to blocks with the same counterpart may correspond to a jump. -/
inductive ExitAlike (lax : Prop) (X : String → Prop) (M : BlockId → BlockId → Prop) :
    Terminator → Terminator → Prop where
  | finish : ExitAlike lax X M .finish .finish
  | jump {i j : BlockId} : M i j → ExitAlike lax X M (.jump i) (.jump j)
  | branch {test : Comparison} {a b a' b' : BlockId} : (∀ x ∈ test.readNames, ¬ X x) →
      M a a' → M b b' → ExitAlike lax X M (.branch test a b) (.branch test a' b')
  | joined {test : Comparison} {a b j : BlockId} : lax → M a j → M b j →
      ExitAlike lax X M (.branch test a b) (.jump j)
  | ret {value : Option Operand} : (∀ x ∈ (Terminator.ret value).readNames, ¬ X x) →
      ExitAlike lax X M (.ret value) (.ret value)

theorem ExitAlike.refl {e : Terminator} (hread : ∀ x ∈ e.readNames, ¬ X x)
    (hM : ∀ t ∈ e.targets, M t t) : ExitAlike lax X M e e := by
  cases e with
  | finish => exact .finish
  | jump target => exact .jump (hM target (by simp [Terminator.targets]))
  | branch test onTrue onFalse =>
      exact .branch hread (hM onTrue (by simp [Terminator.targets]))
        (hM onFalse (by simp [Terminator.targets]))
  | ret value => exact .ret hread

/-- Configurations that correspond to each other. -/
inductive ConfigAlike (X : String → Prop) (M : BlockId → BlockId → Prop) :
    Config → Config → Prop where
  | at {i j : BlockId} {s t : State} : M i j → Alike X M s t →
      ConfigAlike X M (.at i s) (.at j t)
  | ended {e : Ending} {s t : State} : s.visible = t.visible →
      ConfigAlike X M (.ended e s) (.ended e t)

theorem ConfigAlike.sight {c c' : Config} (h : ConfigAlike X M c c') : c.sight = c'.sight := by
  cases h with
  | «at» _ hst => exact congrArg (Prod.mk none) hst.visible
  | ended hv => exact congrArg (Prod.mk (some _)) hv

/-- The second configuration corresponds to the first, or the second program is lax and
the first one failed at a test. -/
def Continues (lax : Prop) (X : String → Prop) (M : BlockId → BlockId → Prop)
    (c c' : Config) : Prop :=
  ConfigAlike X M c c' ∨
    lax ∧ ∃ fault s, c = .ended (.badTest fault) s ∧ s.visible = c'.state.visible

theorem Alike.holds {s t : State} (h : Alike X M s t) {test : Comparison}
    (htest : ∀ x ∈ test.readNames, ¬ X x) : s.holds test = t.holds test := by
  have hlhs : ∀ x, test.lhs.var? = some x → ¬ X x := fun x hx =>
    htest x (by simp [Comparison.readNames, hx])
  have hrhs : ∀ x, test.rhs.var? = some x → ¬ X x := fun x hx =>
    htest x (by simp [Comparison.readNames, hx])
  simp only [State.holds]
  rw [h.read hlhs, h.read hrhs]

/-- The stacks below the innermost markers. -/
theorem unwind?_alike {entries entries' : List Entry}
    (h : List.Forall₂ (EntryAlike M) entries entries') :
    (State.unwind? entries = none ∧ State.unwind? entries' = none) ∨
      ∃ i rest j rest', State.unwind? entries = some (i, rest) ∧
        State.unwind? entries' = some (j, rest') ∧ M i j ∧
        List.Forall₂ (EntryAlike M) rest rest' := by
  induction h with
  | nil => exact .inl ⟨rfl, rfl⟩
  | cons he hrest ih =>
      cases he with
      | value source content => exact ih
      | marker hM => exact .inr ⟨_, _, _, _, rfl, rfl, hM, hrest⟩

theorem Alike.leaveByReturn {s t : State} (h : Alike X M s t) {value : Option Operand}
    (hvalue : ∀ x ∈ (Terminator.ret value).readNames, ¬ X x) :
    ConfigAlike X M (leaveByReturn s value) (leaveByReturn t value) := by
  have hread : value.mapM s.read = value.mapM t.read := by
    cases value with
    | none => rfl
    | some o =>
        have ho : s.read o = t.read o := h.read fun x hx => hvalue x (by
          simp [Terminator.readNames, hx])
        simp only [Option.mapM_some, ho]
  unfold Run.leaveByReturn
  rw [hread]
  cases value.mapM t.read with
  | error fault => exact .ended h.visible
  | ok result =>
      dsimp only
      rcases unwind?_alike h.stack with ⟨hs, ht⟩ | ⟨i, rest, j, rest', hs, ht, hM, hrest⟩
      · rw [hs, ht]
        exact .ended h.visible
      · rw [hs, ht]
        refine .at hM (h.withStack ?_)
        cases result with
        | none => exact hrest
        | some v => exact .cons (.value none v) hrest

/-- **Corresponding terminators** lead to corresponding configurations. -/
theorem Alike.leave {s t : State} (h : Alike X M s t) {e e' : Terminator}
    (he : ExitAlike lax X M e e') : Continues lax X M (leave s e) (leave t e') := by
  cases he with
  | finish => exact .inl (.ended h.visible)
  | jump hM => exact .inl (.at hM h)
  | ret hvalue => exact .inl (h.leaveByReturn hvalue)
  | branch htest ha hb =>
      simp only [Run.leave, h.holds htest]
      split
      · exact .inl (.ended h.visible)
      · exact .inl (.at ha h)
      · exact .inl (.at hb h)
  | joined hlax ha hb =>
      simp only [Run.leave]
      split
      · exact .inr ⟨hlax, _, s, rfl, h.visible⟩
      · exact .inl (.at ha h)
      · exact .inl (.at hb h)

/-- Blocks that correspond to each other. -/
structure BlockAlike (lax : Prop) (X : String → Prop) (M : BlockId → BlockId → Prop)
    (resolve resolve' : String → Option BlockId) (b b' : Block) : Prop where
  populated : b.populated = b'.populated
  body : BodyAlike X M resolve resolve' b.body b'.body
  exit : ExitAlike lax X M b.terminator b'.terminator

/-- **Corresponding blocks** lead to corresponding configurations. -/
theorem Alike.runBlock (hfree : env.checked = false) {b b' : Block}
    (hb : BlockAlike lax X M resolve resolve' b b') {s t : State} (h : Alike X M s t) :
    Continues lax X M (runBlock env resolve b s) (runBlock env resolve' b' t) := by
  unfold Run.runBlock
  rw [hb.populated]
  split
  · rcases h.execAll hfree hb.body with ⟨s₁, t₁, hs, ht, h₁⟩ | ⟨fault, s₁, t₁, hs, ht, h₁⟩
    · rw [hs, ht]
      exact h₁.leave hb.exit
    · rw [hs, ht]
      exact .inl (.ended h₁.visible)
  · exact .inl (.ended h.visible)

/-! ## Programs -/

theorem step_at {g : FlowGraph} {id : BlockId} {b : Block} (h : g.bare? id = some b)
    (env : Environment) (s : State) : step env g (.at id s) = runBlock env g.idOf? b s := by
  obtain ⟨b', hb', rfl⟩ := Option.map_eq_some_iff.1 h
  simp only [step, hb']
  rfl

/-- A step from a block whose counterpart corresponds to it. -/
theorem Alike.step (hfree : env.checked = false) {g g' : FlowGraph} {i j : BlockId}
    {f : Block → Block} (hj : g'.bare? j = (g.bare? i).map f)
    (hblock : ∀ b, g.bare? i = some b → BlockAlike lax X M g.idOf? g'.idOf? b (f b))
    {s t : State} (h : Alike X M s t) :
    Continues lax X M (step env g (.at i s)) (step env g' (.at j t)) := by
  cases hi : g.bare? i with
  | none =>
      have hnone : g.block? i = none := Option.map_eq_none_iff.1 hi
      have hnone' : g'.block? j = none :=
        Option.map_eq_none_iff.1 (hj.trans (by rw [hi]; rfl))
      simp only [Run.step, hnone, hnone']
      exact .inl (.ended h.visible)
  | some b =>
      rw [hi] at hj
      rw [step_at hi, step_at hj]
      exact h.runBlock hfree (hblock b hi)

/-- Programs simulate each other if every block of the second is matched by steps of
the first from the blocks it stands for. -/
theorem simulation_of_alike {g g' : FlowGraph}
    (hfirst : ConfigAlike X M (start g) (start g'))
    (hstep : ∀ {i j s t}, M i j → Alike X M s t →
      ∃ k, Continues lax X M (steps env g (k + 1) (.at i s)) (step env g' (.at j t))) :
    Simulation lax env g g' (ConfigAlike X M) := by
  refine ⟨hfirst, ConfigAlike.sight, ?_⟩
  intro c c' h
  cases h with
  | «at» hM hst =>
      obtain ⟨k, hk | ⟨hlax, fault, s, hs, hv⟩⟩ := hstep hM hst
      · exact .inl ⟨k, hk⟩
      · exact .inr ⟨hlax, k + 1, fault, s, hs, hv⟩
  | ended hv => exact .inl ⟨0, .ended hv⟩

/-- A program starts alike if its first block is matched. -/
theorem start_alike {g g' : FlowGraph} (hnone : g.first = none → g'.first = none)
    (hsome : ∀ i, g.first = some i → ∃ j, g'.first = some j ∧ M i j) :
    ConfigAlike X M (start g) (start g') := by
  unfold start
  cases hf : g.first with
  | none =>
      rw [hnone hf]
      exact .ended rfl
  | some i =>
      obtain ⟨j, hj, hM⟩ := hsome i hf
      rw [hj]
      exact .at hM ⟨fun _ => rfl, rfl, .nil, rfl, rfl⟩

end Run
end FlowVerifier
