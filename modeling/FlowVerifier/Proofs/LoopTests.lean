import FlowVerifier.Proofs.Mistakes
import FlowVerifier.Proofs.Symbolic.Exploration
import FlowVerifier.Proofs.Symbolic.Tests
import Mathlib

/-!
# Mistakes in the tests of loops

The replay of a loop catches the mistakes of block bodies.  The tests at the end
of blocks are evaluated without such a net, and this file says exactly what
follows from that.

* `testFault?` is the mistake in a test on a path: an operand was never
  declared, or the operands are of different types.
* `Walk.fault?` is the mistake that a way through a loop makes at the end of the
  block it has come to, and `Meets` says that a replay follows a way.
* `replayAll_mistake_iff`: a replay fails with a mistake exactly if it meets it.
* `verify_never_recoverable_iff`: no mistake leaves a verification exactly if no
  replay of a loop comes to one, and `verify_unboundLoop` is a case where one does.
-/

namespace FlowVerifier

/-! ## Mistaken tests -/

namespace Symbolic

open Exec

/-- The mistake of comparing values of different types. -/
def typeFault? (a b : Value) : Option ProgramError :=
  if a.type = b.type then none else some (.typeMismatch (.compareValues a.type b.type))

/-- The mistake in a test: an operand cannot be read, or the types differ. -/
def testFault? (p : Path) (test : Comparison) : Option ProgramError :=
  match readTest p test with
  | .error e => some e
  | .ok (a, b) => typeFault? a b

/-- Is the test decided by what is known about its variables? -/
def isRelated (p : Path) (test : Comparison) : Bool :=
  (knownRelation? p test).any fun op => op.implies test.op || op.implies test.op.negate

/-- The mistake in deciding a test.  The values of a test that is decided by a
relation are not compared. -/
def decideFault? (p : Path) (test : Comparison) : Option ProgramError :=
  match readTest p test with
  | .error e => some e
  | .ok (a, b) => if isRelated p test then none else typeFault? a b

theorem canMeet_error_iff (a b : Value) (op : RelOp) (m : ProgramError) :
    a.canMeet op b = .error m ↔ typeFault? a b = some m := by
  cases a <;> cases b <;> simp [Value.canMeet, typeFault?, Value.type]

theorem judged_error_iff (p : Path) (test : Comparison) (m : ProgramError) :
    judged p test = .error m ↔ decideFault? p test = some m := by
  unfold judged decideFault?
  cases readTest p test with
  | error e => simp
  | ok v =>
      obtain ⟨a, b⟩ := v
      dsimp only
      unfold judgedWith isRelated
      have hval := canMeet_error_iff a b test.op m
      cases knownRelation? p test with
      | none => simpa using hval
      | some op =>
          cases h₁ : op.implies test.op with
          | true => simp [h₁]
          | false =>
              cases h₂ : op.implies test.op.negate with
              | true => simp [h₁, h₂]
              | false => simpa [h₁, h₂] using hval

theorem narrowedTo_error_iff (p : Path) (test : Comparison) (m : ProgramError) :
    narrowedTo p test = .error m ↔ testFault? p test = some m := by
  unfold narrowedTo testFault?
  cases readTest p test with
  | error e => simp
  | ok v =>
      obtain ⟨a, b⟩ := v
      -- the types are compared twice, with the same answer
      cases a <;> cases b
      · simp only [Value.clip, typeFault?, Value.type, if_true, reduceCtorEq, iff_false]
        split <;> simp
      · simp [Value.clip, typeFault?, Value.type]
      · simp [Value.clip, typeFault?, Value.type]
      · simp only [Value.clip, typeFault?, Value.type, if_true, reduceCtorEq, iff_false]
        split <;> simp

/-- The mistake in deciding a test is one in the test. -/
theorem testFault?_of_decideFault? {p : Path} {test : Comparison} {m : ProgramError}
    (h : decideFault? p test = some m) : testFault? p test = some m := by
  unfold decideFault? at h
  unfold testFault?
  cases hr : readTest p test with
  | error e => simpa [hr] using h
  | ok v =>
      rw [hr] at h
      dsimp only at h ⊢
      split at h
      · exact absurd h (by simp)
      · exact h

theorem testFault?_fork (p : Path) (test : Comparison) :
    testFault? p.fork test = testFault? p test := by
  have ho : ∀ o, readOperand p.fork o = readOperand p o := by
    intro o
    cases o with
    | literal l => rfl
    | var name => simp [readOperand, Path.var?, Path.fork]
  simp only [testFault?, readTest, ho]

theorem decideTest_mistake_iff (test : Comparison) (t : Trace) (m : ProgramError) :
    (outcome (decideTest test) t).1 = .error (.program m) ↔
      decideFault? t.path test = some m := by
  obtain ⟨ws, h⟩ := outcome_decideTest test t
  rw [h, ← judged_error_iff]
  cases judged t.path test <;> simp [answer]

theorem constrain_mistake_iff (test : Comparison) (t : Trace) (m : ProgramError) :
    (outcome (constrain test) t).1 = .error (.program m) ↔
      testFault? t.path test = some m := by
  obtain ⟨ws, h⟩ := outcome_constrain test t
  rw [h, ← narrowedTo_error_iff]
  cases narrowedTo t.path test <;> simp

/-- Sides whose tests are mistaken alike are mistaken together. -/
theorem possibleSides_mistake_iff (node : String) {tests : List (Comparison × BlockId)}
    {t : Trace} {fault : Option ProgramError} (hne : tests ≠ [])
    (hall : ∀ c ∈ tests, testFault? t.path c.1 = fault) (m : ProgramError) :
    (outcome (possibleSides node tests) t).1 = .error (.program m) ↔ fault = some m := by
  induction tests generalizing t with
  | nil => exact absurd rfl hne
  | cons c tests ih =>
      obtain ⟨test, target⟩ := c
      have hfault := hall (test, target) (List.mem_cons_self ..)
      obtain ⟨ws, hside⟩ := outcome_sideOf node test target t
      have herror := narrowedTo_error_iff t.path.fork test m
      rw [testFault?_fork, hfault] at herror
      rw [possibleSides, List.filterMapM_cons, outcome_bind, hside]
      cases hn : narrowedTo t.path.fork test with
      | error e => simpa [hn] using herror
      | ok v =>
          have hnone : fault ≠ some m := by simpa [hn] using herror
          have hrest : (outcome (possibleSides node tests) { t with warnings := ws }).1 ≠
              .error (.program m) := by
            by_cases hnil : tests = []
            · subst hnil
              exact (OnlyFatal.pure _).no_mistake _ m
            · intro he
              exact hnone ((ih (t := { t with warnings := ws }) hnil fun c hc =>
                hall c (List.mem_cons_of_mem _ hc)).1 he)
          simp only [hnone, iff_false]
          obtain ⟨possible, q⟩ := v
          cases possible with
          | false => exact hrest
          | true =>
              show ¬ (outcome (possibleSides node tests >>= _) _).1 = _
              rw [OnlyFatal.bind_mistake_iff fun _ => .pure _]
              exact hrest

end Symbolic

/-! ## Leaving a block of a loop -/

namespace Termination

open Symbolic

theorem goTo_fatal (target : BlockId) : OnlyFatal (goTo target) :=
  OnlyFatal.get.bind fun _ => .pure _

theorem returnToCaller_fatal (result : Option Value) (unmarked : Defect) :
    OnlyFatal (returnToCaller result unmarked) := by
  refine (OnlyFatal.get.bind fun _ => .pure _).bind fun p => ?_
  split
  · exact .throw rfl
  · exact (OnlyFatal.modify _).bind fun _ => .pure _

theorem enterLoop_mistake_iff (c : LoopCondition) (b : Block) (p : Path) (m : ProgramError) :
    ((enterLoop c b).runOn p).1 = .error (.program m) ↔
      (continuingTarget? c b.terminator).isSome = true ∧
        testFault? p c.continuation = some m := by
  show (outcome (enterLoop c b) { path := p }).1 = _ ↔ _
  unfold enterLoop
  cases continuingTarget? c b.terminator with
  | none => simp
  | some target =>
      simp only [Option.isSome_some, true_and]
      rw [OnlyFatal.bind_mistake_iff ?_, constrain_mistake_iff]
      intro possible
      split
      · exact (OnlyFatal.modify _).bind fun _ => goTo_fatal _
      · exact .pure _

theorem judgePath_mistake_iff (c : Comparison) (p : Path) (m : ProgramError) :
    ((judgePath c).runOn p).1 = .error (.program m) ↔ decideFault? p c = some m := by
  show (outcome (judgePath c) { path := p }).1 = _ ↔ _
  unfold judgePath
  rw [OnlyFatal.bind_mistake_iff ?_, decideTest_mistake_iff]
  intro answer
  cases answer with
  | cant => exact .pure _
  | may => exact (OnlyFatal.get.bind fun _ => .pure _).bind fun _ => .pure _
  | must => exact (OnlyFatal.get.bind fun _ => .pure _).bind fun _ => .pure _

/-- The sides of a branch test what the branch tests, or the opposite. -/
theorem testFault?_of_mem_sidesOf {p : Path} {test : Comparison} {onTrue onFalse : BlockId}
    {known : Satisfiability} {c : Comparison × BlockId}
    (h : c ∈ sidesOf test onTrue onFalse known) : testFault? p c.1 = testFault? p test := by
  cases known <;> simp only [sidesOf, List.mem_cons, List.not_mem_nil, or_false] at h
  case may => rcases h with rfl | rfl <;> rfl
  all_goals
    obtain rfl := h
    rfl

theorem sidesOf_ne_nil (test : Comparison) (onTrue onFalse : BlockId) (known : Satisfiability) :
    sidesOf test onTrue onFalse known ≠ [] := by
  cases known <;> simp [sidesOf]

theorem leaveBlock_mistake_iff (g : FlowGraph) (id : BlockId) (b : Block) (p : Path)
    (m : ProgramError) :
    ((leaveBlock g id b).runOn p).1 = .error (.program m) ↔
      g.callAt? id = none ∧ b.test?.bind (testFault? p) = some m := by
  show (outcome (leaveBlock g id b) { path := p }).1 = _ ↔ _
  unfold leaveBlock
  cases g.callAt? id with
  | some call =>
      simp only [reduceCtorEq, false_and, iff_false]
      refine OnlyFatal.no_mistake ?_ _ m
      exact (returnToCaller_fatal _ _).bind fun _ => goTo_fatal _
  | none =>
      simp only [true_and]
      unfold Block.test?
      cases b.terminator with
      | finish => simp
      | ret value => simp
      | jump target => simpa using (goTo_fatal target).no_mistake _ m
      | branch test onTrue onFalse =>
          obtain ⟨ws, hd⟩ := outcome_decideTest test { path := p }
          simp only [Option.bind_some]
          rw [outcome_bind, hd]
          cases hj : judged p test with
          | error e =>
              have he := testFault?_of_decideFault? ((judged_error_iff p test e).1 hj)
              simp [answer, he]
          | ok known =>
              exact possibleSides_mistake_iff b.name (sidesOf_ne_nil test onTrue onFalse known)
                (fun c hc => testFault?_of_mem_sidesOf hc) m

/-! ## Ways through a loop -/

/-- The mistake that a way makes at the end of a block it passes. -/
def exitFault? (g : FlowGraph) (s : Subject) (id : BlockId) (b : Block) (p : Path) :
    Option ProgramError :=
  if id = s.condition.block then
    if id = s.loop.header then
      (continuingTarget? s.condition b.terminator).bind fun _ =>
        testFault? p s.condition.continuation
    else decideFault? p s.condition.continuation
  else if (g.callAt? id).isSome then none
  else b.test?.bind (testFault? p)

/-- The state in which a path comes to the end of a block, if it gets there. -/
def afterBody? (g : FlowGraph) (b : Block) (p : Path) : Option Path :=
  match runBody g b p with
  | .ok p? => p?
  | .error _ => none

/-- The mistake that a way makes in the block it has come to. -/
def Walk.fault? (g : FlowGraph) (s : Subject) (w : Walk) : Option ProgramError :=
  (g.block? w.block).bind fun b =>
    if w.block ∈ w.unseen then
      if s.isInner w.block then none
      else (afterBody? g b w.path).bind (exitFault? g s w.block b)
    else if s.loop.contains w.block ∧ w.block = s.loop.header ∧ s.testsFirst then
      (afterBody? g b w.path).bind (decideFault? · s.condition.continuation)
    else none

/-- Bodies are applied with a net for their mistakes. -/
theorem runBody_ne_mistake (g : FlowGraph) (b : Block) (p : Path) (m : ProgramError) :
    runBody g b p ≠ .error (.program m) := by
  unfold runBody
  rcases (executeAll g.idOf? b.name b.body).runOn p with ⟨r, trace⟩
  cases r with
  | ok _ => simp
  | error e => cases e <;> simp

theorem afterBody?_eq_some_iff {g : FlowGraph} {b : Block} {p q : Path} :
    afterBody? g b p = some q ↔ runBody g b p = .ok (some q) := by
  unfold afterBody?
  cases runBody g b p <;> simp

theorem judgeAt_mistake_iff (s : Subject) (p : Path) (r : Replay) (m : ProgramError) :
    judgeAt s p r = .error (.program m) ↔
      decideFault? p s.condition.continuation = some m := by
  unfold judgeAt
  rw [bind_eq_error_iff, judgePath_mistake_iff]
  simp [pure, Except.pure]

/-- **Passing a block** makes exactly the mistake at its end. -/
theorem passBlock_mistake_iff (g : FlowGraph) (s : Subject) (id : BlockId) (p : Path)
    (r : Replay) (m : ProgramError) :
    passBlock g s id p r = .error (.program m) ↔
      ∃ b q, g.block? id = some b ∧ s.isInner id = false ∧ afterBody? g b p = some q ∧
        exitFault? g s id b q = some m := by
  unfold passBlock
  cases g.block? id with
  | none => simp [pure, Except.pure]
  | some b =>
      cases s.isInner id with
      | true => simp [pure, Except.pure]
      | false =>
          have hexit : ∀ q,
              (if id = s.condition.block then
                if id = s.loop.header then do
                  return (← ((enterLoop s.condition b).runOn q).1, r.note id q)
                else do return ([], ← judgeAt s q (r.note id q))
              else do
                return (← ((leaveBlock g id b).runOn q).1, r.note id q) :
                  Except Error (List Side × Replay)) = .error (.program m) ↔
                exitFault? g s id b q = some m := by
            intro q
            unfold exitFault?
            split
            · split
              · rw [bind_eq_error_iff, enterLoop_mistake_iff]
                cases continuingTarget? s.condition b.terminator <;> simp [pure, Except.pure]
              · rw [bind_eq_error_iff, judgeAt_mistake_iff]
                simp [pure, Except.pure]
            · rw [bind_eq_error_iff, leaveBlock_mistake_iff]
              cases g.callAt? id <;> simp [pure, Except.pure]
          simp only [Bool.false_eq_true, if_false, bind_eq_error_iff, runBody_ne_mistake,
            false_or, Option.some.injEq, true_and, afterBody?_eq_some_iff]
          constructor
          · rintro ⟨p?, hbody, h⟩
            cases p? with
            | none => exact nomatch h
            | some q => exact ⟨b, q, rfl, hbody, (hexit q).1 h⟩
          · rintro ⟨_, q, rfl, hbody, h⟩
            exact ⟨some q, hbody, (hexit q).2 h⟩

theorem comeBack_mistake_iff (g : FlowGraph) (s : Subject) (id : BlockId) (p : Path)
    (r : Replay) (m : ProgramError) :
    comeBack g s id p r = .error (.program m) ↔
      (id = s.loop.header ∧ s.testsFirst = true) ∧
        ∃ b q, g.block? id = some b ∧ afterBody? g b p = some q ∧
          decideFault? q s.condition.continuation = some m := by
  unfold comeBack
  split
  · rename_i hfirst
    cases g.block? id with
    | none => simp [pure, Except.pure]
    | some b =>
        simp only [hfirst, bind_eq_error_iff, runBody_ne_mistake, false_or, Option.some.injEq,
          true_and, afterBody?_eq_some_iff]
        constructor
        · rintro ⟨p?, hbody, h⟩
          cases p? with
          | none => exact nomatch h
          | some q => exact ⟨b, q, rfl, hbody, (judgeAt_mistake_iff s q _ m).1 h⟩
        · rintro ⟨_, q, rfl, hbody, h⟩
          exact ⟨some q, hbody, (judgeAt_mistake_iff s q _ m).2 h⟩
  · rename_i hfirst
    simp [hfirst, pure, Except.pure]

theorem Walk.fault?_of_unseen {g : FlowGraph} {s : Subject} {w : Walk}
    (hw : w.block ∈ w.unseen) (r : Replay) (m : ProgramError) :
    passBlock g s w.block w.path r = .error (.program m) ↔ w.fault? g s = some m := by
  rw [passBlock_mistake_iff]
  unfold Walk.fault?
  cases g.block? w.block with
  | none => simp
  | some b => cases hin : s.isInner w.block <;> simp [hw, Option.bind_eq_some_iff]

theorem Walk.fault?_of_seen {g : FlowGraph} {s : Subject} {w : Walk}
    (hw : w.block ∉ w.unseen) (hc : s.loop.contains w.block = true) (r : Replay)
    (m : ProgramError) :
    comeBack g s w.block w.path r = .error (.program m) ↔ w.fault? g s = some m := by
  rw [comeBack_mistake_iff]
  unfold Walk.fault?
  cases g.block? w.block with
  | none => simp
  | some b =>
      by_cases hfirst : w.block = s.loop.header ∧ s.testsFirst = true
      · rw [Option.bind_some, if_neg hw, if_pos ⟨hc, hfirst⟩]
        simp [hfirst, Option.bind_eq_some_iff]
      · simp [hw, hfirst]

theorem Walk.fault?_of_left {g : FlowGraph} {s : Subject} {w : Walk}
    (hw : w.block ∉ w.unseen) (hc : s.loop.contains w.block = false) : w.fault? g s = none := by
  unfold Walk.fault?
  cases g.block? w.block <;> simp [hw, hc]

/-! ## Replays -/

/-- A replay that goes on with a frontier follows a way. -/
inductive Meets (g : FlowGraph) (s : Subject) (maxPaths : Nat) :
    Frontier Walk → Replay → Walk → Prop
  /-- The way is the next one. -/
  | here {frontier : Frontier Walk} {r : Replay} {w : Walk} {rest : List Walk}
      (next : frontier.pending = w :: rest) : Meets g s maxPaths frontier r w
  /-- The way is met after the next one has passed a block. -/
  | pass {frontier : Frontier Walk} {r r' : Replay} {w w' : Walk} {rest : List Walk}
      {sides : List Side} (next : frontier.pending = w :: rest) (unseen : w.block ∈ w.unseen)
      (passed : passBlock g s w.block w.path r = .ok (sides, r'))
      (later : Meets g s maxPaths
        (({ frontier with pending := rest } : Frontier Walk).advance maxPaths
          (continuations (w.unseen.erase w.block) sides))
        { r' with
          truncated := r'.truncated ||
            ({ frontier with pending := rest } : Frontier Walk).overflows maxPaths
              (continuations (w.unseen.erase w.block) sides) } w') :
      Meets g s maxPaths frontier r w'
  /-- The way is met after the next one has come back to a block. -/
  | back {frontier : Frontier Walk} {r r' : Replay} {w w' : Walk} {rest : List Walk}
      (next : frontier.pending = w :: rest) (seen : w.block ∉ w.unseen)
      (inside : s.loop.contains w.block = true)
      (judged : comeBack g s w.block w.path r = .ok r')
      (later : Meets g s maxPaths { frontier with pending := rest } r' w') :
      Meets g s maxPaths frontier r w'
  /-- The way is met after the next one has left the loop. -/
  | leave {frontier : Frontier Walk} {r : Replay} {w w' : Walk} {rest : List Walk}
      (next : frontier.pending = w :: rest) (seen : w.block ∉ w.unseen)
      (outside : s.loop.contains w.block = false)
      (later : Meets g s maxPaths { frontier with pending := rest } r w') :
      Meets g s maxPaths frontier r w'

/-- One step of a replay. -/
theorem replayAll_cons {g : FlowGraph} {s : Subject} {maxPaths : Nat}
    {frontier : Frontier Walk} {w : Walk} {rest : List Walk} (hp : frontier.pending = w :: rest)
    (r : Replay) :
    replayAll g s maxPaths frontier r =
      let others : Frontier Walk := { frontier with pending := rest }
      if w.block ∈ w.unseen then
        match passBlock g s w.block w.path r with
        | .error e => .error e
        | .ok (sides, r) =>
          let ways := continuations (w.unseen.erase w.block) sides
          replayAll g s maxPaths (others.advance maxPaths ways)
            { r with truncated := r.truncated || others.overflows maxPaths ways }
      else if s.loop.contains w.block then
        match comeBack g s w.block w.path r with
        | .error e => .error e
        | .ok r => replayAll g s maxPaths others r
      else replayAll g s maxPaths others r := by
  rw [replayAll]
  split
  · rename_i hnil
    rw [hnil] at hp
    exact absurd hp (by simp)
  · rename_i w' rest' hcons
    obtain ⟨rfl, rfl⟩ := List.cons.inj (hcons.symm.trans hp)
    rfl

/-- A mistake that a replay meets is where it ends. -/
theorem replayAll_of_meets {g : FlowGraph} {s : Subject} {maxPaths : Nat}
    {frontier : Frontier Walk} {r : Replay} {w : Walk} {m : ProgramError}
    (h : Meets g s maxPaths frontier r w) (hm : w.fault? g s = some m) :
    replayAll g s maxPaths frontier r = .error (.program m) := by
  induction h with
  | @here frontier r w rest next =>
      rw [replayAll_cons next]
      by_cases hw : w.block ∈ w.unseen
      · simp [hw, (Walk.fault?_of_unseen hw r m).2 hm]
      · cases hc : s.loop.contains w.block with
        | true => simp [hw, (Walk.fault?_of_seen hw hc r m).2 hm]
        | false =>
            rw [Walk.fault?_of_left hw hc] at hm
            exact absurd hm (by simp)
  | pass next unseen passed _ ih =>
      rw [replayAll_cons next]
      simpa [unseen, passed] using ih hm
  | back next seen inside judged _ ih =>
      rw [replayAll_cons next]
      simpa [seen, inside, judged] using ih hm
  | leave next seen outside _ ih =>
      rw [replayAll_cons next]
      simpa [seen, outside] using ih hm

/-- A mistake with which a replay fails is one that it meets. -/
theorem meets_of_replayAll {g : FlowGraph} {s : Subject} {maxPaths : Nat}
    {frontier : Frontier Walk} {r : Replay} {m : ProgramError}
    (h : replayAll g s maxPaths frontier r = .error (.program m)) :
    ∃ w, Meets g s maxPaths frontier r w ∧ w.fault? g s = some m := by
  fun_induction replayAll g s maxPaths frontier r with
  | case1 => exact absurd h (by simp)
  | case2 frontier r w rest next hw e hpass =>
      obtain rfl := Except.error.inj h
      exact ⟨w, .here next, (Walk.fault?_of_unseen hw r m).1 hpass⟩
  | case3 frontier r w rest next others hw sides r' hpass ways ih =>
      obtain ⟨w', hmeets, hm⟩ := ih h
      exact ⟨w', .pass next hw hpass hmeets, hm⟩
  | case4 frontier r w rest next hw hc e hback =>
      obtain rfl := Except.error.inj h
      exact ⟨w, .here next, (Walk.fault?_of_seen hw hc r m).1 hback⟩
  | case5 frontier r w rest next others hw hc r' hback ih =>
      obtain ⟨w', hmeets, hm⟩ := ih h
      exact ⟨w', .back next hw hc hback hmeets, hm⟩
  | case6 frontier r w rest next others hw hc ih =>
      obtain ⟨w', hmeets, hm⟩ := ih h
      exact ⟨w', .leave next hw (by simpa using hc) hmeets, hm⟩

/-- **Replays and mistakes.**  A replay fails with a mistake exactly if it follows a
way to the end of a block where the way makes it. -/
theorem replayAll_mistake_iff (g : FlowGraph) (s : Subject) (maxPaths : Nat)
    (frontier : Frontier Walk) (r : Replay) (m : ProgramError) :
    replayAll g s maxPaths frontier r = .error (.program m) ↔
      ∃ w, Meets g s maxPaths frontier r w ∧ w.fault? g s = some m :=
  ⟨meets_of_replayAll, fun ⟨_, h, hm⟩ => replayAll_of_meets h hm⟩

/-! ## Verification -/

/-- The first way through a loop. -/
def entryWay (l : Loop) (start : Path) : Walk := ⟨l.header, start, l.body.toList⟩

/-- The replay of loop `k` comes to a test with the mistake `m`. -/
def LoopFault (g : FlowGraph) (forest : LoopForest) (summary : SearchSummary)
    (maxPaths k : Nat) (m : ProgramError) : Prop :=
  ∃ loop condition start w, forest.get? k = some loop ∧ loop.condition = some condition ∧
    startState? g summary loop = some start ∧ g.contains condition.block = true ∧
    Meets g ⟨k, loop, condition⟩ maxPaths ⟨[entryWay loop start], 1⟩ {} w ∧
    w.fault? g ⟨k, loop, condition⟩ = some m

theorem analyze_mistake_iff (g : FlowGraph) (forest : LoopForest) (summary : SearchSummary)
    (maxPaths k : Nat) (m : ProgramError) :
    analyze g forest summary maxPaths k = .error (.program m) ↔
      LoopFault g forest summary maxPaths k m := by
  unfold analyze LoopFault LoopForest.get
  cases forest.get? k with
  | none => simp [bind, Except.bind]
  | some loop =>
      simp only [bind_eq_error_iff, reduceCtorEq, false_or, Except.ok.injEq,
        exists_eq_left', Option.some.injEq]
      cases hc : loop.condition with
      | none => simp [pure, Except.pure, hc]
      | some condition =>
          cases hs : startState? g summary loop with
          | none => simp [pure, Except.pure, hs]
          | some start =>
              cases hb : g.contains condition.block with
              | false => simp [pure, Except.pure, hs, hc, hb]
              | true =>
                  dsimp only
                  rw [if_pos hb, bind_eq_error_iff]
                  show replayAll g ⟨k, loop, condition⟩ maxPaths ⟨[entryWay loop start], 1⟩ {} =
                    _ ∨ _ ↔ _
                  rw [replayAll_mistake_iff]
                  constructor
                  · rintro (⟨w, hw⟩ | ⟨replay, _, h⟩)
                    · exact ⟨loop, condition, start, w, rfl, hc, hs, hb, hw⟩
                    · exact nomatch h
                  · rintro ⟨_, _, _, w, rfl, hc', hs', _, hw⟩
                    obtain rfl := Option.some.inj (hc.symm.trans hc')
                    obtain rfl := Option.some.inj (hs.symm.trans hs')
                    exact .inl ⟨w, hw⟩

/-- What a validation does: it analyses the loop, and notes the verdict. -/
theorem outcome_validate (forest : LoopForest) (summary : SearchSummary) (maxPaths k : Nat)
    (w : Workspace) :
    ∃ log, outcome (validate forest summary maxPaths k) w =
      ((analyze w.graph forest summary maxPaths k).map LoopAnalysis.verdict,
        { w with log }) := by
  have hgraph : outcome Transform.graph w = (.ok w.graph, w) := rfl
  rw [validate, outcome_bind_ok hgraph, outcome_bind, outcome_liftExcept]
  cases hl : forest.get k with
  | error e =>
      have ha : analyze w.graph forest summary maxPaths k = .error e := by
        unfold analyze
        rw [hl]
        rfl
      exact ⟨w.log, by rw [ha]; rfl⟩
  | ok loop =>
      dsimp only
      rw [outcome_bind, outcome_liftExcept]
      cases analyze w.graph forest summary maxPaths k with
      | error e => exact ⟨w.log, rfl⟩
      | ok analysis => exact ⟨_, rfl⟩

/-- Loops are validated one after the other, up to the first that cannot be. -/
theorem validate_mapM_mistake_iff (forest : LoopForest) (summary : SearchSummary)
    (maxPaths : Nat) (loops : List Nat) (w : Workspace) (m : ProgramError) :
    (outcome (loops.mapM (validate forest summary maxPaths)) w).1 = .error (.program m) ↔
      ∃ before k after, loops = before ++ k :: after ∧
        (∀ j ∈ before, ∃ a, analyze w.graph forest summary maxPaths j = .ok a) ∧
        LoopFault w.graph forest summary maxPaths k m := by
  induction loops generalizing w with
  | nil => simp
  | cons j loops ih =>
      obtain ⟨log, hj⟩ := outcome_validate forest summary maxPaths j w
      rw [List.mapM_cons, outcome_bind, hj]
      cases ha : analyze w.graph forest summary maxPaths j with
      | error e =>
          have hfault := analyze_mistake_iff w.graph forest summary maxPaths j
          simp only [Except.map, ha, Except.error.injEq] at hfault ⊢
          constructor
          · rintro rfl
            exact ⟨[], j, loops, rfl, by simp, (hfault m).1 rfl⟩
          · rintro ⟨before, k, after, hsplit, hbefore, hk⟩
            cases before with
            | nil =>
                obtain ⟨rfl, rfl⟩ := List.cons.inj hsplit
                exact (hfault m).2 hk
            | cons i before =>
                obtain ⟨rfl, _⟩ := List.cons.inj hsplit
                obtain ⟨a, hok⟩ := hbefore j (List.mem_cons_self ..)
                exact absurd (ha.symm.trans hok) (by simp)
      | ok a =>
          simp only [Except.map]
          rw [OnlyFatal.bind_mistake_iff fun _ => .pure _, ih { w with log }]
          constructor
          · rintro ⟨before, k, after, rfl, hbefore, hk⟩
            refine ⟨j :: before, k, after, rfl, ?_, hk⟩
            intro i hi
            rcases List.mem_cons.1 hi with rfl | hi
            · exact ⟨a, ha⟩
            · exact hbefore i hi
          · rintro ⟨before, k, after, hsplit, hbefore, hk⟩
            cases before with
            | nil =>
                obtain ⟨rfl, rfl⟩ := List.cons.inj hsplit
                have he := (analyze_mistake_iff w.graph forest summary maxPaths j m).2 hk
                exact absurd (ha.symm.trans he) (by simp)
            | cons i before =>
                obtain ⟨rfl, rfl⟩ := List.cons.inj hsplit
                exact ⟨before, k, after, rfl,
                  fun i hi => hbefore i (List.mem_cons_of_mem _ hi), hk⟩

theorem validateAll_mistake_iff (forest : LoopForest) (summary : SearchSummary)
    (maxPaths : Nat) (w : Workspace) (m : ProgramError) :
    (outcome (validateAll forest summary maxPaths) w).1 = .error (.program m) ↔
      ∃ k, k < forest.size ∧
        (∀ j, j < k → ∃ a, analyze w.graph forest summary maxPaths j = .ok a) ∧
        LoopFault w.graph forest summary maxPaths k m := by
  unfold validateAll
  rw [validate_mapM_mistake_iff]
  constructor
  · rintro ⟨before, k, after, hsplit, hbefore, hk⟩
    -- the loop in place `n` of the range is loop `n`
    have hplace : ∀ n : Nat, n < (List.range forest.size).length →
        (before ++ k :: after)[n]? = some n := by
      intro n hn
      rw [← hsplit, List.getElem?_eq_getElem hn, List.getElem_range]
    have hlen : before.length < (List.range forest.size).length := by
      rw [hsplit]
      simp
    have hk' : before.length = k := by
      simpa using (hplace before.length hlen).symm
    refine ⟨k, by simpa [hk'] using hlen, ?_, hk⟩
    intro j hj
    refine hbefore j ?_
    have hat := hplace j (by omega)
    rw [List.getElem?_append_left (by omega)] at hat
    exact List.mem_of_getElem? hat
  · rintro ⟨k, hlt, hbefore, hk⟩
    refine ⟨List.range k, k, (List.range forest.size).drop (k + 1), ?_, ?_, hk⟩
    · have hget : (List.range forest.size).drop k =
          k :: (List.range forest.size).drop (k + 1) := by
        rw [List.drop_eq_getElem_cons (by simpa using hlt), List.getElem_range]
      rw [← hget]
      conv => lhs; rw [← List.take_append_drop k (List.range forest.size)]
      rw [List.take_range, Nat.min_eq_left (Nat.le_of_lt hlt)]
    · intro j hj
      exact hbefore j (List.mem_range.1 hj)

end Termination

open Termination Symbolic

/-- The stages before the loops are validated: the first simplification, the
loops and the search. -/
def prepare (s : Settings) :
    Transform (Simplify.Stats × LoopForest × Symbolic.SearchSummary) := do
  let simplify ← Simplify.simplify s.simplify
  let loops ← LoopForest.ofGraph (← Transform.graph)
  reportLoops loops
  let search ← searchAndPrune s.search
  return (simplify, loops, search)

/-- The stages after the loops are validated. -/
def complete (s : Settings) (simplify : Simplify.Stats) (loops : LoopForest)
    (search : Symbolic.SearchSummary) (verdicts : List LoopVerdict) : Transform Report := do
  let postSimplify ←
    if s.postSimplify then some <$> Simplify.simplify s.simplify else pure none
  return { log := (← get).log, loops, verdicts, search, simplify, postSimplify }

theorem verifyStages_eq (s : Settings) :
    verifyStages s = prepare s >>= fun (simplify, loops, search) =>
      (if s.validateTermination then validateAll loops search s.search.maxPaths
        else pure []) >>= complete s simplify loops search := by
  unfold verifyStages prepare complete
  simp only [bind_assoc, pure_bind]
  cases s.validateTermination <;> rfl

theorem complete_fatal (s : Settings) (simplify : Simplify.Stats) (loops : LoopForest)
    (search : Symbolic.SearchSummary) (verdicts : List LoopVerdict) :
    OnlyFatal (complete s simplify loops search verdicts) := by
  unfold complete
  split
  · exact ((OnlyFatal.simplify _).map _).bind fun _ => OnlyFatal.get.bind fun _ => .pure _
  · exact (OnlyFatal.pure _).bind fun _ => OnlyFatal.get.bind fun _ => .pure _

theorem prepare_fatal (s : Settings) : OnlyFatal (prepare s) :=
  (OnlyFatal.simplify _).bind fun _ => OnlyFatal.graph.bind fun g =>
    (OnlyFatal.ofGraph g).bind fun loops => (OnlyFatal.reportLoops loops).bind fun _ =>
      (OnlyFatal.searchAndPrune _).bind fun _ => .pure _

/-- The replay of a loop comes to a mistaken test: loops are validated, the stages
before succeed, and so do the loops before this one. -/
def MeetsMistake (s : Settings) (g : FlowGraph) (m : ProgramError) : Prop :=
  s.validateTermination = true ∧ ∃ simplify loops search w,
    outcome (prepare s) { graph := g } = (.ok (simplify, loops, search), w) ∧
    ∃ k, k < loops.size ∧
      (∀ j, j < k → ∃ a, analyze w.graph loops search s.search.maxPaths j = .ok a) ∧
      LoopFault w.graph loops search s.search.maxPaths k m

/-- A verification fails with a mistake of the analysed program exactly if the
replay of a loop comes to it. -/
theorem verify_mistake_iff (s : Settings) (g : FlowGraph) (m : ProgramError) :
    (verify s g).1 = .error (.program m) ↔ MeetsMistake s g m := by
  unfold MeetsMistake
  show (outcome (verifyStages s) { graph := g }).1 = _ ↔ _
  rw [verifyStages_eq, outcome_bind]
  rcases hp : outcome (prepare s) { graph := g } with ⟨r, w⟩
  cases r with
  | error e =>
      have he : e ≠ .program m := by
        rintro rfl
        exact (prepare_fatal s).no_mistake { graph := g } m (by rw [hp])
      simp [he]
  | ok stages =>
      obtain ⟨simplify, loops, search⟩ := stages
      dsimp only
      rw [OnlyFatal.bind_mistake_iff (complete_fatal s simplify loops search)]
      cases hv : s.validateTermination with
      | false => simp
      | true =>
          simp only [if_true, true_and, validateAll_mistake_iff]
          constructor
          · intro h
            exact ⟨simplify, loops, search, w, rfl, h⟩
          · rintro ⟨_, _, _, _, heq, h⟩
            cases heq
            exact h

/-- **Mistakes stay inside** a verification exactly if no replay of a loop comes to
a mistaken test. -/
theorem verify_never_recoverable_iff (s : Settings) (g : FlowGraph) :
    (∀ e, (verify s g).1 = .error e → e.isRecoverable = false) ↔
      ∀ m, ¬ MeetsMistake s g m := by
  constructor
  · intro h m hm
    have hr := h _ ((verify_mistake_iff s g m).2 hm)
    exact absurd hr (by simp [Error.isRecoverable])
  · intro h e he
    cases e with
    | program m => exact absurd ((verify_mistake_iff s g m).1 he) (h m)
    | _ => rfl

/-! ## A mistake that escapes -/

/-- A loop at whose header an undeclared variable is tested. -/
def unboundLoop : FlowGraph where
  slots := #[
    some {
      name := "a"
      terminator := .branch ⟨.var "x", .lt, .literal (.number Double.one)⟩ 0 1
      predecessors := [0] },
    some { name := "c", predecessors := [0] }]
  first := some 0
  last := some 1

/-- The loops of it. -/
def unboundForest : LoopForest where
  loops := #[
    { header := 0
      tails := [0]
      body := (BitSet.empty 2).insert 0
      members := [⟨0, "a", 0⟩]
      condition := some ⟨0, ⟨.var "x", .lt, .literal (.number Double.one)⟩, true⟩
      function := none
      parent := none
      depth := 0 }]

theorem ofGraph_unboundLoop : LoopForest.ofGraph unboundLoop = .ok unboundForest := by cbv

/-- What a search of it finds: the header was entered, and nothing is known there. -/
def unboundSearch : SearchSummary where
  paths := 1
  results := ⟨[(0, ⟨1, {}⟩)]⟩

theorem searchFrom_unboundLoop (log : Log) :
    ∃ log', searchFrom unboundLoop Settings.analysis.search log = (.ok unboundSearch, log') := by
  -- the only path ends in the header, with the mistake in the log
  obtain ⟨b, f, hb, hv, ht, hr⟩ : ∃ b f, unboundLoop.block? 0 = some b ∧
      visit unboundLoop Settings.analysis.search b 0 .start { log } = (.ok [], f) ∧
      f.truncated = false ∧ f.results = unboundSearch.results := ⟨_, _, rfl, rfl, rfl, rfl⟩
  have hexplore : explore unboundLoop Settings.analysis.search ⟨[⟨0, .start, 10000⟩], 1⟩ { log } =
      (.ok 1, f) := by
    rw [explore_cons rfl hb rfl, hv]
    exact explore_nil rfl f
  refine ⟨f.log, ?_⟩
  have hfirst : unboundLoop.first = some 0 := rfl
  have hdepth : Settings.analysis.search.maxDepth = 10000 := rfl
  simp only [searchFrom, hfirst, hdepth, hexplore, ht, hr]
  rfl

theorem outcome_prepare_unboundLoop :
    ∃ stats w, outcome (prepare .analysis) { graph := unboundLoop } =
      (.ok (stats, unboundForest, unboundSearch), w) ∧ w.graph = unboundLoop := by
  obtain ⟨stats, w, hs, hw⟩ : ∃ stats w,
      outcome (Simplify.simplify Settings.analysis.simplify) { graph := unboundLoop } =
        (.ok stats, w) ∧ w.graph = unboundLoop := ⟨_, _, rfl, rfl⟩
  have hg : outcome Transform.graph w = (.ok unboundLoop, w) := by
    rw [← hw]
    rfl
  obtain ⟨w', hr, hw'⟩ : ∃ w', outcome (reportLoops unboundForest) w = (.ok (), w') ∧
      w'.graph = w.graph := ⟨_, rfl, rfl⟩
  obtain ⟨log, hl⟩ := searchFrom_unboundLoop w'.log
  have hsearch : outcome (searchAndPrune Settings.analysis.search) w' =
      (.ok unboundSearch, { w' with log }) := by
    rw [← hw, ← hw'] at hl
    rw [searchAndPrune, outcome_bind, outcome_search, hl]
    rfl
  refine ⟨stats, { w' with log }, ?_, hw'.trans hw⟩
  rw [prepare, outcome_bind_ok hs, outcome_bind_ok hg, ofGraph_unboundLoop,
    outcome_bind_ok (outcome_liftExcept _ _), outcome_bind_ok hr, outcome_bind_ok hsearch]
  rfl

/-- **A mistake escapes** where the header of a loop tests an undeclared variable. -/
theorem verify_unboundLoop :
    unboundLoop.validate = .ok () ∧
      (verify .analysis unboundLoop).1 = .error (.program (.undeclared "x")) ∧
      (Error.program (.undeclared "x")).isRecoverable = true := by
  obtain ⟨stats, w, h, hw⟩ := outcome_prepare_unboundLoop
  refine ⟨rfl, (verify_mistake_iff _ _ _).2 ⟨rfl, stats, _, _, w, h, 0, by decide, ?_, ?_⟩, rfl⟩
  · intro j hj
    exact absurd hj (Nat.not_lt_zero j)
  · rw [hw]
    exact ⟨_, _, _, _, rfl, rfl, rfl, rfl, .here rfl, rfl⟩

end FlowVerifier
