import FlowVerifier.Proofs.LoopTests
import FlowVerifier.Proofs.Symbolic.Branching
import FlowVerifier.Proofs.Symbolic.Lockstep
import FlowVerifier.Proofs.Termination.Iterations

/-!
# A replay follows an iteration

While a program passes the blocks of a loop, a path of the replay `Follows` it: the path
describes the state as far as the loop mentions it, and what it notes of the operands of
the exit test is right.  What the loop does not mention counts as if it were still as in
the header, since the replay skips the calls that may change it.

* `Follows.runBody` goes through the body of a block, `Follows.leaveBlock` out of it on
  one of the sides, and `Follows.skipCall` past a call.
* `Follows.enterLoop` enters the loop by an exit test in the header.
* `Follows.judgeAt` comes to the exit test and judges the way.  A good judgement means
  progress.
-/

namespace FlowVerifier

open Run Symbolic Exec

/-! ## States that are blended -/

namespace Run

variable {names : List String} {u s s' : State}

theorem State.Ordered.blend (hs : s.Ordered) (hu : u.Ordered) :
    (State.blend names u s).Ordered := by
  refine ⟨fun x l hl => ?_, hs.stack, fun x a ha => ?_⟩
  · by_cases hx : x ∈ names
    · exact hs.vars x l ((if_pos hx).symm.trans hl)
    · exact hu.vars x l ((if_neg hx).symm.trans hl)
  · by_cases hx : x ∈ names
    · exact hs.arrays x a ((if_pos hx).symm.trans ha)
    · exact hu.arrays x a ((if_neg hx).symm.trans ha)

end Run

section Instructions

variable {names : List String} {u s s' : State} {i : Instruction} {watched : String → Prop}

theorem Instruction.Steady.blend (hi : ∀ x ∈ i.names, x ∈ names) (h : i.Steady watched s s') :
    i.Steady watched (State.blend names u s) (State.blend names u s') := by
  cases i with
  | evaluate target op lhs rhs =>
      have htarget : target ∈ names := hi target (by simp [Instruction.names, definedVariable])
      intro hw o l m r ho hl hm hr
      have hoi : o ∈ (Instruction.evaluate target op lhs rhs).operands := by
        unfold stepOperand? at ho
        split at ho
        · cases ho
          simp [operands]
        · split at ho
          · cases ho
            simp [operands]
          · cases ho
      rw [State.blend_vars htarget] at hl hr
      rw [State.read_blend (State.mem_names_of_operand hi hoi)] at hm
      exact h hw o l m r ho hl hm hr
  | _ => exact h

theorem keepsType_blend (hi : ∀ x ∈ i.names, x ∈ names)
    (h : Termination.Instruction.KeepsType s i) :
    Termination.Instruction.KeepsType (State.blend names u s) i := by
  cases i with
  | pop target =>
      cases target with
      | none => trivial
      | some x =>
          have hx : x ∈ names := hi x (by simp [Instruction.names, Instruction.definedVariable])
          intro l rest old hstack hold
          rw [State.blend_vars hx] at hold
          exact h l rest old hstack hold
  | _ => trivial

end Instructions

namespace Termination

variable {env : Environment} {g : FlowGraph} {l : Loop} {c : LoopCondition} {s₀ s s' e : State}
  {p q : Path} {n k : Nat} {b : Block} {id next : BlockId} {test : Comparison}

/-! ## What a loop mentions -/

theorem mem_names_of_block {x : String} (hb : g.block? id = some b)
    (hid : l.contains id = true)
    (hx : x ∈ b.body.flatMap Instruction.names ++ b.terminator.readNames) :
    x ∈ Loop.names g l :=
  List.mem_flatMap.2 ⟨id, BitSet.mem_toList.2 hid, by rw [hb]; exact hx⟩

theorem mem_names_of_body {x : String} {i : Instruction} (hb : g.block? id = some b)
    (hid : l.contains id = true) (hi : i ∈ b.body) (hx : x ∈ i.names) : x ∈ Loop.names g l :=
  mem_names_of_block hb hid (List.mem_append_left _ (List.mem_flatMap.2 ⟨i, hi, hx⟩))

theorem mem_names_of_branch {x : String} {onTrue onFalse : BlockId} (hb : g.block? id = some b)
    (hid : l.contains id = true) (ht : b.terminator = .branch test onTrue onFalse)
    (hx : x ∈ test.readNames) : x ∈ Loop.names g l :=
  mem_names_of_block hb hid (List.mem_append_right _ (by rw [ht]; exact hx))

/-! ## Following -/

/-- The path describes the state as far as the loop mentions it, and what it notes is
right.  No variable was written more than `n` times. -/
structure Follows (g : FlowGraph) (l : Loop) (c : LoopCondition) (s₀ : State) (n : Nat)
    (p : Path) (s : State) : Prop where
  arraysBuilt : p.ArraysBuilt
  describes : p.Describes (State.blend (Loop.names g l) s₀ s)
  records : p.Records (Watched c) s₀.vars n (State.blend (Loop.names g l) s₀ s)

namespace Follows

theorem mono (h : Follows g l c s₀ n p s) (hk : n ≤ k) : Follows g l c s₀ k p s :=
  ⟨h.arraysBuilt, h.describes, h.records.mono hk⟩

theorem assume (h : Follows g l c s₀ n p s) (node : String) (test : Comparison) :
    Follows g l c s₀ n (p.assume node test) s :=
  ⟨h.arraysBuilt, ⟨h.describes.scalars, h.describes.arrays, h.describes.stack⟩,
    h.records.congr rfl rfl rfl rfl⟩

theorem fork (h : Follows g l c s₀ n p s) : Follows g l c s₀ n p.fork s := by
  refine ⟨h.arraysBuilt, h.describes.fork, ⟨fun name v k hv hk => ?_, h.records.stack⟩⟩
  refine h.records.scalars name v k ?_ hk
  rwa [Path.var?, Path.fork, Scopes.get?_fork] at hv

/-- An instruction of the loop that makes no NaN, is steady and changes no types. -/
theorem execute (henv : env.Typed) (h₀ : s₀.Ordered) {i : Instruction}
    (h : Follows g l c s₀ n p s) (hn : n + 1 < 2 ^ 64)
    (hi : ∀ x ∈ i.names, x ∈ Loop.names g l) (hs' : s.exec env g.idOf? i = .ok s')
    (ho : s'.Ordered) (hsteady : i.Steady (Watched c) s s')
    (hkeeps : Instruction.KeepsType s i) (node : String) :
    Yields (Symbolic.execute g.idOf? node i) p fun _ q => Follows g l c s₀ (n + 1) q s' := by
  have hexec : (State.blend (Loop.names g l) s₀ s).exec env g.idOf? i =
      .ok (State.blend (Loop.names g l) s₀ s') := by
    rw [State.exec_blend hi, hs']
    rfl
  have hord : (State.blend (Loop.names g l) s₀ s').Ordered := ho.blend h₀
  have hrestore : ∀ x, i = .pop (some x) → p.CanRestore (State.blend (Loop.names g l) s₀ s) x := by
    rintro x rfl m rest hstack
    exact .inr fun old hold => keepsType_blend hi hkeeps m rest old hstack hold
  have hanswers : Answers (Symbolic.execute g.idOf? node i) p
      (State.blend (Loop.names g l) s₀ s') :=
    answers_execute henv h.arraysBuilt h.describes hexec
      (fun x _ => h.records.canAdvance h.describes hn x) hrestore
  intro ws
  obtain ⟨_, q, ws', hrun, hbuilt, hdesc⟩ := hanswers ws
  refine ⟨(), q, ws', hrun, hbuilt, hdesc hord, ?_⟩
  exact execute_records henv h.describes h.records hn h₀.vars hexec hord (hsteady.blend hi) ws ()
    _ hrun

/-! ## The body of a block -/

theorem executeAll (henv : env.Typed) (h₀ : s₀.Ordered) (node : String)
    {body : List Instruction} (h : Follows g l c s₀ n p s) (hn : n + body.length < 2 ^ 64)
    (hbody : ∀ i ∈ body, ∀ x ∈ i.names, x ∈ Loop.names g l)
    (he : s.execAll env g.idOf? body = .ok e)
    (hsmooth : Smooth env g.idOf? (Watched c) body s) :
    Yields (Symbolic.executeAll g.idOf? node body) p fun _ q =>
      Follows g l c s₀ (n + body.length) q e := by
  induction body generalizing n p s with
  | nil =>
      cases he
      exact .pure h
  | cons i rest ih =>
      rw [State.execAll] at he
      split at he
      · rename_i s' hs'
        obtain ⟨ho, hsteady, hkeeps, hrest⟩ := hsmooth s' hs'
        rw [List.length_cons] at hn ⊢
        rw [executeAll_cons]
        refine (h.execute henv h₀ (by omega) (hbody i (List.mem_cons_self ..)) hs' ho hsteady
          hkeeps node).bind ?_
        rintro - q hq
        refine (ih hq (by omega) (fun j hj => hbody j (List.mem_cons_of_mem _ hj)) he hrest).imp ?_
        exact fun _ _ hlast => hlast.mono (by omega)
      · cases he

/-- **The body of a block** makes no mistake on the path, which follows to its end. -/
theorem runBody (henv : env.Typed) (h₀ : s₀.Ordered) (h : Follows g l c s₀ n p s)
    (hn : n + b.body.length < 2 ^ 64) (hb : g.block? id = some b) (hid : l.contains id = true)
    (he : s.execAll env g.idOf? b.body = .ok e)
    (hsmooth : Smooth env g.idOf? (Watched c) b.body s) :
    ∃ q, Termination.runBody g b p = .ok (some q) ∧
      Follows g l c s₀ (n + b.body.length) q e := by
  obtain ⟨_, q, ws, hrun, hq⟩ := h.executeAll henv h₀ b.name hn
    (fun i hi x hx => mem_names_of_body hb hid hi hx) he hsmooth #[]
  refine ⟨q, ?_, hq⟩
  unfold Termination.runBody
  rw [show (Symbolic.executeAll g.idOf? b.name b.body).runOn p = _ from hrun]

/-! ## Tests -/

/-- A path can be narrowed to a test that holds. -/
theorem narrow (h : Follows g l c s₀ n p s) (ht : ∀ x ∈ test.readNames, x ∈ Loop.names g l)
    (hnan : NoNaN test) (hholds : s.holds test = .ok true) :
    ∃ q, narrowedTo p test = .ok (true, q) ∧ Follows g l c s₀ n q s := by
  rw [← State.holds_blend ht (u := s₀)] at hholds
  obtain ⟨v, w, k, m, hr, hv, hw, hfold⟩ := readTest_of_holds h.describes hholds
  have hk := hv.isNaN (fun k hk => hnan k (.inl hk)) h.describes
  have hm := hw.isNaN (fun k hk => hnan k (.inr hk)) h.describes
  obtain ⟨q, hq, hdesc⟩ := narrowedTo_describes h.describes hr hv.2.1 hw.2.1
    (hv.2.2.contains hk) (hw.2.2.contains hm) hfold
  refine ⟨q, hq, ?_, hdesc, ?_⟩
  · obtain ⟨left, right, rfl⟩ := narrowedTo_eq_possible hq
    intro name a ha
    rw [arrays_narrowed] at ha
    exact h.arraysBuilt name a ha
  · obtain ⟨left, right, rfl⟩ := narrowedTo_eq_possible hq
    exact h.records.narrowedTo

/-- A test that is made in the state is decided rightly on the path. -/
theorem judged (h : Follows g l c s₀ n p s) (ht : ∀ x ∈ test.readNames, x ∈ Loop.names g l)
    (hnan : NoNaN test) {v : Bool} (hholds : s.holds test = .ok v) :
    ∃ d, Symbolic.judged p test = .ok d ∧ (d = .must → v = true) ∧ (d = .cant → v = false) := by
  rw [← State.holds_blend ht (u := s₀)] at hholds
  obtain ⟨d, hd⟩ := judged_of_holds h.describes hholds
  refine ⟨d, hd, ?_, ?_⟩
  · rintro rfl
    exact Except.ok.inj (hholds.symm.trans (holds_of_must h.describes hd))
  · rintro rfl
    exact Except.ok.inj (hholds.symm.trans (holds_of_cant h.describes (fun _ => hnan) hd))

theorem holds_negated (h : Follows g l c s₀ n p s)
    (ht : ∀ x ∈ test.readNames, x ∈ Loop.names g l) (hnan : NoNaN test) {v : Bool}
    (hholds : s.holds test = .ok v) : s.holds test.negated = .ok !v := by
  have hnegated : ∀ x ∈ test.negated.readNames, x ∈ Loop.names g l := ht
  rw [← State.holds_blend ht (u := s₀)] at hholds
  rw [← State.holds_blend hnegated (u := s₀)]
  obtain ⟨v, w, k, m, -, hv, hw, hfold⟩ := readTest_of_holds h.describes hholds
  have hk := hv.isNaN (fun k hk => hnan k (.inl hk)) h.describes
  have hm := hw.isNaN (fun k hk => hnan k (.inr hk)) h.describes
  exact State.holds_eq_ok hv.2.1 hw.2.1 (RelOp.fold_negate hk hm hfold)

/-! ## Leaving a block -/

/-- The side that is taken is among those that are looked at. -/
theorem mem_sidesOf {onTrue onFalse : BlockId} {d : Satisfiability} {v : Bool}
    (hmust : d = .must → v = true) (hcant : d = .cant → v = false) :
    (if v then test else test.negated, if v then onTrue else onFalse) ∈
      sidesOf test onTrue onFalse d := by
  cases d with
  | must =>
      obtain rfl := hmust rfl
      exact List.mem_singleton_self _
  | cant =>
      obtain rfl := hcant rfl
      exact List.mem_singleton_self _
  | may => cases v <;> simp [sidesOf]

/-- **A branch** is followed to the side that is taken. -/
theorem takeBranch (h : Follows g l c s₀ n p s)
    (ht : ∀ x ∈ test.readNames, x ∈ Loop.names g l) (hnan : NoNaN test) {v : Bool}
    (hholds : s.holds test = .ok v) (node : String) (onTrue onFalse : BlockId) :
    Yields (decideTest test >>= fun d => possibleSides node (sidesOf test onTrue onFalse d)) p
      fun sides _ => ∃ q, (if v then onTrue else onFalse, q) ∈ sides ∧
        Follows g l c s₀ n q s := by
  obtain ⟨d, hd, hmust, hcant⟩ := h.judged ht hnan hholds
  refine (yields_decideTest hd).bind ?_
  rintro d p ⟨rfl, rfl⟩
  -- the other sides may turn out impossible, but not mistaken
  have hblend := (State.holds_blend ht (u := s₀)).trans hholds
  obtain ⟨w, u, k, m, hr, hw, hu, hfold⟩ := readTest_of_holds h.describes hblend
  have htype : w.type = u.type :=
    hw.2.2.type.trans ((RelOp.type_of_fold hfold).trans hu.2.2.type.symm)
  have hall : ∀ e ∈ sidesOf test onTrue onFalse d, ∃ r, narrowedTo p.fork e.1 = .ok r := by
    intro e he
    refine narrowedTo_eq_ok (v := w) (w := u) ?_ htype
    have hread : readTest p.fork e.1 = readTest p.fork test := by
      cases d <;> simp only [sidesOf, List.mem_cons, List.not_mem_nil, or_false] at he
      case may => rcases he with rfl | rfl <;> rfl
      all_goals
        obtain rfl := he
        rfl
    rw [hread, readTest_fork, hr]
  refine (yields_possibleSides node _ hall).imp ?_
  rintro sides - ⟨hsides, -⟩
  have hside : s.holds (if v then test else test.negated) = .ok true := by
    cases v with
    | true => exact hholds
    | false => exact h.holds_negated ht hnan hholds
  have hnames : ∀ x ∈ (if v then test else test.negated).readNames, x ∈ Loop.names g l := by
    cases v <;> exact ht
  have hfree : NoNaN (if v then test else test.negated) := by cases v <;> exact hnan
  obtain ⟨q, hq, hfollows⟩ := h.fork.narrow hnames hfree hside
  exact ⟨_, hsides _ (mem_sidesOf hmust hcant) q hq, hfollows.assume _ _⟩

/-- **A block without a call** is left to where the program goes on. -/
theorem leaveBlock (h : Follows g l c s₀ n p s) (hb : g.block? id = some b)
    (hid : l.contains id = true) (hcall : g.callAt? id = none)
    (hreturn : b.terminator.isReturn = false)
    (hnan : ∀ test, b.test? = some test → NoNaN test)
    (hleave : leave s b.terminator = .at next s') :
    Yields (Termination.leaveBlock g id b) p fun sides _ =>
      ∃ q, (next, q) ∈ sides ∧ Follows g l c s₀ n q s' := by
  unfold Termination.leaveBlock
  rw [hcall]
  dsimp only
  cases ht : b.terminator with
  | finish =>
      rw [ht] at hleave
      cases hleave
  | ret value =>
      rw [ht] at hreturn
      cases hreturn
  | jump target =>
      rw [ht] at hleave
      cases hleave
      refine Yields.path.bind ?_
      rintro _ p ⟨rfl, rfl⟩
      exact .pure ⟨_, List.mem_singleton_self _, h⟩
  | branch test onTrue onFalse =>
      have hnames : ∀ x ∈ test.readNames, x ∈ Loop.names g l :=
        fun x hx => mem_names_of_branch hb hid ht hx
      have hfree := hnan test (by rw [Block.test?, ht])
      rw [ht, leave] at hleave
      split at hleave
      · cases hleave
      · rename_i hholds
        cases hleave
        exact h.takeBranch hnames hfree hholds b.name _ _
      · rename_i hholds
        cases hleave
        exact h.takeBranch hnames hfree hholds b.name _ _

/-- **An exit test in the header** is passed to the side on which the loop goes on. -/
theorem enterLoop (h : Follows g l c s₀ n p s)
    (ht : ∀ x ∈ c.continuation.readNames, x ∈ Loop.names g l) (hnan : NoNaN c.continuation)
    (hholds : s.holds c.continuation = .ok true)
    (htarget : continuingTarget? c b.terminator = some next) :
    Yields (Termination.enterLoop c b) p fun sides _ =>
      ∃ q, (next, q) ∈ sides ∧ Follows g l c s₀ n q s := by
  obtain ⟨q, hq, hfollows⟩ := h.narrow ht hnan hholds
  have hconstrain : Yields (constrain c.continuation) p fun possible q' =>
      possible = true ∧ q' = q := by
    intro ws
    obtain ⟨ws', hrun⟩ := outcome_constrain c.continuation ⟨p, ws⟩
    dsimp only at hrun
    rw [hq] at hrun
    exact ⟨true, q, ws', hrun, rfl, rfl⟩
  unfold Termination.enterLoop
  rw [htarget]
  refine hconstrain.bind ?_
  rintro _ _ ⟨rfl, rfl⟩
  rw [if_pos rfl]
  refine (Yields.modifyPath _).bind ?_
  rintro - _ rfl
  refine Yields.path.bind ?_
  rintro _ _ ⟨rfl, rfl⟩
  exact .pure ⟨_, List.mem_singleton_self _, hfollows.assume _ _⟩

/-! ## Calls -/

/-- The path follows where another stack is left, and what the loop mentions is as it was. -/
theorem withStack (h : Follows g l c s₀ n p s)
    (hsame : ∀ x ∈ Loop.names g l, s'.vars x = s.vars x ∧ s'.arrays x = s.arrays x)
    {entries : List StackEntry}
    (hd : List.Forall₂ (StackEntry.Describes p.vars (State.blend (Loop.names g l) s₀ s).vars)
      entries s'.stack)
    (hr : List.Forall₂ (StackEntry.Records (Watched c) s₀.vars n) entries s'.stack) :
    Follows g l c s₀ n { p with stack := ⟨entries⟩ } s' := by
  have hvars := State.blend_vars_congr (u := s₀) (s := s) fun x hx => (hsame x hx).1
  have harrays := State.blend_arrays_congr (u := s₀) (s := s) fun x hx => (hsame x hx).2
  exact ⟨h.arraysBuilt, ⟨hvars ▸ h.describes.scalars, harrays ▸ h.describes.arrays, hvars ▸ hd⟩,
    ⟨hvars ▸ h.records.scalars, hr⟩⟩

/-- **A return that is taken for granted**: the frame is dropped, and any result of the type
is left in its place. -/
theorem returnToCaller (h : Follows g l c s₀ n p s) {site : BlockId} {rest : List Entry}
    {result : Option Literal} (hu : State.unwind? s.stack = some (site, rest))
    (hstack : s'.stack = (result.map (Entry.value none)).toList ++ rest)
    (hnan : ∀ r, result = some r → r.isNaN = false)
    (hsame : ∀ x ∈ Loop.names g l, s'.vars x = s.vars x ∧ s'.arrays x = s.arrays x)
    (unmarked : Defect) :
    Yields (Symbolic.returnToCaller ((result.map Literal.type).map Value.full) unmarked) p
      fun _ q => Follows g l c s₀ n q s' := by
  obtain ⟨below, hunwind, hdesc, hrec⟩ :=
    unwind?_of_forall₂ hu h.describes.stack h.records.stack
  refine Yields.path.bind ?_
  rintro _ p ⟨rfl, rfl⟩
  rw [show p.stack.unwind? = _ from hunwind]
  refine (Yields.modifyPath _).bind ?_
  rintro - _ rfl
  refine .pure ?_
  cases result with
  | none =>
      obtain rfl : s'.stack = rest := hstack
      exact h.withStack hsame hdesc hrec
  | some r =>
      have hpushed : s'.stack = .value none r :: rest := hstack
      refine h.withStack hsame
        (?_ : List.Forall₂ _ (.value none (.ofValue (.full r.type)) :: below) _) ?_
      · rw [hpushed]
        exact .cons ⟨Value.type_full _, Value.contains_full (hnan r rfl),
          by simp [Variable.ofValue]⟩ hdesc
      · rw [hpushed]
        exact .cons trivial hrec

/-- **A call that is skipped**: the path goes on where the call returns, with any result of
its type. -/
theorem skipCall (h : Follows g l c s₀ n p s) {function : FunctionId} {made : Call}
    {rest : List Entry} {result : Option Literal}
    (hcall : g.callAt? id = some (function, made))
    (hu : State.unwind? s.stack = some (made.returnTo, rest))
    (hstack : s'.stack = (result.map (Entry.value none)).toList ++ rest)
    (htype : result.map Literal.type = g.returnType? function)
    (hnan : ∀ r, result = some r → r.isNaN = false)
    (hsame : ∀ x ∈ Loop.names g l, s'.vars x = s.vars x ∧ s'.arrays x = s.arrays x) :
    Yields (Termination.leaveBlock g id b) p fun sides _ =>
      ∃ q, (made.returnTo, q) ∈ sides ∧ Follows g l c s₀ n q s' := by
  unfold Termination.leaveBlock
  rw [hcall]
  dsimp only
  rw [← htype]
  refine (h.returnToCaller hu hstack hnan hsame _).bind ?_
  rintro _ q hq
  refine Yields.path.bind ?_
  rintro _ q ⟨rfl, rfl⟩
  exact .pure ⟨_, List.mem_singleton_self _, hq⟩

/-! ## The exit test -/

/-- The exit test is judged by how its operands moved, where the loop may go on. -/
theorem judgePath (h : Follows g l c s₀ n p e)
    (ht : ∀ x ∈ c.continuation.readNames, x ∈ Loop.names g l) (hnan : NoNaN c.continuation)
    (hholds : e.holds c.continuation = .ok true) :
    ((Termination.judgePath c.continuation).runOn p).1 =
      .ok (judgeProgress c.continuation.op (operandTrend p c.continuation.lhs)
        (operandTrend p c.continuation.rhs)) := by
  obtain ⟨d, hd, -, hcant⟩ := h.judged ht hnan hholds
  have hyields : Yields (Termination.judgePath c.continuation) p fun verdict _ =>
      verdict = judgeProgress c.continuation.op (operandTrend p c.continuation.lhs)
        (operandTrend p c.continuation.rhs) := by
    refine (yields_decideTest hd).bind ?_
    rintro d p ⟨rfl, rfl⟩
    have hread : Yields (do
        let p ← path
        return judgeProgress c.continuation.op (operandTrend p c.continuation.lhs)
          (operandTrend p c.continuation.rhs)) p fun verdict _ =>
        verdict = judgeProgress c.continuation.op (operandTrend p c.continuation.lhs)
          (operandTrend p c.continuation.rhs) := by
      refine Yields.path.bind ?_
      rintro _ _ ⟨rfl, rfl⟩
      exact .pure rfl
    cases d with
    | cant => exact absurd (hcant rfl) (by decide)
    | may => exact hread
    | must => exact hread
  obtain ⟨_, q, ws, hrun, rfl⟩ := hyields #[]
  rw [show (Termination.judgePath c.continuation).runOn p = _ from hrun]

/-- **An operand of the exit test** has moved as the path says. -/
theorem moved (h : Follows g l c s₀ n p e) (h₀ : s₀.Ordered) {o : Operand} {m : Literal}
    (ho : ∀ x, o.var? = some x → Watched c x ∧ x ∈ Loop.names g l)
    (hfree : ∀ k, o = .literal k → k.isNaN = false) (hm : e.read o = .ok m)
    (ht : operandTrend p o ≠ .unpredictable) :
    ∃ k, s₀.read o = .ok k ∧ (operandTrend p o).Right (some k) m ∧ k.isNaN = false ∧
      m.isNaN = false := by
  cases o with
  | literal k =>
      cases hm
      exact ⟨m, rfl, Trend.right_of_eq rfl (RelOp.fold_eq_self (hfree m rfl)), hfree m rfl,
        hfree m rfl⟩
  | var x =>
      obtain ⟨hw, hx⟩ := ho x rfl
      simp only [State.read] at hm
      split at hm
      · rename_i m' he
        cases hm
        have hheld : (State.blend (Loop.names g l) s₀ e).vars x = some m := by
          rw [State.blend_vars hx, he]
        obtain ⟨v, hv, hd⟩ := h.describes.of_held hheld
        have htrend : operandTrend p (.var x) = v.trend := by
          simp [operandTrend, Operand.var?, Example.trendOf, hv]
        have hright := (h.records.scalars x v m hv hheld).trend hw
        rw [htrend] at ht ⊢
        cases hop : v.trend.relation? with
        | none =>
            cases hv' : v.trend <;> rw [hv'] at hop ht <;> cases hop
            exact absurd rfl ht
        | some op =>
            obtain ⟨k, hk, -⟩ := hright op hop
            refine ⟨k, by simp only [State.read, hk], hk ▸ hright, h₀.vars x k hk, ?_⟩
            exact Value.isNaN_of_contains hd.value
      · cases hm

/-- **A good judgement means progress.** -/
theorem progress (h : Follows g l c s₀ n p e) (h₀ : s₀.Ordered)
    (ht : ∀ x ∈ c.continuation.readNames, x ∈ Loop.names g l) (hnan : NoNaN c.continuation)
    (hholds : e.holds c.continuation = .ok true)
    (hgood : judgeProgress c.continuation.op (operandTrend p c.continuation.lhs)
      (operandTrend p c.continuation.rhs) = .good) :
    Closer c s₀ e := by
  obtain ⟨k', hk', hrest⟩ := bind_eq_ok_iff.1 hholds
  obtain ⟨m', hm', -⟩ := bind_eq_ok_iff.1 hrest
  have hsaid : operandTrend p c.continuation.lhs ≠ .unpredictable ∧
      operandTrend p c.continuation.rhs ≠ .unpredictable := by
    constructor <;> intro hunsaid <;> simp [judgeProgress, hunsaid] at hgood
  have hleft : ∀ x, c.continuation.lhs.var? = some x → x ∈ c.continuation.readNames :=
    fun x hx => List.mem_append_left _ (Option.mem_toList.2 hx)
  have hright : ∀ x, c.continuation.rhs.var? = some x → x ∈ c.continuation.readNames :=
    fun x hx => List.mem_append_right _ (Option.mem_toList.2 hx)
  obtain ⟨k, hk, hkright, hkfree, hkfree'⟩ := h.moved h₀
    (fun x hx => ⟨hleft x hx, ht x (hleft x hx)⟩) (fun a ha => hnan a (.inl ha)) hk' hsaid.1
  obtain ⟨m, hm, hmright, hmfree, hmfree'⟩ := h.moved h₀
    (fun x hx => ⟨hright x hx, ht x (hright x hx)⟩) (fun a ha => hnan a (.inr ha)) hm' hsaid.2
  exact ⟨k, m, k', m', hk, hm, hk', hm',
    progress_of_good hgood hkright hmright hkfree hkfree' hmfree hmfree'⟩

end Follows
end Termination
end FlowVerifier
