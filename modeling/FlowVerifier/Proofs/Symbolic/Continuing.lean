import FlowVerifier.Proofs.Symbolic.Branching
import FlowVerifier.Proofs.Symbolic.Movement

/-!
# What a path keeps inside a block

While a path goes through a block, it enters no other block, and so the records of its entries
stay as they are.  It also forgets no name.  This file says so of all that a path does on its
way through a block, whether it describes any state or not.

* `Path.Continues` is what every way through a block keeps, `Path.Stays` what everything keeps
  that leaves the stack alone, and `Path.Narrows` what a test keeps.
* `ensures_execute`: an instruction goes on from the path, and changes the stack as its kind
  says.
* `ensures_takeBranch` and `ensures_runBlock`: so do the sides of a branch and the ways out of a
  block, and they lead where the terminator says.
-/

namespace FlowVerifier

/-- What an instruction makes of the variables that the slots of the stack were pushed from. -/
def Instruction.sources (slots : List (Option String)) : Instruction → List (Option String)
  | push o => o.var? :: slots
  | pushState _ => none :: slots
  | pop _ => slots.tail
  | _ => slots

/-- What an instruction makes of the blocks that the routines return to, innermost first. -/
def Instruction.sites (resolve : String → Option BlockId) (sites : List BlockId) :
    Instruction → List BlockId
  | pushState block => (resolve block).toList ++ sites
  | _ => sites

/-- What the body of a block makes of them. -/
def Block.sites (resolve : String → Option BlockId) (b : Block) (sites : List BlockId) :
    List BlockId :=
  b.body.foldl (Instruction.sites resolve) sites

/-- Where a terminator leads from a place with these return sites: to its targets, and by a return
to the innermost site. -/
def Terminator.LeadsTo (t : Terminator) (sites : List BlockId) (target : BlockId)
    (sites' : List BlockId) : Prop :=
  target ∈ t.targets ∧ sites' = sites ∨ t.isReturn = true ∧ sites = target :: sites'

namespace Symbolic

open Exec

/-! ## Paths that go on -/

/-- The variable that a slot was pushed from. -/
def StackEntry.source? : StackEntry → Option String
  | .value source _ => source
  | .marker _ => none

/-- The variables that the slots were pushed from, topmost first. -/
def Stack.sources (s : Stack) : List (Option String) := s.entries.map StackEntry.source?

/-- The blocks that the routines return to, innermost first. -/
def Stack.sites (s : Stack) : List BlockId := s.entries.filterMap StackEntry.marker?

theorem Stack.topMarker?_eq (s : Stack) : s.topMarker? = s.sites.head? :=
  (List.head?_filterMap ..).symm

/-- A return goes to the innermost site. -/
theorem Stack.sites_of_unwind? {s below : Stack} {site : BlockId}
    (h : s.unwind? = some (site, below)) : s.sites = site :: below.sites := by
  obtain ⟨entries⟩ := s
  induction entries with
  | nil => cases h
  | cons slot rest ih =>
      cases slot with
      | value source v => exact ih h
      | marker block =>
          cases h
          rfl

/-- Every name of the first path is one of the second. -/
structure Path.NamedIn (p q : Path) : Prop where
  vars : ∀ name, (p.var? name).isSome → (q.var? name).isSome
  arrays : ∀ name, (p.arrays.get? name).isSome → (q.arrays.get? name).isSome

/-- The second path goes on from the first inside a block: it has entered no block since, has
the same records and lacks no name. -/
structure Path.Continues (p q : Path) : Prop extends p.NamedIn q where
  depth : q.depth = p.depth
  visits : q.visits = p.visits

/-- Neither has the stack changed. -/
structure Path.Stays (p q : Path) : Prop extends p.Continues q where
  stack : q.stack = p.stack

/-- The second path is the first after a test: the variables have the same versions, and nothing
else has changed that matters. -/
structure Path.Narrows (p q : Path) : Prop where
  versions : ∀ name, (q.var? name).map Variable.version = (p.var? name).map Variable.version
  arrays : q.arrays = p.arrays
  depth : q.depth = p.depth
  visits : q.visits = p.visits
  stack : q.stack = p.stack

namespace Path

variable {p q r : Path} {name : String}

theorem NamedIn.trans (h : p.NamedIn q) (h' : q.NamedIn r) : p.NamedIn r :=
  ⟨fun x hx => h'.vars x (h.vars x hx), fun x hx => h'.arrays x (h.arrays x hx)⟩

theorem Continues.refl (p : Path) : p.Continues p :=
  ⟨⟨fun _ hx => hx, fun _ hx => hx⟩, rfl, rfl⟩

theorem Continues.trans (h : p.Continues q) (h' : q.Continues r) : p.Continues r :=
  ⟨h.toNamedIn.trans h'.toNamedIn, h'.depth.trans h.depth, h'.visits.trans h.visits⟩

/-- The stack makes no difference. -/
theorem Continues.withStack (p : Path) (stack : Stack) : p.Continues { p with stack } :=
  ⟨⟨fun _ hx => hx, fun _ hx => hx⟩, rfl, rfl⟩

theorem Stays.refl (p : Path) : p.Stays p := ⟨.refl p, rfl⟩

theorem Stays.trans (h : p.Stays q) (h' : q.Stays r) : p.Stays r :=
  ⟨h.toContinues.trans h'.toContinues, h'.stack.trans h.stack⟩

theorem Stays.modifyVar (p : Path) (name : String) (f : Variable → Variable) :
    p.Stays (p.modifyVar name f) := by
  refine ⟨⟨⟨fun x hx => ?_, fun _ hx => hx⟩, rfl, rfl⟩, rfl⟩
  rw [var?, Path.modifyVar, Scopes.get?_modify]
  split
  · rw [Option.isSome_map]
    exact hx
  · exact hx

theorem Stays.insertVar (p : Path) (name : String) (v : Variable) :
    p.Stays (p.insertVar name v) := by
  refine ⟨⟨⟨fun x hx => ?_, fun _ hx => hx⟩, rfl, rfl⟩, rfl⟩
  rw [var?, Path.insertVar, Scopes.get?_insert]
  split
  · rfl
  · exact hx

theorem Stays.insertArray (p : Path) (name : String) (a : ArrayValue) :
    p.Stays { p with arrays := p.arrays.insert name a } := by
  refine ⟨⟨⟨fun _ hx => hx, fun x hx => ?_⟩, rfl, rfl⟩, rfl⟩
  rw [Table.get?_insert]
  split
  · rfl
  · exact hx

theorem Narrows.stays (h : p.Narrows q) : p.Stays q := by
  refine ⟨⟨⟨fun x hx => ?_, fun x hx => h.arrays ▸ hx⟩, h.depth, h.visits⟩, h.stack⟩
  rw [← Option.isSome_map (f := Variable.version), h.versions, Option.isSome_map]
  exact hx

theorem Narrows.refl (p : Path) : p.Narrows p := ⟨fun _ => rfl, rfl, rfl, rfl, rfl⟩

theorem Narrows.trans (h : p.Narrows q) (h' : q.Narrows r) : p.Narrows r :=
  ⟨fun x => (h'.versions x).trans (h.versions x), h'.arrays.trans h.arrays,
    h'.depth.trans h.depth, h'.visits.trans h.visits, h'.stack.trans h.stack⟩

theorem Narrows.fork (p : Path) : p.Narrows p.fork :=
  ⟨fun x => congrArg (Option.map _) (Scopes.get?_fork p.vars x), rfl, rfl, rfl, rfl⟩

theorem Narrows.assume (p : Path) (node : String) (test : Comparison) :
    p.Narrows (p.assume node test) := ⟨fun _ => rfl, rfl, rfl, rfl, rfl⟩

/-- Knowing a variable better leaves its version. -/
theorem Narrows.modifyVar (p : Path) (name : String) {f : Variable → Variable}
    (hf : ∀ v, (f v).version = v.version) : p.Narrows (p.modifyVar name f) := by
  refine ⟨fun x => ?_, rfl, rfl, rfl, rfl⟩
  rw [var?, Path.modifyVar, Scopes.get?_modify]
  split
  · rw [Option.map_map]
    exact Option.map_congr fun v _ => hf v
  · rfl

theorem Narrows.relate (p : Path) (a b : String) (op : RelOp) :
    p.Narrows { p with vars := p.vars.relate a op b } := by
  unfold Scopes.relate
  split
  · exact .refl p
  · split
    · rename_i v w _ _
      have hleft : p.Narrows (p.modifyVar a (·.relate op b w.version)) :=
        .modifyVar p a fun _ => rfl
      exact hleft.trans (.modifyVar _ b fun _ => rfl)
    · exact .refl p

theorem narrows_narrowedTo {test : Comparison} (h : narrowedTo p test = .ok (true, q)) :
    p.Narrows q := by
  have hnarrow : ∀ (p : Path) (o : Operand) (value : Value),
      p.Narrows (narrowOperand p o value) := by
    intro p o value
    cases o with
    | literal l => exact .refl p
    | var name => exact .modifyVar p name fun _ => rfl
  obtain ⟨left, right, rfl⟩ := narrowedTo_eq_possible h
  unfold relateOperands
  split
  · exact ((hnarrow _ _ _).trans (hnarrow _ _ _)).trans (.relate _ _ _ _)
  · exact (hnarrow _ _ _).trans (hnarrow _ _ _)

end Path

/-! ## Executions -/

/-- Where the execution succeeds, the path stays in its block and keeps its stack. -/
def Keeps {α : Type} (x : Exec α) : Prop := ∀ p, Ensures x p fun _ q => p.Stays q

namespace Keeps

variable {α β : Type} {x : Exec α}

theorem pure (a : α) : Keeps (pure a) := fun p => .pure (.refl p)

theorem bind {f : α → Exec β} (hx : Keeps x) (hf : ∀ a, Keeps (f a)) : Keeps (x >>= f) :=
  fun p => (hx p).bind fun a q hq => (hf a q).imp fun _ _ h => hq.trans h

theorem path : Keeps Exec.path := fun p => Ensures.path.imp fun _ _ h => h.2 ▸ .refl p

theorem modifyPath {f : Path → Path} (hf : ∀ p : Path, p.Stays (f p)) : Keeps (Exec.modifyPath f) :=
  fun p => (Ensures.modifyPath f).imp fun _ _ h => h ▸ hf p

theorem warn (message : String) : Keeps (Exec.warn message) :=
  fun p => (Ensures.warn message).imp fun _ _ h => h ▸ .refl p

theorem throw (e : Error) : Keeps (throw e : Exec α) := fun _ => .throw e

theorem mistake (e : ProgramError) : Keeps (Exec.mistake e : Exec α) := throw _

theorem lift (r : Except ProgramError α) : Keeps (Exec.lift r) :=
  fun p => (Ensures.lift r).imp fun _ _ h => h.2 ▸ .refl p

theorem operand (o : Operand) : Keeps (operand o) :=
  fun p => (ensures_operand o).imp fun _ _ h => h.2 ▸ .refl p

theorem assign (target : String) (value : Value) (change : Trend) :
    Keeps (assign target value change) := by
  refine .bind .path fun p => ?_
  split
  · split
    · exact .modifyPath fun p => .modifyVar p _ _
    · exact .mistake _
  · exact .modifyPath fun p => .insertVar p _ _

theorem executeAssign (target : String) (o : Operand) : Keeps (executeAssign target o) := by
  unfold Symbolic.executeAssign
  split
  · exact .bind (.warn _) fun _ => .bind (.operand o) fun v => .assign _ _ _
  · refine .bind (.operand o) fun v => .bind .path fun p => .bind (.assign _ _ _) fun _ => ?_
    split
    · exact .modifyPath fun p => (Path.Narrows.relate p _ _ _).stays
    · exact .pure _

theorem warn_if {c : Prop} [Decidable c] {message : String} (hx : Keeps x) :
    Keeps (if c then Exec.warn message >>= fun _ => x else x) :=
  fun p => .warn_if (hx p)

theorem executeEvaluate (target : String) (op : ArithOp) (lhs rhs : Operand) :
    Keeps (executeEvaluate target op lhs rhs) := by
  refine .bind (.operand lhs) fun a => .bind (.operand rhs) fun b => .warn_if ?_
  exact .warn_if (.bind (.lift _) fun r => .assign _ _ _)

theorem numericOperand (o : Operand) : Keeps (numericOperand o) :=
  fun p => (ensures_numericOperand o).imp fun _ _ h => h ▸ .refl p

theorem arrayNamed (array : String) : Keeps (arrayNamed array) :=
  fun p => (ensures_arrayNamed array).imp fun _ _ h => h ▸ .refl p

theorem warnOverflow (array : String) (index : Interval Double) (range : IndexRange) :
    Keeps (warnOverflow array index range) :=
  fun p => (ensures_warnOverflow array index range).imp fun _ _ h => h ▸ .refl p

theorem executeDeclareArray (name : String) (type : ValueType) (o : Operand) :
    Keeps (executeDeclareArray name type o) :=
  .bind (.numericOperand o) fun _ => .bind (.lift _) fun _ =>
    .warn_if (.modifyPath fun p => .insertArray p _ _)

theorem executeReadArray (target array : String) (index : Operand) :
    Keeps (executeReadArray target array index) := by
  refine .bind (.numericOperand index) fun place => .bind (.arrayNamed array) fun a =>
    .bind (.lift _) fun range => .bind (.warnOverflow _ _ _) fun _ => ?_
  dsimp only
  split
  · exact .assign _ _ _
  · exact .bind (.warn _) fun _ => .assign _ _ _

theorem executeWriteArray (array : String) (index value : Operand) :
    Keeps (executeWriteArray array index value) := by
  refine .bind (.numericOperand index) fun place => .bind (.operand value) fun v =>
    .bind (.arrayNamed array) fun a => ?_
  have hrest : Keeps (do
      let range ← Exec.lift (a.checkIndex place)
      Exec.modifyPath fun p => { p with arrays := p.arrays.insert array (a.write range v) }
      Symbolic.warnOverflow array place range) :=
    .bind (.lift _) fun range => .bind (.modifyPath fun p => .insertArray p _ _) fun _ =>
      .warnOverflow _ _ _
  split
  · exact .bind (.mistake _) fun _ => hrest
  · exact hrest

end Keeps

/-! ## Instructions -/

theorem ensures_executePush (o : Operand) (p : Path) :
    Ensures (executePush o) p fun _ q => p.Continues q ∧
      q.stack.sources = o.var? :: p.stack.sources ∧ q.stack.sites = p.stack.sites := by
  cases o with
  | literal l =>
      rw [executePush]
      refine (Ensures.modifyPath _).imp ?_
      rintro - _ rfl
      exact ⟨.withStack p _, rfl, rfl⟩
  | var name =>
      refine Ensures.path.bind ?_
      rintro _ p ⟨rfl, rfl⟩
      split
      · exact .mistake _
      · refine (Ensures.modifyPath _).imp ?_
        rintro - _ rfl
        exact ⟨.withStack p _, rfl, rfl⟩

/-- After the topmost slot is taken off, the stack is left alone. -/
theorem ensures_executePop (node : String) (target : Option String) (p : Path) :
    Ensures (executePop node target) p fun _ q => p.Continues q ∧
      q.stack.sources = p.stack.sources.tail ∧ q.stack.sites = p.stack.sites := by
  have hrest : ∀ {source v}, p.stack.top? = some (.value source v) →
      ∀ q, ({ p with stack := p.stack.pop } : Path).Stays q → p.Continues q ∧
        q.stack.sources = p.stack.sources.tail ∧ q.stack.sites = p.stack.sites := by
    intro source v htop q hq
    obtain ⟨below, hbelow⟩ := List.head?_eq_some_iff.1 htop
    refine ⟨(Path.Continues.withStack p _).trans hq.toContinues, ?_, ?_⟩ <;> rw [hq.stack]
    · exact List.map_tail
    · rw [Stack.sites, Stack.sites, Stack.pop, hbelow]
      rfl
  refine Ensures.path.bind ?_
  rintro _ p ⟨rfl, rfl⟩
  refine (Ensures.modifyPath _).bind ?_
  rintro - _ rfl
  split
  · exact .throw _
  · exact .throw _
  · rename_i htop
    split
    · exact .pure (hrest htop _ (.refl _))
    · split
      · exact (Keeps.modifyPath (fun p => .insertVar p _ _) _).imp fun _ q hq => hrest htop q hq
      · have hkeeps : ∀ (name : String) (value : Value) (defined : Bool), Keeps (do
            assign name value .unpredictable
            modifyPath (·.modifyVar name fun w => { w with defined })) := fun name value defined =>
          .bind (.assign _ _ _) fun _ => .modifyPath fun p => .modifyVar p _ _
        exact (hkeeps _ _ _ _).imp fun _ q hq => hrest htop q hq

/-- **One instruction.** -/
theorem ensures_execute (resolve : String → Option BlockId) (node : String) (i : Instruction)
    (p : Path) :
    Ensures (execute resolve node i) p fun _ q => p.Continues q ∧
      q.stack.sources = i.sources p.stack.sources ∧
      q.stack.sites = i.sites resolve p.stack.sites := by
  have hkeeps : ∀ {x : Exec Unit}, Keeps x → Ensures x p fun _ q => p.Continues q ∧
      q.stack.sources = p.stack.sources ∧ q.stack.sites = p.stack.sites := fun hx =>
    (hx p).imp fun _ q hq => ⟨hq.toContinues, by rw [hq.stack], by rw [hq.stack]⟩
  cases i with
  | declare name type =>
      rw [execute]
      exact hkeeps (.modifyPath fun p => .insertVar p _ _)
  | assign target value => exact hkeeps (.executeAssign _ _)
  | evaluate target op lhs rhs => exact hkeeps (.executeEvaluate _ _ _ _)
  | print value => exact hkeeps (.bind (.operand value) fun _ => .pure _)
  | input target => exact hkeeps (.bind .path fun p => .assign _ _ _)
  | push value => exact ensures_executePush value p
  | pushState block =>
      simp only [execute]
      split
      · rename_i site hsite
        refine (Ensures.modifyPath _).imp ?_
        rintro - _ rfl
        exact ⟨.withStack p _, rfl, by rw [Instruction.sites, hsite]; rfl⟩
      · exact .mistake _
  | pop target => exact ensures_executePop node target p
  | declareArray name type size => exact hkeeps (.executeDeclareArray _ _ _)
  | readArray target array index => exact hkeeps (.executeReadArray _ _ _)
  | writeArray array index value => exact hkeeps (.executeWriteArray _ _ _)
  | jumpIf test block => exact .throw _
  | jump block => exact .throw _
  | ret value => exact .throw _

theorem ensures_executeAll (resolve : String → Option BlockId) (node : String)
    (instructions : List Instruction) (p : Path) :
    Ensures (executeAll resolve node instructions) p fun _ q => p.Continues q ∧
      q.stack.sites = instructions.foldl (Instruction.sites resolve) p.stack.sites := by
  induction instructions generalizing p with
  | nil => exact .pure ⟨.refl p, rfl⟩
  | cons i rest ih =>
      rw [executeAll_cons]
      refine (ensures_execute resolve node i p).bind fun _ q hq => (ih q).imp fun _ r hr => ?_
      rw [List.foldl_cons, ← hq.2.2]
      exact ⟨hq.1.trans hr.1, hr.2⟩

/-! ## Ways out of a block -/

theorem ensures_goTo (target : BlockId) (p : Path) :
    Ensures (goTo target) p fun sides _ => ∀ side ∈ sides, side = (target, p) := by
  refine Ensures.path.bind ?_
  rintro _ p ⟨rfl, rfl⟩
  exact .pure fun side hside => List.mem_singleton.1 hside

theorem ensures_possibleSides (node : String) (tests : List (Comparison × BlockId)) (p : Path) :
    Ensures (possibleSides node tests) p fun sides _ => ∀ side ∈ sides,
      side.1 ∈ tests.map Prod.snd ∧ p.Narrows side.2 := by
  unfold possibleSides
  induction tests with
  | nil => exact .pure (by simp)
  | cons e rest ih =>
      have hside : Ensures (sideOf node e.1 e.2) p fun side q =>
          q = p ∧ ∀ s, side = some s → s.1 = e.2 ∧ p.Narrows s.2 := by
        intro ws a t hrun
        obtain ⟨ws', h⟩ := outcome_sideOf node e.1 e.2 ⟨p, ws⟩
        rw [hrun] at h
        cases hn : narrowedTo p.fork e.1 with
        | error m => simp [hn] at h
        | ok result =>
            obtain ⟨possible, q⟩ := result
            simp only [hn, Prod.mk.injEq, Except.ok.injEq] at h
            obtain ⟨rfl, rfl⟩ := h
            refine ⟨rfl, fun s hs => ?_⟩
            cases possible with
            | false => cases hs
            | true =>
                cases hs
                exact ⟨rfl, ((Path.Narrows.fork p).trans (Path.narrows_narrowedTo hn)).trans
                  (.assume q _ _)⟩
      rw [List.filterMapM_cons]
      refine hside.bind ?_
      rintro side q ⟨rfl, hnarrows⟩
      have hrest : ∀ {sides : List Side},
          (∀ side ∈ sides, side.1 ∈ rest.map Prod.snd ∧ q.Narrows side.2) →
          ∀ side ∈ sides, side.1 ∈ (e :: rest).map Prod.snd ∧ q.Narrows side.2 :=
        fun h side hside => ⟨List.mem_cons_of_mem _ (h side hside).1, (h side hside).2⟩
      cases side with
      | none => exact ih.imp fun _ _ h => hrest h
      | some s =>
          refine ih.bind fun sides _ hsides => .pure fun side hmem => ?_
          rcases List.mem_cons.1 hmem with rfl | hmem
          · obtain ⟨htarget, hnarrow⟩ := hnarrows _ rfl
            exact ⟨htarget ▸ List.mem_cons_self, hnarrow⟩
          · exact hrest hsides side hmem

theorem ensures_decideTest (test : Comparison) (p : Path) :
    Ensures (decideTest test) p fun _ q => q = p := by
  intro ws d t hrun
  obtain ⟨ws', h⟩ := outcome_decideTest test ⟨p, ws⟩
  rw [hrun] at h
  cases hj : judged p test with
  | error e =>
      rw [hj] at h
      cases h
  | ok d' =>
      rw [hj] at h
      cases h
      rfl

/-- The sides of a split are sides of the branch. -/
theorem target_of_mem_splitOf {test : Comparison} {onTrue onFalse target : BlockId}
    (h : target ∈ (splitOf test onTrue onFalse).map Prod.snd) : target ∈ [onTrue, onFalse] := by
  unfold splitOf at h
  split at h <;> simp only [List.map_cons, List.map_nil, List.mem_cons] at h ⊢ <;> tauto

/-- **The sides of a branch** narrow the path. -/
theorem ensures_takeBranch (node : String) (test : Comparison) (onTrue onFalse : BlockId)
    (p : Path) :
    Ensures (takeBranch node test onTrue onFalse) p fun sides _ =>
      ∀ side ∈ sides, side.1 ∈ [onTrue, onFalse] ∧ p.Narrows side.2 := by
  have hgo : ∀ (test : Comparison) {target : BlockId}, target ∈ [onTrue, onFalse] →
      Ensures (goTo target) (p.assume node test) fun sides _ =>
        ∀ side ∈ sides, side.1 ∈ [onTrue, onFalse] ∧ p.Narrows side.2 := fun test target hmem =>
    (ensures_goTo target _).imp fun _ _ h side hside => by
      rw [h side hside]
      exact ⟨hmem, .assume p node test⟩
  refine (ensures_decideTest test p).bind ?_
  rintro d _ rfl
  cases d with
  | must => exact (Ensures.modifyPath _).bind fun _ _ h => h ▸ hgo _ (by simp)
  | cant => exact (Ensures.modifyPath _).bind fun _ _ h => h ▸ hgo _ (by simp)
  | may => exact (ensures_possibleSides _ _ _).imp fun _ _ h side hside =>
      ⟨target_of_mem_splitOf (h side hside).1, (h side hside).2⟩

theorem ensures_returnToCaller (result : Option Value) (unmarked : Defect) (p : Path) :
    Ensures (returnToCaller result unmarked) p fun site q =>
      p.Continues q ∧ p.stack.sites = site :: q.stack.sites := by
  refine Ensures.path.bind ?_
  rintro _ p ⟨rfl, rfl⟩
  split
  · exact .throw _
  · rename_i site stack hunwind
    refine (Ensures.modifyPath _).bind ?_
    rintro - _ rfl
    refine .pure ⟨.withStack p _, (Stack.sites_of_unwind? hunwind).trans ?_⟩
    cases result <;> rfl

/-- **A return** leads to the innermost site. -/
theorem ensures_takeReturn (node : String) (value : Option Operand) (p : Path) :
    Ensures (takeReturn node value) p fun sides _ =>
      ∀ side ∈ sides, p.Continues side.2 ∧ p.stack.sites = side.1 :: side.2.stack.sites := by
  have hresult : Ensures (value.mapM operand) p fun _ q => p.Stays q := by
    cases value with
    | none => exact .pure (.refl p)
    | some o =>
        have hkeeps : Keeps (some <$> operand o) := .bind (.operand o) fun _ => .pure _
        exact hkeeps p
  refine hresult.bind fun r q₁ h₁ => (ensures_returnToCaller _ _ q₁).bind fun site q₂ h₂ => ?_
  refine (ensures_goTo site q₂).imp fun _ _ h side hside => ?_
  rw [h side hside, ← h₁.stack]
  exact ⟨h₁.toContinues.trans h₂.1, h₂.2⟩

/-- **The ways out of a block** go on from the path that has entered it, and lead where the
terminator says. -/
theorem ensures_runBlock (g : FlowGraph) (b : Block) (p : Path) :
    Ensures (runBlock g b) p fun sides _ => ∀ side ∈ sides, p.Continues side.2 ∧
      b.terminator.LeadsTo (b.sites g.idOf? p.stack.sites) side.1 side.2.stack.sites := by
  refine (ensures_executeAll _ _ _ p).bind fun _ q hq => ?_
  rw [Block.sites, ← hq.2]
  split
  · exact .pure (by simp)
  · rename_i target hterm
    refine (ensures_goTo target q).imp fun _ _ h side hside => ?_
    rw [h side hside, hterm]
    exact ⟨hq.1, .inl ⟨List.mem_singleton_self _, rfl⟩⟩
  · rename_i test onTrue onFalse hterm
    refine (ensures_takeBranch _ _ _ _ q).imp fun _ _ h side hside => ?_
    obtain ⟨htarget, hnarrows⟩ := h side hside
    rw [hterm, hnarrows.stack]
    exact ⟨hq.1.trans hnarrows.stays.toContinues, .inl ⟨htarget, rfl⟩⟩
  · rename_i value hterm
    refine (ensures_takeReturn _ _ q).imp fun _ _ h side hside => ?_
    obtain ⟨hcontinues, hsite⟩ := h side hside
    rw [hterm]
    exact ⟨hq.1.trans hcontinues, .inr ⟨rfl, hsite⟩⟩

theorem Path.Continues.clobber (p : Path) : p.Continues p.clobber := by
  refine ⟨⟨fun x hx => ?_, fun x hx => ?_⟩, rfl, rfl⟩
  · rw [Path.var?, Path.clobber, Scopes.get?_mapAll, Option.isSome_map]
    exact hx
  · rw [Path.clobber, Table.get?_map, Option.isSome_map]
    exact hx

theorem ensures_skipCall (g : FlowGraph) (b : Block) (p : Path) :
    Ensures (skipCall g b) p fun sides _ => ∀ side ∈ sides, p.Continues side.2 := by
  refine (ensures_returnToCaller _ _ p).bind fun site q hq => ?_
  refine (Ensures.modifyPath _).bind fun _ r hr => ?_
  refine (ensures_goTo site r).imp fun _ _ h side hside => ?_
  rw [h side hside, hr]
  exact hq.1.trans (.clobber q)

end Symbolic
end FlowVerifier
