import FlowVerifier.Proofs.LoopTests
import FlowVerifier.Proofs.Simplify.Soundness

/-!
# What a verification reports

A report is clean if its log holds no error.  No stage of a verification reads the log,
so every stage does the same whatever was recorded before it, and adds an error or adds
none whatever was recorded before it.  Such transformations are called `Oblivious`.

Only two stages add errors: the simplifier, which reports a test between constants of
different types, and the search.  A report is therefore clean exactly if neither of them
has anything to report (`isClean_iff`).
-/

namespace FlowVerifier

/-! ## Errors in a log -/

namespace Log

variable (log : Log) (kind : EventKind) (node : String) (line : Option Nat)

@[simp]
theorem has_empty : Log.empty.has kind = false := by simp [has, empty]

@[simp]
theorem has_record (event : Event) :
    (log.record event).has kind = (log.has kind || event.kind == kind) := by
  simp [has, record]

theorem has_of_contains {message : String} (h : log.contains kind node message = true) :
    log.has kind = true := by
  simp only [contains, has, Array.any_eq_true, Bool.and_eq_true] at h ⊢
  obtain ⟨i, hi, ⟨hkind, -⟩, -⟩ := h
  exact ⟨i, hi, hkind⟩

/-- Recording a diagnostic leaves one of its kind in the log, also if it was there. -/
@[simp]
theorem has_recordOnce (other : EventKind) (message : String) :
    (log.recordOnce other node line message).has kind = (log.has kind || other == kind) := by
  unfold recordOnce
  split
  · rename_i hcontains
    by_cases hkind : other = kind
    · subst hkind
      simp [has_of_contains log other node hcontains]
    · simp [hkind]
  · simp

/-- Warnings are no errors. -/
@[simp]
theorem has_warn (messages : Array String) :
    (log.warn node line messages).has .error = log.has .error := by
  have hfold : ∀ (l : List String) (log : Log),
      (l.foldl (fun log message => log.recordOnce .warning node line message) log).has .error =
        log.has .error := by
    intro l
    induction l with
    | nil => intro log; rfl
    | cons message l ih => intro log; simp [ih]
  rw [warn, ← Array.foldl_toList]
  exact hfold messages.toList log

end Log

/-! ## Oblivious transformations -/

variable {α β : Type} {errs : Prop}

/-- Nothing that the transformation does depends on the log, nor does it depend on the
log whether an error is added.  Errors are added only if `errs`. -/
def Oblivious (errs : Prop) (x : Transform α) : Prop :=
  ∀ g, ∃ r g' d, (d = true → errs) ∧ ∀ log, ∃ log',
    outcome x ⟨g, log⟩ = (r, ⟨g', log'⟩) ∧ log'.has .error = (log.has .error || d)

namespace Oblivious

theorem pure (a : α) : Oblivious errs (pure a : Transform α) :=
  fun g => ⟨.ok a, g, false, nofun, fun log => ⟨log, rfl, by simp⟩⟩

theorem throw (e : Error) : Oblivious errs (throw e : Transform α) :=
  fun g => ⟨.error e, g, false, nofun, fun log => ⟨log, rfl, by simp⟩⟩

theorem graph : Oblivious errs Transform.graph :=
  fun g => ⟨.ok g, g, false, nofun, fun log => ⟨log, rfl, by simp⟩⟩

theorem liftExcept (r : Except Error α) : Oblivious errs (liftM r : Transform α) :=
  fun g => ⟨r, g, false, nofun, fun log => ⟨log, outcome_liftExcept r _, by simp⟩⟩

theorem record {event : Event} (h : event.kind = .error → errs) :
    Oblivious errs (Transform.record event) :=
  fun g => ⟨.ok (), g, event.kind == .error, fun he => h (by simpa using he),
    fun log => ⟨log.record event, rfl, by simp⟩⟩

theorem recordOnce {kind : EventKind} (h : kind = .error → errs) (node : String)
    (line : Option Nat) (message : String) :
    Oblivious errs (Transform.recordOnce kind node line message) :=
  fun g => ⟨.ok (), g, kind == .error, fun he => h (by simpa using he),
    fun log => ⟨log.recordOnce kind node line message, rfl, by simp⟩⟩

/-- An edit does not see the log. -/
theorem edit (x : Edit α) : Oblivious errs (Transform.edit x) := by
  intro g
  refine ⟨(x.runOn g).1, (x.runOn g).2, false, nofun, fun log => ⟨log, ?_, by simp⟩⟩
  unfold Transform.edit
  rw [outcome_bind_ok (outcome_get _)]
  dsimp only
  rw [outcome_bind_ok (outcome_set _ _)]
  rcases x.runOn g with ⟨r, g'⟩
  cases r <;> rfl

/-- The errors of two parts are the errors of either. -/
theorem bind {x : Transform α} {f : α → Transform β} (hx : Oblivious errs x)
    (hf : ∀ a, Oblivious errs (f a)) : Oblivious errs (x >>= f) := by
  intro g
  obtain ⟨r, g', d, hd, hx⟩ := hx g
  cases r with
  | error e =>
      refine ⟨.error e, g', d, hd, fun log => ?_⟩
      obtain ⟨log', hrun, hlog⟩ := hx log
      exact ⟨log', outcome_bind_error hrun, hlog⟩
  | ok a =>
      obtain ⟨r, g'', d', hd', hf⟩ := hf a g'
      refine ⟨r, g'', d || d', fun h => (Bool.or_eq_true_iff.1 h).elim hd hd', fun log => ?_⟩
      obtain ⟨log', hrun, hlog⟩ := hx log
      obtain ⟨log'', hrun', hlog'⟩ := hf log'
      exact ⟨log'', by rw [outcome_bind_ok hrun, hrun'], by rw [hlog', hlog, Bool.or_assoc]⟩

theorem forIn {l : List α} {init : β} {f : α → β → Transform (ForInStep β)}
    (hf : ∀ a b, Oblivious errs (f a b)) : Oblivious errs (forIn l init f) := by
  induction l generalizing init with
  | nil => exact .pure init
  | cons a l ih =>
      rw [List.forIn_cons]
      refine (hf a init).bind fun r => ?_
      cases r with
      | done b => exact .pure b
      | yield b => exact ih

theorem mapM {l : List α} {f : α → Transform β} (hf : ∀ a, Oblivious errs (f a)) :
    Oblivious errs (l.mapM f) := by
  induction l with
  | nil => exact .pure []
  | cons a l ih =>
      rw [List.mapM_cons]
      exact (hf a).bind fun b => ih.bind fun bs => .pure (b :: bs)

theorem filterMapM {l : List α} {f : α → Transform (Option β)}
    (hf : ∀ a, Oblivious errs (f a)) : Oblivious errs (l.filterMapM f) := by
  induction l with
  | nil => exact .pure []
  | cons a l ih =>
      rw [List.filterMapM_cons]
      refine (hf a).bind fun b => ?_
      cases b with
      | none => exact ih
      | some b => exact ih.bind fun bs => .pure (b :: bs)

/-! ## The simplifier -/

theorem recordConstant (b : Block) {kind : EventKind} (h : kind ≠ .error) (message : String) :
    Oblivious errs (Simplify.recordConstant b kind message) := record fun he => absurd he h

theorem writeBody (id : BlockId) (b : Block) (body : List Instruction) (notes : List String) :
    Oblivious errs (Simplify.writeBody id b body notes) := by
  unfold Simplify.writeBody
  split
  · exact .pure _
  · refine (edit _).bind fun _ => (forIn fun note _ => ?_).bind fun _ => .pure _
    exact (recordConstant b (by simp) note).bind fun _ => .pure _

theorem dropUnused (id : BlockId) : Oblivious errs (Simplify.dropUnused id) := by
  refine graph.bind fun g => ?_
  split
  · exact .pure _
  · dsimp only
    split
    · exact .pure _
    · exact (edit _).bind fun _ => .pure _

theorem propagateFinish (removeUnused : Bool) (id : BlockId) (b : Block)
    (changed : List BlockId) :
    Oblivious errs (Simplify.propagateConstants.finish removeUnused id b changed) := by
  unfold Simplify.propagateConstants.finish
  split
  · refine Oblivious.bind ?_ fun _ => .pure _
    refine (dropUnused id).bind fun dropped => (forIn fun i _ => ?_).bind fun _ => .pure _
    exact (recordConstant b (by simp) _).bind fun _ => .pure _
  · exact .bind (.pure _) fun _ => .pure _

theorem propagateConstants (removeUnused : Bool) (id : BlockId) :
    Oblivious True (Simplify.propagateConstants removeUnused id) := by
  refine graph.bind fun g => ?_
  split
  · exact .pure _
  · dsimp only
    split
    · exact (recordOnce (fun _ => trivial) _ _ _).bind fun _ => .pure _
    · exact (writeBody _ _ _ _).bind fun _ => (edit _).bind fun _ => graph.bind fun _ =>
        (recordConstant _ (by simp) _).bind fun _ => propagateFinish _ _ _ _
    · refine (writeBody _ _ _ _).bind fun changed => ?_
      split
      · exact propagateFinish _ _ _ _
      · exact (edit _).bind fun _ => propagateFinish _ _ _ _

theorem apply (pass : Simplify.Pass) (id : BlockId) : Oblivious True (pass.apply id) := by
  cases pass with
  | constants removeUnused => exact propagateConstants removeUnused id
  | emptyBlocks =>
      refine graph.bind fun g => ?_
      split
      · exact .pure _
      · exact (edit _).bind fun _ => (edit _).bind fun _ => (record (by simp)).bind fun _ => .pure _
  | fusion =>
      refine graph.bind fun g => ?_
      split
      · exact .pure _
      · exact (edit _).bind fun _ => (record (by simp)).bind fun _ => graph.bind fun _ => .pure _

theorem visitPasses (id : BlockId) (passes : List Simplify.Pass) (state : List BlockId × Nat) :
    Oblivious True (Simplify.visit id passes state) := by
  induction passes generalizing state with
  | nil => exact .pure state
  | cons pass rest ih =>
      obtain ⟨queue, changes⟩ := state
      refine graph.bind fun g => ?_
      split
      · refine (apply pass id).bind fun changed => ?_
        split
        · exact ih _
        · exact graph.bind fun _ => ih _
      · exact .pure _

theorem drain (cap : Nat) (passes : List Simplify.Pass) (left : Nat) (queue : List BlockId)
    (stats : Simplify.Stats) : Oblivious True (Simplify.drain cap passes left queue stats) := by
  induction left generalizing queue stats with
  | zero =>
      cases queue with
      | nil => exact .pure _
      | cons id rest => exact (record (by simp)).bind fun _ => .pure _
  | succ left ih =>
      cases queue with
      | nil => exact .pure _
      | cons id rest => exact (visitPasses id passes _).bind fun _ => ih _ _

theorem checkValid : Oblivious errs Simplify.checkValid := by
  refine graph.bind fun g => ?_
  split
  · exact .pure _
  · exact .throw _

/-- **The simplifier** does the same whatever was recorded before. -/
theorem simplify (s : SimplifySettings) : Oblivious True (Simplify.simplify s) := by
  unfold Simplify.simplify Simplify.run
  split
  · exact .pure _
  · refine (forIn fun pass _ => ?_).bind fun _ => graph.bind fun g =>
      (drain _ _ _ _ _).bind fun stats => checkValid.bind fun _ =>
      (forIn fun pass _ => ?_).bind fun _ => .pure _
    · exact (record (by simp)).bind fun _ => .pure _
    · exact (record (by simp)).bind fun _ => .pure _

end Oblivious

/-! ## The search -/

namespace Symbolic

/-- Nothing but the log of what was found depends on this log, nor does it depend on it
whether an error is added. -/
def Unaware {β : Type} (x : Findings → Except Error β × Findings) : Prop :=
  ∀ f : Findings, ∃ (r : Except Error β) (f' : Findings) (d : Bool), ∀ log : Log, ∃ log' : Log,
    x { f with log } = (r, { f' with log := log' }) ∧
      log'.has .error = (log.has .error || d)

theorem unaware_conclude (b : Block) (result : Except Error (List Side) × Trace) :
    Unaware fun f => f.conclude b result := by
  intro f
  obtain ⟨r, t⟩ := result
  cases r with
  | ok sides => exact ⟨.ok sides, f, false, fun log => ⟨_, rfl, by simp⟩⟩
  | error e =>
      cases e with
      | program cause => exact ⟨.ok [], f, true, fun log => ⟨_, rfl, by simp⟩⟩
      | _ => exact ⟨.error _, f, false, fun log => ⟨_, rfl, by simp⟩⟩

theorem unaware_visit (g : FlowGraph) (limits : SearchSettings) (b : Block) (id : BlockId)
    (p : Path) : Unaware (visit g limits b id p) := by
  intro f
  unfold visit
  split
  · rcases p.enter id limits.maxWidenings with ⟨verdict, q⟩
    cases verdict with
    | subsumed => exact ⟨.ok [], f.enter id p, false, fun log => ⟨log, rfl, by simp⟩⟩
    | exhausted =>
        exact ⟨.ok [], (f.enter id p).truncate b .widenings, false,
          fun log => ⟨_, rfl, by simp [Findings.enter]⟩⟩
    | recursion => exact unaware_conclude b _ (f.enter id p)
    | _ => exact unaware_conclude b _ (f.enter id p)
  · exact ⟨.ok [], f, true, fun log => ⟨_, rfl, by simp⟩⟩

theorem unaware_proceed (g : FlowGraph) (limits : SearchSettings) (p : Prospect)
    (others : Frontier Prospect) : Unaware (proceed g limits p others) := by
  intro f
  unfold proceed
  cases g.block? p.block with
  | none => exact ⟨.error _, f, false, fun log => ⟨log, rfl, by simp⟩⟩
  | some b =>
      cases p.left with
      | zero =>
          dsimp only
          unfold stopBefore
          cases b.populated with
          | true => exact ⟨.ok others, f.truncate b .depth, false, fun log => ⟨_, rfl, by simp⟩⟩
          | false => exact ⟨.ok others, f, true, fun log => ⟨_, rfl, by simp⟩⟩
      | succ left =>
          obtain ⟨r, f', d, hvisit⟩ := unaware_visit g limits b p.block p.path f
          cases r with
          | error e =>
              refine ⟨.error e, f', d, fun log => ?_⟩
              obtain ⟨log', hrun, hlog⟩ := hvisit log
              exact ⟨log', by simp only [hrun], hlog⟩
          | ok sides =>
              by_cases hover : others.overflows limits.maxPaths (prospects left sides) = true
              · refine ⟨.ok (others.advance limits.maxPaths (prospects left sides)).narrowed,
                  f'.truncate b .paths, d, fun log => ?_⟩
                obtain ⟨log', hrun, hlog⟩ := hvisit log
                exact ⟨_, by simp only [hrun, hover, if_true]; rfl,
                  by rw [Log.has_recordOnce, hlog]; simp⟩
              · refine ⟨.ok (others.advance limits.maxPaths (prospects left sides)), f', d,
                  fun log => ?_⟩
                obtain ⟨log', hrun, hlog⟩ := hvisit log
                exact ⟨log', by simp only [hrun]; rw [if_neg hover], hlog⟩

/-- Following all paths finds the same whatever was recorded before. -/
theorem unaware_explore (g : FlowGraph) (limits : SearchSettings) (frontier : Frontier Prospect) :
    Unaware (explore g limits frontier) := by
  intro f
  induction frontier, f using explore_induction g limits with
  | nil frontier f hp =>
      exact ⟨.ok frontier.started, f, false, fun log => ⟨log, explore_nil hp _, by simp⟩⟩
  | step frontier f p rest hp ih =>
      obtain ⟨r, f', d, hstep⟩ := unaware_proceed g limits p { frontier with pending := rest } f
      cases r with
      | error e =>
          refine ⟨.error e, f', d, fun log => ?_⟩
          obtain ⟨log', hrun, hlog⟩ := hstep log
          exact ⟨log', by rw [explore_proceed hp, hrun], hlog⟩
      | ok next =>
          -- the step with the log of `f` itself leads to where the induction goes on
          obtain ⟨logf, hf, -⟩ := hstep f.log
          obtain ⟨r, f'', d', hrest⟩ := ih next _ hf
          refine ⟨r, f'', d || d', fun log => ?_⟩
          obtain ⟨log', hrun, hlog⟩ := hstep log
          obtain ⟨log'', hrun', hlog'⟩ := hrest log'
          exact ⟨log'', by rw [explore_proceed hp, hrun]; exact hrun',
            by rw [hlog', hlog, Bool.or_assoc]⟩

/-- **The search** finds the same whatever was recorded before. -/
theorem searchFrom_log (g : FlowGraph) (limits : SearchSettings) :
    ∃ r d, ∀ log, ∃ log', searchFrom g limits log = (r, log') ∧
      log'.has .error = (log.has .error || d) := by
  unfold searchFrom
  cases g.first with
  | none => exact ⟨.ok {}, false, fun log => ⟨log, rfl, by simp⟩⟩
  | some first =>
      obtain ⟨r, f, d, hexplore⟩ :=
        unaware_explore g limits ⟨[⟨first, .start, limits.maxDepth⟩], 1⟩ { log := .empty }
      cases r with
      | error e =>
          refine ⟨.error e, d, fun log => ?_⟩
          obtain ⟨log', hrun, hlog⟩ := hexplore log
          exact ⟨log', by simp only [hrun], hlog⟩
      | ok paths =>
          refine ⟨.ok { paths, truncated := f.truncated, results := f.results }, d, fun log => ?_⟩
          obtain ⟨log', hrun, hlog⟩ := hexplore log
          exact ⟨log', by simp only [hrun], hlog⟩

end Symbolic

namespace Oblivious

theorem search (limits : SearchSettings) : Oblivious True (Symbolic.search limits) := by
  intro g
  obtain ⟨r, d, hsearch⟩ := Symbolic.searchFrom_log g limits
  refine ⟨r, g, d, fun _ => trivial, fun log => ?_⟩
  obtain ⟨log', hrun, hlog⟩ := hsearch log
  exact ⟨log', by rw [Symbolic.outcome_search]; simp only [hrun], hlog⟩

/-! ## The other stages -/

theorem reportLoops (forest : LoopForest) :
    Oblivious errs (FlowVerifier.reportLoops forest) := by
  refine graph.bind fun g => (forIn fun k _ => ?_).bind fun _ => .pure _
  split
  · exact (record (by simp)).bind fun _ => .pure _
  · exact .pure _

theorem tryRemove (id : BlockId) : Oblivious errs (Symbolic.tryRemove id) := by
  intro g
  rcases hx : (FlowGraph.removeNode id).runOn g with ⟨r, g'⟩
  have hrun : ∀ log, outcome (Symbolic.tryRemove id) ⟨g, log⟩ =
      ((outcome (Symbolic.tryRemove id) ⟨g, .empty⟩).1, ⟨g', log⟩) := by
    intro log
    unfold Symbolic.tryRemove
    simp only [outcome_bind_ok (outcome_get _), hx, outcome_bind_ok (outcome_set _ _)]
    split <;> rfl
  exact ⟨_, g', false, nofun, fun log => ⟨log, hrun log, by simp⟩⟩

theorem removeDead (id : BlockId) : Oblivious errs (Symbolic.removeDead id) := by
  refine graph.bind fun g => ?_
  split
  · exact .pure _
  · refine (tryRemove id).bind fun removed => ?_
    split
    · exact (record (by simp)).bind fun _ => (recordOnce (by simp) _ _ _).bind fun _ => .pure _
    · exact .pure _

theorem eliminateDeadCode (s : Symbolic.SearchSummary) :
    Oblivious errs (Symbolic.eliminateDeadCode s) := by
  unfold Symbolic.eliminateDeadCode
  split
  · exact .pure _
  · exact graph.bind fun _ => .filterMapM removeDead

theorem validateAll (forest : LoopForest) (summary : Symbolic.SearchSummary) (maxPaths : Nat) :
    Oblivious errs (Termination.validateAll forest summary maxPaths) := by
  refine .mapM fun k => graph.bind fun g => (liftExcept _).bind fun loop =>
    (liftExcept _).bind fun analysis => (record ?_).bind fun _ => .pure _
  intro h
  split at h <;> exact absurd h (by simp)

theorem searchAndPrune (s : SearchSettings) : Oblivious True (FlowVerifier.searchAndPrune s) := by
  refine (search s).bind fun summary => ?_
  split
  · exact (eliminateDeadCode summary).bind fun _ => .pure _
  · exact .pure _

/-! ## What a run from the empty log says about all runs -/

/-- Whether an error is added shows in a run from the empty log. -/
theorem of_empty {x : Transform α} (h : Oblivious errs x) {g : FlowGraph}
    {r : Except Error α} {w : Workspace} (hrun : outcome x ⟨g, .empty⟩ = (r, w)) (log : Log) :
    ∃ log', outcome x ⟨g, log⟩ = (r, ⟨w.graph, log'⟩) ∧
      log'.has .error = (log.has .error || w.log.has .error) := by
  obtain ⟨r', g', d, -, hx⟩ := h g
  obtain ⟨log₀, h₀, hd⟩ := hx .empty
  obtain ⟨rfl, rfl⟩ := Prod.mk.inj (hrun.symm.trans h₀)
  obtain ⟨log', hlog, herr⟩ := hx log
  rw [Log.has_empty, Bool.false_or] at hd
  exact ⟨log', hlog, by rw [herr, hd]⟩

/-- A transformation that adds no errors leaves the errors as they are. -/
theorem has_error {x : Transform α} (h : Oblivious False x) {w w' : Workspace}
    {r : Except Error α} (hrun : outcome x w = (r, w')) :
    w'.log.has .error = w.log.has .error := by
  obtain ⟨r', g', d, hd, hx⟩ := h w.graph
  obtain ⟨log', hlog, herr⟩ := hx w.log
  obtain ⟨-, rfl⟩ := Prod.mk.inj (hrun.symm.trans hlog)
  have hfalse : d = false := by simpa using hd
  rw [herr, hfalse, Bool.or_false]

end Oblivious

/-! ## The stages of a verification -/

open Termination Symbolic

/-- The analyses: loops, search and verdicts. -/
def analyse (s : Settings) :
    Transform (LoopForest × Symbolic.SearchSummary × List LoopVerdict) := do
  let loops ← LoopForest.ofGraph (← Transform.graph)
  reportLoops loops
  let search ← searchAndPrune s.search
  let verdicts ←
    if s.validateTermination then validateAll loops search s.search.maxPaths else pure []
  return (loops, search, verdicts)

/-- A verification simplifies, analyses, and may simplify again. -/
theorem verifyStages_eq_analyse (s : Settings) :
    verifyStages s = Simplify.simplify s.simplify >>= fun stats =>
      analyse s >>= fun found => complete s stats found.1 found.2.1 found.2.2 := by
  unfold verifyStages analyse complete
  simp only [bind_assoc, pure_bind]
  cases s.validateTermination with
  | false => simp only [Bool.false_eq_true, if_false, pure_bind]
  | true => simp only [if_true, bind_assoc, pure_bind]

theorem oblivious_analyse (s : Settings) : Oblivious True (analyse s) := by
  refine Oblivious.graph.bind fun g => (Oblivious.liftExcept _).bind fun loops =>
    (Oblivious.reportLoops loops).bind fun _ => (Oblivious.searchAndPrune _).bind fun search => ?_
  split
  · exact (Oblivious.validateAll _ _ _).bind fun _ => .pure _
  · exact (Oblivious.pure _).bind fun _ => .pure _

/-- The graph that a transformation leaves. -/
def FlowGraph.after (g : FlowGraph) (x : Transform α) : FlowGraph :=
  (x.runOn { graph := g }).2.graph

/-- The graph that the simplifier leaves. -/
def FlowGraph.simplified (g : FlowGraph) (s : SimplifySettings) : FlowGraph :=
  g.after (Simplify.simplify s)

/-- Does the simplifier report a test between constants of different types? -/
def FlowGraph.hasMistakenTest (g : FlowGraph) (s : SimplifySettings) : Bool :=
  ((Simplify.simplify s).runOn { graph := g }).2.log.has .error

/-- The graph that the analyses leave: dead code may be gone. -/
def FlowGraph.analysed (g : FlowGraph) (s : Settings) : FlowGraph :=
  g.after (analyse s)

/-- Does the search report a mistake of the program? -/
def FlowGraph.hasMistakenPath (g : FlowGraph) (s : SearchSettings) : Bool :=
  (searchFrom g s .empty).2.has .error

theorem outcome_simplify_disabled (w : Workspace) :
    outcome (Simplify.simplify .disabled) w = (.ok {}, w) := rfl

/-- If a computation succeeds, so do its parts. -/
theorem exists_of_outcome_bind {σ : Type} {x : ExceptT Error (StateM σ) α}
    {f : α → ExceptT Error (StateM σ) β} {s s' : σ} {b : β}
    (h : outcome (x >>= f) s = (.ok b, s')) :
    ∃ a t, outcome x s = (.ok a, t) ∧ outcome (f a) t = (.ok b, s') := by
  rw [outcome_bind] at h
  rcases hx : outcome x s with ⟨r, t⟩
  rw [hx] at h
  cases r with
  | error e => exact absurd h (by simp)
  | ok a => exact ⟨a, t, rfl, h⟩

/-- Reporting loops leaves the graph alone. -/
theorem silent_reportLoops (forest : LoopForest) : Simplify.Silent (reportLoops forest) := by
  refine Simplify.Silent.graph.bind fun g =>
    (Simplify.Silent.forIn fun k => ?_).bind fun _ => .pure _
  split
  · exact (Simplify.Silent.record _).bind fun _ => .pure _
  · exact .pure _

/-- Removing dead code changes neither the results of the search nor the errors. -/
theorem outcome_searchAndPrune {s : SearchSettings} {w w' : Workspace} {found : SearchSummary}
    (h : outcome (searchAndPrune s) w = (.ok found, w')) :
    w'.log.has .error = (w.log.has .error || w.graph.hasMistakenPath s) ∧
      ∃ summary, (searchFrom w.graph s .empty).1 = .ok summary ∧
        found.truncated = summary.truncated ∧ found.results = summary.results := by
  obtain ⟨summary, w₁, hsearch, h⟩ := exists_of_outcome_bind h
  -- what the search does to this log it does to the empty one
  obtain ⟨r, d, hlogs⟩ := searchFrom_log w.graph s
  obtain ⟨log₀, h₀, hd⟩ := hlogs .empty
  obtain ⟨log₁, h₁, hd₁⟩ := hlogs w.log
  rw [outcome_search, h₁, Prod.mk.injEq] at hsearch
  obtain ⟨rfl, rfl⟩ := hsearch
  have herror : log₁.has .error = (w.log.has .error || w.graph.hasMistakenPath s) := by
    rw [FlowGraph.hasMistakenPath, h₀, hd₁, hd, Log.has_empty, Bool.false_or]
  rw [h₀]
  split at h
  · obtain ⟨removed, w₂, hremove, h⟩ := exists_of_outcome_bind h
    obtain ⟨hfound, rfl⟩ := Prod.mk.inj h
    obtain rfl := Except.ok.inj hfound
    refine ⟨?_, summary, rfl, rfl, rfl⟩
    rw [(Oblivious.eliminateDeadCode summary).has_error hremove, herror]
  · obtain ⟨hfound, rfl⟩ := Prod.mk.inj h
    obtain rfl := Except.ok.inj hfound
    exact ⟨herror, summary, rfl, rfl, rfl⟩

/-- The analyses add an error exactly if the search does, and pass on what it found. -/
theorem outcome_analyse {s : Settings} {w w' : Workspace}
    {found : LoopForest × SearchSummary × List LoopVerdict}
    (h : outcome (analyse s) w = (.ok found, w')) :
    w'.log.has .error = (w.log.has .error || w.graph.hasMistakenPath s.search) ∧
      ∃ summary, (searchFrom w.graph s.search .empty).1 = .ok summary ∧
        found.2.1.truncated = summary.truncated ∧ found.2.1.results = summary.results := by
  have hgraph : outcome Transform.graph w = (.ok w.graph, w) := rfl
  rw [analyse, outcome_bind_ok hgraph] at h
  obtain ⟨loops, w₁, hloops, h⟩ := exists_of_outcome_bind h
  rw [outcome_liftExcept] at hloops
  obtain ⟨-, rfl⟩ := Prod.mk.inj hloops
  obtain ⟨_, w₂, hreport, h⟩ := exists_of_outcome_bind h
  have hreport' := (Oblivious.reportLoops loops).has_error hreport
  have hsame : w₂.graph = w.graph := by
    obtain ⟨_, w₂', hsilent, hsame⟩ := silent_reportLoops loops w
    obtain ⟨-, rfl⟩ := Prod.mk.inj (hreport.symm.trans hsilent)
    exact hsame
  obtain ⟨search, w₃, hsearch, h⟩ := exists_of_outcome_bind h
  obtain ⟨herror, summary, hsummary, htruncated, hresults⟩ := outcome_searchAndPrune hsearch
  have hlast : w'.log.has .error = w₃.log.has .error ∧ found.2.1 = search := by
    dsimp only at h
    split at h
    · obtain ⟨verdicts, w₄, hverdicts, h⟩ := exists_of_outcome_bind h
      obtain ⟨hfound, rfl⟩ := Prod.mk.inj h
      obtain rfl := Except.ok.inj hfound
      exact ⟨(Oblivious.validateAll _ _ _).has_error hverdicts, rfl⟩
    · obtain ⟨hfound, rfl⟩ := Prod.mk.inj h
      obtain rfl := Except.ok.inj hfound
      exact ⟨rfl, rfl⟩
  rw [hlast.1, hlast.2, herror, hreport', hsame]
  rw [hsame] at hsummary
  exact ⟨rfl, summary, hsummary, htruncated, hresults⟩

/-- The last stages add an error exactly if there is a second simplification that does. -/
theorem outcome_complete {s : Settings} {stats : Simplify.Stats} {loops : LoopForest}
    {search : SearchSummary} {verdicts : List LoopVerdict} {w w' : Workspace} {r : Report}
    (h : outcome (complete s stats loops search verdicts) w = (.ok r, w')) :
    r.log.has .error =
        (w.log.has .error || (s.postSimplify && w.graph.hasMistakenTest s.simplify)) ∧
      r.search = search := by
  unfold complete at h
  cases hpost : s.postSimplify with
  | false =>
      simp only [hpost, Bool.false_eq_true, if_false, pure_bind] at h
      obtain ⟨hr, -⟩ := Prod.mk.inj h
      obtain rfl := Except.ok.inj hr
      simp
  | true =>
      simp only [hpost, if_true, map_eq_pure_bind, bind_assoc, pure_bind] at h
      obtain ⟨stats', w₁, hsimplify, h⟩ := exists_of_outcome_bind h
      obtain ⟨hr, -⟩ := Prod.mk.inj h
      obtain rfl := Except.ok.inj hr
      rcases hempty : outcome (Simplify.simplify s.simplify) ⟨w.graph, .empty⟩ with ⟨r, w₂⟩
      obtain ⟨log', hrun, herror⟩ := (Oblivious.simplify s.simplify).of_empty hempty w.log
      obtain ⟨-, rfl⟩ := Prod.mk.inj (hsimplify.symm.trans hrun)
      have htest : w.graph.hasMistakenTest s.simplify = w₂.log.has .error :=
        congrArg (·.2.log.has .error) hempty
      simp [herror, htest]

/-- The stages of a verification that succeeds. -/
theorem exists_of_verify {s : Settings} {g g' : FlowGraph} {r : Report}
    (h : verify s g = (.ok r, g')) :
    ∃ stats found w w' w'', outcome (Simplify.simplify s.simplify) { graph := g } = (.ok stats, w) ∧
      outcome (analyse s) w = (.ok found, w') ∧
      outcome (complete s stats found.1 found.2.1 found.2.2) w' = (.ok r, w'') := by
  have hrun : outcome (verifyStages s) { graph := g } =
      (.ok r, (outcome (verifyStages s) { graph := g }).2) :=
    Prod.ext (show (verify s g).1 = _ from congrArg Prod.fst h) rfl
  rw [verifyStages_eq_analyse] at hrun
  obtain ⟨stats, w, hsimplify, hrun⟩ := exists_of_outcome_bind hrun
  obtain ⟨found, w', hanalyse, hrun⟩ := exists_of_outcome_bind hrun
  exact ⟨stats, found, w, w', _, hsimplify, hanalyse, hrun⟩

/-- **What a report says.**  It has an error exactly if the simplifier reports a mistaken
test or the search of the simplified graph a mistaken path, and it passes on what this
search found. -/
theorem report_of_verify {s : Settings} {g g' : FlowGraph} {r : Report}
    (h : verify s g = (.ok r, g')) :
    (r.isClean = true ↔
      g.hasMistakenTest s.simplify = false ∧
      (g.simplified s.simplify).hasMistakenPath s.search = false ∧
      (s.postSimplify = true →
        ((g.simplified s.simplify).analysed s).hasMistakenTest s.simplify = false)) ∧
    ∃ summary, (searchFrom (g.simplified s.simplify) s.search .empty).1 = .ok summary ∧
      r.search.truncated = summary.truncated ∧ r.search.results = summary.results := by
  obtain ⟨stats, found, w, w', w'', hsimplify, hanalyse, hcomplete⟩ := exists_of_verify h
  have hgraph : w.graph = g.simplified s.simplify :=
    (congrArg (·.2.graph) hsimplify).symm
  have htest : w.log.has .error = g.hasMistakenTest s.simplify :=
    (congrArg (·.2.log.has .error) hsimplify).symm
  obtain ⟨hpath, summary, hsummary, htruncated, hresults⟩ := outcome_analyse hanalyse
  obtain ⟨herror, hsearch⟩ := outcome_complete hcomplete
  have hanalysed : w'.graph = (g.simplified s.simplify).analysed s := by
    rcases hempty : outcome (analyse s) ⟨w.graph, .empty⟩ with ⟨r₀, w₀⟩
    obtain ⟨log', hrun, -⟩ := (oblivious_analyse s).of_empty hempty w.log
    obtain ⟨-, rfl⟩ := Prod.mk.inj (hanalyse.symm.trans hrun)
    rw [← hgraph]
    exact (congrArg (·.2.graph) hempty).symm
  rw [hpath, htest, hgraph, hanalysed] at herror
  rw [hgraph] at hsummary
  refine ⟨?_, summary, hsummary, by rw [hsearch, htruncated], by rw [hsearch, hresults]⟩
  simp only [Report.isClean, herror, Bool.not_eq_true', Bool.or_eq_false_iff, Bool.and_eq_false_imp,
    and_assoc]

/-- What is left of the simplifications when nothing is to be simplified. -/
theorem report_of_disabled {s : Settings} {g g' : FlowGraph} {r : Report}
    (h : verify { s with simplify := .disabled } g = (.ok r, g')) :
    (r.isClean = true ↔ g.hasMistakenPath s.search = false) ∧
    ∃ summary, (searchFrom g s.search .empty).1 = .ok summary ∧
      r.search.truncated = summary.truncated ∧ r.search.results = summary.results := by
  obtain ⟨hclean, hsearch⟩ := report_of_verify h
  have hnone : ∀ g : FlowGraph, g.hasMistakenTest .disabled = false := by
    intro g
    show Log.empty.has .error = false
    exact Log.has_empty _
  refine ⟨?_, hsearch⟩
  rw [hclean]
  simp only [hnone, true_and, implies_true, and_true]
  rfl

/-- The simplified graph can be verified as it is. -/
theorem verify_simplified {s : Settings} {g g' : FlowGraph} {r : Report}
    (h : verify s g = (.ok r, g')) :
    ∃ r' g'',
      verify { s with simplify := .disabled } (g.simplified s.simplify) = (.ok r', g'') := by
  obtain ⟨stats, found, w, w', w'', hsimplify, hanalyse, hcomplete⟩ := exists_of_verify h
  have hgraph : w.graph = g.simplified s.simplify :=
    (congrArg (·.2.graph) hsimplify).symm
  rcases hempty : outcome (analyse s) ⟨w.graph, .empty⟩ with ⟨r₀, w₀⟩
  obtain ⟨log', hrun, -⟩ := (oblivious_analyse s).of_empty hempty w.log
  obtain ⟨hfound, -⟩ := Prod.mk.inj (hanalyse.symm.trans hrun)
  subst hfound
  rw [hgraph] at hempty
  obtain ⟨r', w₁, hlast⟩ : ∃ r' w₁,
      outcome (complete { s with simplify := .disabled } {} found.1 found.2.1 found.2.2) w₀ =
        (.ok r', w₁) := by
    unfold complete
    cases s.postSimplify <;> exact ⟨_, _, rfl⟩
  refine ⟨r', w₁.graph, ?_⟩
  have hanalyse' : outcome (analyse { s with simplify := .disabled })
      { graph := g.simplified s.simplify } = (.ok found, w₀) := hempty
  have hverify : (verifyStages { s with simplify := .disabled }).runOn
      { graph := g.simplified s.simplify } = (.ok r', w₁) := by
    show outcome _ _ = _
    rw [verifyStages_eq_analyse, outcome_bind_ok (outcome_simplify_disabled _),
      outcome_bind_ok hanalyse', hlast]
  unfold verify
  rw [hverify]

end FlowVerifier
