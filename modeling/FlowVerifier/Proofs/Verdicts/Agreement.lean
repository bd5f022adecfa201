import FlowVerifier.Proofs.Simplify.Worklist
import FlowVerifier.Proofs.Verdicts.Constants
import FlowVerifier.Proofs.Verdicts.EmptyBlocks
import FlowVerifier.Proofs.Verdicts.Evaluation
import FlowVerifier.Proofs.Verdicts.Fusion
import FlowVerifier.Proofs.Verdicts.Unused
import Mathlib

/-!
# Reports with and without simplification

The search is not exact, so that it matters which of several equal programs it is given.
Simplification may hide a mistake from it: a test that is no longer made splits no paths,
and a block that is gone is no place to widen.  It may also invent one: the simplifier
reports mistaken tests in blocks that no path enters, and the search knows less of a constant
than of the variable that it was put in for.

* `Harmless` are the changes that the search does not notice, and `searchedAlike_of_harmless`
  is what a sequence of them preserves.
* `verify_agrees`: if all changes were harmless, then the report on the simplified program is
  clean exactly if that on the program is, and the simplifier reports no mistaken test.
* `verify_disagrees`: changes of every other kind make a difference to the report on some
  program.
-/

namespace FlowVerifier
namespace Symbolic

open Simplify

variable {limits : SearchSettings} {g g' : FlowGraph} {id : BlockId}

/-! ## Harmless changes -/

/-- A change of the simplifier to one block that the search does not notice. -/
inductive Harmless (limits : SearchSettings) (g : FlowGraph) : FlowGraph → Prop where
  /-- Constants are propagated in a faithful block.  Those that are pushed are popped into
  no variable that they were pushed from. -/
  | constants (id : BlockId) (passed : List String)
      (hfaithful : ∀ b, g.block? id = some b → Enters g limits id →
        isFaithfulBlock passed b = true)
      (hpops : ∀ j c, g.block? j = some c → Enters g limits j →
        sparesPops passed c = true) :
      Harmless limits g (g.after (propagateConstants false id))
  /-- Unused variables are dropped whose definitions agree in type.  Whenever a path comes
  back to a block, the state on record there covers them. -/
  | unused (id : BlockId) (htypes : ∀ b, g.block? id = some b → agreesInTypes g id b = true)
      (hcovers : ∀ b, g.block? id = some b → Covers g limits (droppedVariables g id b)) :
      Harmless limits g (g.after (dropUnused id))
  /-- A detour is taken out that is not chosen over its target, that no marker names, and
  that no path comes back to. -/
  | emptyBlock (id : BlockId) (honce : EnteredOnce g limits id)
      (hspares : ∀ target, detourTarget? g id = some target → ∀ j b, g.block? j = some b →
        Enters g limits j → sparesDetour id target (g.label id) b = true) :
      Harmless limits g (g.after (elideEmptyBlock id))
  /-- A block is fused that no path comes back to. -/
  | fusion (id : BlockId) (honce : EnteredOnce g limits id) :
      Harmless limits g (g.after (fuseBlock id))

/-- A sound change leaves a proper graph. -/
theorem proper_after {α : Type} {x : Transform α} (hx : Sound True x) (hg : Proper g) :
    Proper (g.after x) := by
  obtain ⟨a, w', hrun, hstands⟩ := hx { graph := g } hg
  have hafter : g.after x = w'.graph := congrArg (·.2.graph) hrun
  rw [hafter]
  exact hstands.proper

/-- **One harmless change.** -/
theorem Harmless.searchedAlike (h : Harmless limits g g') (hg : Proper g) :
    Proper g' ∧ SearchedAlike limits g g' := by
  cases h with
  | constants id passed hfaithful hpops =>
      exact ⟨proper_after (sound_propagateConstants false id) hg,
        searchedAlike_propagateConstants hg passed hfaithful hpops⟩
  | unused id htypes hcovers =>
      exact ⟨proper_after (sound_dropUnused id) hg, searchedAlike_dropUnused hg htypes hcovers⟩
  | emptyBlock id honce hspares =>
      exact ⟨proper_after (sound_elideEmptyBlock trivial id) hg,
        searchedAlike_elideEmptyBlock hg honce hspares⟩
  | fusion id honce =>
      exact ⟨proper_after (sound_fuseBlock id) hg, searchedAlike_fuseBlock hg honce⟩

/-- **Harmless changes**, one after the other. -/
theorem searchedAlike_of_harmless (h : Relation.ReflTransGen (Harmless limits) g g')
    (hg : Proper g) : Proper g' ∧ SearchedAlike limits g g' := by
  induction h with
  | refl => exact ⟨hg, .refl limits g⟩
  | tail _ hlast ih =>
      obtain ⟨hproper, halike⟩ := ih
      obtain ⟨hproper', halike'⟩ := hlast.searchedAlike hproper
      exact ⟨hproper', halike.trans halike'⟩

/-! ## Blocks that are entered once -/

/-- Is the block new to the path that is about to enter it? -/
def Prospect.isNew (a : Prospect) : Bool :=
  (a.path.visits.get? (a.block, a.path.stack.topMarker?)).isNone

/-- Does a search of at most so many steps end, without coming back to a watched block? -/
def entersOnce (g : FlowGraph) (limits : SearchSettings) (watched : BlockId → Bool) :
    Nat → Frontier Prospect → Findings → Bool
  | 0, F, _ => F.pending.isEmpty
  | n + 1, F, f =>
    match F.pending with
    | [] => true
    | a :: rest =>
      (!watched a.block || a.isNew) &&
        match proceed g limits a { F with pending := rest } f with
        | (.ok next, f₁) => entersOnce g limits watched n next f₁
        | (.error _, _) => true

/-- **The check is sound.** -/
theorem enteredOnce_of_entersOnce (watched : BlockId → Bool) (n : Nat) {first : BlockId}
    (hf : g.first = some first) (hid : watched id = true)
    (h : entersOnce g limits watched n ⟨[⟨first, .start, limits.maxDepth⟩], 1⟩
      { log := .empty } = true) : EnteredOnce g limits id := by
  -- the check goes on from every state of the search
  have hcheck : ∀ {F f}, Explored g limits F f → ∃ n, entersOnce g limits watched n F f = true := by
    intro F f hF
    induction hF with
    | start hf' =>
        obtain rfl := Option.some.inj (hf.symm.trans hf')
        exact ⟨n, h⟩
    | step _ hp hs ih =>
        obtain ⟨n, hn⟩ := ih
        cases n with
        | zero => simp [entersOnce, hp] at hn
        | succ n =>
            simp only [entersOnce, hp, hs, Bool.and_eq_true] at hn
            exact ⟨n, hn.2⟩
  rintro F f a rest hF hp rfl
  obtain ⟨n, hn⟩ := hcheck hF
  cases n with
  | zero => simp [entersOnce, hp] at hn
  | succ n =>
      simp only [entersOnce, hp, Bool.and_eq_true] at hn
      simpa [Prospect.isNew, hid] using hn.1

end Symbolic

/-! ## Reports -/

open Symbolic

/-- The simplifications of a verification report no mistaken test. -/
def FreeOfMistakenTests (s : Settings) (g : FlowGraph) : Prop :=
  g.hasMistakenTest s.simplify = false ∧ (s.postSimplify = true →
    ((g.simplified s.simplify).analysed s).hasMistakenTest s.simplify = false)

/-- **Reports with and without simplification.**  A report is clean exactly if the
simplifications report no mistaken test and the simplified program, verified as it is, has a
clean report.  If the simplified program results from harmless changes, and the search of
the program is not cut short, then neither is the search of the simplified program, and its
report is clean exactly if the simplifications report no mistaken test and the report on the
program is clean. -/
theorem verify_agrees (s : Settings) {g g₁ g₂ : FlowGraph} {plain simple : Report}
    (hvalid : g.validate = .ok ()) (hnames : g.UniqueNames)
    (hplain : verify { s with simplify := .disabled } g = (.ok plain, g₁))
    (hsimple : verify s g = (.ok simple, g₂)) :
    (∃ r g₃, verify { s with simplify := .disabled } (g.simplified s.simplify) = (.ok r, g₃) ∧
      simple.search.truncated = r.search.truncated ∧
      (simple.isClean = true ↔ FreeOfMistakenTests s g ∧ r.isClean = true)) ∧
    (plain.search.truncated = false →
      Relation.ReflTransGen (Harmless s.search) g (g.simplified s.simplify) →
      simple.search.truncated = false ∧
      (simple.isClean = true ↔ FreeOfMistakenTests s g ∧ plain.isClean = true)) := by
  obtain ⟨hclean, found, hfound, htruncated, -⟩ := report_of_verify hsimple
  obtain ⟨hclean₁, summary, hsummary, htruncated₁, -⟩ := report_of_disabled hplain
  have hfree : simple.isClean = true ↔ FreeOfMistakenTests s g ∧
      (g.simplified s.simplify).hasMistakenPath s.search = false := by
    rw [hclean]
    constructor
    · rintro ⟨htest, hpath, hpost⟩
      exact ⟨⟨htest, hpost⟩, hpath⟩
    · rintro ⟨⟨htest, hpost⟩, hpath⟩
      exact ⟨htest, hpath, hpost⟩
  constructor
  · obtain ⟨r, g₃, hr⟩ := verify_simplified hsimple
    obtain ⟨hclean₂, found', hfound', htruncated₂, -⟩ := report_of_disabled hr
    obtain rfl := Except.ok.inj (hfound.symm.trans hfound')
    exact ⟨r, g₃, hr, htruncated.trans htruncated₂.symm, by rw [hfree, hclean₂]⟩
  · intro hcomplete hharmless
    have hproper : Simplify.Proper g := ⟨FlowGraph.validate_iff.1 hvalid, hnames⟩
    obtain ⟨summary', hsummary', htruncated', hsame⟩ :=
      (searchedAlike_of_harmless hharmless hproper).2 summary hsummary (htruncated₁ ▸ hcomplete)
    obtain rfl := Except.ok.inj (hfound.symm.trans hsummary')
    exact ⟨htruncated.trans htruncated', by rw [hfree, hclean₁, hsame]⟩

/-! ### A program that is simplified without harm -/

/-- A program with a detour, a constant, and two blocks to fuse. -/
def greeting : FlowGraph where
  slots := #[
    some { name := "a", body := [.input "y"], terminator := .jump 1 },
    some { name := "e", terminator := .jump 2, predecessors := [0] },
    some {
      name := "b"
      body := [.assign "x" (.literal (.string "hi")), .print (.var "x")]
      predecessors := [1] }]
  first := some 0
  last := some 2

/-- The program without the detour. -/
def shortGreeting : FlowGraph :=
  { greeting with
    slots := #[
      some { name := "a", body := [.input "y"], terminator := .jump 2 },
      none,
      some {
        name := "b"
        body := [.assign "x" (.literal (.string "hi")), .print (.var "x")]
        predecessors := [0] }] }

/-- What the second block comes to. -/
def foldedGreeting (body : List Instruction) : FlowGraph :=
  { shortGreeting with
    slots := #[
      some { name := "a", body := [.input "y"], terminator := .jump 2 },
      none,
      some { name := "b", body, predecessors := [0] }] }

/-- What holds of all blocks holds of each. -/
theorem of_blocks_all {g : FlowGraph} (test : Block → Bool)
    (h : (g.blocks.all fun e => test e.2) = true) {id : BlockId} {b : Block}
    (hb : g.block? id = some b) : test b = true :=
  List.all_eq_true.1 h (id, b) (FlowGraph.mem_blocks.2 hb)

theorem harmless_greeting :
    Relation.ReflTransGen (Harmless {}) greeting (greeting.simplified {}) := by
  have helided : greeting.after (Simplify.elideEmptyBlock 1) = shortGreeting := by cbv
  have hfolded : shortGreeting.after (Simplify.propagateConstants false 2) = foldedGreeting
      [.assign "x" (.literal (.string "hi")), .print (.literal (.string "hi"))] := by cbv
  have hdropped : (foldedGreeting [.assign "x" (.literal (.string "hi")),
      .print (.literal (.string "hi"))]).after (Simplify.dropUnused 2) = foldedGreeting
      [.print (.literal (.string "hi"))] := by cbv
  have hfused : (foldedGreeting [.print (.literal (.string "hi"))]).after (Simplify.fuseBlock 2) =
      greeting.simplified {} := by cbv
  have hshort : Harmless {} greeting shortGreeting := by
    rw [← helided]
    refine .emptyBlock 1 (enteredOnce_of_entersOnce (fun _ => true) 4 rfl rfl (by cbv)) ?_
    intro target htarget j b hb _
    obtain rfl : 2 = target := Option.some.inj htarget
    exact of_blocks_all (sparesDetour 1 2 (greeting.label 1)) (by cbv) hb
  have hfold : Harmless {} shortGreeting (foldedGreeting
      [.assign "x" (.literal (.string "hi")), .print (.literal (.string "hi"))]) := by
    rw [← hfolded]
    exact .constants 2 [] (fun b hb _ => of_blocks_all _ (by cbv) hb)
      fun j c hc _ => of_blocks_all _ (by cbv) hc
  have hdrop : Harmless {} (foldedGreeting
      [.assign "x" (.literal (.string "hi")), .print (.literal (.string "hi"))])
      (foldedGreeting [.print (.literal (.string "hi"))]) := by
    rw [← hdropped]
    exact .unused 2 (fun b hb => of_blocks_all _ (by cbv) hb) fun b _ =>
      covers_of_enteredOnce (fun j => enteredOnce_of_entersOnce (fun _ => true) 3 rfl rfl
        (by cbv)) _
  have hfuse : Harmless {} (foldedGreeting [.print (.literal (.string "hi"))])
      (greeting.simplified {}) := by
    rw [← hfused]
    exact .fusion 2 (enteredOnce_of_entersOnce (fun _ => true) 3 rfl rfl (by cbv))
  exact .tail (.tail (.tail (.single hshort) hfold) hdrop) hfuse

/-- The report on the program is clean, simplified or not. -/
theorem verify_agrees_greeting :
    greeting.validate = .ok () ∧ greeting.UniqueNames ∧
      Relation.ReflTransGen (Harmless {}) greeting (greeting.simplified {}) ∧
      ∃ plain simple g₁ g₂, verify { simplify := .disabled } greeting = (.ok plain, g₁) ∧
        verify {} greeting = (.ok simple, g₂) ∧ plain.search.truncated = false ∧
        simple.search.truncated = false ∧
        (simple.isClean = true ↔ FreeOfMistakenTests {} greeting ∧ plain.isClean = true) := by
  have hvalid : greeting.validate = .ok () := by cbv
  have hnames : greeting.UniqueNames := FlowGraph.uniqueNames_of_nodup (by decide)
  have hoff : Reports { simplify := .disabled } greeting true := reports_of_eval (by cbv)
  have hon : Reports {} greeting true := reports_of_eval (by cbv)
  obtain ⟨plain, g₁, hplain, hcomplete, -⟩ := hoff
  obtain ⟨simple, g₂, hsimple, -, -⟩ := hon
  obtain ⟨hcomplete', hclean⟩ :=
    (verify_agrees {} hvalid hnames hplain hsimple).2 hcomplete harmless_greeting
  exact ⟨hvalid, hnames, harmless_greeting, plain, simple, g₁, g₂, hplain, hsimple, hcomplete,
    hcomplete', hclean⟩

/-! ## Where reports differ -/

open Simplify

/-- The simplifier reports what it comes to know while it works through its list. -/
theorem outcome_run_of_drain {g : FlowGraph} {cap : Nat} {passes : List Pass} {stats : Stats}
    {w : Workspace} (hpasses : passes.isEmpty = false)
    (h : outcome (drain cap passes cap (initialQueue g) {}) { graph := g } = (.ok stats, w))
    (hvalid : w.graph.validate = .ok ()) :
    ∃ log, outcome (run cap passes) { graph := g } = (.ok stats, ⟨w.graph, log⟩) ∧
      log.has .error = w.log.has .error := by
  -- the records of the passes are no errors, and leave the graph alone
  have hrecords : ∀ (event : Pass → Event), (∀ pass, (event pass).kind ≠ .error) → ∀ g log,
      ∃ log', outcome (ForIn.forIn passes PUnit.unit fun pass _ => do
        Transform.record (event pass)
        pure (ForInStep.yield PUnit.unit)) ⟨g, log⟩ = (.ok PUnit.unit, ⟨g, log'⟩) ∧
        log'.has .error = log.has .error := by
    intro event hkind g log
    have hsilent : Silent (ForIn.forIn passes PUnit.unit fun pass _ => do
        Transform.record (event pass)
        pure (ForInStep.yield PUnit.unit)) :=
      .forIn fun pass => (Silent.record _).bind fun _ => .pure _
    have hoblivious : Oblivious False (ForIn.forIn passes PUnit.unit fun pass _ => do
        Transform.record (event pass)
        pure (ForInStep.yield PUnit.unit)) :=
      .forIn fun pass _ => (Oblivious.record fun hk => absurd hk (hkind pass)).bind fun _ => .pure _
    obtain ⟨_, w', hrun, rfl⟩ := hsilent ⟨g, log⟩
    exact ⟨w'.log, hrun, hoblivious.has_error hrun⟩
  obtain ⟨log₁, hstart, herror₁⟩ := hrecords (fun pass =>
    { kind := .passStarted, message := pass.description, pass := some pass.name }) (by simp) g
    .empty
  obtain ⟨log₂, hdrain, herror₂⟩ := (Oblivious.drain cap passes cap _ _).of_empty h log₁
  obtain ⟨log₃, hend, herror₃⟩ := hrecords (fun pass =>
    { kind := .passCompleted
      message := s!"{stats.changes} changes in {stats.visits} visits"
      pass := some pass.name }) (by simp) w.graph log₂
  have hgraph : outcome Transform.graph ⟨g, log₁⟩ = (.ok g, ⟨g, log₁⟩) := rfl
  have hcheck : outcome checkValid ⟨w.graph, log₂⟩ = (.ok (), ⟨w.graph, log₂⟩) := by
    have hgraph : outcome Transform.graph ⟨w.graph, log₂⟩ = (.ok w.graph, ⟨w.graph, log₂⟩) := rfl
    rw [checkValid, outcome_bind_ok hgraph, hvalid]
    rfl
  refine ⟨log₃, ?_, by rw [herror₃, herror₂, herror₁, Log.has_empty, Bool.false_or]⟩
  rw [run, if_neg (by simp [hpasses]), outcome_bind_ok hstart, outcome_bind_ok hgraph,
    outcome_bind_ok hdrain, outcome_bind_ok hcheck, outcome_bind_ok hend]
  rfl

/-- Of the analyses, the search alone. -/
def searchOnly (simplify : SimplifySettings) : Settings where
  simplify
  search := { eliminateDeadCode := false }
  validateTermination := false

/-- Simplification makes a difference to the report on a program: `clean` says whether the one
on the program as it is is clean. -/
structure Disagrees (g : FlowGraph) (clean : Bool) : Prop where
  valid : g.validate = .ok ()
  names : g.UniqueNames
  plain : Reports (searchOnly .disabled) g clean
  simple : Reports (searchOnly {}) g (!clean)

/-- Do the searches of a program and of what the simplifier makes of it come to different ends,
and does the simplifier report no mistaken test? -/
def searchesDisagree (g : FlowGraph) (n : Nat) (mistaken : Bool) : Bool :=
  let w := ((simplify {}).runOn { graph := g }).2
  !w.log.has .error && (LoopForest.ofGraph g).toOption.isSome &&
    (LoopForest.ofGraph w.graph).toOption.isSome &&
    searchMeetsMistake? g (searchOnly {}).search n == some mistaken &&
    searchMeetsMistake? w.graph (searchOnly {}).search n == some !mistaken

theorem disagrees_of_searches {g : FlowGraph} (n : Nat) (mistaken : Bool)
    (hvalid : g.validate = .ok ()) (hdistinct : (g.blocks.map fun (_, b) => b.name).Nodup)
    (h : searchesDisagree g n mistaken = true) : Disagrees g (!mistaken) := by
  have hnames := FlowGraph.uniqueNames_of_nodup hdistinct
  simp only [searchesDisagree, Bool.and_eq_true, Bool.not_eq_true', beq_iff_eq] at h
  obtain ⟨⟨⟨⟨htests, hloops⟩, hloops'⟩, hplain⟩, hsimple⟩ := h
  have hproper : Proper g := ⟨FlowGraph.validate_iff.1 hvalid, hnames⟩
  refine ⟨hvalid, hnames, ?_, ?_⟩
  · have hnone : g.hasMistakenTest .disabled = false := Log.has_empty _
    exact reports_of_search (s := searchOnly .disabled) hproper hnone hloops hplain rfl rfl rfl
  · have hsame := reports_of_search (s := searchOnly {}) hproper htests hloops' hsimple rfl rfl rfl
    rwa [Bool.false_or] at hsame

/-- A mistake: the variable is not declared. -/
def misuse : Instruction := .print (.var "?")

/-! ### Tests that are made, or not made, by simplification -/

/-- A test between constants of different types that no path comes to. -/
def unreachable : FlowGraph where
  slots := #[
    some { name := "a", predecessors := [1] },
    some {
      name := "b"
      terminator := .branch ⟨.literal (.number Double.one), .lt, .literal (.string "t")⟩ 0 2 },
    some { name := "c", predecessors := [1] }]
  first := some 0

/-- A branch on an undeclared variable, one side of which is empty and leads to the
other. -/
def untested : FlowGraph where
  slots := #[
    some { name := "a", terminator := .branch ⟨.var "x", .eq, .literal (.string "t")⟩ 1 2 },
    some { name := "b", terminator := .jump 2, predecessors := [0] },
    some { name := "c", predecessors := [0, 1] }]
  first := some 0

theorem simplify_unreachable : ∃ stats w,
    outcome (simplify {}) { graph := unreachable } = (.ok stats, w) ∧
      w.graph = unreachable ∧ w.log.has .error = true := by
  have hqueue : initialQueue unreachable = [0, 1, 2] := by cbv
  obtain ⟨stats, message, hdrain⟩ : ∃ stats message,
      outcome (drain 10000 (Pass.enabled {}) 10000 [0, 1, 2] {}) { graph := unreachable } =
        (.ok stats, ⟨unreachable, Log.empty.recordOnce .error "b" none message⟩) :=
    ⟨_, _, rfl⟩
  rw [← hqueue] at hdrain
  obtain ⟨log, hrun, hlog⟩ := outcome_run_of_drain rfl hdrain (show unreachable.validate = _ by cbv)
  exact ⟨stats, _, hrun, rfl, by simpa using hlog⟩

theorem disagrees_unreachable : Disagrees unreachable true := by
  obtain ⟨stats, w, hsimplify, hgraph, htests⟩ := simplify_unreachable
  have hvalid : unreachable.validate = .ok () := by cbv
  have hnames : unreachable.UniqueNames := FlowGraph.uniqueNames_of_nodup (by decide)
  have hsame : unreachable.simplified {} = unreachable :=
    (congrArg (·.2.graph) hsimplify).trans hgraph
  have htests : unreachable.hasMistakenTest {} = true :=
    (congrArg (·.2.log.has .error) hsimplify).trans htests
  have hmeets : searchMeetsMistake? unreachable (searchOnly {}).search 2 = some false := by cbv
  have hloops : (LoopForest.ofGraph unreachable).toOption.isSome = true := by cbv
  rw [← hsame] at hmeets hloops
  exact ⟨hvalid, hnames, reports_of_eval (by cbv),
    reports_of_search (s := searchOnly {}) ⟨FlowGraph.validate_iff.1 hvalid, hnames⟩ htests hloops
      hmeets rfl rfl rfl⟩

/-! ### Constants -/

/-- A difference that is no number.  The search takes it for any number. -/
def indeterminate : FlowGraph where
  slots := #[
    some {
      name := "a"
      body := [
        .evaluate "x" .sub (.literal (.number .infinity)) (.literal (.number .infinity)),
        .declare "y" .string, .input "y"]
      terminator := .branch ⟨.var "y", .eq, .literal (.string "")⟩ 1 2 },
    some { name := "b", body := [.print (.var "y")], terminator := .jump 2, predecessors := [0] },
    some {
      name := "c"
      terminator := .branch ⟨.var "x", .eq, .literal (.number .one)⟩ 3 4
      predecessors := [0, 1] },
    some { name := "d", body := [misuse], predecessors := [2] },
    some { name := "e", predecessors := [2] }]
  first := some 0

/-- A test of something that is no number.  The search decides that it fails. -/
def unordered : FlowGraph where
  slots := #[
    some {
      name := "a"
      terminator := .branch ⟨.literal (.number .nan), .ne, .literal (.number .nan)⟩ 1 2 },
    some { name := "b", body := [misuse], predecessors := [0] },
    some { name := "c", predecessors := [0] }]
  first := some 0

/-- A constant is copied.  The search knows that the copy equals the original. -/
def copied : FlowGraph where
  slots := #[
    some {
      name := "a"
      body := [
        .declare "z" .string, .input "z", .assign "x" (.literal (.string "t")),
        .assign "y" (.var "x")]
      terminator := .branch ⟨.var "z", .eq, .literal (.string "")⟩ 1 2 },
    some { name := "b", body := [.print (.var "z")], terminator := .jump 2, predecessors := [0] },
    some {
      name := "c"
      terminator := .branch ⟨.var "x", .lt, .var "z"⟩ 3 5
      predecessors := [0, 1] },
    some {
      name := "d"
      terminator := .branch ⟨.var "y", .lt, .var "z"⟩ 5 4
      predecessors := [2] },
    some { name := "e", body := [misuse], predecessors := [3] },
    some { name := "f", predecessors := [2, 3] }]
  first := some 0

/-- A constant is compared with a variable.  The search knows that the same test holds when it
is made again. -/
def compared : FlowGraph where
  slots := #[
    some {
      name := "a"
      body := [.declare "y" .string, .input "y", .assign "x" (.literal (.string "t"))]
      terminator := .branch ⟨.var "x", .lt, .var "y"⟩ 1 3 },
    some {
      name := "b"
      terminator := .branch ⟨.var "x", .lt, .var "y"⟩ 3 2
      predecessors := [0] },
    some { name := "c", body := [misuse], predecessors := [1] },
    some { name := "d", predecessors := [0, 1] }]
  first := some 0

/-- A variable is pushed, declared anew and popped.  The search gives it back its old type. -/
def restored : FlowGraph where
  slots := #[
    some {
      name := "a"
      body := [
        .assign "x" (.literal (.string "t")), .push (.var "x"), .declare "x" .double,
        .pop (some "x"), .print (.var "x")] }]
  first := some 0

/-! ### Unused variables -/

/-- An unread variable is given a value of another type. -/
def retyped : FlowGraph where
  slots := #[
    some { name := "a", body := [.declare "x" .double, .assign "x" (.literal (.string "t"))] }]
  first := some 0

/-- A loop that defines an unread variable.  A path that comes back to `b` without it is cut,
since the search takes it to show nothing new. -/
def retraced : FlowGraph where
  slots := #[
    some {
      name := "a"
      body := [.input "x", .input "y"]
      terminator := .branch ⟨.var "x", .le, .var "y"⟩ 1 4 },
    some {
      name := "b"
      terminator := .branch ⟨.var "x", .le, .var "y"⟩ 2 3
      predecessors := [0, 2] },
    some {
      name := "c"
      body := [.assign "u" (.literal (.string "t")), .input "x"]
      terminator := .jump 1
      predecessors := [1] },
    some { name := "d", body := [misuse], predecessors := [1] },
    some { name := "e", predecessors := [0] }]
  first := some 0

/-! ### Blocks that are gone -/

/-- Both ways round the loop lead through the empty block `g`, at which `x` is widened. -/
def roundabout : FlowGraph where
  slots := #[
    some { name := "a", body := [.assign "x" (.literal (.string "m"))], terminator := .jump 1 },
    some {
      name := "b"
      terminator := .branch ⟨.var "x", .lt, .literal (.string "c")⟩ 2 3
      predecessors := [0, 6] },
    some { name := "c", body := [misuse], predecessors := [1] },
    some {
      name := "d"
      terminator := .branch ⟨.var "x", .lt, .literal (.string "z")⟩ 4 5
      predecessors := [1] },
    some {
      name := "e"
      body := [.assign "x" (.literal (.string "z"))]
      terminator := .jump 6
      predecessors := [3] },
    some {
      name := "f"
      body := [.assign "x" (.literal (.string "n"))]
      terminator := .jump 6
      predecessors := [3] },
    some { name := "g", terminator := .jump 1, predecessors := [4, 5] }]
  first := some 0

/-- Two calls of a function, which return to the empty block `b` and to the one after it.  The
search keeps the two calls apart by where they return. -/
def calledTwice : FlowGraph where
  slots := #[
    some {
      name := "a"
      body := [
        .assign "i" (.literal (.string "")), .assign "x" (.literal (.string "m")), .pushState "b"]
      terminator := .jump 5 },
    some { name := "b", terminator := .jump 2 },
    some {
      name := "c"
      terminator := .branch ⟨.var "i", .eq, .literal (.string "")⟩ 3 4
      predecessors := [1] },
    some {
      name := "d"
      body := [
        .assign "i" (.literal (.string "t")), .assign "x" (.literal (.string "q")), .pushState "c"]
      terminator := .jump 5
      predecessors := [2] },
    some { name := "e", predecessors := [2] },
    some {
      name := "f"
      terminator := .branch ⟨.var "x", .gt, .literal (.string "t")⟩ 6 7
      predecessors := [0, 3]
      function := some 0 },
    some {
      name := "g"
      body := [misuse]
      terminator := .jump 7
      predecessors := [5]
      function := some 0 },
    some {
      name := "h"
      terminator := .ret none
      predecessors := [5, 6]
      function := some 0
      isExit := true }]
  functions := #[{ name := "f", entry := some 5, exit := some 7 }]
  first := some 0

/-- A loop that comes back to `b`, where `i` is set again.  A path that comes back to `c` is cut,
since the search takes it to show nothing new. -/
def rejoined : FlowGraph where
  slots := #[
    some {
      name := "a"
      body := [.input "x", .input "y", .assign "i" (.literal (.string ""))]
      terminator := .branch ⟨.var "x", .le, .var "y"⟩ 1 5 },
    some {
      name := "b"
      body := [.assign "i" (.literal (.string ""))]
      terminator := .jump 2
      predecessors := [0, 3] },
    some {
      name := "c"
      terminator := .branch ⟨.var "x", .le, .var "y"⟩ 3 4
      predecessors := [1] },
    some {
      name := "d"
      body := [.assign "i" (.literal (.string "t")), .input "x"]
      terminator := .jump 1
      predecessors := [2] },
    some { name := "e", body := [misuse], predecessors := [2] },
    some { name := "f", body := [.print (.var "i")], predecessors := [0] }]
  first := some 0

/-- **Simplification may hide a mistake, and it may invent one.**  For each kind of change that
is not harmless there is a program with distinct names that is valid, but whose report differs
from that on the simplified program, although no search is cut short. -/
theorem verify_disagrees :
    Disagrees unreachable true ∧ Disagrees untested false ∧
      Disagrees indeterminate false ∧ Disagrees unordered true ∧
      Disagrees copied true ∧ Disagrees compared true ∧ Disagrees restored true ∧
      Disagrees retyped false ∧ Disagrees retraced false ∧
      Disagrees roundabout false ∧ Disagrees calledTwice true ∧ Disagrees rejoined true :=
  -- the searches of the programs are evaluated one after the other
  ⟨disagrees_unreachable,
    disagrees_of_searches 4 true (by cbv) (by decide) (by cbv),
    disagrees_of_searches 30 true (by cbv) (by decide) (by cbv),
    disagrees_of_searches 4 false (by cbv) (by decide) (by cbv),
    disagrees_of_searches 12 false (by cbv) (by decide) (by cbv),
    disagrees_of_searches 6 false (by cbv) (by decide) (by cbv),
    disagrees_of_searches 2 false (by cbv) (by decide) (by cbv),
    disagrees_of_searches 2 true (by cbv) (by decide) (by cbv),
    disagrees_of_searches 30 true (by cbv) (by decide) (by cbv),
    disagrees_of_searches 17 true (by cbv) (by decide) (by cbv),
    disagrees_of_searches 60 false (by cbv) (by decide) (by cbv),
    disagrees_of_searches 30 false (by cbv) (by decide) (by cbv)⟩

end FlowVerifier
